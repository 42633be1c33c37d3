import OSProjects.Foundation.StepSystem
import OSProjects.Scheduler.Steps

/-!
# Work conservation

The scan of `scheduler` starts from a priority value of 50000. As long as every value stays
below it, a runnable process is found, and one with the least value.
-/

namespace OSProjects.Scheduler

open LeastScan StepSystem

/-! ## The scan -/

theorem zero_lt_highestPriority : (0 : Int) < highestPriority := by decide

section Scan

variable {procs : Fin nProc → Proc} {p : Fin nProc}

theorem select_eq_none :
    select procs = none ↔ ∀ p, (procs p).state = .runnable → highestPriority ≤ (procs p).priority :=
  leastScan_eq_none.trans ⟨fun h p => h p (List.mem_finRange p), fun h p _ => h p⟩

/-- The selected process is runnable and has the least value. -/
theorem select_eq_some (h : select procs = some p) :
    (procs p).state = .runnable ∧
      ∀ q, (procs q).state = .runnable → (procs p).priority ≤ (procs q).priority := by
  obtain ⟨hp, -, hleast, -⟩ := leastScan_eq_some h
  exact ⟨hp, fun q => hleast q (List.mem_finRange q)⟩

/-- A single runnable process below the bound is selected. -/
theorem select_single (hp : (procs p).state = .runnable)
    (hlt : (procs p).priority < highestPriority) (hq : ∀ q, q ≠ p → (procs q).state ≠ .runnable) :
    select procs = some p := by
  cases h : select procs with
  | none => exact absurd (select_eq_none.mp h p hp) (not_le.mpr hlt)
  | some q =>
      by_contra hne
      exact hq q (fun heq => hne (congrArg some heq)) (select_eq_some h).1

end Scan

/-- If a process is runnable then one is dispatched, and its priority value is the least. -/
def Conserving {C : Type} (k : Kernel C) : Prop :=
  (∃ p, (k.procs p).state = .runnable) →
    ∃ p, select k.procs = some p ∧ (k.procs p).state = .runnable ∧
      ∀ q, (k.procs q).state = .runnable → (k.procs p).priority ≤ (k.procs q).priority

/-- The step does not raise a priority value to 50000. -/
def Timely {C : Type} (k : Kernel C) : Act C → Prop
  | .tick => (k.ticks + 1) % 2 ^ 32 % 100 = 0 → ∀ p, (k.procs p).state ≠ .unused →
      (decay (k.procs p).cpuTicks).tdiv 2 + (k.procs p).niceValue < highestPriority
  | _ => True

/-- Every priority value is below that from which the scan starts. -/
def Bounded {C : Type} (k : Kernel C) : Prop := ∀ p, (k.procs p).priority < highestPriority

theorem Bounded.conserving {C : Type} {k : Kernel C} (h : Bounded k) : Conserving k := by
  rintro ⟨p, hp⟩
  cases hs : select k.procs with
  | none => exact absurd (select_eq_none.mp hs p hp) (not_le.mpr (h p))
  | some q => exact ⟨q, rfl, select_eq_some hs⟩

/-! ## What a step does to priorities -/

/-- No priority value changes, except to 0. -/
def KeepsPriority (procs procs' : Fin nProc → Proc) : Prop :=
  ∀ p, (procs' p).priority = (procs p).priority ∨ (procs' p).priority = 0

theorem KeepsPriority.wakeup2 (procs : Fin nProc → Proc) (ticks : Nat) :
    KeepsPriority procs (wakeup2 procs ticks) := by
  intro p
  rw [Scheduler.wakeup2]
  split <;> exact Or.inl rfl

section Steps

variable {C : Type} [DecidableEq C] {k k' : Kernel C} {a : Act C}

/-- Only the clock raises a priority value. -/
theorem Acts.keepsPriority (h : Acts k a k') (ha : a ≠ .tick) :
    KeepsPriority k.procs k'.procs := by
  intro p
  have htouch := h.touch ha p
  generalize k'.procs p = y at htouch ⊢
  cases htouch with
  | bystander hy =>
      obtain ⟨parent, state, killed, rfl, -⟩ := hy
      exact Or.inl rfl
  | dispatched => exact Or.inl rfl
  | yielded => exact Or.inl rfl
  | called _ _ hpriority => exact Or.inl hpriority
  | allocated _ _ _ hpriority =>
      rw [hpriority]
      split
      · exact Or.inl rfl
      · exact Or.inr rfl
  | reaped => exact Or.inl rfl

omit [DecidableEq C] in
theorem Bounded.keeps (h : Bounded k) (hkeep : KeepsPriority k.procs k'.procs) : Bounded k' := by
  intro p
  rcases hkeep p with hp | hp
  · rw [hp]
    exact h p
  · rw [hp]
    exact zero_lt_highestPriority

theorem Bounded.step (h : Bounded k) (htimely : Timely k a) (hstep : Acts k a k') :
    Bounded k' := by
  by_cases ha : a = .tick
  · subst ha
    obtain rfl := Option.some.inj hstep
    intro p
    have hkeep := KeepsPriority.wakeup2
      (if (k.ticks + 1) % 2 ^ 32 % 100 = 0 then updatePriority k.procs else k.procs)
      ((k.ticks + 1) % 2 ^ 32) p
    have hupdate : ((if (k.ticks + 1) % 2 ^ 32 % 100 = 0 then updatePriority k.procs
        else k.procs) p).priority < highestPriority := by
      split
      case isTrue hticks =>
        rw [updatePriority, Proc.update]
        split
        case isTrue hused => exact htimely hticks p hused
        case isFalse => exact h p
      case isFalse => exact h p
    rcases hkeep with hp | hp
    · exact hp ▸ hupdate
    · exact hp.trans_lt zero_lt_highestPriority
  · exact h.keeps (hstep.keepsPriority ha)

end Steps

/-! ## A busy process -/

def unusedProc : Proc := ⟨.unused, 0, none, none, false, 0, 0, 0, 0, 0⟩

/-- A single processor and a table with one process. -/
def alone (x : Proc) (current : Option (Fin nProc)) (t : Nat) : Kernel Unit where
  procs := Function.update (fun _ => unusedProc) 0 x
  current := fun _ => current
  ticks := t
  nextpid := 2
  initproc := 0

section Alone

variable {x : Proc} {current : Option (Fin nProc)} {t : Nat}

@[simp] theorem alone_self : (alone x current t).procs 0 = x := by simp [alone]

theorem alone_of_ne {q : Fin nProc} (hq : q ≠ 0) : (alone x current t).procs q = unusedProc := by
  simp [alone, hq]

@[simp] theorem alone_setProc (y : Proc) :
    (alone x current t).setProc 0 y = alone y current t := by
  simp [alone, Kernel.setProc]

theorem alone_dispatch (hx : x.state = .runnable) (hlt : x.priority < highestPriority) :
    Acts (alone x none t) (.dispatch () 0) (alone { x with
      state := .running
      chan := none
      cpuTicks := int32 (x.cpuTicks + 1)
      execTicks := int32 (x.execTicks + 1) } (some 0) t) := by
  have hselect : select (alone x none t).procs = some 0 := by
    refine select_single ?_ ?_ fun q hq => ?_
    · rwa [alone_self]
    · rwa [alone_self]
    · rw [alone_of_ne hq]
      decide
  have hacts := acts_dispatch (show (alone x none t).current () = none from rfl) hselect
  rw [Kernel.dispatch] at hacts
  simp only [alone_setProc, alone_self] at hacts
  exact hacts

theorem alone_yield :
    Acts (alone x (some 0) t) (.yield ()) (alone { x with state := .runnable } none t) := by
  rw [Acts, Kernel.act]
  simp only [alone, Option.map_some, Kernel.yield, Kernel.setProc, Kernel.leave,
    Function.update_self, Function.update_idem, Option.some.injEq]
  rfl

theorem alone_sleep (chan : Chan) :
    Acts (alone x (some 0) t) (.sleep () chan)
      (alone { x with chan := some chan, state := .sleeping } none t) := by
  rw [Acts, Kernel.act]
  simp only [alone, Option.map_some, Kernel.sleep, Kernel.setProc, Kernel.leave,
    Function.update_self, Function.update_idem, Option.some.injEq]
  rfl

theorem alone_wakeup {chan : Chan} (hx : x.state = .sleeping) (hchan : x.chan = some chan) :
    Acts (alone x current t) (.wakeup chan) (alone { x with state := .runnable } current t) := by
  have hprocs : wakeup1 (alone x current t).procs (some chan) =
      (alone { x with state := .runnable } current t).procs := by
    ext1 q
    rcases eq_or_ne q 0 with rfl | hq
    · rw [wakeup1, alone_self, alone_self, if_pos ⟨hx, hchan⟩]
    · rw [wakeup1, alone_of_ne hq, alone_of_ne hq, if_neg (by simp [unusedProc])]
  rw [Acts, Kernel.act, hprocs]
  rfl

theorem alone_tick (hx : x.state ≠ .sleeping) :
    Acts (alone x current t) .tick
      (alone (if (t + 1) % 2 ^ 32 % 100 = 0 then x.update else x) current
        ((t + 1) % 2 ^ 32)) := by
  have hprocs : ∀ y : Proc, y.state ≠ .sleeping →
      wakeup2 (alone y current t).procs ((t + 1) % 2 ^ 32) = (alone y current t).procs := by
    intro y hy
    ext1 q
    rcases eq_or_ne q 0 with rfl | hq
    · rw [wakeup2, alone_self, if_neg fun h => hy h.1]
    · rw [wakeup2, alone_of_ne hq, if_neg (by simp [unusedProc])]
  have hupdate : updatePriority (alone x current t).procs = (alone x.update current t).procs := by
    ext1 q
    rcases eq_or_ne q 0 with rfl | hq
    · rw [updatePriority, alone_self, alone_self]
    · rw [updatePriority, alone_of_ne hq, alone_of_ne hq]
      rfl
  rw [Acts, Kernel.act, Option.some.injEq, Kernel.tick]
  have hticks : (alone x current t).ticks = t := rfl
  rw [hticks]
  by_cases h100 : (t + 1) % 2 ^ 32 % 100 = 0
  · have hstate : x.update.state ≠ .sleeping := by
      rw [Proc.update]
      split <;> exact hx
    simp only [if_pos h100, hupdate, hprocs _ hstate]
    rfl
  · simp only [if_neg h100, hprocs _ hx]
    rfl

end Alone

/-- The first process after `n` dispatches. -/
def diskReader (n : Nat) (chan : Option Chan) : Proc :=
  ⟨.runnable, 1, none, chan, false, n, 0, 0, 0, n⟩

theorem int32_of_lt {n : Nat} (h : n < 2 ^ 31) : int32 n = n := by
  rw [int32]
  omega

/-- The process sleeps for a disk block until the interrupt handler wakes it. -/
theorem run_diskRead {n : Nat} (chan : Option Chan) (h : n + 1 < 2 ^ 31) :
    Run Acts (alone (diskReader n chan) none 0)
      [.dispatch () 0, .sleep () (.other 0), .wakeup (.other 0)]
      (alone (diskReader (n + 1) (some (.other 0))) none 0) := by
  have hticks : int32 ((n : Int) + 1) = ((n + 1 : Nat) : Int) := int32_of_lt h
  have hdispatch := alone_dispatch (x := diskReader n chan) (t := 0) rfl zero_lt_highestPriority
  have hwakeup := @alone_wakeup ⟨.sleeping, 1, none, some (.other 0), false, (n + 1 : Nat), 0,
    0, 0, (n + 1 : Nat)⟩ none 0 _ rfl rfl
  have hsleep := alone_sleep (x := ⟨.running, 1, none, none, false, (n + 1 : Nat), 0, 0, 0,
    (n + 1 : Nat)⟩) (t := 0) (.other 0)
  simp only [diskReader, hticks] at hdispatch
  exact ((Run.single hdispatch).concat hsleep).concat hwakeup

/-- There is no bound on the number of dispatches between two ticks. -/
theorem exists_run_diskReads {n : Nat} (h : n < 2 ^ 31) :
    ∃ acts chan, Run Acts (boot Unit) acts (alone (diskReader n chan) none 0) := by
  induction n with
  | zero => exact ⟨[], none, Run.nil⟩
  | succ n ih =>
      obtain ⟨acts, chan, hrun⟩ := ih (by omega)
      exact ⟨_, _, hrun.append (run_diskRead chan h)⟩

/-- The ticks up to the first update. -/
theorem run_ticks {x : Proc} (hx : x.state ≠ .sleeping) {current : Option (Fin nProc)} {t : Nat}
    (ht : t < 100) : Run (fun k a k' => Acts k a k' ∧ Timely k a) (alone x current 0)
      (List.replicate t .tick) (alone x current t) := by
  induction t with
  | zero => exact Run.nil
  | succ t ih =>
      have hword : (t + 1) % 2 ^ 32 = t + 1 := Nat.mod_eq_of_lt (by omega)
      have hdue : (t + 1) % 100 ≠ 0 := by omega
      have hstep := @alone_tick x current t hx
      rw [hword, if_neg hdue] at hstep
      have htimely : Timely (alone x current t) .tick := by
        intro h100
        have hclock : (alone x current t).ticks = t := rfl
        rw [hclock, hword] at h100
        exact absurd h100 hdue
      rw [List.replicate_succ']
      exact (ih (by omega)).concat ⟨hstep, htimely⟩

/-! ## The law -/

/-- In every run in which no update raises a priority value to 50000, the scheduler is
work-conserving and picks the best value in every state. -/
theorem conserving_of_timely {C : Type} [DecidableEq C] {acts : List (Act C)} {k : Kernel C}
    (hrun : Run (fun k a k' => Acts k a k' ∧ Timely k a) (boot C) acts k) : Conserving k := by
  have hboot : Bounded (boot C) := by
    intro p
    rcases eq_or_ne p 0 with rfl | hp
    · exact zero_lt_highestPriority
    · simpa [boot, hp] using zero_lt_highestPriority
  exact (hrun.invariant (fun _ _ _ h hstep => h.step hstep.2 hstep.1) hboot).conserving

/-- The first process after boot runs up to the first update, which finds it runnable. It is
found afterwards. -/
theorem conserving_of_timely_run : ∃ k : Kernel Unit,
    Run (fun k a k' => Acts k a k' ∧ Timely k a) (boot Unit)
      ([.dispatch () 0] ++ List.replicate 99 .tick ++ [.yield ()] ++ [.tick]) k ∧
    k.ticks = 100 ∧ (k.procs 0).state = .runnable ∧
    ∃ p, select k.procs = some p ∧ (k.procs p).state = .runnable ∧
      ∀ q, (k.procs q).state = .runnable → (k.procs p).priority ≤ (k.procs q).priority := by
  have hdispatch := alone_dispatch (x := diskReader 0 none) (t := 0) rfl zero_lt_highestPriority
  have hticks := @run_ticks ⟨.running, 1, none, none, false, 1, 0, 0, 0, 1⟩ nofun (some 0) 99
    (by decide)
  have hyield := @alone_yield ⟨.running, 1, none, none, false, 1, 0, 0, 0, 1⟩ 99
  have hlast := @alone_tick ⟨.runnable, 1, none, none, false, 1, 0, 0, 0, 1⟩ none 99 nofun
  rw [if_pos (by decide)] at hlast
  have htimely : Timely (alone ⟨.runnable, 1, none, none, false, 1, 0, 0, 0, 1⟩ none 99) .tick := by
    intro _ p hp
    rcases eq_or_ne p 0 with rfl | hne
    · rw [alone_self]
      decide
    · rw [alone_of_ne hne] at hp
      exact absurd rfl hp
  have hfirst : Run (fun k a k' => Acts k a k' ∧ Timely k a) (boot Unit) [.dispatch () 0] _ :=
    Run.single ⟨hdispatch, trivial⟩
  have hrun := ((hfirst.append hticks).concat ⟨hyield, trivial⟩).concat ⟨hlast, htimely⟩
  exact ⟨_, hrun, rfl, rfl, conserving_of_timely hrun ⟨0, rfl⟩⟩

/-- A process that has been dispatched 200000 times between two ticks is runnable and is not
found. -/
theorem busy_process_starves : ¬∀ (acts : List (Act Unit)) (k : Kernel Unit),
    Run Acts (boot Unit) acts k → Conserving k := by
  intro hlaw
  obtain ⟨acts, chan, hrun⟩ := exists_run_diskReads (n := 200000) (by omega)
  have hticks := (@run_ticks (diskReader 200000 chan) nofun none 99 (by omega)).mono
    fun _ _ _ hstep => hstep.1
  have hlast := @alone_tick (diskReader 200000 chan) none 99 nofun
  rw [if_pos (by decide)] at hlast
  obtain ⟨p, hp, -⟩ := hlaw _ _ ((hrun.append hticks).concat hlast) ⟨0, rfl⟩
  have hnone : select (alone (diskReader 200000 chan).update none
      ((99 + 1) % 2 ^ 32)).procs = none := by
    rw [select_eq_none]
    intro q hq
    rcases eq_or_ne q 0 with rfl | hne
    · exact le_of_eq rfl
    · rw [alone_of_ne hne] at hq
      cases hq
  rw [hnone] at hp
  cases hp

end OSProjects.Scheduler
