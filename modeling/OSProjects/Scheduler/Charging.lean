import OSProjects.Scheduler.Sleeping

/-!
# What a process is charged

`cpu_ticks` grows with every dispatch, while the clock counts timer interrupts. On one
processor the two agree between two updates as long as the process gives the processor up at
timer interrupts only.
-/

namespace OSProjects.Scheduler

open StepSystem

/-! ## One processor -/

inductive CpuEvent
  /-- A timer interrupt, out of user mode or not. -/
  | timer (user : Bool)
  | act (a : Act Unit)

/-- `trap` for a timer interrupt: the clock, and then the process exits or yields. -/
def Kernel.timer (k : Kernel Unit) (user : Bool) : Option (Kernel Unit) :=
  let k := k.tick
  match k.current () with
  | none => some k
  | some p =>
      if (k.procs p).killed ∧ user then k.act (.exit ())
      else if (k.procs p).state = .running then k.act (.yield ())
      else some k

/-- Only `trap` yields, and only the timer moves the clock. -/
def CpuStep (k : Kernel Unit) (k' : Kernel Unit) : CpuEvent → Prop
  | .timer user => k.timer user = some k'
  | .act a => Acts k a k' ∧ a ≠ .tick ∧ a ≠ .yield ()

/-- What has happened to a process since `cpu_ticks` was set: how often a timer interrupt has
found it running, and how often it has given the processor up otherwise. -/
structure Account where
  base : Int
  interrupts : Nat
  left : Nat

/-- The next timer interrupt runs `update_priority`. -/
def Kernel.UpdateDue (k : Kernel Unit) : Prop := (k.ticks + 1) % 2 ^ 32 % 100 = 0

instance (k : Kernel Unit) : Decidable k.UpdateDue :=
  inferInstanceAs (Decidable ((k.ticks + 1) % 2 ^ 32 % 100 = 0))

/-- `fork` is about to take the slot `p` and to set its `cpu_ticks`. -/
def Kernel.Allocates (k : Kernel Unit) (p : Fin nProc) : Act Unit → Prop
  | .fork _ memory => k.findUnused = some p ∧ memory ≠ .noStack
  | _ => False

instance (k : Kernel Unit) (p : Fin nProc) (a : Act Unit) : Decidable (k.Allocates p a) := by
  cases a <;> unfold Kernel.Allocates <;> infer_instance

/-- The account of `p` after an event. -/
def Account.after (acc : Account) (p : Fin nProc) (k k' : Kernel Unit) : CpuEvent → Account
  | .timer _ =>
      if k.UpdateDue then ⟨(k'.procs p).cpuTicks, 0, 0⟩
      else if k.current () = some p then { acc with interrupts := acc.interrupts + 1 }
      else acc
  | .act a =>
      if k.Allocates p a then ⟨0, 0, 0⟩
      else if k.current () = some p ∧ k'.current () = none then { acc with left := acc.left + 1 }
      else acc

/-- A step with the account of `p`. -/
def Metered (p : Fin nProc) (s : Kernel Unit × Account) (e : CpuEvent)
    (s' : Kernel Unit × Account) : Prop :=
  CpuStep s.1 s'.1 e ∧ s'.2 = s.2.after p s.1 s'.1 e

/-- The update that is due finds a `cpu_ticks` that has grown by the number of timer interrupts
that found the process running, this one included, and makes the priority from it. -/
structure CountsTicks (p : Fin nProc) (acc : Account) (k : Kernel Unit) : Prop where
  increase : (k.procs p).cpuTicks - acc.base =
    acc.interrupts + if k.current () = some p then 1 else 0
  decayed : (k.tick.procs p).cpuTicks = (k.procs p).cpuTicks.tdiv 2
  priority : (k.tick.procs p).priority =
    ((k.procs p).cpuTicks.tdiv 2).tdiv 2 + (k.procs p).niceValue

/-! ## What a step does to `cpu_ticks` -/

section Steps

variable {k k' : Kernel Unit} {a : Act Unit} {p : Fin nProc}

theorem fork_cpuTicks {q : Fin nProc} {memory : ForkMemory} :
    ((k.fork q memory).procs p).cpuTicks =
      if k.findUnused = some p ∧ memory ≠ .noStack then 0 else (k.procs p).cpuTicks := by
  rw [Kernel.fork]
  cases hfree : k.findUnused with
  | none => simp
  | some np =>
      rcases eq_or_ne p np with rfl | hne
      · cases memory with
        | noStack => simp [Kernel.setProc]
        | noCopy => simp [Kernel.setProc, Kernel.allocproc]
        | enough => simp [Kernel.setProc, Kernel.allocproc]
      · cases memory with
        | noStack => simp [Kernel.setProc, hne]
        | noCopy => simp [Kernel.setProc, Kernel.allocproc, hne, hne.symm]
        | enough => simp [Kernel.setProc, Kernel.allocproc, hne, hne.symm]

/-- A dispatch adds one, an allocation sets 0, and nothing else but the clock matters. -/
theorem Acts.cpuTicks_eq (h : Acts k a k') (ha : a ≠ .tick) (p : Fin nProc) :
    (k'.procs p).cpuTicks =
      if a = .dispatch () p then int32 ((k.procs p).cpuTicks + 1)
      else if k.Allocates p a then 0 else (k.procs p).cpuTicks := by
  by_cases hdispatch : a = .dispatch () p
  · subst hdispatch
    simp only [Acts, Kernel.act, Option.ite_none_right_eq_some, Option.some.injEq] at h
    rw [if_pos rfl, ← h.2]
    simp [Kernel.dispatch, Kernel.setProc]
  · rw [if_neg hdispatch]
    by_cases hfork : ∃ memory, a = .fork () memory
    · obtain ⟨memory, rfl⟩ := hfork
      obtain ⟨q, -, rfl⟩ := Option.map_eq_some_iff.mp h
      exact fork_cpuTicks.trans (if_congr Iff.rfl rfl rfl)
    · have hkeep : ¬k.Allocates p a := by
        cases a with
        | fork c memory => exact absurd ⟨memory, rfl⟩ hfork
        | _ => exact id
      rw [if_neg hkeep]
      have htouch := h.touch ha p
      generalize k'.procs p = y at htouch ⊢
      cases htouch with
      | bystander hy =>
          obtain ⟨parent, state, killed, rfl, -⟩ := hy
          rfl
      | dispatched ha => exact absurd ha hdispatch
      | yielded => rfl
      | called _ _ _ hticks => exact hticks
      | allocated ha => exact absurd ⟨_, ha⟩ hfork
      | reaped => rfl

/-- The process of the processor is running. -/
def CurrentRuns (k : Kernel Unit) : Prop :=
  ∀ p, k.current () = some p → (k.procs p).state = .running

theorem CurrentRuns.act (h : CurrentRuns k) (hstep : Acts k a k') (ha : a ≠ .tick) :
    CurrentRuns k' := by
  intro p hp
  rcases hstep.current_cases () with hsame | ⟨q, rfl, hidle, hq⟩ | ⟨q, -, -, hnone, -⟩
  · have hrun := h p (hsame.symm.trans hp)
    have htouch := hstep.touch ha p
    generalize k'.procs p = y at htouch ⊢
    cases htouch with
    | bystander hy =>
        obtain ⟨parent, state, killed, rfl, hstate⟩ := hy
        rcases hstate with hstate | ⟨hsleep, -⟩
        · exact hstate.trans hrun
        · cases hsleep.symm.trans hrun
    | dispatched => rfl
    | yielded _ _ hleft => cases hleft.symm.trans hp
    | called _ _ _ _ hstate =>
        rcases hstate with hstate | ⟨-, hleft⟩
        · exact hstate.trans hrun
        · cases hleft.symm.trans hp
    | allocated _ hfree =>
        have hunused := List.find?_some hfree
        simp only [decide_eq_true_eq] at hunused
        cases hunused.symm.trans hrun
    | reaped hzombie => cases hzombie.symm.trans hrun
  · obtain rfl := Option.some.inj (hq.symm.trans hp)
    simp only [Acts, Kernel.act, Option.ite_none_right_eq_some, Option.some.injEq] at hstep
    rw [← hstep.2]
    simp [Kernel.dispatch, Kernel.setProc]
  · cases hnone.symm.trans hp

theorem tick_running (hp : (k.procs p).state = .running) : (k.tick.procs p).state = .running := by
  obtain ⟨hstate, -⟩ := clocked_eq k p
  rw [tick_procs, wakeup2, if_neg fun h => by rw [hstate, hp] at h; cases h.1]
  exact hstate.trans hp

theorem CurrentRuns.tick (h : CurrentRuns k) : CurrentRuns k.tick := fun p hp =>
  tick_running (h p hp)

/-- Only an allocation brings a slot into use. -/
theorem Acts.used (h : Acts k a k') (ha : a ≠ .tick) (hcurrent : CurrentRuns k)
    (hused : (k'.procs p).state ≠ .unused) : (k.procs p).state ≠ .unused ∨ k.Allocates p a := by
  have htouch := h.touch ha p
  generalize k'.procs p = y at htouch hused
  cases htouch with
  | bystander hy =>
      obtain ⟨parent, state, killed, rfl, rfl | ⟨hsleep, -⟩⟩ := hy
      · exact Or.inl hused
      · exact Or.inl (by rw [hsleep]; nofun)
  | dispatched _ _ hselect => exact Or.inl (by rw [(select_eq_some hselect).1]; nofun)
  | yielded _ hp => exact Or.inl (by rw [hcurrent p hp]; nofun)
  | called _ hp => exact Or.inl (by rw [hcurrent p hp]; nofun)
  | @allocated _ memory _ ha hfree hstate =>
      subst ha
      refine Or.inr ⟨hfree, ?_⟩
      rintro rfl
      exact hused hstate
  | reaped => exact absurd rfl hused

/-- The clock changes `cpu_ticks` at an update only. -/
theorem tick_cpuTicks (k : Kernel Unit) (p : Fin nProc) :
    (k.tick.procs p).cpuTicks = (k.clocked p).cpuTicks := by
  rw [tick_procs, wakeup2]
  split <;> rfl

/-- A timer interrupt ends with the processor given up. -/
theorem timer_cases {user : Bool} (h : k.timer user = some k') (hcurrent : CurrentRuns k) :
    (k.current () = none ∧ k' = k.tick) ∨
      ∃ p a, k.current () = some p ∧ (a = .yield () ∨ a = .exit ()) ∧ Acts k.tick a k' ∧
        k'.current () = none := by
  have hsame : k.tick.current () = k.current () := rfl
  rw [Kernel.timer, hsame] at h
  cases hp : k.current () with
  | none =>
      rw [hp] at h
      exact Or.inl ⟨rfl, (Option.some.inj h).symm⟩
  | some p =>
      rw [hp] at h
      dsimp only at h
      rw [if_pos (tick_running (hcurrent p hp))] at h
      split at h
      · refine Or.inr ⟨p, _, rfl, Or.inr rfl, h, ?_⟩
        obtain ⟨q, -, hexit⟩ := Option.bind_eq_some_iff.mp h
        simp only [Option.ite_none_left_eq_some, Option.some.injEq] at hexit
        rw [← hexit.2]
        simp [Kernel.exit, Kernel.leave]
      · refine Or.inr ⟨p, _, rfl, Or.inl rfl, h, ?_⟩
        obtain ⟨q, -, rfl⟩ := Option.map_eq_some_iff.mp h
        simp [Kernel.yield, Kernel.leave]

end Steps

/-! ## The account of a process -/

theorem int32_range (z : Int) : -2 ^ 31 ≤ int32 z ∧ int32 z < 2 ^ 31 := by
  rw [int32]
  omega

theorem int32_add (y z : Int) : int32 (int32 y + z) = int32 (y + z) := by
  simp only [int32]
  omega

theorem int32_of_range {z : Int} (h : -2 ^ 31 ≤ z) (h' : z < 2 ^ 31) : int32 z = z := by
  rw [int32]
  omega

theorem decay_range {z : Int} (h : -2 ^ 31 ≤ z) (h' : z < 2 ^ 31) :
    -2 ^ 30 ≤ decay z ∧ decay z ≤ 2 ^ 30 := by
  rw [decay]
  rcases le_total 0 z with hz | hz
  · rw [Int.tdiv_eq_ediv_of_nonneg hz]
    omega
  · have hneg : z.tdiv 2 = -((-z) / 2) := by
      rw [← Int.tdiv_eq_ediv_of_nonneg (by omega : 0 ≤ -z), Int.neg_tdiv, Int.neg_neg]
    rw [hneg]
    omega

/-- All that `p` has been charged since its base. -/
def Account.total (acc : Account) (p : Fin nProc) (k : Kernel Unit) : Int :=
  acc.base + acc.interrupts + acc.left + if k.current () = some p then 1 else 0

/-- The account of `p` is right: each dispatch has been ended by an interrupt or otherwise, or
is going on. -/
structure Metering (p : Fin nProc) (s : Kernel Unit × Account) : Prop where
  runs : CurrentRuns s.1
  word : s.1.ticks < 2 ^ 32
  few : s.2.interrupts ≤ s.1.ticks % 100
  small : (s.1.procs p).state ≠ .unused → -2 ^ 30 ≤ s.2.base ∧ s.2.base ≤ 2 ^ 30
  count : (s.1.procs p).cpuTicks = int32 (s.2.total p s.1)

section Metered

variable {k k' : Kernel Unit} {acc : Account} {a : Act Unit} {p : Fin nProc} {user : Bool}

/-- What a step other than a tick does to the account. -/
theorem Account.after_act (h : CurrentRuns k) (hstep : Acts k a k') (ha : a ≠ .tick)
    (acc : Account) (p : Fin nProc) :
    (k.Allocates p a ∧ acc.after p k k' (.act a) = ⟨0, 0, 0⟩ ∧ k'.current () ≠ some p) ∨
      (¬k.Allocates p a ∧ (acc.after p k k' (.act a)).base = acc.base ∧
        (acc.after p k k' (.act a)).interrupts = acc.interrupts ∧
          (acc.after p k k' (.act a)).total p k' =
            acc.total p k + if a = .dispatch () p then 1 else 0) := by
  by_cases hfork : k.Allocates p a
  · refine Or.inl ⟨hfork, if_pos hfork, fun hp => ?_⟩
    -- The slot is free, so it is not that of the processor.
    have hunused : (k.procs p).state = .unused := by
      cases a with
      | fork c memory =>
          have hfree := List.find?_some hfork.1
          simpa using hfree
      | _ => exact hfork.elim
    rcases hstep.current_cases () with hsame | ⟨q, rfl, -⟩ | ⟨q, -, -, hnone, -⟩
    · cases hunused.symm.trans (h p (hsame.symm.trans hp))
    · exact hfork
    · cases hnone.symm.trans hp
  · refine Or.inr ⟨hfork, ?_⟩
    have hafter : acc.after p k k' (.act a) =
        if k.current () = some p ∧ k'.current () = none then { acc with left := acc.left + 1 }
        else acc := if_neg hfork
    rw [hafter]
    rcases hstep.current_cases () with hsame | ⟨q, rfl, hidle, hq⟩ | ⟨q, hleave, hq, hnone, -⟩
    · have hdispatch : a ≠ .dispatch () p := by
        rintro rfl
        simp only [Acts, Kernel.act, Option.ite_none_right_eq_some, Option.some.injEq] at hstep
        rw [← hstep.2, hstep.1.1] at hsame
        simp [Kernel.dispatch] at hsame
      have hstay : ¬(k.current () = some p ∧ k'.current () = none) := by
        rw [hsame]
        rintro ⟨hp, hnone⟩
        cases hp.symm.trans hnone
      rw [if_neg hstay, if_neg hdispatch, Account.total, Account.total, hsame, Int.add_zero]
      exact ⟨rfl, rfl, rfl⟩
    · have hstay : ¬(k.current () = some p ∧ k'.current () = none) := by
        rw [hidle]
        exact fun hp => by cases hp.1
      rw [if_neg hstay, Account.total, Account.total, hidle, hq]
      refine ⟨rfl, rfl, ?_⟩
      rcases eq_or_ne q p with rfl | hne
      · simp
      · simp [hne]
    · have hdispatch : a ≠ .dispatch () p := by
        rintro rfl
        rcases hleave with hleave | hleave
        · cases hleave
        · cases hleave
      rw [if_neg hdispatch, Account.total, Account.total, hq, hnone]
      rcases eq_or_ne q p with rfl | hne
      · rw [if_pos ⟨rfl, rfl⟩]
        refine ⟨rfl, rfl, ?_⟩
        simp only [Int.natCast_add, Int.natCast_one, if_true, if_neg (Option.some_ne_none q).symm]
        omega
      · have hother : ¬(some q = some p ∧ (none : Option (Fin nProc)) = none) := by simp [hne]
        rw [if_neg hother]
        refine ⟨rfl, rfl, ?_⟩
        simp [hne]

theorem Metering.act (h : Metering p (k, acc)) (hstep : Acts k a k') (ha : a ≠ .tick) :
    Metering p (k', acc.after p k k' (.act a)) := by
  have hticks := hstep.ticks_eq ha
  have hcpu := hstep.cpuTicks_eq ha p
  have hcount := h.count
  have hfew := h.few
  dsimp only at hcount hfew
  rcases Account.after_act h.runs hstep ha acc p with ⟨hfork, hzero, hcurrent⟩ |
    ⟨hfork, hbase, hinterrupts, htotal⟩
  · refine ⟨h.runs.act hstep ha, hticks.trans_lt h.word, ?_, fun _ => ?_, ?_⟩
    · rw [hzero]
      exact Nat.zero_le _
    · rw [hzero]
      dsimp only
      omega
    · have hdispatch : a ≠ .dispatch () p := by
        rintro rfl
        exact hfork
      rw [if_neg hdispatch, if_pos hfork] at hcpu
      dsimp only
      rw [hzero, hcpu, Account.total, if_neg hcurrent]
      rfl
  · refine ⟨h.runs.act hstep ha, hticks.trans_lt h.word, ?_, fun hused => ?_, ?_⟩
    · dsimp only
      rwa [hinterrupts, hticks]
    · dsimp only
      rw [hbase]
      exact h.small ((hstep.used ha h.runs hused).resolve_right hfork)
    · dsimp only
      rw [htotal, hcpu, if_neg hfork]
      split
      · rw [hcount, int32_add]
      · rw [hcount, Int.add_zero]

/-- What the clock and the end of a timer interrupt do together to `p`. -/
theorem timer_step (h : CurrentRuns k) (hstep : k.timer user = some k') (p : Fin nProc) :
    CurrentRuns k' ∧ k'.ticks = k.tick.ticks ∧ k'.current () = none ∧
      (k'.procs p).cpuTicks = (k.tick.procs p).cpuTicks ∧
        ((k'.procs p).state ≠ .unused → (k.procs p).state ≠ .unused) := by
  have hticked : (k.tick.procs p).state ≠ .unused → (k.procs p).state ≠ .unused := by
    obtain ⟨hstate, -⟩ := clocked_eq k p
    intro hused hunused
    rw [tick_procs, wakeup2, if_neg fun hw => by rw [hstate, hunused] at hw; cases hw.1] at hused
    exact hused (hstate.trans hunused)
  rcases timer_cases hstep h with ⟨hnone, rfl⟩ | ⟨q, a, hq, ha, hact, hleft⟩
  · exact ⟨h.tick, rfl, hnone, rfl, hticked⟩
  · have htick : a ≠ .tick := by
      rintro rfl
      rcases ha with ha | ha
      · cases ha
      · cases ha
    have hdispatch : a ≠ .dispatch () p := by
      rintro rfl
      rcases ha with ha | ha
      · cases ha
      · cases ha
    have hfork : ¬k.tick.Allocates p a := by rcases ha with rfl | rfl <;> exact id
    have hcpu := hact.cpuTicks_eq htick p
    rw [if_neg hdispatch, if_neg hfork] at hcpu
    exact ⟨h.tick.act hact htick, hact.ticks_eq htick, hleft, hcpu, fun hused =>
      hticked ((hact.used htick h.tick hused).resolve_right hfork)⟩

theorem Metering.timer (h : Metering p (k, acc)) (hstep : k.timer user = some k') :
    Metering p (k', acc.after p k k' (.timer user)) := by
  obtain ⟨hruns, hticks, hidle, hcpu, hused⟩ := timer_step h.runs hstep p
  have hcount := h.count
  have hfew := h.few
  have hword := h.word
  dsimp only at hcount hfew hword
  have hclock : k.tick.ticks = (k.ticks + 1) % 2 ^ 32 := rfl
  have hrange := int32_range (acc.total p k)
  rw [← hcount] at hrange
  by_cases hdue : k.UpdateDue
  · have hafter : acc.after p k k' (.timer user) = ⟨(k'.procs p).cpuTicks, 0, 0⟩ := if_pos hdue
    have hclocked : k.clocked = updatePriority k.procs := if_pos hdue
    rw [hafter]
    -- A process in use has its `cpu_ticks` halved.
    have hnew : -2 ^ 31 ≤ (k'.procs p).cpuTicks ∧ (k'.procs p).cpuTicks < 2 ^ 31 ∧
        ((k.procs p).state ≠ .unused →
          -2 ^ 30 ≤ (k'.procs p).cpuTicks ∧ (k'.procs p).cpuTicks ≤ 2 ^ 30) := by
      rw [hcpu, tick_cpuTicks, hclocked, updatePriority, Proc.update]
      have hhalf := decay_range hrange.1 hrange.2
      split
      case isTrue =>
        dsimp only
        exact ⟨by omega, by omega, fun _ => hhalf⟩
      case isFalse hunused => exact ⟨hrange.1, hrange.2, fun h => absurd h hunused⟩
    refine ⟨hruns, ?_, Nat.zero_le _, fun h => hnew.2.2 (hused h), ?_⟩
    · dsimp only
      rw [hticks, hclock]
      exact Nat.mod_lt _ (by decide)
    · dsimp only
      rw [Account.total, hidle]
      simpa using (int32_of_range hnew.1 hnew.2.1).symm
  · have hclocked : k.clocked = k.procs := if_neg hdue
    rw [Kernel.UpdateDue] at hdue
    have hnowrap : k.ticks + 1 < 2 ^ 32 := by omega
    rw [Nat.mod_eq_of_lt hnowrap] at hclock hdue
    have hsame : (k'.procs p).cpuTicks = (k.procs p).cpuTicks := by
      rw [hcpu, tick_cpuTicks, hclocked]
    have hafter : acc.after p k k' (.timer user) =
        if k.current () = some p then { acc with interrupts := acc.interrupts + 1 } else acc :=
      if_neg (by rwa [Kernel.UpdateDue, Nat.mod_eq_of_lt hnowrap])
    rw [hafter]
    refine ⟨hruns, ?_, ?_, fun hu => ?_, ?_⟩
    · dsimp only
      rw [hticks, hclock]
      exact hnowrap
    · dsimp only
      rw [hticks, hclock]
      split
      · dsimp only
        omega
      · omega
    · have hsmall := h.small (hused hu)
      split
      · exact hsmall
      · exact hsmall
    · dsimp only
      rw [hsame, hcount]
      split
      case isTrue hp =>
        simp only [Account.total, hp, hidle, if_true, Int.natCast_add, Int.natCast_one]
        rw [if_neg (Option.some_ne_none p).symm]
        exact congrArg int32 (by omega)
      case isFalse hp =>
        rw [Account.total, Account.total, if_neg hp, hidle, if_neg (Option.some_ne_none p).symm]

end Metered

/-- The account of a process is right in every run. -/
theorem Run.metering {p : Fin nProc} {events : List CpuEvent} {s : Kernel Unit × Account}
    (hrun : Run (Metered p) (boot Unit, ⟨0, 0, 0⟩) events s) : Metering p s := by
  refine hrun.invariant (fun t e u ht hstep => ?_) ?_
  · obtain ⟨k, acc⟩ := t
    obtain ⟨k', acc'⟩ := u
    obtain ⟨hcpu, hacc⟩ := hstep
    dsimp only at hcpu hacc
    subst hacc
    cases e with
    | timer user => exact ht.timer hcpu
    | act a => exact ht.act hcpu.1 hcpu.2.1
  · have hzero : ((boot Unit).procs p).cpuTicks = 0 := by
      rcases eq_or_ne p 0 with rfl | hne
      · rfl
      · simp [boot, hne]
    have hfirst : Metering p (boot Unit, ⟨0, 0, 0⟩) :=
      { runs := fun q hq => by cases hq
        word := by decide
        few := Nat.zero_le _
        small := fun _ => ⟨by decide, by decide⟩
        count := hzero }
    exact hfirst

/-- In every run on one processor, an update counts the ticks of a process exactly when the
process has given up the processor at timer interrupts only since the last update, up to
multiples of `2 ^ 32`. -/
theorem counts_ticks_iff {p : Fin nProc} {events : List CpuEvent} {k : Kernel Unit}
    {acc : Account} (hrun : Run (Metered p) (boot Unit, ⟨0, 0, 0⟩) events (k, acc))
    (hused : (k.procs p).state ≠ .unused) (hdue : k.UpdateDue) :
    CountsTicks p acc k ↔ 2 ^ 32 ∣ acc.left := by
  have hmeter := Run.metering hrun
  have hcount := hmeter.count
  have hfew := hmeter.few
  have hsmall := hmeter.small hused
  dsimp only at hcount hfew hsmall
  have hlt : k.ticks % 100 < 100 := Nat.mod_lt _ (by decide)
  have hclocked : (k.clocked p) = (k.procs p).update := congrFun (if_pos hdue) p
  have hincrease : (k.procs p).cpuTicks - acc.base =
      acc.interrupts + (if k.current () = some p then 1 else 0) ↔ 2 ^ 32 ∣ acc.left := by
    rw [hcount, Account.total, int32]
    split <;> omega
  rw [← hincrease]
  refine ⟨CountsTicks.increase, fun h => ⟨h, ?_, ?_⟩⟩
  · rw [tick_cpuTicks, hclocked, Proc.update, if_pos hused]
    rfl
  · rw [tick_procs, wakeup2, hclocked, Proc.update, if_pos hused]
    split <;> rfl

/-! ## A process that waits -/

section Waiting

variable {x : Proc} {t : Nat}

/-- Between two updates an interrupt of the idle processor moves the clock only, as long as the
process has nothing to wake up for. -/
theorem alone_timer (hx : x.state = .sleeping → t + 1 < x.wakeuptime)
    (ht : (t + 1) % 2 ^ 32 = t + 1) (hdue : (t + 1) % 100 ≠ 0) (user : Bool) :
    (alone x none t).timer user = some (alone x none (t + 1)) := by
  have hprocs : wakeup2 (alone x none t).procs (t + 1) = (alone x none t).procs := by
    funext q
    rcases eq_or_ne q 0 with rfl | hq
    · rw [wakeup2, alone_self, if_neg fun h => absurd (hx h.1) (Nat.not_lt.mpr h.2)]
    · rw [wakeup2, alone_of_ne hq, if_neg (by simp [unusedProc])]
  have hclock : (alone x none t).ticks = t := rfl
  have htick : (alone x none t).tick = alone x none (t + 1) := by
    rw [Kernel.tick, hclock, ht, if_neg hdue, hprocs]
    rfl
  rw [Kernel.timer, htick]
  rfl

/-- Time passes by, up to the first update at most. -/
theorem alone_timers (hx : x.state = .sleeping → 100 ≤ x.wakeuptime) (acc : Account) :
    ∀ n, t + n < 100 → Run (Metered 0) (alone x none t, acc) (List.replicate n (.timer false))
      (alone x none (t + n), acc) := by
  intro n
  induction n with
  | zero => exact fun _ => Run.nil
  | succ n ih =>
      intro hn
      have hword : (t + n + 1) % 2 ^ 32 = t + n + 1 := Nat.mod_eq_of_lt (by omega)
      have hdue : (t + n + 1) % 100 ≠ 0 := by omega
      have htimer := @alone_timer x (t + n) (fun h => by have := hx h; omega) hword hdue false
      have hidle : acc =
          acc.after 0 (alone x none (t + n)) (alone x none (t + n + 1)) (.timer false) := by
        have hnot : ¬(alone x none (t + n)).UpdateDue := by
          have hclock : (alone x none (t + n)).ticks = t + n := rfl
          rwa [Kernel.UpdateDue, hclock, hword]
        rw [Account.after, if_neg hnot, if_neg nofun]
      rw [List.replicate_succ']
      exact (ih (by omega)).concat ⟨htimer, hidle⟩

/-- An interrupt that finds the process running takes the processor from it. -/
theorem alone_preempted (hx : x.state = .running) (hkilled : x.killed = false)
    (ht : (t + 1) % 2 ^ 32 = t + 1) (hdue : (t + 1) % 100 ≠ 0) (user : Bool) :
    (alone x (some 0) t).timer user =
      some (alone { x with state := .runnable } none (t + 1)) := by
  have hawake : x.state ≠ .sleeping := by
    rw [hx]
    exact nofun
  have htick := @alone_tick x (some 0) t hawake
  rw [ht, if_neg hdue] at htick
  have htick : (alone x (some 0) t).tick = alone x (some 0) (t + 1) := Option.some.inj htick
  have hcurrent : (alone x (some 0) (t + 1)).current () = some 0 := rfl
  rw [Kernel.timer, htick]
  rw [hcurrent]
  dsimp only
  rw [alone_self, if_neg (by simp [hkilled]), if_pos hx]
  exact alone_yield

end Waiting

/-- The first process is interrupted once, and is charged one tick at the first update. -/
theorem counts_ticks_iff_run : ∃ k : Kernel Unit,
    Run (Metered 0) (boot Unit, ⟨0, 0, 0⟩)
      ([.act (.dispatch () 0)] ++ [.timer true] ++ List.replicate 98 (.timer false))
      (k, ⟨0, 1, 0⟩) ∧ k.UpdateDue ∧ (k.procs 0).cpuTicks = 1 ∧ CountsTicks 0 ⟨0, 1, 0⟩ k := by
  have hdispatch := alone_dispatch (x := ⟨.runnable, 1, none, none, false, 0, 0, 0, 0, 0⟩)
    (t := 0) rfl zero_lt_highestPriority
  have hpreempted := @alone_preempted ⟨.running, 1, none, none, false, 1, 0, 0, 0, 1⟩ 0 rfl rfl
    (by decide) (by decide) true
  have hfirst : Metered 0 (boot Unit, ⟨0, 0, 0⟩) (.act (.dispatch () 0)) (_, ⟨0, 0, 0⟩) :=
    ⟨⟨hdispatch, by decide, by decide⟩, rfl⟩
  have hsecond : Metered 0 (_, ⟨0, 0, 0⟩) (.timer true) (_, ⟨0, 1, 0⟩) := ⟨hpreempted, rfl⟩
  have htimers := @alone_timers ⟨.runnable, 1, none, none, false, 1, 0, 0, 0, 1⟩ 1 nofun
    ⟨0, 1, 0⟩ 98 (by decide)
  have hrun := ((Run.single hfirst).concat hsecond).append htimers
  have hdue : (alone ⟨.runnable, 1, none, none, false, 1, 0, 0, 0, 1⟩ none (1 + 98)).UpdateDue := by
    decide
  exact ⟨_, hrun, hdue, rfl, (counts_ticks_iff hrun (by decide) hdue).mpr ⟨0, rfl⟩⟩

/-- The first process runs, sleeps before a tick has come, and is charged one. -/
theorem sleeper_is_charged : ¬∀ (p : Fin nProc) (events : List CpuEvent) (k : Kernel Unit)
    (acc : Account), Run (Metered p) (boot Unit, ⟨0, 0, 0⟩) events (k, acc) →
      (k.procs p).state ≠ .unused → k.UpdateDue → CountsTicks p acc k := by
  intro hlaw
  have hdispatch := alone_dispatch (x := ⟨.runnable, 1, none, none, false, 0, 0, 0, 0, 0⟩)
    (t := 0) rfl zero_lt_highestPriority
  have hsleep : Acts (alone ⟨.running, 1, none, none, false, 1, 0, 0, 0, 1⟩ (some 0) 0)
      (.sysSleep () 200)
      (alone ⟨.sleeping, 1, none, some .ticks, false, 1, 0, 200, 0, 1⟩ none 0) := by
    rw [Acts, Kernel.act]
    simp only [alone, Option.map_some, Kernel.sysSleep, Kernel.sleep, Kernel.setProc, Kernel.leave,
      Function.update_self, Function.update_idem]
    rfl
  have hfirst : Metered 0 (boot Unit, ⟨0, 0, 0⟩) (.act (.dispatch () 0)) (_, ⟨0, 0, 0⟩) :=
    ⟨⟨hdispatch, by decide, by decide⟩, rfl⟩
  have hsecond : Metered 0 (_, ⟨0, 0, 0⟩) (.act (.sysSleep () 200)) (_, ⟨0, 0, 1⟩) :=
    ⟨⟨hsleep, by decide, by decide⟩, rfl⟩
  have htimers := @alone_timers ⟨.sleeping, 1, none, some .ticks, false, 1, 0, 200, 0, 1⟩ 0
    (fun _ => by decide) ⟨0, 0, 1⟩ 99 (by decide)
  have hcounts := hlaw 0 _ _ _ (((Run.single hfirst).concat hsecond).append htimers) (by decide)
    (by decide)
  exact absurd hcounts.increase (by decide)

end OSProjects.Scheduler
