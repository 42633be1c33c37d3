import Mathlib.Algebra.BigOperators.Group.Finset.Basic
import Mathlib.Algebra.Order.BigOperators.Group.Finset
import OSProjects.Scheduler.Conserving

/-!
# Turns among equals

The scan starts at the front of the table every time. Among runnable processes with the
same least value it finds the one with the lowest index, whoever has run before.
-/

namespace OSProjects.Scheduler

open LeastScan StepSystem

/-! ## Who is running -/

/-- On one processor, a running process is that of the processor. -/
def OneRunning (k : Kernel Unit) : Prop :=
  ∀ p, (k.procs p).state = .running → k.current () = some p

/-- No process starts to run. -/
def NoneStarts (procs procs' : Fin nProc → Proc) : Prop :=
  ∀ p, (procs' p).state = .running → (procs p).state = .running

/-- What turns sleepers into runnable processes. -/
theorem NoneStarts.of_wake {procs : Fin nProc → Proc} {wake : Fin nProc → Prop}
    [DecidablePred wake] :
    NoneStarts procs fun p => if wake p then { procs p with state := .runnable } else procs p := by
  intro p hp
  dsimp only at hp
  split at hp
  · cases hp
  · exact hp

section Steps

variable {k k' : Kernel Unit} {a : Act Unit} {p : Fin nProc}

theorem OneRunning.tick (h : OneRunning k) : OneRunning k.tick := by
  have hupdate : NoneStarts k.procs (if (k.ticks + 1) % 2 ^ 32 % 100 = 0 then
      updatePriority k.procs else k.procs) := by
    intro p hp
    split at hp
    · rw [updatePriority, Proc.update] at hp
      split at hp <;> exact hp
    · exact hp
  have hwake : NoneStarts (if (k.ticks + 1) % 2 ^ 32 % 100 = 0 then updatePriority k.procs
      else k.procs) k.tick.procs := .of_wake
  exact fun p hp => h p (hupdate p (hwake p hp))

/-- A process that runs behind a step has run before, or is dispatched. -/
theorem Acts.running (h : Acts k a k') (ha : a ≠ .tick) (hp : (k'.procs p).state = .running) :
    (k.procs p).state = .running ∨ a = .dispatch () p := by
  have htouch := h.touch ha p
  generalize k'.procs p = y at htouch hp
  cases htouch with
  | bystander hy =>
      obtain ⟨parent, state, killed, rfl, hstate⟩ := hy
      rcases hstate with hsame | ⟨-, hwoken⟩
      · exact Or.inl (hsame.symm.trans hp)
      · cases hwoken.symm.trans hp
  | dispatched ha => exact Or.inr ha
  | yielded => cases hp
  | called _ _ _ _ hstate =>
      rcases hstate with hsame | ⟨hsleep | hzombie, -⟩
      · exact Or.inl (hsame.symm.trans hp)
      · cases hsleep.symm.trans hp
      · cases hzombie.symm.trans hp
  | allocated _ _ hstate =>
      rw [hp] at hstate
      split at hstate
      · cases hstate
      · cases hstate
  | reaped => cases hp

theorem OneRunning.step (h : OneRunning k) (hstep : Acts k a k') : OneRunning k' := by
  by_cases ha : a = .tick
  · subst ha
    obtain rfl := Option.some.inj hstep
    exact h.tick
  · intro p hp
    rcases hstep.current_cases () with hsame | ⟨q, rfl, hidle, hq⟩ | ⟨q, -, hq, -, hleft⟩
    · rcases hstep.running ha hp with hold | rfl
      · exact hsame.trans (h p hold)
      · simp only [Acts, Kernel.act, Option.ite_none_right_eq_some, Option.some.injEq] at hstep
        rw [← hstep.2]
        exact Function.update_self () (some p) k.current
    · rcases hstep.running ha hp with hold | hdispatch
      · cases hidle.symm.trans (h p hold)
      · rwa [← (Act.dispatch.inj hdispatch).2]
    · exfalso
      rcases hstep.running ha hp with hold | rfl
      · obtain rfl := Option.some.inj (hq.symm.trans (h p hold))
        exact hleft hp
      · simp only [Acts, Kernel.act, Option.ite_none_right_eq_some] at hstep
        cases hstep.1.1.symm.trans hq

end Steps

/-! ## A stretch of equals -/

/-- The processes in `S` are runnable or running with the value `v`, which is the least among
the runnable ones. -/
structure Equals (S : Finset (Fin nProc)) (v : Int) (k : Kernel Unit) : Prop where
  ready : ∀ p ∈ S, (k.procs p).state = .runnable ∨ (k.procs p).state = .running
  value : ∀ p ∈ S, (k.procs p).priority = v
  least : ∀ q, (k.procs q).state = .runnable → v ≤ (k.procs q).priority

/-- A step that does not run `update_priority`, between two tables with these equals. -/
def EqualsStep (S : Finset (Fin nProc)) (v : Int) (k : Kernel Unit) (a : Act Unit)
    (k' : Kernel Unit) : Prop :=
  Acts k a k' ∧ Equals S v k ∧ Equals S v k' ∧ (a = .tick → (k.ticks + 1) % 2 ^ 32 % 100 ≠ 0)

/-- How often a process is dispatched. -/
def dispatches (acts : List (Act Unit)) (p : Fin nProc) : Nat := acts.count (.dispatch () p)

section Stretch

variable {S : Finset (Fin nProc)} {v : Int} {k k' : Kernel Unit} {acts : List (Act Unit)}
  {p q : Fin nProc}

/-- Of the equals the scan can only find the one with the lowest index. -/
theorem Equals.first (h : Equals S v k) (hone : OneRunning k)
    (hstep : Acts k (.dispatch () p) k') (hp : p ∈ S) (hq : q ∈ S) : p ≤ q := by
  simp only [Acts, Kernel.act, Option.ite_none_right_eq_some, Option.some.injEq] at hstep
  obtain ⟨⟨hidle, hselect⟩, -⟩ := hstep
  have hrunnable : (k.procs q).state = .runnable := by
    refine (h.ready q hq).resolve_right fun hrun => ?_
    rw [hone q hrun] at hidle
    cases hidle
  obtain ⟨-, -, -, pre, post, hsplit, hpre⟩ := leastScan_eq_some hselect
  by_contra hlt
  rw [not_le] at hlt
  -- What stands in front of the one that is found has a greater value.
  have hmem : q ∈ pre := by
    have hsorted := List.pairwise_lt_finRange nProc
    rw [hsplit, List.pairwise_append, List.pairwise_cons] at hsorted
    have hall := List.mem_finRange q
    rw [hsplit, List.mem_append, List.mem_cons] at hall
    rcases hall with hq | rfl | hq
    · exact hq
    · exact absurd hlt (lt_irrefl _)
    · exact absurd (hsorted.2.1.1 q hq) (lt_asymm hlt)
  have hless := hpre q hmem hrunnable
  rw [h.value p hp, h.value q hq] at hless
  exact lt_irrefl v hless

/-- Only one of the equals is ever dispatched. -/
theorem dispatched_eq (hone : OneRunning k) (hrun : Run (EqualsStep S v) k acts k')
    (hp : p ∈ S) (hq : q ∈ S) (hpd : .dispatch () p ∈ acts) (hqd : .dispatch () q ∈ acts) :
    p = q := by
  have hfirst : ∀ p ∈ S, .dispatch () p ∈ acts → ∀ q ∈ S, p ≤ q := by
    intro p hp hmem q hq
    obtain ⟨pre, post, rfl⟩ := List.append_of_mem hmem
    obtain ⟨k1, hpre, hrest⟩ := hrun.split
    rw [show Act.dispatch () p :: post = [.dispatch () p] ++ post from rfl] at hrest
    obtain ⟨k2, hstep, -⟩ := hrest.split
    obtain ⟨hact, hequals, -⟩ := hstep.step_of_single
    have hone1 : OneRunning k1 := hpre.invariant (fun _ _ _ h hs => h.step hs.1) hone
    exact hequals.first hone1 hact hp hq
  exact le_antisymm (hfirst p hp hpd q hq) (hfirst q hq hqd p hp)

theorem boot_oneRunning : OneRunning (boot Unit) := by
  intro p hp
  rcases eq_or_ne p 0 with rfl | hne
  · cases hp
  · simp [boot, hne] at hp

/-! ## The law -/

/-- In a stretch from a reachable table, the numbers of turns of at least two equals differ by
at most one exactly when no more than one turn goes to them in all. -/
theorem equal_turns_iff {before : List (Act Unit)} (hboot : Run Acts (boot Unit) before k)
    (hS : 2 ≤ S.card) (hrun : Run (EqualsStep S v) k acts k') :
    (∀ p ∈ S, ∀ q ∈ S, dispatches acts p ≤ dispatches acts q + 1) ↔
      ∑ p ∈ S, dispatches acts p ≤ 1 := by
  have hone : OneRunning k := hboot.invariant (fun _ _ _ h hs => h.step hs) boot_oneRunning
  constructor
  · intro hfair
    by_cases hnone : ∀ p ∈ S, dispatches acts p = 0
    · rw [Finset.sum_eq_zero hnone]
      exact Nat.zero_le 1
    · push Not at hnone
      obtain ⟨p, hp, hcount⟩ := hnone
      have hpd : Act.dispatch () p ∈ acts := List.count_pos_iff.mp (Nat.pos_of_ne_zero hcount)
      have hothers : ∀ q ∈ S, q ≠ p → dispatches acts q = 0 := by
        intro q hq hne
        refine List.count_eq_zero.mpr fun hqd => ?_
        exact hne (dispatched_eq hone hrun hq hp hqd hpd)
      obtain ⟨q, hq, hne⟩ := Finset.exists_mem_ne (by omega : 1 < S.card) p
      calc ∑ p ∈ S, dispatches acts p = dispatches acts p :=
            Finset.sum_eq_single_of_mem p hp hothers
        _ ≤ dispatches acts q + 1 := hfair p hp q hq
        _ = 1 := by rw [hothers q hq hne]
  · intro hsum p hp q _
    calc dispatches acts p ≤ ∑ p ∈ S, dispatches acts p :=
          Finset.single_le_sum (fun _ _ => Nat.zero_le _) hp
      _ ≤ 1 := hsum
      _ ≤ dispatches acts q + 1 := Nat.le_add_left 1 _

end Stretch

/-! ## Two processes -/

/-- The first process has forked, and the timer has interrupted it. -/
def forked : Kernel Unit := (((boot Unit).dispatch () 0).fork 0 .enough).yield () 0

/-- A turn of the first process, until the timer interrupts it. -/
def turn (k : Kernel Unit) : Kernel Unit := (k.dispatch () 0).tick.yield () 0

def turnActs : List (Act Unit) := [.dispatch () 0, .tick, .yield ()]

theorem run_forked : Run Acts (boot Unit) [.dispatch () 0, .fork () .enough, .yield ()] forked := by
  have hdispatch : Acts (boot Unit) (.dispatch () 0) ((boot Unit).dispatch () 0) :=
    acts_dispatch rfl (by decide +kernel)
  have hfork : Acts ((boot Unit).dispatch () 0) (.fork () .enough)
      (((boot Unit).dispatch () 0).fork 0 .enough) := rfl
  have hyield : Acts (((boot Unit).dispatch () 0).fork 0 .enough) (.yield ()) forked := rfl
  exact ((Run.single hdispatch).concat hfork).concat hyield

/-- What of `Equals` is computed, for the two processes and the value 0. -/
def equalsTest (k : Kernel Unit) : Bool :=
  decide (∀ p ∈ ({0, 1} : Finset (Fin nProc)),
    ((k.procs p).state = .runnable ∨ (k.procs p).state = .running) ∧ (k.procs p).priority = 0) &&
  decide (∀ q, (k.procs q).state = .runnable → 0 ≤ (k.procs q).priority)

theorem equals_of_test {k : Kernel Unit} (h : equalsTest k = true) : Equals {0, 1} 0 k := by
  rw [equalsTest, Bool.and_eq_true, decide_eq_true_eq, decide_eq_true_eq] at h
  exact ⟨fun p hp => (h.1 p hp).1, fun p hp => (h.1 p hp).2, h.2⟩

theorem run_turn {k : Kernel Unit} (hidle : k.current () = none) (hselect : select k.procs = some 0)
    (hticks : (k.ticks + 1) % 2 ^ 32 % 100 ≠ 0)
    (htest : (equalsTest k && equalsTest (k.dispatch () 0) && equalsTest (k.dispatch () 0).tick &&
      equalsTest (turn k)) = true) : Run (EqualsStep {0, 1} 0) k turnActs (turn k) := by
  simp only [Bool.and_eq_true] at htest
  obtain ⟨⟨⟨h0, h1⟩, h2⟩, h3⟩ := htest
  have hdispatch : Acts k (.dispatch () 0) (k.dispatch () 0) := acts_dispatch hidle hselect
  have hyield : Acts (k.dispatch () 0).tick (.yield ()) (turn k) := by
    rw [Acts, Kernel.act]
    simp [turn, Kernel.dispatch, Kernel.tick]
  exact ((Run.single ⟨hdispatch, equals_of_test h0, equals_of_test h1, fun h => by cases h⟩).concat
    ⟨rfl, equals_of_test h1, equals_of_test h2, fun _ => hticks⟩).concat
      ⟨hyield, equals_of_test h2, equals_of_test h3, fun h => by cases h⟩

/-- One turn of the first of two equals. -/
theorem equal_turns_iff_run : Run (EqualsStep {0, 1} 0) forked turnActs (turn forked) ∧
    ∀ p ∈ ({0, 1} : Finset (Fin nProc)), ∀ q ∈ ({0, 1} : Finset (Fin nProc)),
      dispatches turnActs p ≤ dispatches turnActs q + 1 := by
  have hrun : Run (EqualsStep {0, 1} 0) forked turnActs (turn forked) :=
    run_turn rfl (by decide +kernel) (by decide) (by decide +kernel)
  exact ⟨hrun, (equal_turns_iff run_forked (by decide) hrun).mpr (by decide)⟩

/-- The second turn also goes to the first of two equals. -/
theorem second_turn_goes_to_the_first : ¬∀ before k S v acts k',
    Run Acts (boot Unit) before k → 2 ≤ S.card → Run (EqualsStep S v) k acts k' →
      ∀ p ∈ S, ∀ q ∈ S, dispatches acts p ≤ dispatches acts q + 1 := by
  intro hlaw
  have hfirst : Run (EqualsStep {0, 1} 0) forked turnActs (turn forked) :=
    run_turn rfl (by decide +kernel) (by decide) (by decide +kernel)
  have hsecond : Run (EqualsStep {0, 1} 0) (turn forked) turnActs (turn (turn forked)) :=
    run_turn rfl (by decide +kernel) (by decide) (by decide +kernel)
  have hfair := hlaw _ _ _ _ _ _ run_forked (by decide) (hfirst.append hsecond) 0 (by decide) 1
    (by decide)
  exact absurd hfair (by decide)

end OSProjects.Scheduler
