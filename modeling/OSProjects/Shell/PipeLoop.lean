import OSProjects.Foundation.Touching
import OSProjects.Shell.Pipes

/-!
# The loop over the commands of a pipeline

`process_pipe` allocates one pointer for every command and none for a null pointer behind them,
and runs commands up to a null pointer. What lies behind the array decides where that is.
-/

namespace OSProjects.Shell

open Touching

namespace Wiring

/-- The loop of `process_pipe` from command `i` on, for so many turns: its calls of `exec_pipe`,
and whether it has ended. The indices are those of `commands`. -/
def pipeLoop (commands : Nat → Option Pointers) (pipeCount : Nat) :
    Nat → Nat → Touching Wiring Nat (List (Nat × Forked) × Bool)
  | 0, _ => pure ([], false)
  | turns + 1, i => do
      let pointer ← readAt i fun _ => commands i
      match pointer with
      | none => pure ([], true)
      | some command => do
          let forked ← look fun s => (s.execPipe i pipeCount command).1
          change fun s => (s.execPipe i pipeCount command).2
          let later ← pipeLoop commands pipeCount turns (i + 1)
          pure ((i, forked) :: later.1, later.2)

/-- The elements of an array of pointers, with the memory behind it. -/
def elements (rows : List Pointers) (behind : Nat → Option Pointers) (i : Nat) : Option Pointers :=
  if i < rows.length then rows[i]? else behind (i - rows.length)

/-- `process_pipe`, with what lies behind the array that it allocates. -/
def processPipeIn (behind : Nat → Option Pointers) (argv : List Word) (turns : Nat) :
    Touching Wiring Nat (List (Nat × Forked) × Bool) :=
  if IsPipeline argv then
    match splitIntoCommands argv (allocateCommands argv) with
    | none => pure ([], true)
    | some commands => pipeLoop (elements commands behind) (countPipes argv) turns 0
  else pure ([], true)

/-- The loop ends after a call of `exec_pipe` for every command, in order. -/
def CallsEach (s : Wiring) (argv : List Word) (behind : Nat → Option Pointers) : Prop :=
  ∃ turns forked, ((processPipeIn behind argv turns).run s).value = (forked, true) ∧
    forked.map Prod.fst = List.range (countPipes argv + 1)

/-- The loop ends. -/
def Terminates (s : Wiring) (argv : List Word) (behind : Nat → Option Pointers) : Prop :=
  ∃ turns, ((processPipeIn behind argv turns).run s).value.2 = true

/-- Every command is run once, and the array is not left. -/
structure RunsStages (s : Wiring) (argv : List Word) (behind : Nat → Option Pointers) : Prop where
  calls : CallsEach s argv behind
  reads : ∀ turns, Within (· < countPipes argv + 1) (processPipeIn behind argv turns) s

/-! ## The loop -/

section Loop

variable {commands : Nat → Option Pointers} {k : Nat}

/-- A turn of the loop that meets a command. -/
theorem pipeLoop_call {turns i : Nat} {command : Pointers} (hrow : commands i = some command)
    (s : Wiring) {later : Touched Wiring Nat (List (Nat × Forked) × Bool)}
    (hlater : (pipeLoop commands k turns (i + 1)).run (s.execPipe i k command).2 = later) :
    ((pipeLoop commands k (turns + 1) i).run s).value =
        ((i, (s.execPipe i k command).1) :: later.value.1, later.value.2) ∧
      ((pipeLoop commands k (turns + 1) i).run s).state = later.state ∧
      ((pipeLoop commands k (turns + 1) i).run s).touched = i :: later.touched := by
  subst later
  refine ⟨?_, ?_, ?_⟩
  · rw [pipeLoop, value_readAt_bind, hrow]
    rfl
  · rw [pipeLoop, state_readAt_bind, hrow]
    rfl
  · rw [pipeLoop, touched_bind, run_readAt, hrow]
    simp

/-- The loop ends behind as many calls as there are commands in front of the first null
pointer. -/
theorem pipeLoop_ends (turns i m : Nat) (s : Wiring) :
    (∃ forked, ((pipeLoop commands k turns i).run s).value = (forked, true) ∧
      forked.map Prod.fst = List.range' i m) ↔
        m < turns ∧ commands (i + m) = none ∧ ∀ j < m, commands (i + j) ≠ none := by
  induction turns generalizing i m s with
  | zero => exact iff_of_false (by rintro ⟨_, h, -⟩; cases h) (by omega)
  | succ turns ih =>
      cases hrow : commands i with
      | none =>
          rw [pipeLoop, value_readAt_bind, hrow]
          constructor
          · rintro ⟨forked, hvalue, hcalls⟩
            cases hvalue
            obtain rfl : m = 0 := by simpa using congrArg List.length hcalls.symm
            exact ⟨Nat.succ_pos _, hrow, nofun⟩
          · rintro ⟨-, -, hbefore⟩
            obtain rfl : m = 0 := by
              by_contra hm
              exact hbefore 0 (Nat.pos_of_ne_zero hm) hrow
            exact ⟨[], rfl, rfl⟩
      | some command =>
          -- What is left is the loop from the next command on, one call shorter.
          rw [(pipeLoop_call hrow s rfl).1]
          cases m with
          | zero =>
              refine iff_of_false ?_ fun h => absurd (hrow.symm.trans h.2.1) nofun
              rintro ⟨forked, hvalue, hcalls⟩
              obtain ⟨rfl, -⟩ := Prod.mk.inj hvalue
              cases hcalls
          | succ m =>
              have hnext := ih (i + 1) m (s.execPipe i k command).2
              rw [Nat.add_right_comm i 1 m] at hnext
              constructor
              · rintro ⟨forked, hvalue, hcalls⟩
                obtain ⟨rfl, hend⟩ := Prod.mk.inj hvalue
                rw [List.map_cons, List.range'_succ, List.cons.injEq] at hcalls
                obtain ⟨hlt, hnone, hbefore⟩ := hnext.mp ⟨_, Prod.ext rfl hend, hcalls.2⟩
                refine ⟨Nat.succ_lt_succ hlt, hnone, fun j hj => ?_⟩
                cases j with
                | zero =>
                    rw [Nat.add_zero, hrow]
                    nofun
                | succ j =>
                    have hj' := hbefore j (Nat.lt_of_succ_lt_succ hj)
                    rwa [Nat.add_right_comm] at hj'
              · rintro ⟨hlt, hnone, hbefore⟩
                obtain ⟨forked, hvalue, hcalls⟩ := hnext.mpr ⟨Nat.lt_of_succ_lt_succ hlt, hnone,
                  fun j hj => by
                    have hj' := hbefore (j + 1) (Nat.succ_lt_succ hj)
                    rwa [← Nat.add_assoc, Nat.add_right_comm] at hj'⟩
                refine ⟨_, by rw [hvalue], ?_⟩
                rw [List.map_cons, hcalls, List.range'_succ]

/-- The calls that the loop has made are in order. -/
theorem pipeLoop_ordered (turns i : Nat) (s : Wiring) :
    ∃ m, ((pipeLoop commands k turns i).run s).value.1.map Prod.fst = List.range' i m := by
  induction turns generalizing i s with
  | zero => exact ⟨0, rfl⟩
  | succ turns ih =>
      cases hrow : commands i with
      | none =>
          rw [pipeLoop, value_readAt_bind, hrow]
          exact ⟨0, rfl⟩
      | some command =>
          obtain ⟨m, hm⟩ := ih (i + 1) (s.execPipe i k command).2
          refine ⟨m + 1, ?_⟩
          rw [(pipeLoop_call hrow s rfl).1, List.map_cons, hm, List.range'_succ]

/-- Everything up to the first null pointer is read. -/
theorem pipeLoop_reads {turns i m : Nat} (s : Wiring) (hturns : m < turns)
    (hbefore : ∀ j < m, commands (i + j) ≠ none) :
    i + m ∈ ((pipeLoop commands k turns i).run s).touched := by
  induction m generalizing turns i s with
  | zero =>
      obtain ⟨turns, rfl⟩ := Nat.exists_eq_succ_of_ne_zero (Nat.ne_of_gt hturns)
      exact List.mem_cons_self
  | succ m ih =>
      obtain ⟨turns, rfl⟩ := Nat.exists_eq_succ_of_ne_zero (Nat.ne_zero_of_lt hturns)
      obtain ⟨command, hrow⟩ := Option.ne_none_iff_exists'.mp (hbefore 0 (Nat.succ_pos m))
      rw [Nat.add_zero] at hrow
      have hrest := @ih turns (i + 1) (s.execPipe i k command).2 (Nat.lt_of_succ_lt_succ hturns)
        fun j hj => by
          have hj' := hbefore (j + 1) (Nat.succ_lt_succ hj)
          rwa [← Nat.add_assoc, Nat.add_right_comm] at hj'
      rw [(pipeLoop_call hrow s rfl).2.2, ← Nat.add_assoc, Nat.add_right_comm]
      exact List.mem_cons_of_mem i hrest

/-- With a null pointer behind the commands, the loop is the one over their list. -/
theorem pipeLoop_rows (rows : List Pointers) (i : Nat) (s : Wiring)
    (hrows : ∀ j ≤ rows.length, commands (i + j) = rows[j]?) :
    ((pipeLoop commands k (rows.length + 1) i).run s).value.1.map Prod.snd =
        (s.execPipes k i rows).1 ∧
      ((pipeLoop commands k (rows.length + 1) i).run s).state = (s.execPipes k i rows).2 := by
  induction rows generalizing i s with
  | nil =>
      have hnull := hrows 0 le_rfl
      rw [Nat.add_zero, List.getElem?_nil] at hnull
      rw [pipeLoop, value_readAt_bind, state_readAt_bind, hnull]
      exact ⟨rfl, rfl⟩
  | cons row rest ih =>
      have hrow := hrows 0 (Nat.zero_le _)
      rw [Nat.add_zero, List.getElem?_cons_zero] at hrow
      obtain ⟨hforked, hstate⟩ := ih (i + 1) (s.execPipe i k row).2 fun j hj => by
        rw [Nat.add_assoc, Nat.add_comm 1 j, hrows _ (Nat.succ_le_succ hj), List.getElem?_cons_succ]
      obtain ⟨hvalue, hafter, -⟩ := @pipeLoop_call commands k (rest.length + 1) i row hrow s _ rfl
      rw [List.length_cons, hvalue, hafter, execPipes]
      exact ⟨congrArg (List.cons _) hforked, hstate⟩

end Loop

/-! ## The array -/

section Array

variable {rows : List Pointers} {behind : Nat → Option Pointers} {argv : List Word} {s : Wiring}

theorem elements_of_lt {j : Nat} (hj : j < rows.length) : elements rows behind j ≠ none := by
  rw [elements, if_pos hj, List.getElem?_eq_getElem hj]
  nofun

theorem elements_behind (j : Nat) : elements rows behind (rows.length + j) = behind j := by
  rw [elements, if_neg (Nat.not_lt.mpr (Nat.le_add_right _ _)), Nat.add_sub_cancel_left]

/-- The commands of a pipeline, in the array that the loop is given. -/
theorem processPipeIn_eq (h : IsPipeline argv) : ∃ rows : List Pointers,
    rows.length = countPipes argv + 1 ∧
      (∀ s : Wiring, s.processPipe argv = s.execPipes (countPipes argv) 0 rows) ∧
      ∀ behind turns, processPipeIn behind argv turns =
        pipeLoop (elements rows behind) (countPipes argv) turns 0 := by
  refine ⟨(segments [] argv).map (rowOf (argv.length + 1)), ?_, fun s => ?_, fun behind turns => ?_⟩
  · rw [List.length_map, length_segments]
  · exact processPipe_eq s h
  · rw [processPipeIn, if_pos h, splitIntoCommands_eq]

/-- With a null pointer behind its array, the loop makes the calls of the model without it: what
holds of `processPipe` holds of this one there. -/
theorem processPipeIn_null (h : IsPipeline argv) (hnull : behind 0 = none) (s : Wiring) :
    ((processPipeIn behind argv (countPipes argv + 2)).run s).value.1.map Prod.snd =
        (s.processPipe argv).1 ∧
      ((processPipeIn behind argv (countPipes argv + 2)).run s).state =
        (s.processPipe argv).2 := by
  obtain ⟨rows, hlength, hcalls, hloop⟩ := processPipeIn_eq h
  have hrows : ∀ j ≤ rows.length, elements rows behind (0 + j) = rows[j]? := by
    intro j hj
    rw [Nat.zero_add]
    rcases Nat.lt_or_eq_of_le hj with hj | rfl
    · exact if_pos hj
    · rw [List.getElem?_eq_none le_rfl]
      exact (elements_behind 0).trans hnull
  have hturns : countPipes argv + 2 = rows.length + 1 := by rw [hlength]
  rw [hcalls, hloop, hturns]
  exact pipeLoop_rows rows 0 s hrows

/-- The element behind the array is read. -/
theorem reads_behind (h : IsPipeline argv) (behind : Nat → Option Pointers) (s : Wiring) :
    ¬Within (· < countPipes argv + 1) (processPipeIn behind argv (countPipes argv + 2)) s := by
  obtain ⟨rows, hlength, -, hloop⟩ := processPipeIn_eq h
  intro hwithin
  have hread := @pipeLoop_reads (elements rows behind) (countPipes argv) (countPipes argv + 2) 0
    rows.length s (by omega) fun j hj => by
      rw [Nat.zero_add]
      exact elements_of_lt hj
  rw [← hloop, Nat.zero_add] at hread
  have hlt := hwithin rows.length hread
  omega

theorem callsEach_iff (h : IsPipeline argv) : CallsEach s argv behind ↔ behind 0 = none := by
  obtain ⟨rows, hlength, -, hloop⟩ := processPipeIn_eq h
  have hend : elements rows behind rows.length = behind 0 := elements_behind 0
  rw [CallsEach]
  simp only [hloop, List.range_eq_range', ← hlength, pipeLoop_ends, Nat.zero_add, hend]
  exact ⟨fun ⟨_, _, hnull, _⟩ => hnull,
    fun hnull => ⟨rows.length + 1, Nat.lt_succ_self _, hnull, fun _ hj => elements_of_lt hj⟩⟩

theorem terminates_iff (h : IsPipeline argv) :
    Terminates s argv behind ↔ ∃ j, behind j = none := by
  obtain ⟨rows, -, -, hloop⟩ := processPipeIn_eq h
  constructor
  · rintro ⟨turns, hend⟩
    rw [hloop] at hend
    obtain ⟨m, hm⟩ := @pipeLoop_ordered (elements rows behind) (countPipes argv) turns 0 s
    obtain ⟨-, hnull, -⟩ := (pipeLoop_ends turns 0 m s).mp ⟨_, Prod.ext rfl hend, hm⟩
    rw [Nat.zero_add] at hnull
    have hle : rows.length ≤ m := Nat.le_of_not_lt fun hlt => elements_of_lt hlt hnull
    obtain ⟨j, rfl⟩ := Nat.exists_eq_add_of_le hle
    exact ⟨j, (elements_behind j).symm.trans hnull⟩
  · rintro ⟨j, hj⟩
    have hsome : ∃ m, elements rows behind m = none := ⟨rows.length + j, by rwa [elements_behind]⟩
    obtain ⟨forked, hvalue, -⟩ := (@pipeLoop_ends (elements rows behind) (countPipes argv)
      (Nat.find hsome + 1) 0 (Nat.find hsome) s).mpr ⟨Nat.lt_succ_self _, by
        rw [Nat.zero_add]
        exact Nat.find_spec hsome, fun i hi => by
        rw [Nat.zero_add]
        exact Nat.find_min hsome hi⟩
    exact ⟨_, by rw [hloop, hvalue]⟩

end Array

/-- For every vector of arguments with a bar, the loop reads behind the array. It calls
`exec_pipe` once for every command exactly when it finds a null pointer right there, and ends
exactly when there is one anywhere behind. -/
theorem stages_never (s : Wiring) (behind : Nat → Option Pointers) {argv : List Word}
    (hbar : 0 < countPipes argv) :
    ¬RunsStages s argv behind ∧ (1 < argv.length →
      (CallsEach s argv behind ↔ behind 0 = none) ∧
        (Terminates s argv behind ↔ ∃ j, behind j = none)) := by
  refine ⟨fun law => ?_, fun hlength => ?_⟩
  · by_cases h : IsPipeline argv
    · exact reads_behind h behind s (law.reads _)
    · obtain ⟨turns, forked, hvalue, hcalls⟩ := law.calls
      rw [processPipeIn, if_neg h] at hvalue
      cases hvalue
      simp at hcalls
  · have h : IsPipeline argv := ⟨hlength, Nat.ne_of_gt hbar⟩
    exact ⟨callsEach_iff h, terminates_iff h⟩

theorem stages_never_three :
    ¬RunsStages (start 0 1 []) threeCommands (fun _ => none) ∧ (1 < threeCommands.length →
      (CallsEach (start 0 1 []) threeCommands (fun _ => none) ↔ (none : Option Pointers) = none) ∧
        (Terminates (start 0 1 []) threeCommands (fun _ => none) ↔
          ∃ _ : Nat, (none : Option Pointers) = none)) :=
  stages_never (start 0 1 []) (fun _ => none) (by decide)

/-- Three commands. -/
theorem sentinel_missing : ¬∀ s behind argv, 0 < countPipes argv → RunsStages s argv behind :=
  fun h => reads_behind (by decide) (fun _ => none) (start 0 1 [])
    ((h (start 0 1 []) (fun _ => none) threeCommands (by decide)).reads _)

end Wiring

end OSProjects.Shell
