import Mathlib.Data.List.Count
import OSProjects.Foundation.CString

/-!
# Splitting command lines

`cut` turns a line into an array of arguments, `split_into_commands` an array of arguments
into one array for every command of a pipeline. The sizes of the arrays come from a pass that
counts first; a store outside an array has no value.
-/

namespace OSProjects.Shell

open CString

/-- A string without its NUL. -/
abbrev Word := List UInt8

def blank : UInt8 := 32

/-- `"|"`. -/
def bar : Word := [124]

/-- An array of pointers to strings. -/
abbrev Pointers := List (Option Word)

/-- A store at an index of an array. -/
def storeAt {α : Type} (a : List α) (i : Nat) (x : α) : Option (List α) :=
  if i < a.length then some (a.set i x) else none

/-! ## Arguments -/

/-- `count_args`. -/
def countArgs (line : Word) : Nat := (strtok blank line).length

/-- A turn of the loop of `split_into_args`. -/
def argTurn (s : Pointers × Nat) (token : Word) : Option (Pointers × Nat) :=
  (storeAt s.1 s.2 (some token)).map fun args => (args, s.2 + 1)

/-- `split_into_args`. -/
def splitIntoArgs (line : Word) (args : Pointers) (numArgs : Nat) : Option (Pointers × Nat) :=
  match (strtok blank line).foldlM argTurn (args, numArgs) with
  | none => none
  | some (args, numArgs) => (storeAt args numArgs none).map fun args => (args, numArgs)

/-- `cut`, with the array that `calloc` has returned. -/
def cut (line : Word) : Option (Pointers × Nat) :=
  splitIntoArgs line (List.replicate (countArgs line + 1) none) 0

/-! ## Commands -/

/-- `count_pipes`. -/
def countPipes (argv : List Word) : Nat := argv.count bar

/-- The arrays that `process_pipe` allocates. -/
def allocateCommands (argv : List Word) : List Pointers :=
  List.replicate (countPipes argv + 1) (List.replicate (argv.length + 1) none)

/-- The arrays, `curr_pipe` and `curr_cmd_argc`. -/
structure Splitter where
  commands : List Pointers
  currPipe : Nat
  currCmdArgc : Nat

/-- `commands[curr_pipe][curr_cmd_argc] = p`. -/
def Splitter.store (s : Splitter) (p : Option Word) : Option (List Pointers) :=
  match s.commands[s.currPipe]? with
  | none => none
  | some command =>
      match storeAt command s.currCmdArgc p with
      | none => none
      | some command => storeAt s.commands s.currPipe command

/-- A turn of the loop of `split_into_commands`. -/
def splitTurn (s : Splitter) (arg : Word) : Option Splitter :=
  if arg = bar then (s.store none).map fun commands => ⟨commands, s.currPipe + 1, 0⟩
  else (s.store (some arg)).map fun commands => ⟨commands, s.currPipe, s.currCmdArgc + 1⟩

/-- `split_into_commands`. -/
def splitIntoCommands (argv : List Word) (commands : List Pointers) : Option (List Pointers) :=
  (argv.foldlM splitTurn ⟨commands, 0, 0⟩).map Splitter.commands

/-- The strings of an array up to the first null pointer. -/
def command (p : Pointers) : List Word := (p.takeWhile Option.isSome).filterMap id

section Arrays

variable {α : Type} {pre post : List α} {x y : α}

theorem storeAt_append (pre post : List α) (x y : α) :
    storeAt (pre ++ y :: post) pre.length x = some (pre ++ x :: post) := by
  rw [storeAt, if_pos (by simp), List.set_append_right _ _ le_rfl, Nat.sub_self]
  rfl

/-- An array with its first pointers set. -/
def filled (words : List Word) (n : Nat) : Pointers := words.map some ++ List.replicate n none

@[simp] theorem length_filled (words : List Word) (n : Nat) :
    (filled words n).length = words.length + n := by simp [filled]

/-- A store behind the pointers that are set. -/
theorem storeAt_filled (words : List Word) (n : Nat) (w : Word) :
    storeAt (filled words (n + 1)) words.length (some w) = some (filled (words ++ [w]) n) := by
  have hstore := storeAt_append (words.map some) (List.replicate n none) (some w) none
  rw [List.length_map] at hstore
  rw [filled, List.replicate_succ, hstore, filled, List.map_append, List.append_assoc]
  rfl

theorem storeAt_filled_null (words : List Word) (n : Nat) :
    storeAt (filled words (n + 1)) words.length none = some (filled words (n + 1)) := by
  have hstore := storeAt_append (words.map some) (List.replicate n none) none none
  rw [List.length_map] at hstore
  rw [filled, List.replicate_succ, hstore]

theorem command_filled (words : List Word) (n : Nat) : command (filled words n) = words := by
  have hset : (filled words n).takeWhile Option.isSome = words.map some := by
    rw [filled, List.takeWhile_append_of_pos (by simp)]
    cases n <;> simp [List.replicate_succ]
  rw [command, hset, List.filterMap_map]
  exact List.filterMap_some

end Arrays

/-! ## Lines -/

theorem foldlM_argTurn (tokens words : List Word) (n : Nat) :
    tokens.foldlM argTurn (filled words (tokens.length + n), words.length) =
      some (filled (words ++ tokens) n, words.length + tokens.length) := by
  induction tokens generalizing words with
  | nil => simp
  | cons token rest ih =>
      have hstore := storeAt_filled words (rest.length + n) token
      rw [List.foldlM_cons, argTurn, List.length_cons, Nat.add_right_comm, hstore]
      have hnext := ih (words ++ [token])
      rw [List.length_append, List.length_singleton, List.append_assoc] at hnext
      rw [Nat.add_right_comm, Nat.add_assoc words.length] at hnext
      exact hnext

/-- `cut` stores the tokens of the line and a null pointer, and fills its array. -/
theorem cut_eq (line : Word) :
    cut line = some ((strtok blank line).map some ++ [none], (strtok blank line).length) := by
  have hloop := foldlM_argTurn (strtok blank line) [] 1
  rw [List.nil_append, List.length_nil, Nat.zero_add] at hloop
  rw [cut, splitIntoArgs, countArgs]
  have hstart : List.replicate ((strtok blank line).length + 1) none =
      filled [] ((strtok blank line).length + 1) := rfl
  rw [hstart, hloop]
  dsimp only
  rw [storeAt_filled_null]
  rfl

/-! ## Pipelines -/

/-- The commands of the arguments, with those in front in `cur`. -/
def segments (cur : List Word) : List Word → List (List Word)
  | [] => [cur]
  | arg :: rest => if arg = bar then cur :: segments [] rest else segments (cur ++ [arg]) rest

section Segments

variable {cur rest : List Word}

theorem length_segments (cur rest : List Word) :
    (segments cur rest).length = countPipes rest + 1 := by
  induction rest generalizing cur with
  | nil => rfl
  | cons arg rest ih =>
      rw [segments, countPipes, List.count_cons]
      by_cases harg : arg = bar
      · rw [if_pos harg, List.length_cons, ih, countPipes, if_pos (beq_iff_eq.mpr harg)]
      · rw [if_neg harg, ih, countPipes, if_neg (by simpa using harg)]

/-- Bars between the commands give the arguments back. -/
theorem intercalate_segments (cur rest : List Word) :
    [bar].intercalate (segments cur rest) = cur ++ rest := by
  induction rest generalizing cur with
  | nil => simp [segments]
  | cons arg rest ih =>
      rw [segments]
      split
      case isTrue harg =>
        obtain ⟨c, cs, hcs⟩ := List.exists_cons_of_length_eq_add_one (length_segments [] rest)
        have hrest := ih []
        rw [hcs] at hrest ⊢
        rw [List.intercalate_cons_cons, hrest, harg, List.nil_append, List.append_assoc]
        rfl
      case isFalse harg => rw [ih, List.append_assoc]; rfl

theorem bar_notMem_segments (hcur : bar ∉ cur) : ∀ c ∈ segments cur rest, bar ∉ c := by
  induction rest generalizing cur with
  | nil => simpa [segments] using hcur
  | cons arg rest ih =>
      rw [segments]
      split
      case isTrue =>
        rw [List.forall_mem_cons]
        exact ⟨hcur, ih List.not_mem_nil⟩
      case isFalse harg =>
        apply ih
        rw [List.mem_append, List.mem_singleton, not_or]
        exact ⟨hcur, Ne.symm harg⟩

theorem length_le_of_mem_segments {c : List Word} (hc : c ∈ segments cur rest) :
    c.length ≤ cur.length + rest.length := by
  induction rest generalizing cur with
  | nil => simp [List.mem_singleton.mp hc]
  | cons arg rest ih =>
      rw [segments] at hc
      rw [List.length_cons]
      split at hc
      case isTrue =>
        rcases List.mem_cons.mp hc with rfl | hc
        · exact Nat.le_add_right _ _
        · have hle := ih hc
          rw [List.length_nil] at hle
          omega
      case isFalse =>
        have hle := ih hc
        rw [List.length_append, List.length_singleton] at hle
        omega

end Segments

/-- An array of `n` pointers with a command in front. -/
def rowOf (n : Nat) (c : List Word) : Pointers := filled c (n - c.length)

theorem command_rows (n : Nat) (cs : List (List Word)) : (cs.map (rowOf n)).map command = cs := by
  rw [List.map_map]
  exact (List.map_congr_left fun c _ => command_filled c _).trans (List.map_id cs)

/-- A store in one of the arrays. -/
theorem Splitter.store_eq {done later : List Pointers} {row row' : Pointers} {i : Nat}
    {p : Option Word} (h : storeAt row i p = some row') :
    Splitter.store ⟨done ++ row :: later, done.length, i⟩ p = some (done ++ row' :: later) := by
  have hget : (done ++ row :: later)[done.length]? = some row := by simp
  rw [Splitter.store]
  dsimp only
  rw [hget]
  dsimp only
  rw [h]
  exact storeAt_append done later row' row

theorem rowOf_of_lt {n : Nat} {cur : List Word} (h : cur.length < n) :
    ∃ m, rowOf n cur = filled cur (m + 1) ∧ ∀ arg, rowOf n (cur ++ [arg]) = filled (cur ++ [arg]) m := by
  obtain ⟨m, rfl⟩ := Nat.exists_eq_add_of_lt h
  refine ⟨m, ?_, fun arg => ?_⟩
  · rw [rowOf, Nat.add_assoc, Nat.add_sub_cancel_left]
  · rw [rowOf, List.length_append, List.length_singleton, Nat.add_right_comm,
      Nat.add_sub_cancel_left]

/-- The loop fills one array after the other, and leaves the arrays of later commands. -/
theorem foldlM_splitTurn {n : Nat} (rest : List Word) (done : List Pointers) (cur : List Word)
    (hroom : cur.length + rest.length < n) :
    (rest.foldlM splitTurn
        ⟨done ++ rowOf n cur :: List.replicate (countPipes rest) (rowOf n []), done.length,
          cur.length⟩).map Splitter.commands =
      some (done ++ (segments cur rest).map (rowOf n)) := by
  induction rest generalizing done cur with
  | nil => rfl
  | cons arg rest ih =>
      rw [List.length_cons] at hroom
      obtain ⟨m, hrow, hlonger⟩ := rowOf_of_lt (show cur.length < n by omega)
      rw [List.foldlM_cons, splitTurn, segments]
      split
      case isTrue harg =>
        have hcount : countPipes (arg :: rest) = countPipes rest + 1 := by
          rw [countPipes, harg, List.count_cons_self]
          rfl
        have hnull : storeAt (rowOf n cur) cur.length none = some (rowOf n cur) := by
          rw [hrow]
          exact storeAt_filled_null cur m
        have hnext := ih (done ++ [rowOf n cur]) [] (by rw [List.length_nil]; omega)
        rw [List.append_assoc, List.append_assoc, List.length_append, List.length_singleton] at hnext
        rw [Splitter.store_eq hnull, Option.map_some, hcount, List.replicate_succ, List.map_cons]
        exact hnext
      case isFalse harg =>
        have hcount : countPipes (arg :: rest) = countPipes rest := by
          rw [countPipes, List.count_cons_of_ne harg]
          rfl
        have harg' : storeAt (rowOf n cur) cur.length (some arg) = some (rowOf n (cur ++ [arg])) := by
          rw [hrow, hlonger]
          exact storeAt_filled cur m arg
        have hnext := ih done (cur ++ [arg]) (by
          rw [List.length_append, List.length_singleton]
          omega)
        rw [List.length_append, List.length_singleton] at hnext
        rw [Splitter.store_eq harg', Option.map_some, hcount]
        exact hnext

/-- `split_into_commands` stores every command at the start of its own array. -/
theorem splitIntoCommands_eq (argv : List Word) :
    splitIntoCommands argv (allocateCommands argv) =
      some ((segments [] argv).map (rowOf (argv.length + 1))) := by
  have hloop := foldlM_splitTurn (n := argv.length + 1) argv [] [] (by simp)
  rw [List.nil_append, List.nil_append] at hloop
  rw [← hloop, splitIntoCommands, allocateCommands, List.replicate_succ]
  rfl

/-- Every line is cut into its maximal runs without a blank, as many as have been counted, and
they fill their array with a null pointer behind them. Every vector of arguments is split into
one command more than it has bars, each with a null pointer in an array of its own and without
a bar, and the commands with bars between them are the vector. -/
theorem command_line_round_trip :
    (∀ line, ∃ words, Runs blank line words ∧ countArgs line = words.length ∧
        cut line = some (words.map some ++ [none], words.length)) ∧
      ∀ argv, ∃ commands, splitIntoCommands argv (allocateCommands argv) = some commands ∧
        commands.length = countPipes argv + 1 ∧
        (∀ p ∈ commands, p.length = argv.length + 1 ∧ none ∈ p ∧ bar ∉ command p) ∧
        [bar].intercalate (commands.map command) = argv := by
  refine ⟨fun line => ⟨strtok blank line, runs_strtok blank line, rfl, cut_eq line⟩, fun argv => ?_⟩
  refine ⟨_, splitIntoCommands_eq argv, ?_, ?_, ?_⟩
  · rw [List.length_map, length_segments]
  · rw [List.forall_mem_map]
    intro c hc
    have hle := length_le_of_mem_segments hc
    rw [List.length_nil, Nat.zero_add] at hle
    refine ⟨?_, ?_, ?_⟩
    · rw [rowOf, length_filled]
      omega
    · rw [rowOf, filled, List.mem_append, List.mem_replicate]
      exact Or.inr ⟨by omega, rfl⟩
    · rw [rowOf, command_filled]
      exact bar_notMem_segments List.not_mem_nil c hc
  · rw [command_rows, intercalate_segments, List.nil_append]

end OSProjects.Shell
