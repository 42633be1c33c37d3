import Mathlib.Data.Set.Card
import OSProjects.Foundation.DescriptorTable
import OSProjects.Shell.Splitting

/-!
# Pipelines

The shell runs the commands of a pipeline one after the other. A pipe is made for every
command, the last one included, and the two static pairs of descriptors change places after
every command. System calls do not fail here.
-/

namespace OSProjects.Shell

open DescriptorTable

/-- What a descriptor stands for. Pipes are numbered as they are made. -/
inductive Object
  /-- What the shell has been started with. -/
  | inherited (n : Nat)
  | readEnd (pipe : Nat)
  | writeEnd (pipe : Nat)
  deriving DecidableEq, Repr

/-- The shell's descriptors, the pairs `pipes[0]` and `pipes[1]`, and the number of the next
pipe. -/
structure Wiring where
  table : Table Object
  pipes0 : Nat × Nat
  pipes1 : Nat × Nat
  nextPipe : Nat

/-- A call of `fork`: the shell's descriptors, those of the command when it is executed, and
the arguments of the command. -/
structure Forked where
  shell : Table Object
  child : Table Object
  argv : Pointers

namespace Wiring

/-- `setup_pipes`. -/
def setupPipes (s : Wiring) (pipeCount : Nat) : Wiring :=
  if pipeCount = 0 then s
  else
    let (table, r, w) := pipe s.table (.readEnd s.nextPipe) (.writeEnd s.nextPipe)
    { s with table := table, pipes0 := (r, w), nextPipe := s.nextPipe + 1 }

/-- `setup_io_redirection`, on the table of the child. -/
def setupIoRedirection (s : Wiring) (i pipeCount : Nat) : Table Object :=
  let table := if i = pipeCount ∨ i ≠ 0 then dup2 s.table s.pipes1.1 0 else s.table
  if i = 0 ∨ i ≠ pipeCount then dup2 table s.pipes0.2 1 else table

/-- The parent's calls of `close` in `exec_pipe`. -/
def closePipes (s : Wiring) (i pipeCount : Nat) : Wiring :=
  let table := if i = pipeCount ∨ i ≠ 0 then close s.table s.pipes1.1 else s.table
  { s with table := if i = 0 ∨ i ≠ pipeCount then close table s.pipes0.2 else table }

/-- `alternate_pipes`. -/
def alternatePipes (s : Wiring) : Wiring := { s with pipes0 := s.pipes1, pipes1 := s.pipes0 }

/-- `exec_pipe`. -/
def execPipe (s : Wiring) (i pipeCount : Nat) (command : Pointers) : Forked × Wiring :=
  let s := s.setupPipes pipeCount
  (⟨s.table, s.setupIoRedirection i pipeCount, command⟩,
    (s.closePipes i pipeCount).alternatePipes)

/-- The loop of `process_pipe`, from command `i` on. -/
def execPipes (s : Wiring) (pipeCount i : Nat) : List Pointers → List Forked × Wiring
  | [] => ([], s)
  | command :: rest =>
      let (forked, s) := s.execPipe i pipeCount command
      let (later, s) := s.execPipes pipeCount (i + 1) rest
      (forked :: later, s)

end Wiring

/-- Arguments that `process_pipe` does not leave to `exec_cmd`. -/
def IsPipeline (argv : List Word) : Prop := 1 < argv.length ∧ countPipes argv ≠ 0

instance (argv : List Word) : Decidable (IsPipeline argv) := instDecidableAnd

namespace Wiring

/-- `process_pipe`. The loop ends behind the last command, and `exec_cmd` leaves the shell's
descriptors as they are. -/
def processPipe (s : Wiring) (argv : List Word) : List Forked × Wiring :=
  if IsPipeline argv then
    match splitIntoCommands argv (allocateCommands argv) with
    | none => ([], s)
    | some commands => s.execPipes (countPipes argv) 0 commands
  else ([], s)

/-- The shell after some command lines. -/
def after (s : Wiring) (lines : List (List Word)) : Wiring :=
  lines.foldl (fun s argv => (s.processPipe argv).2) s

/-- The shell with other contents of its two pairs. -/
def withPipes (s : Wiring) (pipes0 pipes1 : Nat × Nat) : Wiring :=
  { s with pipes0 := pipes0, pipes1 := pipes1 }

/-- A shell with a standard input, a standard output and other descriptors. -/
def start (stdin stdout : Nat) (others : List (Option Nat)) : Wiring :=
  ⟨(some stdin :: some stdout :: others).map (Option.map .inherited), (0, 0), (0, 0), 0⟩

/-- A shell that has its input and its output, and no end of a pipe that is still to be made. -/
structure Ready (s : Wiring) : Prop where
  stdin : get s.table 0 ≠ none
  stdout : get s.table 1 ≠ none
  made : ∀ fd p, get s.table fd = some (.writeEnd p) → p < s.nextPipe

/-- The shell has two more descriptors than it had, the ends of one pipe. -/
def Leaked (base s : Wiring) (p : Nat) : Prop :=
  ∃ r w, get base.table r = none ∧ get base.table w = none ∧ r ≠ w ∧
    ∀ fd, get s.table fd =
      if fd = w then some (.writeEnd p) else if fd = r then some (.readEnd p)
      else get base.table fd

/-- The shell in front of command `i`. Apart from what it had in front of the first command, it
has the read end of the last pipe, and `pipes[1]` names it. -/
structure Between (base : Wiring) (i : Nat) (s : Wiring) : Prop where
  nextPipe : s.nextPipe = base.nextPipe + i
  first : i = 0 → ∀ fd, get s.table fd = get base.table fd
  later : ∀ j, i = j + 1 → get base.table s.pipes1.1 = none ∧
    ∀ fd, get s.table fd =
      if fd = s.pipes1.1 then some (.readEnd (base.nextPipe + j)) else get base.table fd

section Stage

variable {base s : Wiring} {i k : Nat}

/-! The first command leaves `pipes[1]` alone, the last one `pipes[0]`. -/

theorem closePipes_first (s : Wiring) (hk : k ≠ 0) :
    s.closePipes 0 k = { s with table := close s.table s.pipes0.2 } := by
  simp [closePipes, hk.symm]

theorem closePipes_inner (s : Wiring) (hi : i ≠ 0) (hik : i ≠ k) :
    s.closePipes i k = { s with table := close (close s.table s.pipes1.1) s.pipes0.2 } := by
  simp [closePipes, hi, hik]

theorem closePipes_last (s : Wiring) (hk : k ≠ 0) :
    s.closePipes k k = { s with table := close s.table s.pipes1.1 } := by
  simp [closePipes, hk]

theorem setupIoRedirection_first (s : Wiring) (hk : k ≠ 0) :
    s.setupIoRedirection 0 k = dup2 s.table s.pipes0.2 1 := by
  simp [setupIoRedirection, hk.symm]

theorem setupIoRedirection_inner (s : Wiring) (hi : i ≠ 0) (hik : i ≠ k) :
    s.setupIoRedirection i k = dup2 (dup2 s.table s.pipes1.1 0) s.pipes0.2 1 := by
  simp [setupIoRedirection, hi, hik]

theorem setupIoRedirection_last (s : Wiring) (hk : k ≠ 0) :
    s.setupIoRedirection k k = dup2 s.table s.pipes1.1 0 := by
  simp [setupIoRedirection, hk]

/-- What is free in front of a command was free in front of the first one. -/
theorem Between.free (h : Between base i s) {fd : Nat} (hfd : get s.table fd = none) :
    get base.table fd = none := by
  cases i with
  | zero => rw [← h.first rfl, hfd]
  | succ j =>
      obtain ⟨-, hget⟩ := h.later j rfl
      rw [hget] at hfd
      split at hfd
      · cases hfd
      · exact hfd

/-- What `exec_pipe` does, with the pipe that it makes. -/
theorem execPipe_eq (s : Wiring) (i : Nat) (hk : k ≠ 0) (command : Pointers) :
    ∃ u r w, get s.table r = none ∧ get s.table w = none ∧ r ≠ w ∧
      (∀ fd, get u fd =
        if fd = w then some (.writeEnd s.nextPipe)
        else if fd = r then some (.readEnd s.nextPipe) else get s.table fd) ∧
      s.execPipe i k command =
        (⟨u, setupIoRedirection ⟨u, (r, w), s.pipes1, s.nextPipe + 1⟩ i k, command⟩,
          (closePipes ⟨u, (r, w), s.pipes1, s.nextPipe + 1⟩ i k).alternatePipes) := by
  obtain ⟨u, r, w, hpipe, hr, hw, hne, hget⟩ :=
    get_pipe s.table (.readEnd s.nextPipe) (.writeEnd s.nextPipe)
  refine ⟨u, r, w, hr, hw, hne, hget, ?_⟩
  rw [execPipe, setupPipes, if_neg hk, hpipe]

/-- After a command that is not the last one, the shell keeps the read end of its pipe. -/
theorem Between.next (h : Between base i s) (hi : i < k) (command : Pointers) :
    Between base (i + 1) (s.execPipe i k command).2 := by
  obtain ⟨u, r, w, hr, hw, hne, hget, heq⟩ := execPipe_eq s i (Nat.ne_zero_of_lt hi) command
  rw [heq]
  refine ⟨by rw [Nat.add_comm i, ← Nat.add_assoc, Nat.add_right_comm, ← h.nextPipe]; rfl, nofun, ?_⟩
  rintro j hj
  obtain rfl : i = j := Nat.succ.inj hj
  refine ⟨h.free hr, fun fd => ?_⟩
  have hbase := h.free hw
  cases i with
  | zero =>
      rw [closePipes_first _ (Nat.ne_zero_of_lt hi), alternatePipes]
      dsimp only
      rw [get_close, hget, h.first rfl, h.nextPipe]
      split
      case isTrue hfd => rw [hfd, if_neg hne.symm, hbase]
      case isFalse hfd => rfl
  | succ j =>
      obtain ⟨hfree, hlater⟩ := h.later j rfl
      rw [closePipes_inner _ (Nat.succ_ne_zero j) (Nat.ne_of_lt hi), alternatePipes]
      dsimp only
      rw [get_close, get_close, hget, hlater, h.nextPipe]
      have hpr : r ≠ s.pipes1.1 := by
        rintro rfl
        rw [hlater, if_pos rfl] at hr
        cases hr
      by_cases hfd : fd = w
      · rw [if_pos hfd, hfd, if_neg hne.symm, hbase]
      · rw [if_neg hfd, if_neg hfd]
        by_cases hold : fd = s.pipes1.1
        · rw [if_pos hold, hold, if_neg hpr.symm, hfree]
        · rw [if_neg hold, if_neg hold]

/-- After the last command, both ends of its pipe stay open. -/
theorem Between.last (h : Between base k s) (hk : k ≠ 0) (command : Pointers) :
    Leaked base (s.execPipe k k command).2 (base.nextPipe + k) := by
  obtain ⟨u, r, w, hr, hw, hne, hget, heq⟩ := execPipe_eq s k hk command
  refine ⟨r, w, h.free hr, h.free hw, hne, fun fd => ?_⟩
  obtain ⟨j, rfl⟩ := Nat.exists_eq_succ_of_ne_zero hk
  obtain ⟨hfree, hlater⟩ := h.later j rfl
  rw [heq, closePipes_last _ hk, alternatePipes]
  dsimp only
  rw [get_close, hget, hlater, h.nextPipe]
  by_cases hold : fd = s.pipes1.1
  · have hfdw : fd ≠ w := by
      rintro rfl
      rw [hold, hlater, if_pos rfl] at hw
      cases hw
    have hfdr : fd ≠ r := by
      rintro rfl
      rw [hold, hlater, if_pos rfl] at hr
      cases hr
    rw [if_pos hold, if_neg hfdw, if_neg hfdr, hold, hfree]
  · rw [if_neg hold, if_neg hold]

end Stage

/-! ## Commands -/

/-- A command with its input from the pipe in front of it and its output to its own pipe. -/
structure Staged (base : Wiring) (i k : Nat) (f : Forked) : Prop where
  input : get f.child 0 =
    if i = 0 then get base.table 0 else some (.readEnd (base.nextPipe + (i - 1)))
  output : get f.child 1 =
    if i = k then get base.table 1 else some (.writeEnd (base.nextPipe + i))
  shell : ∀ fd p, get f.shell fd = some (.writeEnd p) →
    p < base.nextPipe ∨ p = base.nextPipe + i
  child : ∀ fd p, get f.child fd = some (.writeEnd p) →
    p < base.nextPipe ∨ p = base.nextPipe + i

/-- The table of the shell when a command is forked, `w` being the write end of its pipe. -/
structure Opened (base s : Wiring) (i : Nat) (u : Table Object) (w : Nat) : Prop where
  stdin : get u 0 = get base.table 0
  stdout : get u 1 = get base.table 1
  ne : w ≠ 0
  write : get u w = some (.writeEnd (base.nextPipe + i))
  read : i ≠ 0 → get u s.pipes1.1 = some (.readEnd (base.nextPipe + (i - 1)))
  ends : ∀ fd p, get u fd = some (.writeEnd p) → p < base.nextPipe ∨ p = base.nextPipe + i

section Commands

variable {base s : Wiring} {i k : Nat}

/-- What the shell had in front of the first command stays. -/
theorem Between.keeps (h : Between base i s) {fd : Nat} (hfd : get base.table fd ≠ none) :
    get s.table fd = get base.table fd := by
  cases i with
  | zero => exact h.first rfl fd
  | succ j =>
      obtain ⟨hfree, hget⟩ := h.later j rfl
      rw [hget, if_neg]
      rintro rfl
      exact hfd hfree

theorem Between.writeEnd_lt (h : Between base i s) (hbase : base.Ready) {fd p : Nat}
    (hfd : get s.table fd = some (.writeEnd p)) : p < base.nextPipe := by
  cases i with
  | zero => exact hbase.made fd p (h.first rfl fd ▸ hfd)
  | succ j =>
      obtain ⟨-, hget⟩ := h.later j rfl
      rw [hget] at hfd
      split at hfd
      · cases hfd
      · exact hbase.made fd p hfd

theorem Between.opened (h : Between base i s) (hbase : base.Ready) {u : Table Object} {r w : Nat}
    (hr : get s.table r = none) (hw : get s.table w = none)
    (hget : ∀ fd, get u fd =
      if fd = w then some (.writeEnd s.nextPipe)
      else if fd = r then some (.readEnd s.nextPipe) else get s.table fd) :
    Opened base s i u w := by
  have hopen : ∀ fd, get s.table fd ≠ none → get u fd = get s.table fd := by
    intro fd hfd
    rw [hget, if_neg (fun heq : fd = w => hfd (heq ▸ hw)),
      if_neg (fun heq : fd = r => hfd (heq ▸ hr))]
  have hbaseOpen : ∀ fd, get base.table fd ≠ none → get u fd = get base.table fd := by
    intro fd hfd
    rw [hopen fd (h.keeps hfd ▸ hfd), h.keeps hfd]
  refine ⟨hbaseOpen 0 hbase.stdin, hbaseOpen 1 hbase.stdout, ?_, ?_, fun hi => ?_, fun fd p hfd => ?_⟩
  · rintro rfl
    exact hbase.stdin (h.free hw)
  · rw [hget, if_pos rfl, h.nextPipe]
  · obtain ⟨j, rfl⟩ := Nat.exists_eq_succ_of_ne_zero hi
    obtain ⟨-, hlater⟩ := h.later j rfl
    have hread := hlater s.pipes1.1
    rw [if_pos rfl] at hread
    rw [hopen _ (by rw [hread]; nofun), hread]
    rfl
  · rw [hget] at hfd
    split at hfd
    · cases hfd
      exact Or.inr h.nextPipe
    · split at hfd
      · cases hfd
      · exact Or.inl (h.writeEnd_lt hbase hfd)

/-- The descriptors of the child: its output goes to its pipe unless it is the last command,
and its input comes from the pipe in front of it unless it is the first one. -/
theorem Opened.get_child {u : Table Object} {r w n : Nat} (hu : Opened base s i u w) (hk : k ≠ 0)
    (fd : Nat) :
    get (setupIoRedirection ⟨u, (r, w), s.pipes1, n⟩ i k) fd =
      if fd = 1 ∧ i ≠ k then some (.writeEnd (base.nextPipe + i))
      else if fd = 0 ∧ i ≠ 0 then some (.readEnd (base.nextPipe + (i - 1)))
      else get u fd := by
  by_cases hi : i = 0
  case pos =>
    subst hi
    rw [setupIoRedirection_first _ hk, get_dup2 hu.write]
    simp [hk.symm]
  case neg =>
    have hread := hu.read hi
    by_cases hik : i = k
    case pos =>
      subst hik
      rw [setupIoRedirection_last _ hk, get_dup2 hread]
      simp [hi]
    case neg =>
      have hwrite : get (dup2 u s.pipes1.1 0) w = some (.writeEnd (base.nextPipe + i)) := by
        rw [get_dup2 hread, if_neg hu.ne, hu.write]
      rw [setupIoRedirection_inner _ hi hik, get_dup2 hwrite, get_dup2 hread]
      simp [hi, hik]

theorem Between.staged (h : Between base i s) (hbase : base.Ready) (hk : k ≠ 0)
    (command : Pointers) : Staged base i k (s.execPipe i k command).1 := by
  obtain ⟨u, r, w, hr, hw, -, hget, heq⟩ := execPipe_eq s i hk command
  have hu := h.opened hbase hr hw hget
  rw [heq]
  refine ⟨?_, ?_, hu.ends, fun fd p hfd => ?_⟩
  · rw [hu.get_child hk, if_neg (fun hone => Nat.zero_ne_one hone.1)]
    by_cases hi : i = 0
    · rw [if_neg (fun hne => hne.2 hi), if_pos hi, hu.stdin]
    · rw [if_pos ⟨rfl, hi⟩, if_neg hi]
  · rw [hu.get_child hk]
    by_cases hik : i = k
    · rw [if_neg (fun hne => hne.2 hik), if_neg (fun hzero => Nat.one_ne_zero hzero.1), if_pos hik,
        hu.stdout]
    · rw [if_pos ⟨rfl, hik⟩, if_neg hik]
  · rw [hu.get_child hk] at hfd
    split at hfd
    · cases hfd
      exact Or.inr rfl
    · split at hfd
      · cases hfd
      · exact hu.ends fd p hfd

end Commands

/-! ## Whole pipelines -/

section Pipelines

variable {base s : Wiring} {i k : Nat} {commands : List Pointers} {argv : List Word}

theorem Between.refl (s : Wiring) : Between s 0 s := ⟨rfl, fun _ _ => rfl, nofun⟩

theorem nextPipe_execPipe (s : Wiring) (i : Nat) (hk : k ≠ 0) (command : Pointers) :
    (s.execPipe i k command).2.nextPipe = s.nextPipe + 1 := by
  rw [execPipe, setupPipes, if_neg hk]
  rfl

theorem nextPipe_execPipes (s : Wiring) (i : Nat) (hk : k ≠ 0) (commands : List Pointers) :
    (s.execPipes k i commands).2.nextPipe = s.nextPipe + commands.length := by
  induction commands generalizing s i with
  | nil => rfl
  | cons command rest ih =>
      rw [execPipes, List.length_cons, Nat.add_comm rest.length, ← Nat.add_assoc]
      rw [← nextPipe_execPipe s i hk command]
      exact ih _ _

theorem argv_execPipes (s : Wiring) (k i : Nat) (commands : List Pointers) :
    (s.execPipes k i commands).1.map Forked.argv = commands := by
  induction commands generalizing s i with
  | nil => rfl
  | cons command rest ih =>
      rw [execPipes, List.map_cons]
      exact congrArg _ (ih _ _)

/-- The loop leaves both ends of its last pipe open. -/
theorem Between.leaked (h : Between base i s) (hk : k ≠ 0) (hlength : i + commands.length = k + 1)
    (hi : i ≤ k) : Leaked base (s.execPipes k i commands).2 (base.nextPipe + k) := by
  induction commands generalizing s i with
  | nil =>
      rw [List.length_nil] at hlength
      omega
  | cons command rest ih =>
      rw [List.length_cons] at hlength
      rcases Nat.lt_or_eq_of_le hi with hlt | rfl
      · exact ih (h.next hlt command) (by omega) hlt
      · obtain rfl : rest = [] := List.eq_nil_of_length_eq_zero (by omega)
        exact h.last hk command

/-- Every command of the loop is staged. -/
theorem Between.execPipes (h : Between base i s) (hbase : base.Ready) (hk : k ≠ 0)
    (hlength : i + commands.length = k + 1) {j : Nat} {f : Forked}
    (hf : (s.execPipes k i commands).1[j]? = some f) : Staged base (i + j) k f := by
  induction commands generalizing s i j with
  | nil => cases hf
  | cons command rest ih =>
      rw [List.length_cons] at hlength
      rw [Wiring.execPipes] at hf
      cases j with
      | zero =>
          rw [List.getElem?_cons_zero] at hf
          exact Option.some.inj hf ▸ h.staged hbase hk command
      | succ j =>
          rw [List.getElem?_cons_succ] at hf
          cases rest with
          | nil => cases hf
          | cons next rest =>
              rw [List.length_cons] at hlength
              have hnext := ih (h.next (by omega) command) (by rw [List.length_cons]; omega) hf
              rwa [Nat.add_right_comm, Nat.add_assoc] at hnext

/-- The arrays of a pipeline are run by the loop. -/
theorem processPipe_eq (s : Wiring) (h : IsPipeline argv) :
    s.processPipe argv = s.execPipes (countPipes argv) 0 ((segments [] argv).map (rowOf
      (argv.length + 1))) := by
  rw [processPipe, if_pos h, splitIntoCommands_eq]

theorem length_rows (argv : List Word) (n : Nat) :
    0 + ((segments [] argv).map (rowOf n)).length = countPipes argv + 1 := by
  rw [Nat.zero_add, List.length_map, length_segments]

/-- A pipeline leaks the ends of the pipe of its last command. -/
theorem leaked_processPipe (s : Wiring) (h : IsPipeline argv) :
    Leaked s (s.processPipe argv).2 (s.nextPipe + countPipes argv) := by
  rw [processPipe_eq s h]
  exact (Between.refl s).leaked h.2 (length_rows argv _) (Nat.zero_le _)

/-- The shell stays ready. -/
theorem Ready.processPipe (hs : s.Ready) (argv : List Word) : (s.processPipe argv).2.Ready := by
  by_cases h : IsPipeline argv
  case neg =>
    rw [Wiring.processPipe, if_neg h]
    exact hs
  case pos =>
    obtain ⟨r, w, hr, hw, -, hget⟩ := leaked_processPipe s h
    have hnext : (s.processPipe argv).2.nextPipe = s.nextPipe + (countPipes argv + 1) := by
      rw [processPipe_eq s h, nextPipe_execPipes _ _ h.2, List.length_map, length_segments]
    have hopen : ∀ fd, get s.table fd ≠ none → get (s.processPipe argv).2.table fd ≠ none := by
      intro fd hfd
      rwa [hget, if_neg (fun heq : fd = w => hfd (heq ▸ hw)),
        if_neg (fun heq : fd = r => hfd (heq ▸ hr))]
    refine ⟨hopen 0 hs.stdin, hopen 1 hs.stdout, fun fd p hfd => ?_⟩
    rw [hget] at hfd
    rw [hnext]
    split at hfd
    · cases hfd
      omega
    · split at hfd
      · cases hfd
      · exact Nat.lt_add_right _ (hs.made fd p hfd)

theorem Ready.after (hs : s.Ready) (lines : List (List Word)) : (s.after lines).Ready := by
  induction lines generalizing s with
  | nil => exact hs
  | cons argv rest ih => exact ih (hs.processPipe argv)

theorem ready_start (stdin stdout : Nat) (others : List (Option Nat)) :
    (start stdin stdout others).Ready := by
  refine ⟨nofun, nofun, fun fd p hfd => ?_⟩
  have hinherited : ∀ x ∈ (start stdin stdout others).table, x ≠ some (.writeEnd p) := by
    intro x hx
    obtain ⟨y, -, rfl⟩ := List.mem_map.mp hx
    cases y <;> nofun
  rw [DescriptorTable.get, Option.join_eq_some_iff] at hfd
  exact absurd rfl (hinherited _ (List.mem_of_getElem? hfd))

/-- The pipe with number `p` joins command `i` to the next one: one writes to it, the other
reads from it, and whenever another command is forked neither that command nor the shell can
write to it. -/
structure Joined (forked : List Forked) (i p : Nat) : Prop where
  output : ∀ f, forked[i]? = some f → get f.child 1 = some (.writeEnd p)
  input : ∀ f, forked[i + 1]? = some f → get f.child 0 = some (.readEnd p)
  closed : ∀ j f, forked[j]? = some f → j ≠ i → ∀ fd,
    get f.shell fd ≠ some (.writeEnd p) ∧ get f.child fd ≠ some (.writeEnd p)

/-- The commands between the bars are forked in order, the first one with the shell's input and
the last one with its output, and neighbours are joined by pipes of their own. -/
structure Wired (s : Wiring) (argv : List Word) (forked : List Forked) : Prop where
  commands : [bar].intercalate (forked.map fun f => command f.argv) = argv
  length : forked.length = countPipes argv + 1
  input : ∀ f, forked[0]? = some f → get f.child 0 = get s.table 0
  output : ∀ f, forked[countPipes argv]? = some f → get f.child 1 = get s.table 1
  pipes : ∃ pipe : Nat → Nat, Function.Injective pipe ∧
    ∀ i < countPipes argv, Joined forked i (pipe i)

theorem Ready.wired (hs : s.Ready) (h : IsPipeline argv) : Wired s argv (s.processPipe argv).1 := by
  have hargv := argv_execPipes s (countPipes argv) 0
    ((segments [] argv).map (rowOf (argv.length + 1)))
  have hstaged : ∀ j f, (s.processPipe argv).1[j]? = some f →
      Staged s j (countPipes argv) f := by
    intro j f hf
    rw [processPipe_eq s h] at hf
    have hj := (Between.refl s).execPipes hs h.2 (length_rows argv _) hf
    rwa [Nat.zero_add] at hj
  rw [← processPipe_eq s h] at hargv
  constructor
  case commands =>
    have hmap := congrArg (List.map command) hargv
    rw [List.map_map, command_rows] at hmap
    exact (congrArg _ hmap).trans (intercalate_segments [] argv)
  case length => rw [← List.length_map (f := Forked.argv), hargv, List.length_map, length_segments]
  case input => exact fun f hf => (hstaged 0 f hf).input.trans (if_pos rfl)
  case output => exact fun f hf => (hstaged _ f hf).output.trans (if_pos rfl)
  case pipes =>
    refine ⟨fun i => s.nextPipe + i, fun i j heq => Nat.add_left_cancel heq, fun i hi => ?_⟩
    constructor
    case output => exact fun f hf => (hstaged i f hf).output.trans (if_neg (Nat.ne_of_lt hi))
    case input => exact fun f hf => (hstaged _ f hf).input.trans (if_neg (Nat.succ_ne_zero i))
    case closed =>
      intro j f hf hne fd
      have hother : ¬(s.nextPipe + i < s.nextPipe ∨ s.nextPipe + i = s.nextPipe + j) := by omega
      exact ⟨fun hfd => hother ((hstaged j f hf).shell fd _ hfd),
        fun hfd => hother ((hstaged j f hf).child fd _ hfd)⟩

end Pipelines

/-- In a shell that has run any command lines, whatever its two pairs of descriptors hold, the
commands of every pipeline are wired. -/
theorem pipeline_wired (stdin stdout : Nat) (others : List (Option Nat))
    (earlier : List (List Word)) (pipes0 pipes1 : Nat × Nat) {argv : List Word}
    (h : IsPipeline argv) :
    Wired (((start stdin stdout others).after earlier).withPipes pipes0 pipes1) argv
      ((((start stdin stdout others).after earlier).withPipes pipes0 pipes1).processPipe argv).1 :=
  have hready := (ready_start stdin stdout others).after earlier
  Ready.wired ⟨hready.stdin, hready.stdout, hready.made⟩ h

/-- `a | b | c`. -/
def threeCommands : List Word := [[97], bar, [98], bar, [99]]

theorem pipeline_wired_three :
    IsPipeline threeCommands ∧
      Wired (((start 0 1 []).after [threeCommands]).withPipes (3, 4) (1, 1)) threeCommands
        ((((start 0 1 []).after [threeCommands]).withPipes (3, 4) (1, 1)).processPipe
          threeCommands).1 :=
  ⟨by decide, pipeline_wired 0 1 [] [threeCommands] (3, 4) (1, 1) (by decide)⟩

/-! ## Leaks -/

/-- After every command line, the shell has the descriptors open that it had open before. -/
def LeakFree (s : Wiring) (lines : List (List Word)) : Prop :=
  ∀ pre argv, pre ++ [argv] <+: lines →
    openSet (s.after (pre ++ [argv])).table = openSet (s.after pre).table

section Leaks

variable {base s : Wiring} {p : Nat} {argv : List Word}

/-- The two descriptors are new. -/
theorem Leaked.openSet (h : Leaked base s p) :
    ∃ r w, r ∉ openSet base.table ∧ w ∉ openSet base.table ∧ r ≠ w ∧
      openSet s.table = insert r (insert w (openSet base.table)) := by
  obtain ⟨r, w, hr, hw, hne, hget⟩ := h
  refine ⟨r, w, fun hmem => hmem hr, fun hmem => hmem hw, hne, Set.ext fun fd => ?_⟩
  rw [Set.mem_insert_iff, Set.mem_insert_iff, DescriptorTable.openSet, Set.mem_ofPred_eq, hget]
  by_cases hfw : fd = w
  case pos =>
    rw [if_pos hfw]
    exact iff_of_true nofun (Or.inr (Or.inl hfw))
  case neg =>
    rw [if_neg hfw]
    by_cases hfr : fd = r
    case pos =>
      rw [if_pos hfr]
      exact iff_of_true nofun (Or.inl hfr)
    case neg =>
      rw [if_neg hfr, or_iff_right hfr, or_iff_right hfw]
      rfl

theorem after_concat (s : Wiring) (pre : List (List Word)) (argv : List Word) :
    s.after (pre ++ [argv]) = ((s.after pre).processPipe argv).2 := by
  rw [after, List.foldl_append]
  rfl

theorem processPipe_of_not (s : Wiring) (h : ¬IsPipeline argv) : s.processPipe argv = ([], s) :=
  if_neg h

/-- A command line keeps the descriptors exactly when it is no pipeline. -/
theorem openSet_processPipe (s : Wiring) (argv : List Word) :
    DescriptorTable.openSet (s.processPipe argv).2.table = DescriptorTable.openSet s.table ↔
      ¬IsPipeline argv := by
  constructor
  · intro heq h
    obtain ⟨r, w, hr, -, -, hset⟩ := (leaked_processPipe s h).openSet
    rw [heq] at hset
    exact hr (hset ▸ Set.mem_insert r _)
  · intro h
    rw [processPipe_of_not s h]

end Leaks

/-- Descriptors are leaked exactly when a command line is a pipeline. -/
theorem leakFree_iff (s : Wiring) (lines : List (List Word)) :
    s.LeakFree lines ↔ ∀ argv ∈ lines, ¬IsPipeline argv := by
  constructor
  · intro h argv hargv
    obtain ⟨pre, post, rfl⟩ := List.append_of_mem hargv
    have hkeep := h pre argv ⟨post, by rw [List.append_assoc]; rfl⟩
    rw [after_concat] at hkeep
    exact (openSet_processPipe _ argv).mp hkeep
  · intro h pre argv hpre
    rw [after_concat]
    apply (openSet_processPipe _ argv).mpr (h argv _)
    exact hpre.subset (List.mem_append_right pre List.mem_cons_self)

/-- One pipeline of three commands leaks. -/
theorem pipeline_leaks : ¬∀ s lines, LeakFree s lines := by
  intro h
  have hkeep := h (start 0 1 []) [threeCommands] [] threeCommands (List.prefix_refl _)
  rw [after_concat] at hkeep
  exact (openSet_processPipe _ threeCommands).mp hkeep (by decide)

end Wiring

end OSProjects.Shell
