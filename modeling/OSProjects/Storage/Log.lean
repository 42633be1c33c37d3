import Mathlib.Data.Finset.Card
import OSProjects.Foundation.RedoLog
import OSProjects.Storage.Block

/-!
# The log of the file system

`log.c` with any number of processes between `begin_op` and `end_op`. A stretch of code that
holds `log.lock` is one step, and so is each block that `commit` or `recover_from_log` writes:
a crash can come between any two of them. The buffer cache is the map from block numbers to
the contents that `bread` returns; blocks of an open transaction stay in it.
-/

namespace OSProjects.Storage

open RedoLog Xv6

/-! ## The state -/

/-- The fields of `log` that `initlog` takes from the superblock. -/
structure LogArea where
  start : Nat
  size : Nat

/-- The panics of `log.c`, and a header that overruns `log.lh`. -/
inductive LogHalt
  | tooBig
  | outsideTrans
  | committing
  | wildHeader
  deriving DecidableEq, Repr

/-- Where `commit` or `recover_from_log` is. -/
inductive Phase
  | idle
  | writeLog (tail : Nat)
  | writeHead
  | install (tail : Nat)
  | clearHead
  /-- `commit` has returned to `end_op`. -/
  | committed
  /-- `initlog` has yet to read the header. -/
  | readHead
  | stopped (why : LogHalt)
  deriving DecidableEq, Repr

/-- A system call between `begin_op` and `end_op`: the blocks it has passed to `log_write`,
and those it has changed since. -/
structure Op where
  pid : Nat
  wrote : Finset Nat
  changed : Finset Nat

/-- `log`, the cache and the disk, and the processes in `begin_op` or behind it. -/
structure LogState where
  outstanding : Nat
  committing : Bool
  lh : List Nat
  phase : Phase
  recovering : Bool
  cache : Disk Block
  disk : Disk Block
  ops : List Op
  sleeping : List Nat

/-- Power on: memory is lost and `initlog` runs. -/
def LogState.boot (disk : Disk Block) : LogState where
  outstanding := 0
  committing := false
  lh := []
  phase := .readHead
  recovering := true
  cache := disk
  disk := disk
  ops := []
  sleeping := []

namespace LogState

/-- The same state at another place of the code. -/
def goto (s : LogState) (phase : Phase) : LogState := { s with phase := phase }

def halt (s : LogState) (why : LogHalt) : LogState := s.goto (.stopped why)

/-- `memmove` into the buffer of block `b`, and `bwrite` of it. -/
def bwrite (s : LogState) (b : Nat) (data : Block) : LogState :=
  { s with cache := Function.update s.cache b data, disk := Function.update s.disk b data }

/-! ## begin_op, log_write and end_op -/

/-- The condition under which `begin_op` does not sleep. -/
def Admits (s : LogState) : Prop :=
  s.committing = false ∧ ¬ logSize < s.lh.length + (s.outstanding + 1) * maxOpBlocks

instance (s : LogState) : Decidable s.Admits := inferInstanceAs (Decidable (_ ∧ _))

/-- One turn of the loop of `begin_op`. -/
def beginOp (s : LogState) (pid : Nat) : LogState :=
  if s.committing then { s with sleeping := pid :: s.sleeping }
  else if logSize < s.lh.length + (s.outstanding + 1) * maxOpBlocks then
    { s with sleeping := pid :: s.sleeping }
  else { s with outstanding := s.outstanding + 1, ops := ⟨pid, ∅, ∅⟩ :: s.ops }

/-- A process in a transaction changes the buffer of a block. -/
def change (s : LogState) (pid b : Nat) (data : Block) : LogState :=
  { s with
    cache := Function.update s.cache b data
    ops := s.ops.map fun o => if o.pid = pid then { o with changed := insert b o.changed } else o }

/-- `log_write` of the buffer of block `b`. -/
def logWrite (s : LogState) (L : LogArea) (pid b : Nat) : LogState :=
  if logSize ≤ s.lh.length ∨ L.size ≤ s.lh.length + 1 then s.halt .tooBig
  else if s.outstanding < 1 then s.halt .outsideTrans
  else
    { s with
      -- A block that is in the log already keeps its place.
      lh := if b ∈ s.lh then s.lh else s.lh ++ [b]
      ops := s.ops.map fun o =>
        if o.pid = pid then { o with wrote := insert b o.wrote, changed := o.changed.erase b }
        else o }

/-- `end_op`, up to the call of `commit`. -/
def endOp (s : LogState) (pid : Nat) : LogState :=
  let left := { s with
    outstanding := s.outstanding - 1
    ops := s.ops.eraseP fun o => o.pid = pid }
  if s.committing then left.halt .committing
  else if s.outstanding - 1 = 0 then
    { left with
      committing := true
      phase := if 0 < s.lh.length then .writeLog 0 else .committed }
  else { left with sleeping := [] }

/-! ## commit and recover_from_log -/

/-- The return of `commit` or of `recover_from_log`, with `log.lh.n = 0`. -/
def cleared (s : LogState) : LogState :=
  { s with
    lh := []
    phase := if s.recovering then .idle else .committed
    recovering := false }

/-- The next block that `commit` or `recover_from_log` writes, or the end of one of their
loops. -/
def proceed (s : LogState) (L : LogArea) : LogState :=
  match s.phase with
  | .idle => s
  | .stopped _ => s
  | .writeLog tail =>
      match s.lh[tail]? with
      | some b => (s.bwrite (L.start + tail + 1) (s.cache b)).goto (.writeLog (tail + 1))
      | none => s.goto .writeHead
  | .writeHead => (s.bwrite L.start (encodeHead (s.cache L.start) s.lh)).goto (.install 0)
  | .install tail =>
      match s.lh[tail]? with
      | some b => (s.bwrite b (s.cache (L.start + tail + 1))).goto (.install (tail + 1))
      | none => s.goto .clearHead
  | .clearHead => (s.bwrite L.start (encodeHead (s.cache L.start) [])).cleared
  | .committed => { s with committing := false, sleeping := [], phase := .idle }
  | .readHead =>
      match decodeHead (s.cache L.start) with
      | some lh => { s with lh := lh, phase := .install 0 }
      | none => s.halt .wildHeader

@[simp] theorem goto_phase (s : LogState) (p : Phase) : (s.goto p).phase = p := rfl

end LogState

/-! ## Runs -/

/-- The shape of the log for the general argument: one block of it holds the header. -/
def LogArea.format (L : LogArea) : Format Block where
  start := L.start
  capacity := L.size - 1
  names := fun b => (decodeHead b).getD []

/-- What a process, the committer or the power supply does. -/
inductive LogAct
  | beginOp (pid : Nat)
  | sleepOp (pid : Nat)
  | change (pid b : Nat) (data : Block)
  | logWrite (pid b : Nat)
  | endOp (pid : Nat)
  | proceed
  | crash

/-- A process that is neither asleep in `begin_op` nor between `begin_op` and `end_op`, of a
system that runs. -/
structure LogState.Ready (s : LogState) (pid : Nat) : Prop where
  mounted : s.recovering = false
  alive : ∀ why, s.phase ≠ .stopped why
  awake : pid ∉ s.sleeping
  outside : ∀ o ∈ s.ops, o.pid ≠ pid

/-- A process between `begin_op` and `end_op`, of a system that runs. -/
structure LogState.Inside (s : LogState) (pid : Nat) : Prop where
  alive : ∀ why, s.phase ≠ .stopped why
  op : ∃ o ∈ s.ops, o.pid = pid

/-- One step. A system call changes and logs blocks outside the log only, and passes every
block that it has changed to `log_write` before `end_op`. -/
inductive LogStep (L : LogArea) : LogState → LogAct → LogState → Prop
  | beginOp {s : LogState} {pid} (hready : s.Ready pid) (hadmits : s.Admits) :
      LogStep L s (.beginOp pid) (s.beginOp pid)
  | sleepOp {s : LogState} {pid} (hready : s.Ready pid) (hfull : ¬ s.Admits) :
      LogStep L s (.sleepOp pid) (s.beginOp pid)
  | change {s : LogState} {pid b data} (hin : s.Inside pid) (hhome : L.format.Home b) :
      LogStep L s (.change pid b data) (s.change pid b data)
  | logWrite {s : LogState} {pid b} (hin : s.Inside pid) (hhome : L.format.Home b)
      (hword : b < 2 ^ 32) : LogStep L s (.logWrite pid b) (s.logWrite L pid b)
  | endOp {s : LogState} {pid} (hin : s.Inside pid)
      (hlogged : ∀ o ∈ s.ops, o.pid = pid → o.changed = ∅) :
      LogStep L s (.endOp pid) (s.endOp pid)
  | proceed {s : LogState} (hbusy : s.phase ≠ .idle) (halive : ∀ why, s.phase ≠ .stopped why) :
      LogStep L s .proceed (s.proceed L)
  | crash {s : LogState} : LogStep L s .crash (LogState.boot s.disk)

end OSProjects.Storage
