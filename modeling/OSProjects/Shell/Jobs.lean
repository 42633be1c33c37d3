import Mathlib.Algebra.GroupWithZero.Nat
import Mathlib.Data.Fin.Basic
import Mathlib.Data.List.FinRange
import Mathlib.Logic.Function.Basic
import OSProjects.Foundation.StepSystem

/-!
# The job table of the shell

`wsh.c`: the shell forks, registers and waits for its children, and the handler of
`SIGCHLD` reaps them in between.
-/

namespace OSProjects.Shell

open StepSystem

/-! ## The table -/

def maxJobCount : Nat := 256

instance : NeZero maxJobCount := ⟨by decide⟩

structure Job where
  pid : Nat
  command : List UInt8
  isBg : Bool
  inUse : Bool
  counterValue : Nat

/-- The array `jobs` and `counter`, a `long` that grows by one with each job. It is a number here,
below the end of its type for every history of fewer than 2^63 - 1 calls. -/
structure JobTable where
  jobs : Fin maxJobCount → Job
  counter : Nat

namespace JobTable

/-- `find_next_job_id`. -/
def findNextJobId (t : JobTable) : Option (Fin maxJobCount) :=
  (List.finRange maxJobCount).find? fun i => i ≠ 0 ∧ (t.jobs i).inUse = false

/-- `add_job`. Without a free id the source writes in front of the array. -/
def addJob (t : JobTable) (pid : Nat) (command : List UInt8) (isBg : Bool) : JobTable :=
  match t.findNextJobId with
  | none => { t with counter := t.counter + 1 }
  | some i =>
      { jobs := Function.update t.jobs i ⟨pid, command, isBg, true, t.counter⟩
        counter := t.counter + 1 }

/-- `remove_job`. -/
def removeJob (t : JobTable) (i : Fin maxJobCount) : JobTable :=
  if (t.jobs i).inUse then
    { t with jobs := Function.update t.jobs i { t.jobs i with inUse := false } }
  else t

/-- The loops that look for the job of a process. Slot 0 is never in use. -/
def findPid (t : JobTable) (pid : Nat) : Option (Fin maxJobCount) :=
  (List.finRange maxJobCount).find? fun i => (t.jobs i).inUse ∧ (t.jobs i).pid = pid

/-- `handle_exit_or_signal`, and the loop behind `waitpid` in `exec_cmd`. -/
def removePid (t : JobTable) (pid : Nat) : JobTable :=
  match t.findPid pid with
  | none => t
  | some i => t.removeJob i

end JobTable

/-! ## Processes -/

inductive RunState
  | running
  /-- Stopped; true once `waitpid` has reported it. -/
  | stopped (reported : Bool)
  /-- Exited and not reaped. -/
  | zombie
  deriving DecidableEq, Repr

/-- An unreaped child, and whether `exec_cmd` has started it. -/
structure Child where
  state : RunState
  isJob : Bool
  deriving DecidableEq, Repr

/-- Where the shell is. -/
inductive Mode
  | prompt
  /-- In `exec_cmd`, between `fork` and `add_job`. -/
  | forked (pid : Nat) (command : List UInt8) (isBg : Bool)
  /-- In `exec_cmd`, before `waitpid`. -/
  | waiting (pid : Nat)
  /-- In `exec_cmd`, before the loop that calls `remove_job`. -/
  | removing (pid : Nat)
  /-- In `wait_for_job`, before `waitpid`. -/
  | fgWaiting (i : Fin maxJobCount)
  /-- In `wait_for_job`, before `remove_job`. -/
  | fgRemoving (i : Fin maxJobCount)
  /-- In `exec_pipe`, before `waitpid`. -/
  | piping (pid : Nat)
  /-- In `exec_pipe`, before `waitpid(-1)`: `fork` has failed. -/
  | pipingAny

/-- The shell with its unreaped children. -/
structure Wsh where
  table : JobTable
  children : Nat → Option Child
  mode : Mode

namespace Wsh

def setChild (s : Wsh) (pid : Nat) (c : Option Child) : Wsh :=
  { s with children := Function.update s.children pid c }

/-- `waitpid(pid, &status, WUNTRACED)` returns for a child in this state. -/
def waitable : RunState → Bool
  | .running | .stopped true => false
  | .stopped false | .zombie => true

/-- One turn of the loop of `sigchld_handler`, for a child that `waitpid` reports. -/
def handlerTurn (s : Wsh) (pid : Nat) : Option Wsh :=
  match s.children pid with
  | some ⟨.zombie, _⟩ => some { s.setChild pid none with table := s.table.removePid pid }
  | some ⟨.stopped false, isJob⟩ => some (s.setChild pid (some ⟨.stopped true, isJob⟩))
  | _ => none

end Wsh

/-! ## Steps -/

inductive Act
  | fork (pid : Nat) (command : List UInt8) (isBg : Bool)
  | addJob
  | waitpid
  | removeJob
  | fg (i : Fin maxJobCount)
  | forkPipe (pid : Nat)
  | forkPipeFails
  | childExit (pid : Nat)
  | childStop (pid : Nat)
  | childContinue (pid : Nat)
  /-- A run of `sigchld_handler` and the children that it hears of. -/
  | handler (pids : List Nat)

/-- What `waitpid` for one child finds. When another call has reaped the child, `status` is
not set and may hold anything. -/
inductive Waited (s : Wsh) (pid : Nat) : Wsh → Bool → Prop
  | exited {isJob} (hc : s.children pid = some ⟨.zombie, isJob⟩) :
      Waited s pid (s.setChild pid none) false
  | stopped {isJob} (hc : s.children pid = some ⟨.stopped false, isJob⟩) :
      Waited s pid (s.setChild pid (some ⟨.stopped true, isJob⟩)) true
  | gone {stopped} (hc : s.children pid = none) : Waited s pid s stopped

inductive Step : Wsh → Act → Wsh → Prop
  | fork {s pid command isBg} (hmode : s.mode = .prompt) (hpid : s.children pid = none) :
      Step s (.fork pid command isBg)
        { s.setChild pid (some ⟨.running, true⟩) with mode := .forked pid command isBg }
  | addJob {s pid command isBg} (hmode : s.mode = .forked pid command isBg) :
      Step s .addJob { s with
        table := s.table.addJob pid command isBg
        mode := if isBg then .prompt else .waiting pid }
  | waitpid {s s' pid stopped} (hmode : s.mode = .waiting pid) (hwait : Waited s pid s' stopped) :
      Step s .waitpid { s' with mode := if stopped then .prompt else .removing pid }
  | removeJob {s pid} (hmode : s.mode = .removing pid) :
      Step s .removeJob { s with table := s.table.removePid pid, mode := .prompt }
  | fg {s i} (hmode : s.mode = .prompt) (huse : (s.table.jobs i).inUse = true) :
      Step s (.fg i) { s with mode := .fgWaiting i }
  | fgWait {s s' i stopped} (hmode : s.mode = .fgWaiting i)
      (hwait : Waited s (s.table.jobs i).pid s' stopped) :
      Step s .waitpid { s' with mode := if stopped then .prompt else .fgRemoving i }
  | fgRemove {s i} (hmode : s.mode = .fgRemoving i) :
      Step s .removeJob { s with table := s.table.removeJob i, mode := .prompt }
  | forkPipe {s pid} (hmode : s.mode = .prompt) (hpid : s.children pid = none) :
      Step s (.forkPipe pid)
        { s.setChild pid (some ⟨.running, false⟩) with mode := .piping pid }
  | pipeWait {s s' pid} (hmode : s.mode = .piping pid) (hwait : Waited s pid s' false) :
      Step s .waitpid { s' with mode := .prompt }
  | forkPipeFails {s} (hmode : s.mode = .prompt) :
      Step s .forkPipeFails { s with mode := .pipingAny }
  | pipeWaitAny {s s' pid} (hmode : s.mode = .pipingAny) (hwait : Waited s pid s' false)
      (hnone : s.children pid = none → ∀ p, s.children p = none) :
      Step s .waitpid { s' with mode := .prompt }
  | childExit {s pid state isJob} (hc : s.children pid = some ⟨state, isJob⟩) :
      Step s (.childExit pid) (s.setChild pid (some ⟨.zombie, isJob⟩))
  | childStop {s pid isJob} (hc : s.children pid = some ⟨.running, isJob⟩) :
      Step s (.childStop pid) (s.setChild pid (some ⟨.stopped false, isJob⟩))
  | childContinue {s pid reported isJob} (hc : s.children pid = some ⟨.stopped reported, isJob⟩) :
      Step s (.childContinue pid) (s.setChild pid (some ⟨.running, isJob⟩))
  | handler {s s' pids} (hrun : pids.foldlM Wsh.handlerTurn s = some s')
      (hdone : ∀ pid c, s'.children pid = some c → Wsh.waitable c.state = false) :
      Step s (.handler pids) s'

/-- The shell at its first prompt. -/
def start : Wsh where
  table := ⟨fun _ => ⟨0, [], false, false, 0⟩, 1⟩
  children := fun _ => none
  mode := .prompt

end OSProjects.Shell
