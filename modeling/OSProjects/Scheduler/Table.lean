import Mathlib.Algebra.Group.Int.Defs
import Mathlib.Algebra.Group.Nat.Defs
import Mathlib.Algebra.GroupWithZero.Nat
import Mathlib.Data.Fin.Basic
import Mathlib.Logic.Function.Basic
import OSProjects.Foundation.LeastScan

/-!
# The process table of the priority scheduler

`proc.c`, `trap.c` and `sysproc.c` of the scheduler project, as far as they read or write
what the scheduler depends on. A call is one step: it holds `ptable.lock`, with interrupts off
on its processor. The timer interrupt of the first processor runs `wakeup2` without that lock,
so a tick is one step on one processor, which the Makefile and the tests set, and on several as
far as no tick falls into a call that another processor is making.
-/

namespace OSProjects.Scheduler

open LeastScan

/-! ## The state -/

def nProc : Nat := 64

instance : NeZero nProc := ⟨by decide⟩

/-- The value of an `int`. -/
def int32 (z : Int) : Int := (z + 2 ^ 31) % 2 ^ 32 - 2 ^ 31

inductive ProcState
  | unused | embryo | sleeping | runnable | running | zombie
  deriving DecidableEq, Repr

/-- What a process sleeps on. -/
inductive Chan
  /-- `&ticks`. -/
  | ticks
  /-- A process, in `wait`. -/
  | proc (p : Fin nProc)
  /-- A buffer, a pipe, a lock or a log. -/
  | other (n : Nat)
  deriving DecidableEq, Repr

structure Proc where
  state : ProcState
  pid : Nat
  parent : Option (Fin nProc)
  chan : Option Chan
  killed : Bool
  cpuTicks : Int
  priority : Int
  wakeuptime : Nat
  niceValue : Int
  execTicks : Int

/-- The kernel on the processors `C`. -/
structure Kernel (C : Type) where
  procs : Fin nProc → Proc
  /-- `c->proc`; a processor without one is in `scheduler`. -/
  current : C → Option (Fin nProc)
  ticks : Nat
  nextpid : Nat
  initproc : Fin nProc

/-! ## The scheduler -/

/-- The initial `highest_priority`. -/
def highestPriority : Int := 50000

/-- The scan of `scheduler` over the table. -/
def select (procs : Fin nProc → Proc) : Option (Fin nProc) :=
  leastScan (fun p => (procs p).state = .runnable) (fun p => (procs p).priority) highestPriority
    (List.finRange nProc)

def decay (cpu : Int) : Int := cpu.tdiv 2

/-- What `update_priority` makes of a process. -/
def Proc.update (x : Proc) : Proc :=
  if x.state ≠ .unused then
    { x with
      cpuTicks := decay x.cpuTicks
      priority := (decay x.cpuTicks).tdiv 2 + x.niceValue }
  else x

def updatePriority (procs : Fin nProc → Proc) : Fin nProc → Proc := fun p => (procs p).update

/-! ## Sleeping and waking -/

/-- `wakeup1`. -/
def wakeup1 (procs : Fin nProc → Proc) (chan : Option Chan) : Fin nProc → Proc := fun p =>
  if (procs p).state = .sleeping ∧ (procs p).chan = chan then
    { procs p with state := .runnable }
  else procs p

/-- `wakeup2`. -/
def wakeup2 (procs : Fin nProc → Proc) (ticks : Nat) : Fin nProc → Proc := fun p =>
  if (procs p).state = .sleeping ∧ (procs p).wakeuptime ≤ ticks then
    { procs p with state := .runnable }
  else procs p

section Calls

variable {C : Type} [DecidableEq C]

def Kernel.setProc (k : Kernel C) (p : Fin nProc) (x : Proc) : Kernel C :=
  { k with procs := Function.update k.procs p x }

/-- The process of a processor gives it up. -/
def Kernel.leave (k : Kernel C) (c : C) : Kernel C :=
  { k with current := Function.update k.current c none }

/-- The turn of `scheduler` that runs `p`. Where `p` has called `sleep`, this also ends with
`p->chan = 0`. -/
def Kernel.dispatch (k : Kernel C) (c : C) (p : Fin nProc) : Kernel C :=
  let x := k.procs p
  { k.setProc p { x with
      state := .running
      chan := none
      cpuTicks := int32 (x.cpuTicks + 1)
      execTicks := int32 (x.execTicks + 1) } with
    current := Function.update k.current c (some p) }

/-- `yield`. -/
def Kernel.yield (k : Kernel C) (c : C) (p : Fin nProc) : Kernel C :=
  (k.setProc p { k.procs p with state := .runnable }).leave c

/-- `sleep`. -/
def Kernel.sleep (k : Kernel C) (c : C) (p : Fin nProc) (chan : Chan) : Kernel C :=
  (k.setProc p { k.procs p with chan := some chan, state := .sleeping }).leave c

/-- `sys_sleep` up to its first call of `sleep`. -/
def Kernel.sysSleep (k : Kernel C) (c : C) (p : Fin nProc) (n : Int) : Kernel C :=
  let wakeuptime := ((k.ticks + n) % 2 ^ 32).toNat
  let k := k.setProc p { k.procs p with wakeuptime := wakeuptime }
  if k.ticks < wakeuptime ∧ (k.procs p).killed = false then k.sleep c p .ticks else k

/-! ## The life of a process -/

/-- What `fork` finds of memory. -/
inductive ForkMemory
  | noStack | noCopy | enough
  deriving DecidableEq, Repr

/-- `allocproc` for the slot `np`, once there is a kernel stack. -/
def Kernel.allocproc (k : Kernel C) (np : Fin nProc) : Kernel C :=
  { k.setProc np { k.procs np with
      state := .embryo
      pid := k.nextpid
      niceValue := 0
      cpuTicks := 0
      priority := 0
      execTicks := 0 } with
    nextpid := k.nextpid + 1 }

def Kernel.findUnused (k : Kernel C) : Option (Fin nProc) :=
  (List.finRange nProc).find? fun p => (k.procs p).state = .unused

/-- `fork`. -/
def Kernel.fork (k : Kernel C) (p : Fin nProc) (memory : ForkMemory) : Kernel C :=
  match k.findUnused with
  | none => k
  | some np =>
      match memory with
      | .noStack =>
          { k.setProc np { k.procs np with state := .unused, pid := k.nextpid } with
            nextpid := k.nextpid + 1 }
      | .noCopy =>
          let k := k.allocproc np
          k.setProc np { k.procs np with state := .unused }
      | .enough =>
          let k := k.allocproc np
          k.setProc np { k.procs np with parent := some p, state := .runnable }

/-- One turn of the loop of `exit` that passes children to `initproc`. -/
def exitTurn (p initproc : Fin nProc) (procs : Fin nProc → Proc) (q : Fin nProc) :
    Fin nProc → Proc :=
  if (procs q).parent = some p then
    let procs := Function.update procs q { procs q with parent := some initproc }
    if (procs q).state = .zombie then wakeup1 procs (some (.proc initproc)) else procs
  else procs

/-- `exit` of a process other than `initproc`. -/
def Kernel.exit (k : Kernel C) (c : C) (p : Fin nProc) : Kernel C :=
  let procs := wakeup1 k.procs ((k.procs p).parent.map Chan.proc)
  let procs := (List.finRange nProc).foldl (exitTurn p k.initproc) procs
  { k with procs := Function.update procs p { procs p with state := .zombie } }.leave c

/-- One pass of `wait`. -/
def Kernel.wait (k : Kernel C) (c : C) (p : Fin nProc) : Kernel C :=
  match (List.finRange nProc).find? fun q =>
      (k.procs q).parent = some p ∧ (k.procs q).state = .zombie with
  | some q =>
      k.setProc q { k.procs q with pid := 0, parent := none, killed := false, state := .unused }
  | none =>
      if (∀ q, (k.procs q).parent ≠ some p) ∨ (k.procs p).killed then k
      else k.sleep c p (.proc p)

/-- `kill`. -/
def Kernel.kill (k : Kernel C) (pid : Nat) : Kernel C :=
  match (List.finRange nProc).find? fun q => (k.procs q).pid = pid with
  | none => k
  | some q =>
      let x := { k.procs q with killed := true }
      k.setProc q (if x.state = .sleeping then { x with state := .runnable } else x)

/-- `sys_nice`. -/
def Kernel.sysNice (k : Kernel C) (p : Fin nProc) (n : Int) : Kernel C :=
  if n < 0 ∨ 20 < n then k else k.setProc p { k.procs p with niceValue := n }

/-! ## The clock -/

/-- The branch of `trap` for the timer interrupt of the first processor. -/
def Kernel.tick (k : Kernel C) : Kernel C :=
  let ticks := (k.ticks + 1) % 2 ^ 32
  let procs := if ticks % 100 = 0 then updatePriority k.procs else k.procs
  { k with ticks := ticks, procs := wakeup2 procs ticks }

/-! ## Steps -/

/-- A step of the system. Calls are made by the process of a processor, `wakeup` also by
interrupt handlers. -/
inductive Act (C : Type)
  | dispatch (c : C) (p : Fin nProc)
  | yield (c : C)
  | sleep (c : C) (chan : Chan)
  | sysSleep (c : C) (n : Int)
  | wakeup (chan : Chan)
  | fork (c : C) (memory : ForkMemory)
  | exit (c : C)
  | wait (c : C)
  | kill (c : C) (pid : Nat)
  | nice (c : C) (n : Int)
  | tick
  deriving DecidableEq

/-- What a step does, where it can be taken. -/
def Kernel.act (k : Kernel C) : Act C → Option (Kernel C)
  | .dispatch c p =>
      if k.current c = none ∧ select k.procs = some p then some (k.dispatch c p) else none
  | .yield c => (k.current c).map (k.yield c)
  | .sleep c chan => (k.current c).map fun p => k.sleep c p chan
  | .sysSleep c n => (k.current c).map fun p => k.sysSleep c p n
  | .wakeup chan => some { k with procs := wakeup1 k.procs (some chan) }
  | .fork c memory => (k.current c).map fun p => k.fork p memory
  | .exit c =>
      (k.current c).bind fun p => if p = k.initproc then none else some (k.exit c p)
  | .wait c => (k.current c).map (k.wait c)
  | .kill c pid => (k.current c).map fun _ => k.kill pid
  | .nice c n => (k.current c).map fun p => k.sysNice p n
  | .tick => some k.tick

/-- A step of a run. -/
def Acts (k : Kernel C) (a : Act C) (k' : Kernel C) : Prop := k.act a = some k'

/-- An idle processor may run the process that is selected. -/
theorem acts_dispatch {k : Kernel C} {c : C} {p : Fin nProc} (hidle : k.current c = none)
    (hselect : select k.procs = some p) : Acts k (.dispatch c p) (k.dispatch c p) := by
  rw [Acts, Kernel.act, if_pos ⟨hidle, hselect⟩]

/-- The kernel after `userinit`. -/
def boot (C : Type) : Kernel C where
  procs := Function.update (fun _ => ⟨.unused, 0, none, none, false, 0, 0, 0, 0, 0⟩) 0
    ⟨.runnable, 1, none, none, false, 0, 0, 0, 0, 0⟩
  current := fun _ => none
  ticks := 0
  nextpid := 2
  initproc := 0

end Calls

end OSProjects.Scheduler
