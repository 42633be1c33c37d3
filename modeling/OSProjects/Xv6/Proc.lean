import OSProjects.Xv6.Mmap

/-!
# Processes

`fork`, `exit` and `wait` of `proc.c`, and the system calls and page faults through
which a process changes the kernel's tables. Every call is one atomic step.
-/

namespace OSProjects.Xv6

/-- The first slot of the process table that is not in use. -/
def Kernel.findUnused (k : Kernel) : Option (Fin nProc) :=
  (List.finRange nProc).find? fun p => (k.procs p).state = .unused

/-- `allocproc` for the slot that was found; false where there is no kernel stack. -/
def Kernel.allocproc (k : Kernel) (np : Fin nProc) : Kernel × Bool :=
  let x := k.procs np
  let pid := k.nextpid
  let k := { k with nextpid := k.nextpid + 1 }
  match k.mem.kalloc with
  | none => (k.setProc np { x with pid := pid, kstack := none, state := .unused }, false)
  | some (stack, mem) =>
      ({ k with mem := mem }.setProc np
        { x with pid := pid, kstack := some stack, state := .embryo }, true)

/-- Give the kernel stack of a process back. -/
def Kernel.freeStack (k : Kernel) (p : Fin nProc) : Result Kernel :=
  match (k.procs p).kstack with
  | none => .error .kfree
  | some stack =>
      match k.mem.kfree stack with
      | .error h => .error h
      | .ok mem => .ok ({ k with mem := mem }.setProc p { k.procs p with kstack := none })

/-- One turn of the loop of `fork` over the descriptors. -/
def Kernel.forkFile (p np : Fin nProc) (k : Kernel) (i : Fin nOfile) : Result Kernel :=
  match (k.procs p).ofile i with
  | none => .ok k
  | some f =>
      match k.filedup f with
      | .error h => .error h
      | .ok k => .ok (k.setOfile np i (some f))

/-- One turn of the loop of `fork` over the mappings. -/
def Kernel.forkVma (p np : Fin nProc) (k : Kernel) (i : Fin nVma) : Result Kernel :=
  if ((k.procs p).vmas i).valid then k.copyVma np ((k.procs p).vmas i) i else .ok k

/-- `fork`, without the trap frame, the current directory and the name. -/
def Kernel.fork (k : Kernel) (p : Fin nProc) : Result (Kernel × Int) :=
  match k.findUnused with
  | none => .ok (k, -1)
  | some np =>
      match k.allocproc np with
      | (k, false) => .ok (k, -1)
      | (k, true) =>
          match copyuvm k.mem (k.procs p).pgdir (k.procs p).sz with
          | .error h => .error h
          | .ok (mem, none) =>
              match { k with mem := mem }.freeStack np with
              | .error h => .error h
              | .ok k => .ok (k.setProc np { k.procs np with state := .unused }, -1)
          | .ok (mem, some d) =>
              let k := { k with mem := mem }.setProc np
                { k.procs np with pgdir := d, sz := (k.procs p).sz, parent := some p }
              match (List.finRange nOfile).foldlM (Kernel.forkFile p np) k with
              | .error h => .error h
              | .ok k =>
                  match (List.finRange nVma).foldlM (Kernel.forkVma p np) k with
                  | .error h => .error h
                  | .ok k =>
                      .ok (k.setProc np { k.procs np with state := .runnable },
                        (k.procs np).pid)

/-- One turn of the loop of `exit` over the descriptors. -/
def Kernel.exitFile (p : Fin nProc) (k : Kernel) (fd : Fin nOfile) : Result Kernel :=
  match (k.procs p).ofile fd with
  | none => .ok k
  | some f =>
      match k.fileclose f with
      | .error h => .error h
      | .ok k => .ok (k.setOfile p fd none)

/-- Pass the abandoned children of a process to `initproc`. -/
def Kernel.reparent (k : Kernel) (p : Fin nProc) : Kernel :=
  { k with procs := fun q =>
      if (k.procs q).parent = some p then { k.procs q with parent := some k.initproc }
      else k.procs q }

/-- `exit`. -/
def Kernel.exit (k : Kernel) (p : Fin nProc) : Result Kernel :=
  if p = k.initproc then .error .initExiting
  else
    match (List.finRange nOfile).foldlM (Kernel.exitFile p) k with
    | .error h => .error h
    | .ok k =>
        match (k.reparent p).cleanVma p with
        | .error h => .error h
        | .ok k => .ok (k.setProc p { k.procs p with state := .zombie })

/-- One pass of `wait` over the process table. -/
def Kernel.wait (k : Kernel) (p : Fin nProc) : Result (Kernel × Int) :=
  match (List.finRange nProc).find? fun q =>
      (k.procs q).parent = some p ∧ (k.procs q).state = .zombie with
  | none =>
      if (∃ q, (k.procs q).parent = some p) ∧ (k.procs p).killed = false then .error .sleeping
      else .ok (k, -1)
  | some q =>
      match k.freeStack q with
      | .error h => .error h
      | .ok k =>
          match (k.space q).free with
          | .error h => .error h
          | .ok mem =>
              .ok ({ k with mem := mem }.setProc q
                { k.procs q with pid := 0, parent := none, killed := false, state := .unused },
                (k.procs q).pid)

/-! ## Entering the kernel -/

/-- What a process can do to the kernel's tables. -/
inductive Call
  | sysOpen (ip : Option Nat) (omode : Nat)
  | dup (fd : Int)
  | close (fd : Int)
  | mmap (args : MmapArgs)
  | munmap (addr : Nat) (length : Int)
  | fork
  | wait
  | exit
  | fault (addr : Nat)

/-- `if (myproc()->killed) exit();` -/
def Kernel.exitIfKilled (k : Kernel) (p : Fin nProc) (r : Int) : Result (Kernel × Int) :=
  if (k.procs p).killed then
    match k.exit p with
    | .error h => .error h
    | .ok k => .ok (k, r)
  else .ok (k, r)

/-- The handler of a call. -/
def Call.serve (k : Kernel) (p : Fin nProc) : Call → Result (Kernel × Int)
  | .sysOpen ip omode => k.sysOpen p ip omode
  | .dup fd => k.sysDup p fd
  | .close fd => k.sysClose p fd
  | .mmap args => k.mmap p args
  | .munmap addr length => k.munmap p addr length
  | .fork => k.fork p
  | .wait => k.wait p
  | .exit => (k.exit p).map fun k => (k, 0)
  | .fault addr => (k.pageFault p addr).map fun k => (k, 0)

/-- `trap`, entered from user space: the handler, and `exit` for a process that has
been killed. A system call of a killed process is not served. -/
def Call.trap (k : Kernel) (p : Fin nProc) (c : Call) : Result (Kernel × Int) :=
  match c with
  | .fault _ =>
      match c.serve k p with
      | .error h => .error h
      | .ok (k, r) => k.exitIfKilled p r
  | .exit => c.serve k p
  | _ =>
      if (k.procs p).killed then (k.exit p).map fun k => (k, 0)
      else
        match c.serve k p with
        | .error h => .error h
        | .ok (k, r) => k.exitIfKilled p r

end OSProjects.Xv6
