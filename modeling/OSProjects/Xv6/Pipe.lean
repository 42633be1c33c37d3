import OSProjects.Foundation.CircularBuffer
import OSProjects.Foundation.StepSystem
import OSProjects.Xv6.Machine

/-!
# Pipes

`pipe.c` with any number of processes in `pipewrite` and `piperead`. A stretch of code between
two points where a process gives up `p->lock` is one step. What has gone in and come out of the
pipe is kept beside it, for the statements.
-/

namespace OSProjects.Xv6

open CircularBuffer

def pipeSize : Nat := 512

/-- The ring of a pipe: `PIPESIZE` cells, and counters of 32 bits. -/
def pipeShape : Shape where
  size := pipeSize
  wrap := 2 ^ 32
  pos := by decide
  less := by decide
  divides := ⟨2 ^ 23, by decide⟩

structure Pipe where
  data : Nat → UInt8
  nread : Nat
  nwrite : Nat
  readopen : Bool
  writeopen : Bool

namespace Pipe

/-- `pipealloc`, of a page with any bytes in it. -/
def alloc (data : Nat → UInt8) : Pipe := ⟨data, 0, 0, true, true⟩

def Full (p : Pipe) : Prop := p.nwrite = uint (p.nread + pipeSize)

def Empty (p : Pipe) : Prop := p.nread = p.nwrite

instance (p : Pipe) : Decidable p.Full := inferInstanceAs (Decidable (_ = _))
instance (p : Pipe) : Decidable p.Empty := inferInstanceAs (Decidable (_ = _))

/-- `p->data[p->nwrite++ % PIPESIZE] = b`. -/
def put (p : Pipe) (b : UInt8) : Pipe :=
  { p with
    data := Function.update p.data (p.nwrite % pipeSize) b
    nwrite := uint (p.nwrite + 1) }

/-- `p->data[p->nread++ % PIPESIZE]`. -/
def get (p : Pipe) : UInt8 × Pipe :=
  (p.data (p.nread % pipeSize), { p with nread := uint (p.nread + 1) })

/-- The loop of `pipewrite` until it has copied all bytes or finds the pipe full, with the
bytes that are left. -/
def putAll (p : Pipe) : List UInt8 → Pipe × List UInt8
  | [] => (p, [])
  | b :: bs => if p.Full then (p, b :: bs) else (p.put b).putAll bs

/-- The second loop of `piperead`, with the bytes that it copies. -/
def getAll (p : Pipe) : Nat → Pipe × List UInt8
  | 0 => (p, [])
  | n + 1 =>
      if p.Empty then (p, [])
      else ((p.get.2.getAll n).1, p.get.1 :: (p.get.2.getAll n).2)

/-- `pipeclose` of one end; `kfree` of the pipe after both is left out. -/
def close (p : Pipe) (writable : Bool) : Pipe :=
  if writable then { p with writeopen := false } else { p with readopen := false }

end Pipe

/-! ## Processes -/

/-- The arguments of a call, and the bytes that `pipewrite` has yet to copy. -/
inductive PipeJob
  | write (bytes rest : List UInt8)
  | read (n : Nat)
  deriving DecidableEq

/-- A process in `pipewrite` or `piperead`. -/
structure PipeCall where
  id : Nat
  job : PipeJob
  asleep : Bool
  killed : Bool
  deriving DecidableEq

/-- A call of `piperead`; such a call sleeps on `&p->nread`, and the others on `&p->nwrite`. -/
def PipeCall.reads (c : PipeCall) : Bool :=
  match c.job with
  | .read _ => true
  | .write _ _ => false

/-- `wakeup` of the calls that read, or of those that write. -/
def wakeCalls (reads : Bool) (calls : List PipeCall) : List PipeCall :=
  calls.map fun c => if c.reads = reads then { c with asleep := false } else c

/-- A pipe with the calls on it; every byte that went in, with the call that wrote it; every
byte that came out; and the writes that have returned, with their bytes and results. -/
structure PipeState where
  pipe : Pipe
  calls : List PipeCall
  sent : List (Nat × UInt8)
  received : List UInt8
  finished : List (Nat × List UInt8 × Int)

namespace PipeState

def start (data : Nat → UInt8) : PipeState := ⟨.alloc data, [], [], [], []⟩

/-- A call of `pipewrite` runs until it returns or sleeps. -/
def runWrite (s : PipeState) (c : PipeCall) (bytes rest : List UInt8) : PipeState :=
  let p := (s.pipe.putAll rest).1
  let left := (s.pipe.putAll rest).2
  let copied := rest.take (rest.length - left.length)
  let s := { s with pipe := p, sent := s.sent ++ copied.map fun b => (c.id, b) }
  if left = [] then
    { s with
      calls := wakeCalls true (s.calls.erase c)
      finished := (c.id, bytes, bytes.length) :: s.finished }
  else if p.readopen = false ∨ c.killed = true then
    { s with
      calls := s.calls.erase c
      finished := (c.id, bytes, -1) :: s.finished }
  else
    { s with
      calls := { c with job := .write bytes left, asleep := true } ::
        wakeCalls true (s.calls.erase c) }

/-- A call of `piperead` runs until it returns or sleeps. -/
def runRead (s : PipeState) (c : PipeCall) (n : Nat) : PipeState :=
  if s.pipe.Empty ∧ s.pipe.writeopen = true then
    if c.killed then { s with calls := s.calls.erase c }
    else { s with calls := { c with asleep := true } :: s.calls.erase c }
  else
    { s with
      pipe := (s.pipe.getAll n).1
      calls := wakeCalls false (s.calls.erase c)
      received := s.received ++ (s.pipe.getAll n).2 }

/-- `pipeclose`, with its wakeup of the other end. -/
def close (s : PipeState) (writable : Bool) : PipeState :=
  { s with pipe := s.pipe.close writable, calls := wakeCalls writable s.calls }

/-- `kill` of the process of a call, which also ends its sleep. -/
def kill (s : PipeState) (c : PipeCall) : PipeState :=
  { s with calls := { c with killed := true, asleep := false } :: s.calls.erase c }

end PipeState

/-- What a process does. -/
inductive PipeAct
  | write (id : Nat) (bytes : List UInt8)
  | read (id n : Nat)
  | runWrite (id : Nat)
  | runRead (id : Nat)
  | close (writable : Bool)
  | kill (id : Nat) (reads : Bool)

/-- One step. A process in a call has its end of the pipe open, so an end is closed when no
call is on it. -/
inductive PipeStep : PipeState → PipeAct → PipeState → Prop
  | write {s : PipeState} {id bytes} (hopen : s.pipe.writeopen = true)
      (hfresh : ∀ c ∈ s.calls, c.id ≠ id) (hnew : ∀ f ∈ s.finished, f.1 ≠ id)
      (hunsent : ∀ x ∈ s.sent, x.1 ≠ id) :
      PipeStep s (.write id bytes)
        { s with calls := ⟨id, .write bytes bytes, false, false⟩ :: s.calls }
  | read {s : PipeState} {id n} (hopen : s.pipe.readopen = true)
      (hfresh : ∀ c ∈ s.calls, c.id ≠ id) :
      PipeStep s (.read id n) { s with calls := ⟨id, .read n, false, false⟩ :: s.calls }
  | runWrite {s : PipeState} {c bytes rest} (hmem : c ∈ s.calls) (hawake : c.asleep = false)
      (hjob : c.job = .write bytes rest) :
      PipeStep s (.runWrite c.id) (s.runWrite c bytes rest)
  | runRead {s : PipeState} {c n} (hmem : c ∈ s.calls) (hawake : c.asleep = false)
      (hjob : c.job = .read n) : PipeStep s (.runRead c.id) (s.runRead c n)
  | close {s : PipeState} {writable} (hidle : ∀ c ∈ s.calls, c.reads = writable) :
      PipeStep s (.close writable) (s.close writable)
  | kill {s : PipeState} {c} (hmem : c ∈ s.calls) :
      PipeStep s (.kill c.id c.reads) (s.kill c)

end OSProjects.Xv6
