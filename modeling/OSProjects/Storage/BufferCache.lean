import OSProjects.Foundation.LinkedRing
import OSProjects.Foundation.StepSystem
import OSProjects.Storage.Block

/-!
# The buffer cache

`bio.c` over the pointers of its list, with the transfers of `ide.c`. A call of `bread` waits
for the sleep lock of the buffer that `bget` gave it, and holds the buffer until `brelse`.
Disks do not fail, and every device has its own: `ide.c` goes by the lowest bit of `dev`, and
the file system is on one device.
-/

namespace OSProjects.Storage

open LinkedRing Xv6

def nBuf : Nat := maxOpBlocks * 3
def fsSize : Nat := 1000

/-- A node of the list of buffers; `none` is `bcache.head`. -/
abbrev BufNode := Option (Fin nBuf)

/-- A buffer. The call of `bread` that holds its sleep lock stands for the process. -/
structure Buf where
  valid : Bool
  dirty : Bool
  dev : Nat
  blockno : Nat
  holder : Option Nat
  refcnt : Nat
  data : Block

/-- `bcache`, and the blocks of the disks. -/
structure Bcache where
  buf : Fin nBuf → Buf
  links : Links BufNode
  disk : Nat → Nat → Block

namespace Bcache

def setBuf (s : Bcache) (b : Fin nBuf) (v : Buf) : Bcache :=
  { s with buf := Function.update s.buf b v }

/-- A buffer with another holder and another count. -/
def use (s : Bcache) (b : Fin nBuf) (holder : Option Nat) (refcnt : Nat) : Bcache :=
  s.setBuf b { s.buf b with holder := holder, refcnt := refcnt }

/-- The block that a buffer is for. -/
def key (s : Bcache) (b : Fin nBuf) : Nat × Nat := ((s.buf b).dev, (s.buf b).blockno)

/-- `binit`, with buffers in zeroed memory. -/
def binit (disk : Nat → Nat → Block) : Bcache where
  buf := fun _ => ⟨false, false, 0, 0, none, 0, fun _ => 0⟩
  links := (List.finRange nBuf).foldl (fun l b => l.pushFront none (some b))
    ⟨fun _ => none, fun _ => none⟩
  disk := disk

/-! ## bget -/

/-- The first loop of `bget`. -/
def lookup (s : Bcache) (dev blockno : Nat) : Option (Fin nBuf) :=
  (scan s.links.next none (fun x => x.any fun b => s.key b = (dev, blockno)) (nBuf + 1)
    (s.links.next none)).join

/-- The second loop of `bget`. -/
def unused (s : Bcache) : Option (Fin nBuf) :=
  (scan s.links.prev none (fun x => x.any fun b => (s.buf b).refcnt = 0 ∧ (s.buf b).dirty = false)
    (nBuf + 1) (s.links.prev none)).join

/-- A buffer taken for another block. -/
def recycle (s : Bcache) (b : Fin nBuf) (dev blockno : Nat) : Bcache :=
  s.setBuf b { s.buf b with
    valid := false, dirty := false, dev := dev, blockno := blockno, refcnt := 1 }

/-- `bget`, up to `acquiresleep`. There is no value where it panics. -/
def bget (s : Bcache) (dev blockno : Nat) : Option (Fin nBuf × Bcache) :=
  match s.lookup dev blockno with
  | some b => some (b, s.use b (s.buf b).holder ((s.buf b).refcnt + 1))
  | none => s.unused.map fun b => (b, s.recycle b dev blockno)

/-! ## iderw, bread, bwrite and brelse -/

/-- The disk has read a block into its buffer. -/
def readIn (s : Bcache) (b : Fin nBuf) : Bcache :=
  s.setBuf b { s.buf b with
    valid := true
    data := s.disk (s.buf b).dev (s.buf b).blockno }

/-- The disk has written a buffer to its block. -/
def writeOut (s : Bcache) (b : Fin nBuf) : Bcache :=
  { s.setBuf b { s.buf b with valid := true, dirty := false } with
    disk := Function.update s.disk (s.buf b).dev
      (Function.update (s.disk (s.buf b).dev) (s.buf b).blockno (s.buf b).data) }

/-- `iderw`, from its call to the interrupt that completes it. -/
def iderw (s : Bcache) (id : Nat) (b : Fin nBuf) : Option Bcache :=
  if (s.buf b).holder ≠ some id then none
  else if (s.buf b).valid = true ∧ (s.buf b).dirty = false then none
  else if fsSize ≤ (s.buf b).blockno then none
  else if (s.buf b).dirty then some (s.writeOut b)
  else some (s.readIn b)

/-- `acquiresleep` of `bget` when the lock is free, and the rest of `bread`. -/
def bread (s : Bcache) (id : Nat) (b : Fin nBuf) : Option Bcache :=
  let s := s.use b (some id) (s.buf b).refcnt
  if (s.buf b).valid then some s else s.iderw id b

/-- The holder stores to `b->data`. -/
def store (s : Bcache) (b : Fin nBuf) (data : Block) : Bcache :=
  s.setBuf b { s.buf b with data := data }

/-- `b->flags |= B_DIRTY`, in `log_write` and in `bwrite`. -/
def markDirty (s : Bcache) (b : Fin nBuf) : Bcache :=
  s.setBuf b { s.buf b with dirty := true }

def bwrite (s : Bcache) (id : Nat) (b : Fin nBuf) : Option Bcache :=
  if (s.buf b).holder ≠ some id then none else (s.markDirty b).iderw id b

/-- `brelse`, up to `releasesleep`. -/
def brelse (s : Bcache) (id : Nat) (b : Fin nBuf) : Option Bcache :=
  if (s.buf b).holder ≠ some id then none else some (s.use b none (s.buf b).refcnt)

/-- The rest of `brelse`, under `bcache.lock`. -/
def unuse (s : Bcache) (b : Fin nBuf) : Bcache :=
  let s := s.use b (s.buf b).holder ((s.buf b).refcnt - 1)
  if (s.buf b).refcnt = 0 then
    { s with links := (s.links.unlink (some b)).pushFront none (some b) }
  else s

end Bcache

/-! ## Processes that use the cache -/

/-- How far a call of `bread` has come: it waits for the lock, its process has the buffer, and
may have changed data that it has not passed on, or `brelse` has let the lock go and still counts
as a user of the buffer. -/
inductive Stage
  | waiting
  | holding (changed : Bool)
  | leaving
  deriving DecidableEq, Repr

/-- A call of `bread` of a block, without its `brelse` yet. -/
structure Handle where
  id : Nat
  dev : Nat
  blockno : Nat
  buf : Fin nBuf
  stage : Stage
  deriving DecidableEq, Repr

/-- The cache with the calls that use it. -/
structure BufState where
  cache : Bcache
  handles : List Handle

def BufState.init (disk : Nat → Nat → Block) : BufState := ⟨.binit disk, []⟩

/-- The same calls, one of which has moved on. -/
def BufState.move (s : BufState) (cache : Bcache) (h : Handle) (stage : Stage) : BufState :=
  ⟨cache, { h with stage := stage } :: s.handles.erase h⟩

/-- What a call does. -/
inductive BufAct
  | bget (id dev blockno : Nat)
  | acquire (id : Nat)
  | change (id dev blockno : Nat) (data : Block)
  | logWrite (id : Nat)
  | bwrite (id : Nat)
  | brelse (id : Nat)
  | unuse (id : Nat)

/-- One step of a process. Block numbers are of a file system on a device other than 0, and
changed data is passed to `log_write` or `bwrite` before `brelse`. -/
inductive BufStep : BufState → BufAct → BufState → Prop
  | bget {s : BufState} {id dev blockno b c} (hfresh : ∀ h ∈ s.handles, h.id ≠ id)
      (hdev : dev ≠ 0) (hget : s.cache.bget dev blockno = some (b, c)) :
      BufStep s (.bget id dev blockno) ⟨c, ⟨id, dev, blockno, b, .waiting⟩ :: s.handles⟩
  | acquire {s : BufState} {h c} (hmem : h ∈ s.handles) (hstage : h.stage = .waiting)
      (hfree : (s.cache.buf h.buf).holder = none) (hread : s.cache.bread h.id h.buf = some c) :
      BufStep s (.acquire h.id) (s.move c h (.holding false))
  | change {s : BufState} {h ch} {data : Block} (hmem : h ∈ s.handles)
      (hstage : h.stage = .holding ch) :
      BufStep s (.change h.id h.dev h.blockno data)
        (s.move (s.cache.store h.buf data) h (.holding true))
  | logWrite {s : BufState} {h ch} (hmem : h ∈ s.handles) (hstage : h.stage = .holding ch) :
      BufStep s (.logWrite h.id) (s.move (s.cache.markDirty h.buf) h (.holding false))
  | bwrite {s : BufState} {h ch c} (hmem : h ∈ s.handles) (hstage : h.stage = .holding ch)
      (hwrite : s.cache.bwrite h.id h.buf = some c) :
      BufStep s (.bwrite h.id) (s.move c h (.holding false))
  | brelse {s : BufState} {h c} (hmem : h ∈ s.handles) (hstage : h.stage = .holding false)
      (hrelse : s.cache.brelse h.id h.buf = some c) :
      BufStep s (.brelse h.id) (s.move c h .leaving)
  | unuse {s : BufState} {h} (hmem : h ∈ s.handles) (hstage : h.stage = .leaving) :
      BufStep s (.unuse h.id) ⟨s.cache.unuse h.buf, s.handles.erase h⟩

end OSProjects.Storage
