import OSProjects.Foundation.StepSystem
import OSProjects.Storage.Layout
import OSProjects.Xv6.File

/-!
# Inodes and their blocks

The functions of `fs.c` on the disk that the running system sees: the allocator of blocks, the
block map of an inode with its indirect block, reading, writing and truncation. An inode is
locked by one process at a time, so a whole call is one step. The buffer cache and the log that
the blocks go through are modelled on their own.
-/

namespace OSProjects.Storage

open ByteMemory RedoLog Xv6

/-- The panics of these functions. -/
inductive FsPanic
  /-- `balloc: out of blocks` -/
  | outOfBlocks
  /-- `freeing free block` -/
  | freeingFree
  /-- `bmap: out of range` -/
  | outOfRange
  /-- `ialloc: no inodes` -/
  | noInodes
  /-- `ilock: no type` -/
  | noType
  /-- `dirlookup not DIR` -/
  | notDir
  /-- `dirlookup read` -/
  | dirlookupRead
  /-- `dirlink read` -/
  | dirlinkRead
  /-- `dirlink` -/
  | dirlink
  /-- `isdirempty: readi` -/
  | isdirempty
  /-- `unlink: nlink < 1` -/
  | unlinkNlink
  /-- `unlink: writei` -/
  | unlinkWritei
  /-- `create dots` -/
  | createDots
  /-- `create: dirlink` -/
  | createDirlink
  /-- No panic: the process waits for the sleep lock that it holds. -/
  | selfLock
  deriving DecidableEq

/-! ## Blocks -/

section Functions

variable (sb : Superblock)

/-- `balloc`, whose two loops run over the blocks in their order. -/
def balloc (d : Disk Block) : Except FsPanic (Nat × Disk Block) :=
  match (List.range sb.size).find? fun b => !sb.marked d b with
  | some b => .ok (b, Function.update (sb.mark d b true) b .zero)
  | none => .error .outOfBlocks

def bfree (d : Disk Block) (b : Nat) : Except FsPanic (Disk Block) :=
  if sb.marked d b then .ok (sb.mark d b false) else .error .freeingFree

/-! ## The block map -/

/-- An address, with the inode and the disk after it has been looked up. -/
structure Mapped where
  addr : Nat
  ip : Dinode
  disk : Disk Block

/-- `if((addr = ip->addrs[k]) == 0) ip->addrs[k] = addr = balloc(ip->dev);` -/
def mapAddr (d : Disk Block) (ip : Dinode) (k : Fin (nDirect + 1)) : Except FsPanic Mapped :=
  if ip.addrs k = 0 then
    (balloc sb d).map fun r =>
      ⟨r.1, { ip with addrs := Function.update ip.addrs k r.1 }, r.2⟩
  else .ok ⟨ip.addrs k, ip, d⟩

/-- The entry of the indirect block, which is allocated if it is zero. -/
def mapEntry (m : Mapped) (j : Nat) : Except FsPanic Mapped :=
  if entry (m.disk m.addr) j = 0 then
    (balloc sb m.disk).map fun r =>
      ⟨r.1, m.ip, Function.update r.2 m.addr (setEntry (r.2 m.addr) j r.1)⟩
  else .ok ⟨entry (m.disk m.addr) j, m.ip, m.disk⟩

def bmap (d : Disk Block) (ip : Dinode) (bn : Nat) : Except FsPanic Mapped :=
  if h : bn < nDirect then mapAddr sb d ip ⟨bn, Nat.lt_succ_of_lt h⟩
  else if bn - nDirect < nIndirect then
    (mapAddr sb d ip (Fin.last nDirect)).bind fun m => mapEntry sb m (bn - nDirect)
  else .error .outOfRange

/-! ## Truncation -/

/-- `bfree` of those numbers that are not zero. -/
def bfreeAll : List Nat → Disk Block → Except FsPanic (Disk Block)
  | [], d => .ok d
  | b :: bs, d => if b = 0 then bfreeAll bs d else (bfree sb d b).bind (bfreeAll bs)

/-- The blocks of the indirect block, and then itself. -/
def freeIndirect (d : Disk Block) (a : Nat) : Except FsPanic (Disk Block) :=
  if a = 0 then .ok d
  else
    (bfreeAll sb ((List.range nIndirect).map (entry (d a))) d).bind fun e => bfree sb e a

/-- `itrunc` of the inode `i`, which is `ip` in memory. -/
def itrunc (d : Disk Block) (i : Nat) (ip : Dinode) : Except FsPanic (Dinode × Disk Block) :=
  (bfreeAll sb ((List.finRange nDirect).map fun k => ip.addrs k.castSucc) d).bind fun e =>
    (freeIndirect sb e (ip.addrs (Fin.last nDirect))).map fun e =>
      let ip := { ip with size := 0, addrs := fun _ => 0 }
      (ip, sb.putDinode e i ip)

/-! ## Reading and writing -/

def tDir : Nat := 1
def tFile : Nat := 2
def tDev : Nat := 3

/-- `devsw[ip->major]`, when the driver exists; a negative `short` is a large number here. -/
def driver (k : Kernel) (ip : Dinode) : Option Devsw :=
  if ip.major < nDev then k.devsw ip.major else none

/-- What `readi` returns and stores, with the inode and the disk that it leaves. -/
structure ReadDone where
  result : Int
  bytes : List UInt8
  ip : Dinode
  disk : Disk Block

/-- `min(n, BSIZE - off%BSIZE)` -/
def chunk (off n : Nat) : Nat := min n (bSize - off % bSize)

theorem chunk_pos (off : Nat) {n : Nat} (h : n ≠ 0) : 0 < chunk off n := by
  have : off % bSize < bSize := Nat.mod_lt off (by decide)
  rw [chunk]
  omega

/-- The loop of `readi`, with `n` bytes to go. -/
def readLoop (d : Disk Block) (ip : Dinode) (off n : Nat) :
    Except FsPanic (List UInt8 × Dinode × Disk Block) :=
  if h : n = 0 then .ok ([], ip, d)
  else
    (bmap sb d ip (off / bSize)).bind fun m =>
      (readLoop m.disk m.ip (off + chunk off n) (n - chunk off n)).map fun r =>
        (readBytes (m.disk m.addr).toMemory (off % bSize) (chunk off n) ++ r.1, r.2)
termination_by n
decreasing_by
  have := chunk_pos off h
  omega

def readi (k : Kernel) (d : Disk Block) (ip : Dinode) (off n : Nat) : Except FsPanic ReadDone :=
  if ip.type = tDev then
    match driver k ip with
    | none => .ok ⟨-1, [], ip, d⟩
    | some v => .ok ⟨(v.read n).1, (v.read n).2, ip, d⟩
  else if ip.size < off ∨ 2 ^ 32 ≤ off + n then .ok ⟨-1, [], ip, d⟩
  else
    let n := if ip.size < off + n then ip.size - off else n
    (readLoop sb d ip off n).map fun r => ⟨n, r.1, r.2.1, r.2.2⟩

/-- The loop of `writei`, with the bytes that it has yet to write. -/
def writeLoop (d : Disk Block) (ip : Dinode) (off : Nat) (src : List UInt8) :
    Except FsPanic (Dinode × Disk Block) :=
  if h : src = [] then .ok (ip, d)
  else
    (bmap sb d ip (off / bSize)).bind fun m =>
      let n := chunk off src.length
      let data := Store.apply ⟨off % bSize, src.take n⟩ (m.disk m.addr).toMemory
      writeLoop (Function.update m.disk m.addr (Block.ofMemory data)) m.ip (off + n) (src.drop n)
termination_by src.length
decreasing_by
  have hpos : 0 < src.length := List.length_pos_iff.mpr h
  have := chunk_pos off (Nat.ne_of_gt hpos)
  rw [List.length_drop]
  omega

/-- What `writei` returns, with the inode and the disk that it leaves. -/
structure WriteDone where
  result : Int
  ip : Dinode
  disk : Disk Block

/-- `if(n > 0 && off > ip->size){ ip->size = off; iupdate(ip); }`, where `off` is the end. -/
def grow (d : Disk Block) (i : Nat) (ip : Dinode) (off n : Nat) : WriteDone :=
  if 0 < n ∧ ip.size < off then
    ⟨n, { ip with size := off }, sb.putDinode d i { ip with size := off }⟩
  else ⟨n, ip, d⟩

/-- `writei` to the inode `i`, which is `ip` in memory. -/
def writei (k : Kernel) (d : Disk Block) (i : Nat) (ip : Dinode) (off : Nat) (src : List UInt8) :
    Except FsPanic WriteDone :=
  if ip.type = tDev then
    match driver k ip with
    | none => .ok ⟨-1, ip, d⟩
    | some v => .ok ⟨v.write src, ip, d⟩
  else if ip.size < off ∨ 2 ^ 32 ≤ off + src.length then .ok ⟨-1, ip, d⟩
  else if maxFile * bSize < off + src.length then .ok ⟨-1, ip, d⟩
  else
    (writeLoop sb d ip off src).map fun r =>
      grow sb r.2 i r.1 (off + src.length) src.length

/-! ## Inodes -/

/-- `ialloc`. -/
def ialloc (d : Disk Block) (type : Nat) : Except FsPanic (Nat × Disk Block) :=
  match (List.range' 1 (sb.ninodes - 1)).find? fun i => (sb.dinode d i).type = 0 with
  | some i => .ok (i, sb.putDinode d i { Dinode.zero with type := type })
  | none => .error .noInodes

/-- The disk, and the inodes in memory whose `valid` is set. -/
structure Volume where
  disk : Disk Block
  cached : Nat → Option Dinode

def Volume.setCached (v : Volume) (i : Nat) (ip : Option Dinode) : Volume :=
  { v with cached := Function.update v.cached i ip }

/-- What happens to a volume. -/
inductive FsAct
  | ialloc (type i : Nat)
  | ilock (i : Nat)
  | readi (i off n : Nat)
  | writei (i off : Nat) (src : List UInt8)
  | iupdate (i major minor nlink : Nat)
  | iput (i : Nat)
  | recycle (i : Nat)

/-- `iput` of the last reference, when no link is left. -/
def lastPut (v : Volume) (i : Nat) (ip : Dinode) : Except FsPanic Volume :=
  (itrunc sb v.disk i ip).map fun r =>
    ⟨sb.putDinode r.2 i { r.1 with type := 0 }, Function.update v.cached i none⟩

/-- One step. An entry of the inode cache can be recycled whenever nobody refers to it. -/
inductive FsStep (k : Kernel) : Volume → FsAct → Volume → Prop
  | ialloc {v : Volume} {type i d} (htype : type ≠ 0) (hshort : type < 2 ^ 16)
      (hdone : ialloc sb v.disk type = .ok (i, d)) :
      FsStep k v (.ialloc type i) { v with disk := d }
  | ilock {v : Volume} {i} (hi : i < sb.ninodes) (hnone : v.cached i = none)
      (htype : (sb.dinode v.disk i).type ≠ 0) :
      FsStep k v (.ilock i) (v.setCached i (some (sb.dinode v.disk i)))
  | readi {v : Volume} {i ip off n r} (hvalid : v.cached i = some ip)
      (hdone : readi sb k v.disk ip off n = .ok r) :
      FsStep k v (.readi i off n) ⟨r.disk, Function.update v.cached i (some r.ip)⟩
  | writei {v : Volume} {i ip off src r} (hvalid : v.cached i = some ip)
      (hdone : writei sb k v.disk i ip off src = .ok r) :
      FsStep k v (.writei i off src) ⟨r.disk, Function.update v.cached i (some r.ip)⟩
  | iupdate {v : Volume} {i ip major minor nlink} (hvalid : v.cached i = some ip)
      (hmajor : major < 2 ^ 16) (hminor : minor < 2 ^ 16) (hnlink : nlink < 2 ^ 16) :
      FsStep k v (.iupdate i major minor nlink)
        ⟨sb.putDinode v.disk i { ip with major := major, minor := minor, nlink := nlink },
          Function.update v.cached i
            (some { ip with major := major, minor := minor, nlink := nlink })⟩
  | iput {v t : Volume} {i ip} (hvalid : v.cached i = some ip) (hnlink : ip.nlink = 0)
      (hdone : lastPut sb v i ip = .ok t) : FsStep k v (.iput i) t
  | recycle {v : Volume} {i} : FsStep k v (.recycle i) (v.setCached i none)

end Functions

end OSProjects.Storage
