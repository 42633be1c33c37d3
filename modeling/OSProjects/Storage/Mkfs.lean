import OSProjects.Storage.VolumeRuns

/-!
# The program that builds the image

`mkfs.c` writes a fresh image: inodes and blocks are handed out in order, and the bitmap is
written at the end. Its `iappend` keeps the block map of a file as `bmap` does, from a counter
in place of the bitmap.
-/

namespace OSProjects.Storage

open ByteMemory PackedRecord RedoLog Xv6

/-- `FSSIZE` blocks, `NINODES` inodes, a log of `LOGSIZE` blocks. -/
def mkfsSuperblock : Superblock where
  size := 1000
  ninodes := 200
  inodestart := 2 + logSize
  bmapstart := 2 + logSize + (200 / ipb + 1)
  small := by decide
  inodes_before := by decide

/-- `nmeta`, with one block of bitmap. -/
def nmeta : Nat := mkfsSuperblock.bmapstart + 1

def rootino : Nat := 1

/-- The image with the counters `freeblock` and `freeinode`. -/
structure Image where
  disk : Disk Block
  freeblock : Nat
  freeinode : Nat

/-- A file to put into the image: its name, and what the calls of `read` return. -/
structure SourceFile where
  name : List UInt8
  chunks : List (List UInt8)
  filled : ∀ c ∈ chunks, c ≠ []

/-- The block for the next bytes of a file, with its inode and the image after it was found. -/
structure Placed where
  addr : Nat
  din : Dinode
  image : Image

namespace Image

variable (im : Image)

def winode (inum : Nat) (din : Dinode) : Image :=
  { im with disk := mkfsSuperblock.putDinode im.disk inum din }

/-- `ialloc`, which returns `freeinode`. -/
def ialloc (type : Nat) : Image :=
  { im.winode im.freeinode { Dinode.zero with type := type, nlink := 1 } with
    freeinode := im.freeinode + 1 }

/-- `if(xint(din.addrs[k]) == 0){ din.addrs[k] = xint(freeblock++); }` -/
def placeAddr (din : Dinode) (k : Fin (nDirect + 1)) : Placed :=
  if din.addrs k = 0 then
    ⟨im.freeblock, { din with addrs := Function.update din.addrs k im.freeblock },
      { im with freeblock := im.freeblock + 1 }⟩
  else ⟨din.addrs k, din, im⟩

/-- The entry of the indirect block `p.addr`, and its `wsect` when it is new. -/
def placeEntry (p : Placed) (j : Nat) : Placed :=
  if entry (p.image.disk p.addr) j = 0 then
    ⟨p.image.freeblock, p.din,
      { p.image with
        disk := Function.update p.image.disk p.addr
          (setEntry (p.image.disk p.addr) j p.image.freeblock)
        freeblock := p.image.freeblock + 1 }⟩
  else ⟨entry (p.image.disk p.addr) j, p.din, p.image⟩

/-- The loop of `iappend` before its copy; `none` when the assertion fails. -/
def place (din : Dinode) (fbn : Nat) : Option Placed :=
  if maxFile ≤ fbn then none
  else if h : fbn < nDirect then some (im.placeAddr din ⟨fbn, Nat.lt_succ_of_lt h⟩)
  else some (placeEntry (im.placeAddr din (Fin.last nDirect)) (fbn - nDirect))

/-- `min(n, (fbn + 1) * BSIZE - off)` -/
def portion (off n : Nat) : Nat := min n ((off / bSize + 1) * bSize - off)

theorem portion_eq_chunk (off n : Nat) : portion off n = chunk off n := by
  rw [portion, chunk]
  congr 1
  have hsplit := Nat.div_add_mod' off bSize
  have hmod : off % bSize < bSize := Nat.mod_lt off (by decide)
  rw [Nat.add_one_mul]
  omega

/-- The loop of `iappend`, with the bytes that it has yet to write. -/
def appendLoop (im : Image) (din : Dinode) (off : Nat) (p : List UInt8) : Option (Dinode × Image) :=
  if h : p = [] then some (din, im)
  else
    (im.place din (off / bSize)).bind fun x =>
      let n := portion off p.length
      let data := Store.apply ⟨off - off / bSize * bSize, p.take n⟩
        (x.image.disk x.addr).toMemory
      appendLoop
        { x.image with disk := Function.update x.image.disk x.addr (Block.ofMemory data) }
        x.din (off + n) (p.drop n)
termination_by p.length
decreasing_by
  have hpos : 0 < p.length := List.length_pos_iff.mpr h
  have := chunk_pos off (Nat.ne_of_gt hpos)
  rw [List.length_drop, portion_eq_chunk]
  omega

def iappend (inum : Nat) (p : List UInt8) : Option Image :=
  let din := mkfsSuperblock.dinode im.disk inum
  (im.appendLoop din din.size p).map fun r =>
    r.2.winode inum { r.1 with size := din.size + p.length }

/-- The bits of the blocks below `used`. -/
def bitmap (used : Nat) : Block :=
  (List.range used).foldl (fun buf i =>
    if h : i / 8 < bSize then Function.update buf ⟨i / 8, h⟩ (setBit (buf ⟨i / 8, h⟩) (i % 8) true)
    else buf) .zero

/-- `balloc`, with its assertion. -/
def balloc (used : Nat) : Option Image :=
  if used < bSize * 8 then
    some { im with disk := Function.update im.disk mkfsSuperblock.bmapstart (bitmap used) }
  else none

/-- A directory entry, `strncpy(de.name, name, DIRSIZ)` into zeroes. -/
def dirent (inum : Nat) (name : List UInt8) : List UInt8 :=
  wordBytes 2 inum ++ (name.take 14 ++ List.replicate (14 - name.length) 0)

/-- A name without its leading underscore. -/
def plainName : List UInt8 → List UInt8
  | [] => []
  | c :: cs => if c = 95 then cs else c :: cs

/-- The turn of one file: its inode, its entry in the root, its bytes. -/
def addFile (f : SourceFile) : Option Image :=
  if 47 ∈ f.name then none
  else
    ((im.ialloc tFile).iappend rootino (dirent im.freeinode (plainName f.name))).bind fun im' =>
      f.chunks.foldlM (fun x c => x.iappend im.freeinode c) im'

def addFiles (fs : List SourceFile) : Option Image := fs.foldlM addFile im

/-- `fix size of root inode dir` -/
def fixRoot : Image :=
  let din := mkfsSuperblock.dinode im.disk rootino
  im.winode rootino { din with size := (din.size / bSize + 1) * bSize }

/-- `size`, `nblocks`, `ninodes`, `nlog`, `logstart`, `inodestart` and `bmapstart`. -/
def superBlock : Block :=
  Block.ofMemory (Store.apply ⟨0, fieldBytes [(4, mkfsSuperblock.size),
    (4, mkfsSuperblock.size - nmeta), (4, mkfsSuperblock.ninodes), (4, logSize), (4, 2),
    (4, mkfsSuperblock.inodestart), (4, mkfsSuperblock.bmapstart)]⟩ fun _ => 0)

/-- The image before the first inode: zeroes, and the super block. -/
def fresh : Image := ⟨Function.update (fun _ => .zero) 1 superBlock, nmeta, 1⟩

/-- The root directory with its two first entries. -/
def withRoot : Option Image :=
  ((fresh.ialloc tDir).iappend rootino (dirent rootino [46])).bind fun im =>
    im.iappend rootino (dirent rootino [46, 46])

/-- `main`. -/
def mkfs (fs : List SourceFile) : Option Image :=
  withRoot.bind fun im => (im.addFiles fs).bind fun im => im.fixRoot.balloc im.freeblock

end Image

end OSProjects.Storage
