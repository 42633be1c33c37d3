import Mathlib.Data.Fin.Basic
import Mathlib.Logic.Function.Basic
import OSProjects.Foundation.ByteMemory

/-!
# The state of the xv6 kernel

Page tables are kept as tables and not as bytes: `phys` holds the bytes of the
frames that back user pages, and the frame of a page table is known by its
address only. Tables of the kernel are functions on their index.
-/

namespace OSProjects.Xv6

open ByteMemory

/-! ## Constants and machine words -/

def pgSize : Nat := 4096
def kernBase : Nat := 0x80000000
def kernLink : Nat := 0x80100000
def physTop : Nat := 0xE000000
def devSpace : Nat := 0xFE000000
def vmaStart : Nat := 0x60000000
def vmaEnd : Nat := 0x80000000
def nVma : Nat := 32
def nOfile : Nat := 16
def nFile : Nat := 100
def nProc : Nat := 64
def nDev : Nat := 10
def bSize : Nat := 512
def maxFile : Nat := 12 + 128
def maxOpBlocks : Nat := 10

instance : NeZero nVma := ⟨by decide⟩
instance : NeZero nProc := ⟨by decide⟩

def mapPrivate : Nat := 0x0001
def mapShared : Nat := 0x0002
def mapAnonymous : Nat := 0x0004
def mapFixed : Nat := 0x0008
def mapGrowsup : Nat := 0x0010

def pteW : Nat := 0x002
def pteU : Nat := 0x004

/-- `flags & bit`, as a condition. -/
def has (flags bit : Nat) : Bool := flags &&& bit != 0

/-- The value of an unsigned word. -/
def uint (n : Nat) : Nat := n % 2 ^ 32

/-- The value of a signed word. -/
def int32 (z : Int) : Int := (z + 2 ^ 31) % 2 ^ 32 - 2 ^ 31

/-- The unsigned word with the bits of a signed one. -/
def ofInt (z : Int) : Nat := (z % 2 ^ 32).toNat

def pgRoundUp (a : Nat) : Nat := uint (a + (pgSize - 1)) / pgSize * pgSize

def pgRoundDown (a : Nat) : Nat := a / pgSize * pgSize

/-- `PGROUNDUP` of an `int`. -/
def pgRoundUpInt (length : Int) : Int := int32 (length + 4095) / 4096 * 4096

/-! ## Outcomes of a call that does not return -/

/-- The kernel panics, or leaves what the model describes. -/
inductive Halt
  | remap | kfree | filedup | fileclose | filewriteoff | noVmaFound | ilock | balloc
  | copyuvmNoPte | copyuvmNotPresent | initExiting
  /-- A load through a file pointer that is null or outside the descriptor table. -/
  | wildFile
  /-- A kernel access to a user page that is not mapped. -/
  | kernelFault
  /-- A loop that does not end. -/
  | hang
  /-- The call sleeps until another process wakes it. -/
  | sleeping
  deriving DecidableEq, Repr

abbrev Result := Except Halt

/-! ## Memory -/

/-- The allocator with its list of free frames, and the bytes of physical memory. -/
structure Mem where
  freelist : List Nat
  phys : Memory
  /-- `V2P(end)`, the first address behind the kernel. -/
  imageEnd : Nat
  /-- `data`, the first writable kernel address. -/
  dataStart : Nat

/-- A page-table entry with `PTE_P` set. -/
structure Pte where
  pa : Nat
  perm : Nat
  deriving DecidableEq, Repr

structure PageTable where
  frame : Nat
  entry : Nat → Option Pte

structure Pgdir where
  frame : Nat
  table : Nat → Option PageTable

/-- What the page-table code works on. -/
structure Space where
  mem : Mem
  pgdir : Pgdir

/-! ## Files -/

inductive InodeType
  | dir | file | dev
  deriving DecidableEq, Repr

/-- The cached inode with the contents of its blocks. Only the first `size` bytes count. -/
structure Inode where
  type : InodeType
  major : Int
  size : Nat
  data : Memory

inductive FileType
  | none | pipe | inode
  deriving DecidableEq, Repr

/-- An entry of `ftable`. -/
structure File where
  type : FileType
  ref : Nat
  readable : Bool
  writable : Bool
  /-- The inode of an entry of type `inode`. -/
  ip : Nat
  off : Nat

/-- A device driver: what it delivers for a read of `n` bytes, and what a write returns. -/
structure Devsw where
  read : Nat → Int × List UInt8
  write : List UInt8 → Int

/-! ## Processes -/

structure Vma where
  addr : Nat
  endAddr : Nat
  prot : Int
  flags : Nat
  fd : Int
  offset : Int
  pf : Option (Fin nFile)
  valid : Bool
  next : Fin nVma
  deriving DecidableEq

inductive ProcState
  | unused | embryo | sleeping | runnable | running | zombie
  deriving DecidableEq, Repr

structure Proc where
  sz : Nat
  pgdir : Pgdir
  kstack : Option Nat
  state : ProcState
  pid : Int
  parent : Option (Fin nProc)
  killed : Bool
  ofile : Fin nOfile → Option (Fin nFile)
  vmas : Fin nVma → Vma

structure Kernel where
  procs : Fin nProc → Proc
  initproc : Fin nProc
  nextpid : Int
  ftable : Fin nFile → File
  /-- The inode that the `ip` of an entry of another type still leads to; none when it is null
  or nobody refers to what it leads to. -/
  leftover : Fin nFile → Option Nat
  inodes : Nat → Inode
  /-- How many blocks of the disk are free. -/
  freeBlocks : Nat
  devsw : Nat → Option Devsw
  mem : Mem

namespace Kernel

def setProc (k : Kernel) (p : Fin nProc) (x : Proc) : Kernel :=
  { k with procs := Function.update k.procs p x }

def setFile (k : Kernel) (f : Fin nFile) (x : File) : Kernel :=
  { k with ftable := Function.update k.ftable f x }

def setInode (k : Kernel) (i : Nat) (x : Inode) : Kernel :=
  { k with inodes := Function.update k.inodes i x }

/-- What may change between two acts of the model: inodes enter and leave the cache, and other
files take blocks and give them back. -/
def Meanwhile (k k' : Kernel) : Prop :=
  ∃ leftover freeBlocks, k' = { k with leftover := leftover, freeBlocks := freeBlocks }

theorem Meanwhile.refl (k : Kernel) : k.Meanwhile k := ⟨k.leftover, k.freeBlocks, rfl⟩

/-- The memory as the page-table code sees it while process `p` runs. -/
def space (k : Kernel) (p : Fin nProc) : Space := ⟨k.mem, (k.procs p).pgdir⟩

def setSpace (k : Kernel) (p : Fin nProc) (s : Space) : Kernel :=
  { k.setProc p { k.procs p with pgdir := s.pgdir } with mem := s.mem }

def setVma (k : Kernel) (p : Fin nProc) (j : Fin nVma) (v : Vma) : Kernel :=
  k.setProc p { k.procs p with vmas := Function.update (k.procs p).vmas j v }

def setOfile (k : Kernel) (p : Fin nProc) (fd : Fin nOfile) (f : Option (Fin nFile)) : Kernel :=
  k.setProc p { k.procs p with ofile := Function.update (k.procs p).ofile fd f }

section Frames

variable (k : Kernel) (p q : Fin nProc) (x : Proc) (s s' : Space)

@[simp] theorem procs_setProc : (k.setProc p x).procs = Function.update k.procs p x := rfl
@[simp] theorem ftable_setProc : (k.setProc p x).ftable = k.ftable := rfl
@[simp] theorem leftover_setProc : (k.setProc p x).leftover = k.leftover := rfl
@[simp] theorem inodes_setProc : (k.setProc p x).inodes = k.inodes := rfl
@[simp] theorem mem_setProc : (k.setProc p x).mem = k.mem := rfl
@[simp] theorem initproc_setProc : (k.setProc p x).initproc = k.initproc := rfl

@[simp] theorem procs_setSpace : (k.setSpace p s).procs =
    Function.update k.procs p { k.procs p with pgdir := s.pgdir } := rfl
@[simp] theorem ftable_setSpace : (k.setSpace p s).ftable = k.ftable := rfl
@[simp] theorem leftover_setSpace : (k.setSpace p s).leftover = k.leftover := rfl
@[simp] theorem inodes_setSpace : (k.setSpace p s).inodes = k.inodes := rfl
@[simp] theorem mem_setSpace : (k.setSpace p s).mem = s.mem := rfl
@[simp] theorem initproc_setSpace : (k.setSpace p s).initproc = k.initproc := rfl

@[simp] theorem space_setSpace : (k.setSpace p s).space p = s := by simp [space]

@[simp] theorem setSpace_setSpace : (k.setSpace p s).setSpace p s' = k.setSpace p s' := by
  simp [setSpace, setProc]

@[simp] theorem setSpace_space : k.setSpace p (k.space p) = k := by
  simp [setSpace, setProc, space]

theorem setMem_eq_setSpace (m : Mem) :
    { k with mem := m } = k.setSpace p ⟨m, (k.procs p).pgdir⟩ := by
  simp [setSpace, setProc]

@[simp] theorem procs_setFile (f : Fin nFile) (y : File) :
    (k.setFile f y).procs = k.procs := rfl
@[simp] theorem ftable_setFile (f : Fin nFile) (y : File) :
    (k.setFile f y).ftable = Function.update k.ftable f y := rfl
@[simp] theorem initproc_setFile (f : Fin nFile) (y : File) :
    (k.setFile f y).initproc = k.initproc := rfl

end Frames

end Kernel

end OSProjects.Xv6
