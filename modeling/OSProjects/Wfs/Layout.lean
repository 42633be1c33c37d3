import OSProjects.Foundation.ByteMemory
import Mathlib.Data.List.Basic

/-!
# The WFS disk image and computations on its mapping

`wfs.h` fixes the layout: a superblock of two words, then log entries, each an
inode of eleven words followed by `size` bytes of data. The server maps the
image and reads and writes it through pointers; pointers are offsets here.

## Implementation notes

A computation returns its stores in program order instead of the final image,
so that what a killed server leaves behind can be read off a prefix of them.
-/

namespace OSProjects.Wfs

open ByteMemory

/-- The disk file and its mapping: `size` bytes are mapped. -/
structure Image where
  size : Nat
  byte : Memory

namespace Image

/-- The image after a list of stores. -/
def apply (img : Image) (stores : List Store) : Image :=
  { img with byte := applyAll stores img.byte }

@[simp] theorem apply_nil (img : Image) : img.apply [] = img := rfl

@[simp] theorem apply_size (img : Image) (stores : List Store) :
    (img.apply stores).size = img.size := rfl

theorem apply_append (img : Image) (a b : List Store) :
    img.apply (a ++ b) = (img.apply a).apply b := by
  simp [apply, applyAll_append]

/-- `sb->head`. -/
def head (img : Image) : Nat := readWord img.byte 4 4

theorem head_lt (img : Image) : img.head < 2 ^ 32 := by
  simpa [head] using readWord_lt img.byte 4 4

end Image

/-- A computation on the mapped image. `none` is an access through NULL or outside
the mapping; otherwise the result comes with the stores executed, in order. -/
def WfsM (α : Type) := Image → Option (α × List Store)

namespace WfsM

instance : Monad WfsM where
  pure a := fun _ => some (a, [])
  bind p f := fun img =>
    match p img with
    | none => none
    | some (a, done) =>
        match f a (img.apply done) with
        | none => none
        | some (b, more) => some (b, done ++ more)

/-- The result of a computation together with the image it leaves. -/
def exec {α : Type} (p : WfsM α) (img : Image) : Option (α × Image) :=
  (p img).map fun r => (r.1, img.apply r.2)

variable {α β : Type}

@[simp] theorem exec_pure (a : α) (img : Image) : exec (pure a) img = some (a, img) := rfl

@[simp] theorem exec_bind (p : WfsM α) (f : α → WfsM β) (img : Image) :
    exec (p >>= f) img = (exec p img).bind fun r => exec (f r.1) r.2 := by
  cases hp : p img with
  | none => simp [exec, bind, hp]
  | some r =>
      cases hf : f r.1 (img.apply r.2) with
      | none => simp [exec, bind, hp, hf]
      | some q => simp [exec, bind, hp, hf, Image.apply_append]

/-- The stores of a sequence are those of its parts, in order. -/
theorem of_bind_eq_some {p : WfsM α} {f : α → WfsM β} {img : Image} {r : β × List Store}
    (h : (p >>= f) img = some r) : ∃ a done b more, p img = some (a, done) ∧
      f a (img.apply done) = some (b, more) ∧ r = (b, done ++ more) := by
  cases hp : p img with
  | none => simp [bind, hp] at h
  | some q =>
      obtain ⟨a, done⟩ := q
      cases hf : f a (img.apply done) with
      | none => simp [bind, hp, hf] at h
      | some t =>
          obtain ⟨b, more⟩ := t
          have hr : (b, done ++ more) = r := by simpa [bind, hp, hf] using h
          exact ⟨a, done, b, more, rfl, hf, hr.symm⟩

theorem exec_ite (c : Prop) [Decidable c] (p q : WfsM α) (img : Image) :
    exec (if c then p else q) img = if c then exec p img else exec q img := by
  split <;> rfl

/-- An access that kills the server. -/
def fault : WfsM α := fun _ => none

@[simp] theorem exec_fault (img : Image) : exec (fault : WfsM α) img = none := rfl

/-- Read a little-endian word of `w` bytes. -/
def load (w off : Nat) : WfsM Nat := fun img =>
  if off + w ≤ img.size then some (readWord img.byte w off, []) else none

theorem exec_load {w off : Nat} {img : Image} (h : off + w ≤ img.size) :
    exec (load w off) img = some (readWord img.byte w off, img) := by
  simp [exec, load, h]

/-- Read consecutive bytes. -/
def loadBytes (off n : Nat) : WfsM (List UInt8) := fun img =>
  if off + n ≤ img.size then some (readBytes img.byte off n, []) else none

/-- Write consecutive bytes. -/
def store (off : Nat) (bytes : List UInt8) : WfsM Unit := fun img =>
  if off + bytes.length ≤ img.size then some ((), [⟨off, bytes⟩]) else none

theorem exec_store {off : Nat} {bytes : List UInt8} {img : Image}
    (h : off + bytes.length ≤ img.size) :
    exec (store off bytes) img = some ((), img.apply [⟨off, bytes⟩]) := by
  simp [exec, store, h]

/-- `memcpy` between two ranges of the mapping. -/
def memcpy (dst src n : Nat) : WfsM Unit := fun img =>
  if src + n ≤ img.size ∧ dst + n ≤ img.size then some ((), [⟨dst, readBytes img.byte src n⟩])
  else none

theorem exec_memcpy {dst src n : Nat} {img : Image} (hs : src + n ≤ img.size)
    (hd : dst + n ≤ img.size) :
    exec (memcpy dst src n) img = some ((), img.apply [⟨dst, readBytes img.byte src n⟩]) := by
  simp [exec, memcpy, hs, hd]

/-- Store a word of `w` bytes, truncating the value. -/
def storeWord (w off v : Nat) : WfsM Unit := store off (wordBytes w v)

/-- `strcpy` of a string kept without its NUL. -/
def strcpy (off : Nat) (s : List UInt8) : WfsM Unit := store off (s ++ [0])

/-- `strcmp(s, ...) == 0` against the bytes at `off`; it reads no further than the
first difference. -/
def strcmpEq : List UInt8 → Nat → WfsM Bool
  | [], off => do
      let b ← load 1 off
      return b == 0
  | c :: s, off => do
      let b ← load 1 off
      if b = c.toNat then strcmpEq s (off + 1) else return false

end WfsM

/-! ## Structures of `wfs.h` -/

/-- `sizeof(struct wfs_sb)`. -/
def sizeofSb : Nat := 8

/-- `sizeof(struct wfs_inode)`, which is also `sizeof(struct wfs_log_entry)`: its data
member is a flexible array. -/
def sizeofInode : Nat := 44

/-- `MAX_FILE_NAME_LEN`. -/
def maxFileNameLen : Nat := 32

/-- `sizeof(struct wfs_dentry)`. -/
def sizeofDentry : Nat := 40

def wfsMagic : Nat := 0xdeadbeef

/-- The members of `struct wfs_inode`, all of them `unsigned int`. -/
inductive InodeField
  | inodeNumber | deleted | mode | uid | gid | flags | size | atime | mtime | ctime | links
  deriving DecidableEq, Repr

/-- The offset of a member in `struct wfs_inode`. -/
def InodeField.offset : InodeField → Nat
  | .inodeNumber => 0
  | .deleted => 4
  | .mode => 8
  | .uid => 12
  | .gid => 16
  | .flags => 20
  | .size => 24
  | .atime => 28
  | .mtime => 32
  | .ctime => 36
  | .links => 40

theorem InodeField.offset_le (f : InodeField) : f.offset + 4 ≤ sizeofInode := by
  cases f <;> decide

theorem InodeField.offset_disjoint {f g : InodeField} (h : f ≠ g) :
    f.offset + 4 ≤ g.offset ∨ g.offset + 4 ≤ f.offset := by
  revert h
  cases f <;> cases g <;> decide

/-- The value of every inode member. -/
abbrev Inode := InodeField → Nat

/-- The inode stored at offset `log`. -/
def inodeAt (m : Memory) (log : Nat) : Inode := fun f => readWord m 4 (log + f.offset)

/-- Read one member of the entry at `log`. -/
def loadField (log : Nat) (f : InodeField) : WfsM Nat := WfsM.load 4 (log + f.offset)

/-- Assign one member of the entry at `log`. -/
def storeField (log : Nat) (f : InodeField) (v : Nat) : WfsM Unit :=
  WfsM.storeWord 4 (log + f.offset) v

/-- Assign members of the entry at `log` in the given order. -/
def storeFields (log : Nat) : List (InodeField × Nat) → WfsM Unit
  | [] => pure ()
  | (f, v) :: rest => do
      storeField log f v
      storeFields log rest

/-- Read `sb->head`. -/
def loadHead : WfsM Nat := WfsM.load 4 4

/-- Assign `sb->head`, a `uint32_t`. -/
def storeHead (v : Nat) : WfsM Unit := WfsM.storeWord 4 4 v

/-! ## Constants of the C library -/

def eNOENT : Int := -2
def eEXIST : Int := -17
def eISDIR : Int := -21
def eINVAL : Int := -22

/-- `S_IFMT`, the mask of the file kind in a mode. -/
def sIFMT : Nat := 0o170000
def sIFDIR : Nat := 0o040000
def sIFREG : Nat := 0o100000

/-- `S_ISDIR`, written out as in `wfs_unlink`. -/
def isDirMode (mode : Nat) : Bool := mode &&& sIFMT == sIFDIR

def isRegMode (mode : Nat) : Bool := mode &&& sIFMT == sIFREG

/-- The path separator. -/
def slash : UInt8 := 47

end OSProjects.Wfs
