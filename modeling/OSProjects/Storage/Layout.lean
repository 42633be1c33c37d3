import Mathlib.Logic.Function.Basic
import OSProjects.Foundation.PackedRecord
import OSProjects.Foundation.RedoLog
import OSProjects.Storage.Block

/-!
# What lies where on the disk

The layout of `fs.h`: inode blocks, the bitmap of free blocks, and data blocks. Each accessor of
`fs.c` reads or changes one part of one block; the lemmas say what it does to the others.
-/

namespace OSProjects.Storage

open ByteMemory PackedRecord RedoLog Xv6

def nDirect : Nat := 12
def nIndirect : Nat := bSize / 4

/-- `IPB`, inodes for each block. -/
def ipb : Nat := bSize / 64

/-- `BPB`, bits of the bitmap for each block. -/
def bpb : Nat := bSize * 8

/-- What `fs.c` uses of the super block. The inode blocks lie before the bitmap. -/
structure Superblock where
  size : Nat
  ninodes : Nat
  inodestart : Nat
  bmapstart : Nat
  small : size ≤ 2 ^ 32
  inodes_before : inodestart + ninodes / ipb < bmapstart

/-- `struct dinode`, which `struct inode` repeats in memory. -/
structure Dinode where
  type : Nat
  major : Nat
  minor : Nat
  nlink : Nat
  size : Nat
  addrs : Fin (nDirect + 1) → Nat

namespace Dinode

/-- All fields zero. -/
def zero : Dinode := ⟨0, 0, 0, 0, 0, fun _ => 0⟩

def words (ip : Dinode) : List Nat :=
  [ip.type, ip.major, ip.minor, ip.nlink, ip.size] ++ List.ofFn ip.addrs

def ofWords (ws : List Nat) : Dinode :=
  ⟨ws.getD 0 0, ws.getD 1 0, ws.getD 2 0, ws.getD 3 0, ws.getD 4 0, fun k => ws.getD (5 + k) 0⟩

def widths : List Nat := [2, 2, 2, 2] ++ List.replicate (nDirect + 2) 4

def bytes (ip : Dinode) : List UInt8 := fieldBytes (widths.zip ip.words)

/-- The fields are in the range of their types. -/
structure Fits (ip : Dinode) : Prop where
  type : ip.type < 2 ^ 16
  major : ip.major < 2 ^ 16
  minor : ip.minor < 2 ^ 16
  nlink : ip.nlink < 2 ^ 16
  size : ip.size < 2 ^ 32
  addrs : ∀ k, ip.addrs k < 2 ^ 32

end Dinode

/-! ## Bits and entries of a block -/

/-- `x & (1 << k)`. -/
def bit (x : UInt8) (k : Nat) : Bool := x.toBitVec.getLsbD k

/-- `x | (1 << k)` or `x & ~(1 << k)`. -/
def setBit (x : UInt8) (k : Nat) (v : Bool) : UInt8 :=
  ⟨if v then x.toBitVec ||| BitVec.twoPow 8 k else x.toBitVec &&& ~~~ BitVec.twoPow 8 k⟩

/-- A block of zeroes. -/
def Block.zero : Block := fun _ => 0

/-- `a[j]`, of a block of block numbers. -/
def entry (x : Block) (j : Nat) : Nat := readWord x.toMemory 4 (4 * j)

def setEntry (x : Block) (j v : Nat) : Block :=
  Block.ofMemory (Store.apply ⟨4 * j, wordBytes 4 v⟩ x.toMemory)

namespace Superblock

variable (sb : Superblock)

/-- `IBLOCK`. -/
def iblock (i : Nat) : Nat := i / ipb + sb.inodestart

/-- `BBLOCK`. -/
def bblock (b : Nat) : Nat := b / bpb + sb.bmapstart

/-- The data blocks lie behind the bitmap. -/
def Data (b : Nat) : Prop := sb.bmapstart + sb.size / bpb < b ∧ b < sb.size

instance (b : Nat) : Decidable (sb.Data b) := inferInstanceAs (Decidable (_ ∧ _))

/-- The dinode of a number, as `ilock` reads it. -/
def dinode (d : Disk Block) (i : Nat) : Dinode :=
  .ofWords (readFields (d (sb.iblock i)).toMemory (i % ipb * 64) Dinode.widths)

/-- The stores of `iupdate`. -/
def putDinode (d : Disk Block) (i : Nat) (ip : Dinode) : Disk Block :=
  Function.update d (sb.iblock i)
    (Block.ofMemory (Store.apply ⟨i % ipb * 64, ip.bytes⟩ (d (sb.iblock i)).toMemory))

theorem byte_lt (b : Nat) : b % bpb / 8 < bSize :=
  Nat.div_lt_of_lt_mul (Nat.mod_lt b (by decide))

/-- The bit of a block in the bitmap. -/
def marked (d : Disk Block) (b : Nat) : Bool :=
  bit (d (sb.bblock b) ⟨b % bpb / 8, byte_lt b⟩) (b % bpb % 8)

def mark (d : Disk Block) (b : Nat) (v : Bool) : Disk Block :=
  Function.update d (sb.bblock b) (Function.update (d (sb.bblock b)) ⟨b % bpb / 8, byte_lt b⟩
    (setBit (d (sb.bblock b) ⟨b % bpb / 8, byte_lt b⟩) (b % bpb % 8) v))

end Superblock

/-! ## Reading back -/

theorem bit_setBit {x : UInt8} {k j : Nat} {v : Bool} (hj : j < 8) :
    bit (setBit x k v) j = if j = k then v else bit x j := by
  have htwo : (BitVec.twoPow 8 k).getLsbD j = decide (k = j) := by
    rw [BitVec.getLsbD_twoPow, Bool.eq_iff_iff, Bool.and_eq_true]
    simp only [decide_eq_true_eq]
    exact ⟨And.right, fun h => ⟨by omega, h⟩⟩
  rw [bit, setBit, bit]
  cases v
  · rw [if_neg Bool.false_ne_true, BitVec.getLsbD_and, BitVec.getLsbD_not, htwo]
    by_cases h : j = k
    · simp [h]
    · simp [h, hj, Ne.symm h]
  · rw [if_pos rfl, BitVec.getLsbD_or, htwo]
    by_cases h : j = k
    · simp [h]
    · simp [h, Ne.symm h]

section Entries

variable {x : Block} {j k v : Nat}

theorem entry_setEntry_self (hj : j < nIndirect) (hv : v < 2 ^ 32) :
    entry (setEntry x j v) j = v := by
  have hfit : 4 * j + 4 ≤ bSize := by
    have : j < 128 := hj
    change 4 * j + 4 ≤ 512
    omega
  rw [entry, setEntry, Block.readWord_ofMemory _ hfit, readWord_apply_self]
  exact Nat.mod_eq_of_lt hv

theorem entry_setEntry_ne (hk : k < nIndirect) (hne : k ≠ j) :
    entry (setEntry x j v) k = entry x k := by
  have hfit : 4 * k + 4 ≤ bSize := by
    have : k < 128 := hk
    change 4 * k + 4 ≤ 512
    omega
  rw [entry, setEntry, Block.readWord_ofMemory _ hfit, readWord_apply_disjoint, entry]
  rw [Store.stop, length_wordBytes]
  simp only
  omega

theorem readWord_zero (n off : Nat) : readWord (Block.zero.toMemory) n off = 0 := by
  change wordValue (readBytes (Block.zero.toMemory) off n) = 0
  induction n generalizing off with
  | zero => rfl
  | succ n ih =>
      have hbyte : Block.zero.toMemory off = 0 := by
        rw [Block.toMemory]
        split <;> rfl
      rw [readBytes, wordValue, ih, hbyte]
      rfl

theorem entry_zero (j : Nat) : entry .zero j = 0 := readWord_zero 4 _

end Entries

theorem Dinode.ofWords_words (ip : Dinode) : Dinode.ofWords ip.words = ip := by
  obtain ⟨type, major, minor, nlink, size, addrs⟩ := ip
  have haddr : ∀ k : Fin (nDirect + 1), (Dinode.words ⟨type, major, minor, nlink, size, addrs⟩)[5 + k.val]? =
      some (addrs k) := by
    intro k
    have hlen : [type, major, minor, nlink, size].length ≤ 5 + k.val := Nat.le_add_right 5 k
    rw [Dinode.words, List.getElem?_append_right hlen, List.getElem?_ofFn]
    have hk : 5 + k.val - [type, major, minor, nlink, size].length = k := Nat.add_sub_cancel_left 5 k
    simp only [hk, k.isLt, dif_pos, Fin.eta]
  have hfun : (fun k : Fin (nDirect + 1) =>
      (Dinode.words ⟨type, major, minor, nlink, size, addrs⟩).getD (5 + k) 0) = addrs := by
    funext k
    rw [List.getD_eq_getElem?_getD, haddr]
    rfl
  rw [Dinode.ofWords, hfun]
  rfl

/-- Fields in their range are stored in full. -/
theorem Dinode.Fits.words {ip : Dinode} (h : ip.Fits) :
    (Dinode.widths.zip ip.words).map (fun f => f.2 % 256 ^ f.1) = ip.words := by
  have hall : ∀ f ∈ Dinode.widths.zip ip.words, f.2 < 256 ^ f.1 := by
    intro f hf
    have hsplit : Dinode.widths.zip ip.words =
        [(2, ip.type), (2, ip.major), (2, ip.minor), (2, ip.nlink), (4, ip.size)] ++
          (List.replicate (nDirect + 1) 4).zip (List.ofFn ip.addrs) := rfl
    rw [hsplit] at hf
    rcases List.mem_append.mp hf with hf | hf
    · simp only [List.mem_cons, List.not_mem_nil, or_false] at hf
      rcases hf with rfl | rfl | rfl | rfl | rfl
      · exact h.type
      · exact h.major
      · exact h.minor
      · exact h.nlink
      · exact h.size
    · obtain ⟨hw, hv⟩ := List.of_mem_zip (show (f.1, f.2) ∈ _ from hf)
      obtain ⟨k, hk⟩ := List.mem_ofFn.mp hv
      rw [(List.mem_replicate.mp hw).2, ← hk]
      exact h.addrs k
  rw [List.map_congr_left fun f hf => Nat.mod_eq_of_lt (hall f hf)]
  exact List.map_snd_zip (by simp [Dinode.widths, Dinode.words])

/-! ## What the accessors leave alone -/

namespace Superblock

variable {sb : Superblock} {d e : Disk Block} {i j b c : Nat} {ip : Dinode} {x : Block} {v : Bool}

theorem dinode_congr (h : e (sb.iblock i) = d (sb.iblock i)) : sb.dinode e i = sb.dinode d i := by
  rw [dinode, h, dinode]

theorem dinode_of_zero (h : d (sb.iblock i) = .zero) : sb.dinode d i = .zero := by
  have hfields : ∀ ws off, readFields (Block.zero.toMemory) off ws = List.replicate ws.length 0 := by
    intro ws
    induction ws with
    | nil => exact fun _ => rfl
    | cons w ws ih =>
        intro off
        rw [readFields, readWord_zero, ih, List.length_cons, List.replicate_succ]
  have hget : ∀ n j, (List.replicate n 0).getD j 0 = 0 := fun n j => by
    rw [List.getD_eq_getElem?_getD, List.getElem?_replicate]
    split <;> rfl
  rw [dinode, h, hfields, Dinode.ofWords]
  simp only [hget]
  rfl

theorem marked_congr (h : e (sb.bblock b) = d (sb.bblock b)) : sb.marked e b = sb.marked d b := by
  rw [marked, h, marked]

theorem iblock_lt (hi : i < sb.ninodes) : sb.iblock i < sb.bmapstart := by
  have hdiv : i / ipb ≤ sb.ninodes / ipb := Nat.div_le_div_right (Nat.le_of_lt hi)
  have := sb.inodes_before
  rw [iblock]
  omega

theorem iblock_ne_bblock (hi : i < sb.ninodes) : sb.iblock i ≠ sb.bblock b :=
  Nat.ne_of_lt (Nat.lt_of_lt_of_le (iblock_lt hi) (Nat.le_add_left _ _))

theorem Data.ne_iblock (hb : sb.Data b) (hi : i < sb.ninodes) : sb.iblock i ≠ b :=
  Nat.ne_of_lt (Nat.lt_trans (iblock_lt hi) (Nat.lt_of_le_of_lt (Nat.le_add_right _ _) hb.1))

theorem Data.ne_bblock (hb : sb.Data b) (hc : c < sb.size) : sb.bblock c ≠ b := by
  have hdiv : c / bpb ≤ sb.size / bpb := Nat.div_le_div_right (Nat.le_of_lt hc)
  have := hb.1
  rw [bblock]
  omega

theorem Data.pos (hb : sb.Data b) : b ≠ 0 := Nat.ne_of_gt (Nat.lt_of_le_of_lt (Nat.zero_le _) hb.1)

theorem Data.lt (hb : sb.Data b) : b < 2 ^ 32 := Nat.lt_of_lt_of_le hb.2 sb.small

/-- A data block is no part of the inode blocks or the bitmap. -/
theorem dinode_update (hb : sb.Data b) (hi : i < sb.ninodes) :
    sb.dinode (Function.update d b x) i = sb.dinode d i :=
  dinode_congr (Function.update_of_ne (hb.ne_iblock hi) x d)

theorem marked_update (hb : sb.Data b) (hc : c < sb.size) :
    sb.marked (Function.update d b x) c = sb.marked d c :=
  marked_congr (Function.update_of_ne (hb.ne_bblock hc) x d)

theorem mark_of_data (hb : sb.Data b) (hc : c < sb.size) : sb.mark d c v b = d b :=
  Function.update_of_ne (hb.ne_bblock hc).symm _ d

theorem putDinode_of_data (hb : sb.Data b) (hi : i < sb.ninodes) : sb.putDinode d i ip b = d b :=
  Function.update_of_ne (hb.ne_iblock hi).symm _ d

theorem dinode_mark (hi : i < sb.ninodes) : sb.dinode (sb.mark d b v) i = sb.dinode d i :=
  dinode_congr (Function.update_of_ne (iblock_ne_bblock hi) _ d)

theorem marked_putDinode (hi : i < sb.ninodes) :
    sb.marked (sb.putDinode d i ip) b = sb.marked d b :=
  marked_congr (Function.update_of_ne (iblock_ne_bblock hi).symm _ d)

/-- The bit of another block is another bit. -/
theorem marked_mark : sb.marked (sb.mark d b v) c = if c = b then v else sb.marked d c := by
  have hbit : c % bpb % 8 < 8 := Nat.mod_lt _ (by decide)
  by_cases hblock : sb.bblock c = sb.bblock b
  · have hdiv : c / bpb = b / bpb := Nat.add_right_cancel hblock
    rw [marked, mark, hblock, Function.update_self]
    by_cases hbyte : (⟨c % bpb / 8, byte_lt c⟩ : Fin bSize) = ⟨b % bpb / 8, byte_lt b⟩
    · have hval : c % bpb / 8 = b % bpb / 8 := congrArg Fin.val hbyte
      rw [hbyte, Function.update_self, bit_setBit hbit]
      by_cases hcb : c = b
      · rw [if_pos hcb, if_pos (by rw [hcb])]
      · have hmod : c % bpb ≠ b % bpb := fun h => hcb (by
          rw [← Nat.div_add_mod c bpb, ← Nat.div_add_mod b bpb, hdiv, h])
        rw [if_neg hcb, if_neg (by omega), marked, hblock, hbyte]
    · rw [Function.update_of_ne hbyte, if_neg fun h => hbyte (by rw [h]), marked, hblock]
  · rw [if_neg fun h => hblock (by rw [h])]
    exact marked_congr (Function.update_of_ne hblock _ d)

/-- What is read from the disk is in range. -/
theorem dinode_fits : (sb.dinode d i).Fits := by
  have hlt := readFields_lt (d (sb.iblock i)).toMemory (i % ipb * 64) Dinode.widths
  refine ⟨hlt 0, hlt 1, hlt 2, hlt 3, hlt 4, fun k => ?_⟩
  have hwidth : Dinode.widths.getD (5 + k) 0 = 4 := by
    have hk : k.val < 13 := k.isLt
    rw [List.getD_eq_getElem?_getD, Dinode.widths, List.getElem?_append_right (by simp; omega),
      List.getElem?_replicate_of_lt (by simp [nDirect]; omega)]
    rfl
  have := hlt (5 + k)
  rw [hwidth] at this
  exact this

/-- `ilock` reads what `iupdate` stored. -/
theorem dinode_putDinode_self (hfits : ip.Fits) : sb.dinode (sb.putDinode d i ip) i = ip := by
  have hinside : i % ipb * 64 + Dinode.widths.sum ≤ bSize := by
    have hslot : i % ipb < 8 := Nat.mod_lt _ (by decide)
    change i % ipb * 64 + 64 ≤ 512
    omega
  have hfst : (Dinode.widths.zip ip.words).map Prod.fst = Dinode.widths :=
    List.map_fst_zip (by simp [Dinode.widths, Dinode.words])
  have hback := readFields_store (Dinode.widths.zip ip.words) (d (sb.iblock i)).toMemory
    (i % ipb * 64)
  rw [hfst, hfits.words] at hback
  rw [dinode, putDinode, Function.update_self, readFields_congr fun k _ hk =>
    Block.toMemory_ofMemory _ (Nat.lt_of_lt_of_le hk hinside), Dinode.bytes, hback]
  exact Dinode.ofWords_words ip

/-- Other dinodes lie elsewhere, perhaps in the same block. -/
theorem dinode_putDinode_ne (hne : j ≠ i) :
    sb.dinode (sb.putDinode d i ip) j = sb.dinode d j := by
  by_cases hblock : sb.iblock j = sb.iblock i
  · have hdiv : j / ipb = i / ipb := Nat.add_right_cancel hblock
    have hmod : j % ipb ≠ i % ipb := fun h => hne (by
      rw [← Nat.div_add_mod j ipb, ← Nat.div_add_mod i ipb, hdiv, h])
    have hslot : j % ipb < 8 := Nat.mod_lt _ (by decide)
    have hstop : ip.bytes.length = 64 := by
      rw [Dinode.bytes, length_fieldBytes,
        List.map_fst_zip (by simp [Dinode.widths, Dinode.words])]
      rfl
    rw [dinode, putDinode, hblock, Function.update_self, dinode, hblock]
    congr 1
    refine readFields_congr fun k hk hlt => ?_
    have hsum : Dinode.widths.sum = 64 := rfl
    rw [hsum] at hlt
    rw [Block.toMemory_ofMemory _ (show k < 512 by omega)]
    rcases Nat.lt_or_gt_of_ne hmod with hless | hmore
    · exact Store.apply_of_lt _ _ (show k < i % ipb * 64 by omega)
    · refine Store.apply_of_stop_le _ _ ?_
      rw [Store.stop, hstop]
      change i % ipb * 64 + 64 ≤ k
      omega
  · exact dinode_congr (Function.update_of_ne hblock _ d)

end Superblock

end OSProjects.Storage
