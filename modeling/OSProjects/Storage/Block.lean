import OSProjects.Xv6.Machine

/-!
# Disk blocks and the header of the log

A block is `BSIZE` bytes. The header block of the log starts with the count of logged blocks
and their numbers, as little-endian words of four bytes.
-/

namespace OSProjects.Storage

open ByteMemory Xv6

/-! ## Blocks -/

def logSize : Nat := maxOpBlocks * 3

/-- The bytes of a block, as in `b->data`. -/
abbrev Block := Fin bSize → UInt8

/-- A block seen as memory, for stores of words. -/
def Block.toMemory (b : Block) : Memory := fun i => if h : i < bSize then b ⟨i, h⟩ else 0

/-- The block at the start of a memory. -/
def Block.ofMemory (m : Memory) : Block := fun i => m i

@[simp] theorem Block.toMemory_of_lt (b : Block) {i : Nat} (h : i < bSize) :
    b.toMemory i = b ⟨i, h⟩ := by
  rw [Block.toMemory, dif_pos h]

theorem Block.toMemory_ofMemory (m : Memory) {i : Nat} (h : i < bSize) :
    (Block.ofMemory m).toMemory i = m i := by
  rw [Block.toMemory_of_lt _ h, Block.ofMemory]

/-- A word inside the block is the word of the memory. -/
theorem Block.readWord_ofMemory (m : Memory) {w off : Nat} (h : off + w ≤ bSize) :
    readWord (Block.ofMemory m).toMemory w off = readWord m w off := by
  refine readWord_congr fun i _ hi => ?_
  exact Block.toMemory_ofMemory m (by omega)

@[simp] theorem Block.ofMemory_toMemory (b : Block) : Block.ofMemory b.toMemory = b := by
  funext i
  rw [Block.ofMemory, Block.toMemory_of_lt _ i.isLt]

/-! ## The header -/

/-- The stores to `hb->block[i]`, from `i = at` on. -/
def headerStores : Nat → List Nat → List Store
  | _, [] => []
  | i, b :: bs => ⟨4 + 4 * i, wordBytes 4 b⟩ :: headerStores (i + 1) bs

/-- The header buffer after the stores of `write_head`, where `lh` holds `log.lh.block`. -/
def encodeHead (buf : Block) (lh : List Nat) : Block :=
  Block.ofMemory (applyAll (⟨0, wordBytes 4 lh.length⟩ :: headerStores 0 lh) buf.toMemory)

/-- `read_head`: the block numbers that the header names. A count above `LOGSIZE` would run
over the end of `log.lh.block`; a negative one names nothing. -/
def decodeHead (buf : Block) : Option (List Nat) :=
  let n := readWord buf.toMemory 4 0
  if 2 ^ 31 ≤ n then some []
  else if logSize < n then none
  else some ((List.range n).map fun i => readWord buf.toMemory 4 (4 + 4 * i))

section Header

variable {buf : Block} {lh : List Nat}

/-- The stores of the block numbers lie behind the place of the first of them. -/
theorem offset_of_mem_headerStores {i : Nat} {s : Store} (h : s ∈ headerStores i lh) :
    4 + 4 * i ≤ s.offset := by
  induction lh generalizing i with
  | nil => cases h
  | cons b bs ih =>
      rcases List.mem_cons.mp h with rfl | h
      · exact Nat.le_refl _
      · exact Nat.le_trans (by omega) (ih h)

/-- Each number is read back where it was stored. -/
theorem readWord_headerStores (i : Nat) (m : Memory) (hword : ∀ b ∈ lh, b < 2 ^ 32) {k : Nat}
    (hk : k < lh.length) :
    readWord (applyAll (headerStores i lh) m) 4 (4 + 4 * (i + k)) = lh[k] := by
  induction lh generalizing i m k with
  | nil => simp at hk
  | cons b bs ih =>
      rw [headerStores, applyAll_cons]
      cases k with
      | zero =>
          have hkeep : ∀ x, 4 + 4 * i ≤ x → x < 4 + 4 * i + 4 →
              applyAll (headerStores (i + 1) bs) (Store.apply ⟨4 + 4 * i, wordBytes 4 b⟩ m) x =
                Store.apply ⟨4 + 4 * i, wordBytes 4 b⟩ m x := fun x _ hx =>
            applyAll_of_lt (fun s hs => by have := offset_of_mem_headerStores hs; omega) _
          simp only [Nat.add_zero, List.getElem_cons_zero]
          rw [readWord_congr hkeep, readWord_apply_self]
          exact Nat.mod_eq_of_lt (hword b List.mem_cons_self)
      | succ k =>
          have hnext := ih (i + 1) (Store.apply ⟨4 + 4 * i, wordBytes 4 b⟩ m)
            (fun c hc => hword c (List.mem_cons_of_mem b hc)) (Nat.lt_of_succ_lt_succ hk)
          rw [show i + (k + 1) = i + 1 + k by omega]
          exact hnext

/-- What `write_head` stores, `read_head` reads. -/
theorem decodeHead_encodeHead (hlen : lh.length ≤ logSize) (hword : ∀ b ∈ lh, b < 2 ^ 32) :
    decodeHead (encodeHead buf lh) = some lh := by
  have hsize : lh.length ≤ 30 := hlen
  have hword0 : readWord (encodeHead buf lh).toMemory 4 0 = lh.length := by
    rw [encodeHead, Block.readWord_ofMemory _ (by decide), applyAll_cons]
    have hkeep : ∀ x, 0 ≤ x → x < 0 + 4 →
        applyAll (headerStores 0 lh) (Store.apply ⟨0, wordBytes 4 lh.length⟩ buf.toMemory) x =
          Store.apply ⟨0, wordBytes 4 lh.length⟩ buf.toMemory x := fun x _ hx =>
      applyAll_of_lt (fun s hs => by have := offset_of_mem_headerStores hs; omega) _
    rw [readWord_congr hkeep, readWord_apply_self]
    exact Nat.mod_eq_of_lt (by omega)
  have hget : ∀ k, (hk : k < lh.length) →
      readWord (encodeHead buf lh).toMemory 4 (4 + 4 * k) = lh[k] := by
    intro k hk
    rw [encodeHead, Block.readWord_ofMemory _ (show 4 + 4 * k + 4 ≤ 512 by omega), applyAll_cons]
    have := readWord_headerStores 0 (Store.apply ⟨0, wordBytes 4 lh.length⟩ buf.toMemory) hword hk
    rwa [Nat.zero_add] at this
  rw [decodeHead, hword0, if_neg (by omega), if_neg (Nat.not_lt.mpr hlen)]
  refine congrArg some (List.ext_getElem (by simp) fun k _ hk => ?_)
  rw [List.getElem_map, List.getElem_range]
  exact hget k hk

end Header

end OSProjects.Storage
