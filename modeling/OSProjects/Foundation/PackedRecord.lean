import OSProjects.Foundation.ByteMemory

/-!
# Records of little-endian fields

The fields of a packed record lie one behind the other. A record that has been stored is read
back field by field, each truncated to its width.
-/

namespace OSProjects.PackedRecord

open ByteMemory

variable {m m' : Memory} {off : Nat} {ws : List Nat} {fields : List (Nat × Nat)}

/-- The bytes of fields, each a width and a value. -/
def fieldBytes (fields : List (Nat × Nat)) : List UInt8 :=
  fields.flatMap fun f => wordBytes f.1 f.2

/-- The fields of the given widths, from an offset on. -/
def readFields (m : Memory) : Nat → List Nat → List Nat
  | _, [] => []
  | off, w :: ws => readWord m w off :: readFields m (off + w) ws

@[simp] theorem length_readFields : (readFields m off ws).length = ws.length := by
  induction ws generalizing off with
  | nil => rfl
  | cons w ws ih => rw [readFields, List.length_cons, List.length_cons, ih]

@[simp] theorem length_fieldBytes (fields : List (Nat × Nat)) :
    (fieldBytes fields).length = (fields.map Prod.fst).sum := by
  rw [fieldBytes, List.length_flatMap]
  congr 1
  exact List.map_congr_left fun f _ => length_wordBytes _ _

/-- Fields depend on the bytes of the record only. -/
theorem readFields_congr (h : ∀ i, off ≤ i → i < off + ws.sum → m i = m' i) :
    readFields m off ws = readFields m' off ws := by
  induction ws generalizing off with
  | nil => rfl
  | cons w ws ih =>
      rw [List.sum_cons] at h
      rw [readFields, readFields, readWord_congr fun i hi hlt => h i hi (by omega),
        ih fun i hi hlt => h i (by omega) (by omega)]

/-- A field is in the range of its width. -/
theorem readFields_lt (m : Memory) (off : Nat) (ws : List Nat) (j : Nat) :
    (readFields m off ws).getD j 0 < 256 ^ ws.getD j 0 := by
  induction ws generalizing off j with
  | nil => exact Nat.one_pos
  | cons w ws ih =>
      cases j with
      | zero => exact readWord_lt m w off
      | succ j => exact ih (off + w) j

/-- A stored record is read back. -/
theorem readFields_store (fields : List (Nat × Nat)) (m : Memory) (off : Nat) :
    readFields (Store.apply ⟨off, fieldBytes fields⟩ m) off (fields.map Prod.fst) =
      fields.map fun f => f.2 % 256 ^ f.1 := by
  induction fields generalizing m off with
  | nil => rfl
  | cons f fields ih =>
      obtain ⟨w, v⟩ := f
      have hsplit : Store.apply ⟨off, fieldBytes ((w, v) :: fields)⟩ m =
          Store.apply ⟨off + w, fieldBytes fields⟩ (Store.apply ⟨off, wordBytes w v⟩ m) := by
        have happend := Store.apply_append off (wordBytes w v) (fieldBytes fields) m
        rw [length_wordBytes] at happend
        exact happend.symm
      rw [hsplit, List.map_cons, List.map_cons, readFields, ih]
      congr 1
      rw [readWord_apply_disjoint _ _ (.inl (Nat.le_refl _)), readWord_apply_self]

end OSProjects.PackedRecord
