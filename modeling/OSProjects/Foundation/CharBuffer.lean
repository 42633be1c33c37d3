import OSProjects.Foundation.StringSearch

/-!
# Character buffers

C strings in arrays of a fixed size. A store outside its array has no value, and neither has a
search for a NUL that leaves it.
-/

namespace OSProjects.CharBuffer

open StringSearch

/-- The bytes of an array. -/
abbrev Buffer := List UInt8

/-- Bytes are stored from an index on. -/
def storeAt (b : Buffer) (i : Nat) (bytes : List UInt8) : Option Buffer :=
  if i + bytes.length ≤ b.length then some (b.take i ++ bytes ++ b.drop (i + bytes.length))
  else none

/-- `strlen(b + i)`. -/
def strlenAt (b : Buffer) (i : Nat) : Option Nat := (b.drop i).findIdx? (· == 0)

/-- `strcpy(b + i, s)`. -/
def strcpyAt (b : Buffer) (i : Nat) (s : List UInt8) : Option Buffer := storeAt b i (s ++ [0])

/-- `strcat(b + i, s)`. -/
def strcatAt (b : Buffer) (i : Nat) (s : List UInt8) : Option Buffer :=
  match strlenAt b i with
  | none => none
  | some n => strcpyAt b (i + n) s

section Stores

variable {pre old post bytes s t : List UInt8}

/-- A store replaces as many bytes as it stores. -/
theorem storeAt_append (h : old.length = bytes.length) :
    storeAt (pre ++ (old ++ post)) pre.length bytes = some (pre ++ (bytes ++ post)) := by
  have hroom : pre.length + bytes.length ≤ (pre ++ (old ++ post)).length := by
    rw [List.length_append, List.length_append, ← h]
    omega
  rw [storeAt, if_pos hroom, List.take_left, List.drop_append, ← h, List.append_assoc]
  rw [List.drop_eq_nil_of_le (Nat.le_add_right _ _), Nat.add_sub_cancel_left, List.drop_left]
  rfl

theorem storeAt_eq_none {b : Buffer} {i : Nat} (h : b.length < i + bytes.length) :
    storeAt b i bytes = none :=
  if_neg (Nat.not_le_of_lt h)

/-- The string that starts at an index ends at the next NUL. -/
theorem strlenAt_append (hs : 0 ∉ s) : strlenAt (pre ++ (s ++ 0 :: post)) pre.length =
    some s.length := by
  have hnone : s.findIdx? (· == 0) = none := by
    rw [List.findIdx?_eq_none_iff]
    exact fun b hb => beq_eq_false_iff_ne.mpr fun heq => hs (heq ▸ hb)
  rw [strlenAt, List.drop_left, List.findIdx?_append, hnone, List.findIdx?_cons]
  simp

/-- `strcat` overwrites the NUL and the bytes behind it. -/
theorem strcatAt_append (hs : 0 ∉ s) (h : old.length = t.length) :
    strcatAt (pre ++ (s ++ 0 :: (old ++ post))) pre.length t =
      some (pre ++ (s ++ (t ++ 0 :: post))) := by
  have hstore : storeAt ((pre ++ s) ++ ((0 :: old) ++ post)) (pre ++ s).length (t ++ [0]) =
      some ((pre ++ s) ++ ((t ++ [0]) ++ post)) := by
    apply storeAt_append
    rw [List.length_append, List.length_cons, h]
    rfl
  rw [strcatAt, strlenAt_append hs]
  rw [List.length_append] at hstore
  simpa [strcpyAt] using hstore

/-- Without room for its NUL, `strcat` leaves the array. -/
theorem strcatAt_eq_none (hs : 0 ∉ s) (h : post.length < t.length) :
    strcatAt (pre ++ (s ++ 0 :: post)) pre.length t = none := by
  rw [strcatAt, strlenAt_append hs]
  apply storeAt_eq_none
  simp only [List.length_append, List.length_cons, List.length_nil]
  omega

/-! Strings at the start of an array. -/

theorem strcpyAt_start {b : Buffer} (h : s.length < b.length) :
    strcpyAt b 0 s = some (s ++ 0 :: b.drop (s.length + 1)) := by
  have hstore : storeAt ([] ++ (b.take (s.length + 1) ++ b.drop (s.length + 1))) 0 (s ++ [0]) =
      some ([] ++ ((s ++ [0]) ++ b.drop (s.length + 1))) := by
    apply storeAt_append
    rw [List.length_take, List.length_append, List.length_singleton]
    omega
  rw [List.take_append_drop] at hstore
  simpa [strcpyAt] using hstore

theorem strcpyAt_start_eq_none {b : Buffer} (h : b.length ≤ s.length) : strcpyAt b 0 s = none := by
  apply storeAt_eq_none
  rw [List.length_append, List.length_singleton]
  omega

theorem strcatAt_start (hs : 0 ∉ s) (h : t.length ≤ post.length) :
    strcatAt (s ++ 0 :: post) 0 t = some (s ++ t ++ 0 :: post.drop t.length) := by
  have hcat := @strcatAt_append [] (post.take t.length) (post.drop t.length) s t hs
    (List.length_take_of_le h)
  rw [List.take_append_drop] at hcat
  rw [List.append_assoc]
  exact hcat

theorem strlenAt_start (hs : 0 ∉ s) : strlenAt (s ++ 0 :: post) 0 = some s.length :=
  @strlenAt_append [] post s hs

theorem strcatAt_start_eq_none (hs : 0 ∉ s) (h : post.length < t.length) :
    strcatAt (s ++ 0 :: post) 0 t = none :=
  @strcatAt_eq_none [] post s t hs h

end Stores

end OSProjects.CharBuffer
