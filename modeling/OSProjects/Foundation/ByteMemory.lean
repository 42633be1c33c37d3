import Mathlib.Data.List.Basic
import Mathlib.Tactic.Ring

/-!
# Byte-addressed memory, stores and little-endian words

A memory is a total function from offsets to bytes. A store replaces a
contiguous range. Reads of ranges and of fixed-width words are stated through
the same list of bytes, so one frame lemma covers both.
-/

namespace OSProjects.ByteMemory

/-- The contents of a memory, one byte for every offset. -/
abbrev Memory := Nat → UInt8

/-- The `n` bytes starting at `off`. -/
def readBytes (m : Memory) : Nat → Nat → List UInt8
  | _, 0 => []
  | off, n + 1 => m off :: readBytes m (off + 1) n

@[simp] theorem readBytes_zero (m : Memory) (off : Nat) : readBytes m off 0 = [] := rfl

@[simp] theorem length_readBytes (m : Memory) (off n : Nat) :
    (readBytes m off n).length = n := by
  induction n generalizing off with
  | zero => rfl
  | succ n ih => simp [readBytes, ih]

theorem readBytes_add (m : Memory) (off a b : Nat) :
    readBytes m off (a + b) = readBytes m off a ++ readBytes m (off + a) b := by
  induction a generalizing off with
  | zero => simp
  | succ a ih =>
      have h := ih (off + 1)
      rw [Nat.add_right_comm, readBytes, h, readBytes, List.cons_append]
      rw [Nat.add_right_comm off 1 a, Nat.add_assoc off a 1]

theorem getElem?_readBytes (m : Memory) {off n i : Nat} (h : i < n) :
    (readBytes m off n)[i]? = some (m (off + i)) := by
  induction n generalizing off i with
  | zero => omega
  | succ n ih =>
      cases i with
      | zero => simp [readBytes]
      | succ i =>
          have hi : (readBytes m (off + 1) n)[i]? = some (m (off + 1 + i)) := ih (by omega)
          simpa [readBytes, Nat.add_assoc, Nat.add_comm 1 i] using hi

/-- A range holds the bytes that it holds one by one. -/
theorem readBytes_eq_of_getD (m : Memory) (off : Nat) (bytes : List UInt8)
    (h : ∀ i, i < bytes.length → m (off + i) = bytes.getD i 0) :
    readBytes m off bytes.length = bytes := by
  refine List.ext_getElem? fun i => ?_
  by_cases hi : i < bytes.length
  · rw [getElem?_readBytes m hi, h i hi, List.getD_eq_getElem?_getD, List.getElem?_eq_getElem hi]
    rfl
  · rw [List.getElem?_eq_none (by rw [length_readBytes]; omega),
      List.getElem?_eq_none (by omega)]

theorem readBytes_congr {m m' : Memory} {off n : Nat}
    (h : ∀ i, off ≤ i → i < off + n → m i = m' i) :
    readBytes m off n = readBytes m' off n := by
  induction n generalizing off with
  | zero => rfl
  | succ n ih =>
      simp only [readBytes]
      rw [h off (by omega) (by omega), ih fun i hi hi' => h i (by omega) (by omega)]

theorem drop_readBytes (m : Memory) (off a b : Nat) :
    (readBytes m off (a + b)).drop a = readBytes m (off + a) b := by
  rw [readBytes_add, List.drop_left' (length_readBytes m off a)]

theorem take_readBytes (m : Memory) (off a b : Nat) :
    (readBytes m off (a + b)).take a = readBytes m off a := by
  rw [readBytes_add, List.take_left' (length_readBytes m off a)]

/-- A range inside another one, cut out of the bytes of the outer range. -/
theorem readBytes_sub (m : Memory) (off : Nat) {k n len : Nat} (h : k + n ≤ len) :
    readBytes m (off + k) n = ((readBytes m off len).drop k).take n := by
  obtain ⟨rest, rfl⟩ := Nat.exists_eq_add_of_le h
  rw [Nat.add_assoc, drop_readBytes, take_readBytes]

/-- A store of consecutive bytes at one offset. -/
structure Store where
  offset : Nat
  bytes : List UInt8
  deriving DecidableEq, Repr

namespace Store

/-- The first offset behind the stored bytes. -/
def stop (s : Store) : Nat := s.offset + s.bytes.length

/-- Execute one store. -/
def apply (s : Store) (m : Memory) : Memory := fun i =>
  if s.offset ≤ i then (s.bytes[i - s.offset]?).getD (m i) else m i

theorem apply_of_lt (s : Store) (m : Memory) {i : Nat} (h : i < s.offset) :
    s.apply m i = m i := by
  simp [apply, Nat.not_le.mpr h]

theorem apply_of_stop_le (s : Store) (m : Memory) {i : Nat} (h : s.stop ≤ i) :
    s.apply m i = m i := by
  have hlen : s.bytes.length ≤ i - s.offset := by
    unfold stop at h
    omega
  simp [apply, List.getElem?_eq_none hlen]

theorem apply_at (s : Store) (m : Memory) {k : Nat} (h : k < s.bytes.length) :
    s.apply m (s.offset + k) = s.bytes[k] := by
  simp [apply, List.getElem?_eq_getElem h]

/-- A store leaves every range it does not meet unchanged. -/
theorem readBytes_apply_disjoint (s : Store) (m : Memory) {off n : Nat}
    (h : off + n ≤ s.offset ∨ s.stop ≤ off) :
    readBytes (s.apply m) off n = readBytes m off n := by
  apply readBytes_congr
  intro i hi hi'
  rcases h with h | h
  · exact apply_of_lt s m (by omega)
  · exact apply_of_stop_le s m (by omega)

theorem apply_nil (off : Nat) (m : Memory) : apply ⟨off, []⟩ m = m := by
  funext i
  simp [apply]

/-- A store right behind another one continues it. -/
theorem apply_append (off : Nat) (a b : List UInt8) (m : Memory) :
    apply ⟨off + a.length, b⟩ (apply ⟨off, a⟩ m) = apply ⟨off, a ++ b⟩ m := by
  funext i
  rcases Nat.lt_or_ge i off with hlt | hge
  · rw [apply_of_lt _ _ (by simp only; omega), apply_of_lt _ _ hlt, apply_of_lt _ _ hlt]
  obtain ⟨j, rfl⟩ := Nat.exists_eq_add_of_le hge
  rcases Nat.lt_or_ge j a.length with hj | hj
  · rw [apply_of_lt _ _ (by simp only; omega), apply_at _ _ hj,
      apply_at _ _ (by simp only [List.length_append]; omega), List.getElem_append_left hj]
  obtain ⟨l, rfl⟩ := Nat.exists_eq_add_of_le hj
  rcases Nat.lt_or_ge l b.length with hl | hl
  · rw [← Nat.add_assoc, apply_at _ _ hl, Nat.add_assoc,
      apply_at _ _ (by simp only [List.length_append]; omega),
      List.getElem_append_right (by omega)]
    simp
  · have hout : (off + (a ++ b).length) ≤ off + (a.length + l) := by
      rw [List.length_append]
      omega
    rw [apply_of_stop_le _ _ (by simp only [stop]; omega),
      apply_of_stop_le _ _ (by simp only [stop]; omega), apply_of_stop_le _ _ hout]

/-- Reading the stored range back gives the stored bytes. -/
theorem readBytes_apply_self (off : Nat) (bs : List UInt8) (m : Memory) :
    readBytes (apply ⟨off, bs⟩ m) off bs.length = bs := by
  apply List.ext_getElem?
  intro i
  by_cases hi : i < bs.length
  · rw [getElem?_readBytes _ hi]
    have := apply_at ⟨off, bs⟩ m (k := i) hi
    simpa [List.getElem?_eq_getElem hi] using this
  · rw [List.getElem?_eq_none (by simp; omega), List.getElem?_eq_none (by omega)]

end Store

/-- `memset`: `n` equal bytes. -/
def fill (m : Memory) (off n : Nat) (b : UInt8) : Memory := fun i =>
  if off ≤ i ∧ i < off + n then b else m i

/-- `memmove`: `n` bytes from `src` to `dst`. -/
def move (m : Memory) (dst src n : Nat) : Memory := fun i =>
  if dst ≤ i ∧ i < dst + n then m (src + (i - dst)) else m i

section Ranges

variable {m : Memory} {off dst src n i : Nat} {b : UInt8}

theorem fill_at (h : i < n) : fill m off n b (off + i) = b := by
  rw [fill, if_pos (by omega)]

theorem fill_of_outside (h : i < off ∨ off + n ≤ i) : fill m off n b i = m i := by
  rw [fill, if_neg (by omega)]

theorem move_at (h : i < n) : move m dst src n (dst + i) = m (src + i) := by
  rw [move, if_pos (by omega), Nat.add_sub_cancel_left]

theorem move_of_outside (h : i < dst ∨ dst + n ≤ i) : move m dst src n i = m i := by
  rw [move, if_neg (by omega)]

end Ranges

/-- Execute stores in program order. -/
def applyAll (stores : List Store) (m : Memory) : Memory :=
  stores.foldl (fun m s => s.apply m) m

@[simp] theorem applyAll_nil (m : Memory) : applyAll [] m = m := rfl

@[simp] theorem applyAll_cons (s : Store) (rest : List Store) (m : Memory) :
    applyAll (s :: rest) m = applyAll rest (s.apply m) := rfl

theorem applyAll_append (a b : List Store) (m : Memory) :
    applyAll (a ++ b) m = applyAll b (applyAll a m) := by
  simp [applyAll]

/-- Stores keep every byte that lies before them. -/
theorem applyAll_of_lt {stores : List Store} {i : Nat} (h : ∀ s ∈ stores, i < s.offset)
    (m : Memory) : applyAll stores m i = m i := by
  induction stores generalizing m with
  | nil => rfl
  | cons s rest ih =>
      rw [applyAll_cons, ih fun t ht => h t (List.mem_cons_of_mem s ht),
        Store.apply_of_lt s m (h s List.mem_cons_self)]

/-! ## Little-endian words -/

/-- The `w` low bytes of `v`, least significant first. -/
def wordBytes : Nat → Nat → List UInt8
  | 0, _ => []
  | w + 1, v => UInt8.ofNat v :: wordBytes w (v / 256)

/-- The number whose base-256 digits are `bs`, least significant first. -/
def wordValue : List UInt8 → Nat
  | [] => 0
  | b :: bs => b.toNat + 256 * wordValue bs

@[simp] theorem length_wordBytes (w v : Nat) : (wordBytes w v).length = w := by
  induction w generalizing v with
  | zero => rfl
  | succ w ih => simp [wordBytes, ih]

/-- Decoding an encoded number truncates it to the word's width. -/
theorem wordValue_wordBytes (w v : Nat) : wordValue (wordBytes w v) = v % 256 ^ w := by
  induction w generalizing v with
  | zero => simp [wordBytes, wordValue, Nat.mod_one]
  | succ w ih =>
      have hb : (UInt8.ofNat v).toNat = v % 256 := by simp
      rw [wordBytes, wordValue, ih, hb, Nat.pow_succ', Nat.mod_mul]

theorem wordValue_lt (bs : List UInt8) : wordValue bs < 256 ^ bs.length := by
  induction bs with
  | nil => simp [wordValue]
  | cons b bs ih =>
      have hb : b.toNat < 256 := b.toNat_lt
      simp only [wordValue, List.length_cons, Nat.pow_succ']
      omega

/-- The `w`-byte word at `off`. -/
def readWord (m : Memory) (w off : Nat) : Nat := wordValue (readBytes m off w)

theorem readWord_lt (m : Memory) (w off : Nat) : readWord m w off < 256 ^ w := by
  simpa [readWord] using wordValue_lt (readBytes m off w)

theorem readWord_congr {m m' : Memory} {w off : Nat}
    (h : ∀ i, off ≤ i → i < off + w → m i = m' i) :
    readWord m w off = readWord m' w off := by
  rw [readWord, readBytes_congr h, readWord]

/-- A store leaves every word it does not meet unchanged. -/
theorem readWord_apply_disjoint (s : Store) (m : Memory) {w off : Nat}
    (h : off + w ≤ s.offset ∨ s.stop ≤ off) :
    readWord (s.apply m) w off = readWord m w off := by
  rw [readWord, s.readBytes_apply_disjoint m h, readWord]

/-- Reading a stored word back truncates it to its width. -/
theorem readWord_apply_self (off w v : Nat) (m : Memory) :
    readWord (Store.apply ⟨off, wordBytes w v⟩ m) w off = v % 256 ^ w := by
  have h := Store.readBytes_apply_self off (wordBytes w v) m
  rw [length_wordBytes] at h
  rw [readWord, h, wordValue_wordBytes]

/-- Equal ranges hold equal words at equal places. -/
theorem readWord_eq_of_readBytes {m m' : Memory} {a b len : Nat}
    (h : readBytes m a len = readBytes m' b len) {w k : Nat} (hk : k + w ≤ len) :
    readWord m w (a + k) = readWord m' w (b + k) := by
  rw [readWord, readBytes_sub m a hk, h, ← readBytes_sub m' b hk, readWord]

/-! ## Overwriting part of a byte string -/

/-- `buf` written over `old` at `off`. Positions that neither covers, which exist when
`off` lies behind the end, hold the bytes of `fill`. -/
def overlay (fill : Nat → UInt8) (old : List UInt8) (off : Nat) (buf : List UInt8) :
    List UInt8 :=
  (List.range (max old.length (off + buf.length))).map fun i =>
    if off ≤ i ∧ i < off + buf.length then buf.getD (i - off) 0
    else if i < old.length then old.getD i 0
    else fill i

@[simp] theorem length_overlay (fill : Nat → UInt8) (old : List UInt8) (off : Nat)
    (buf : List UInt8) :
    (overlay fill old off buf).length = max old.length (off + buf.length) := by
  simp [overlay]

theorem getElem?_overlay (fill : Nat → UInt8) {old buf : List UInt8} {off i : Nat}
    (h : i < max old.length (off + buf.length)) :
    (overlay fill old off buf)[i]? =
      some (if off ≤ i ∧ i < off + buf.length then buf.getD (i - off) 0
        else if i < old.length then old.getD i 0
        else fill i) := by
  rw [overlay, List.getElem?_map, List.getElem?_range h, Option.map_some]

/-- The filler matters only in the gap between the old end and the offset. -/
theorem overlay_congr {fill fill' : Nat → UInt8} {old : List UInt8} {off : Nat}
    {buf : List UInt8} (h : ∀ i, old.length ≤ i → i < off → fill i = fill' i) :
    overlay fill old off buf = overlay fill' old off buf := by
  apply List.map_congr_left
  intro i hi
  have hlt := List.mem_range.mp hi
  split
  · rfl
  · split
    · rfl
    · exact h i (by omega) (by omega)

/-- A range that holds `old`, with `buf` stored at `off` of it, holds their overlay; the
bytes in a gap between the two are the ones the memory held before. -/
theorem readBytes_overlay {m m' : Memory} {a off : Nat} {old buf : List UInt8}
    (hbuf : readBytes m' (a + off) buf.length = buf)
    (hold : ∀ i, i < old.length → i < off ∨ off + buf.length ≤ i →
      m' (a + i) = old.getD i 0)
    (hgap : ∀ i, old.length ≤ i → i < off → m' (a + i) = m (a + i)) :
    readBytes m' a (max old.length (off + buf.length)) =
      overlay (fun i => m (a + i)) old off buf := by
  apply List.ext_getElem?
  intro i
  by_cases hi : i < max old.length (off + buf.length)
  · rw [getElem?_readBytes _ hi]
    simp only [overlay, List.getElem?_map, List.getElem?_range hi, Option.map_some,
      Option.some.injEq]
    -- Inside the buffer, inside the old data, or in the gap between them.
    split
    · next hb =>
      obtain ⟨k, rfl⟩ := Nat.exists_eq_add_of_le hb.1
      have hget := @getElem?_readBytes m' (a + off) buf.length k (by omega)
      rw [hbuf] at hget
      rw [Nat.add_sub_cancel_left, List.getD_eq_getElem?_getD, hget, Nat.add_assoc]
      rfl
    · split
      · exact hold i (by assumption) (by omega)
      · exact hgap i (by omega) (by omega)
  · rw [List.getElem?_eq_none (by simpa using hi),
      List.getElem?_eq_none (by rw [length_overlay]; omega)]

/-- A store that starts inside the first `n` bytes or at their end is their overlay. -/
theorem readBytes_apply_overlay {m : Memory} {off n : Nat} {buf : List UInt8} (h : off ≤ n)
    (fill : Nat → UInt8) :
    readBytes (Store.apply ⟨off, buf⟩ m) 0 (max n (off + buf.length)) =
      overlay fill (readBytes m 0 n) off buf := by
  have hcover : readBytes (Store.apply ⟨off, buf⟩ m) 0
      (max (readBytes m 0 n).length (off + buf.length)) =
        overlay (fun i => m (0 + i)) (readBytes m 0 n) off buf := readBytes_overlay
    (by rw [Nat.zero_add, Store.readBytes_apply_self])
    (fun i hi hout => by
      rw [length_readBytes] at hi
      rw [List.getD_eq_getElem?_getD, getElem?_readBytes m hi, Option.getD_some, Nat.zero_add]
      rcases hout with hout | hout
      · exact Store.apply_of_lt _ m hout
      · exact Store.apply_of_stop_le _ m hout)
    (fun i hi hlt => by
      rw [length_readBytes] at hi
      omega)
  rw [length_readBytes] at hcover
  rw [hcover]
  refine overlay_congr fun i hi hlt => ?_
  rw [length_readBytes] at hi
  omega

/-- Bytes that are an overlay inside the old range are as many, and are the buffer in its place
and the old bytes elsewhere. -/
theorem readBytes_eq_overlay_iff {m m' : Memory} {off n n' : Nat} {buf : List UInt8}
    (h : off + buf.length ≤ n) (fill : Nat → UInt8) :
    readBytes m' 0 n' = overlay fill (readBytes m 0 n) off buf ↔
      n' = n ∧ ∀ y, y < n →
        m' y = if off ≤ y ∧ y < off + buf.length then buf.getD (y - off) 0 else m y := by
  have hlen : max (readBytes m 0 n).length (off + buf.length) = n := by
    rw [length_readBytes]
    omega
  have hold : ∀ y, y < n → (overlay fill (readBytes m 0 n) off buf)[y]? =
      some (if off ≤ y ∧ y < off + buf.length then buf.getD (y - off) 0 else m y) := by
    intro y hy
    have hget : (readBytes m 0 n).getD y 0 = m y := by
      rw [List.getD_eq_getElem?_getD, getElem?_readBytes m hy, Nat.zero_add, Option.getD_some]
    rw [getElem?_overlay fill (by omega), hget, length_readBytes, if_pos hy]
  constructor
  · intro heq
    have hn : n' = n := by
      have hsame := congrArg List.length heq
      rwa [length_readBytes, length_overlay, hlen] at hsame
    refine ⟨hn, fun y hy => ?_⟩
    have hbyte := congrArg (fun l : List UInt8 => l[y]?) heq
    rw [hold y hy, getElem?_readBytes m' (by omega), Nat.zero_add] at hbyte
    exact Option.some.inj hbyte
  · rintro ⟨rfl, hall⟩
    refine List.ext_getElem? fun y => ?_
    rcases Nat.lt_or_ge y n' with hy | hy
    · rw [hold y hy, getElem?_readBytes m' hy, Nat.zero_add, hall y hy]
    · rw [List.getElem?_eq_none (by rwa [length_readBytes]),
        List.getElem?_eq_none (by rw [length_overlay]; omega)]

end OSProjects.ByteMemory
