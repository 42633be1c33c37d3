import Mathlib.Data.List.Basic
import Mathlib.Data.Int.ModEq
import Mathlib.Logic.Function.Basic

/-!
# Circular buffers with counters that wrap around

A buffer of `size` cells is used through counters modulo `wrap`, and a counter's cell is the
counter modulo the size. The size divides the modulus, so a counter that wraps around stays at
the right cell, and equality of counters tells an empty and a full buffer apart.
-/

namespace OSProjects.CircularBuffer

variable {α : Type*}

/-- The number of cells and the modulus of the counters. -/
structure Shape where
  size : Nat
  wrap : Nat
  pos : 0 < size
  less : size < wrap
  divides : size ∣ wrap

namespace Shape

variable (B : Shape)

/-- The cell that is `k` places behind a counter. -/
def cell (start k : Nat) : Nat := (start + k) % B.wrap % B.size

/-- The cells behind counter `start` hold `xs`. -/
def Holds (data : Nat → α) (start : Nat) (xs : List α) : Prop :=
  xs.length ≤ B.size ∧ ∀ k, (hk : k < xs.length) → data (B.cell start k) = xs[k]

variable {B} {data : Nat → α} {start k j n m : Nat} {xs ys : List α} {x : α}

theorem cell_eq (start k : Nat) : B.cell start k = (start + k) % B.size :=
  Nat.mod_mod_of_dvd _ B.divides

theorem cell_zero (start : Nat) : B.cell start 0 = start % B.size := by
  rw [cell_eq, Nat.add_zero]

/-- Wrapping a counter around does not move it. -/
theorem cell_wrap (start j k : Nat) : B.cell ((start + j) % B.wrap) k = B.cell start (j + k) := by
  rw [cell_eq, cell_eq, Nat.add_mod, Nat.mod_mod_of_dvd _ B.divides, ← Nat.add_mod, Nat.add_assoc]

/-- Different places of the buffer are different cells. -/
theorem cell_injective (hj : j < B.size) (hk : k < B.size) (h : B.cell start j = B.cell start k) :
    j = k := by
  rw [cell_eq, cell_eq] at h
  have hmod : j % B.size = k % B.size := Nat.ModEq.add_left_cancel' start h
  rwa [Nat.mod_eq_of_lt hj, Nat.mod_eq_of_lt hk] at hmod

/-- Counters at most a buffer apart are equal only for equal distances. -/
theorem wrap_injective (start : Nat) (hn : n ≤ B.size) (hm : m ≤ B.size)
    (h : (start + n) % B.wrap = (start + m) % B.wrap) : n = m := by
  have hmod : n % B.wrap = m % B.wrap := Nat.ModEq.add_left_cancel' start h
  rwa [Nat.mod_eq_of_lt (Nat.lt_of_le_of_lt hn B.less),
    Nat.mod_eq_of_lt (Nat.lt_of_le_of_lt hm B.less)] at hmod

theorem Holds.nil : B.Holds data start [] :=
  ⟨Nat.zero_le _, fun _ hk => absurd hk (Nat.not_lt_zero _)⟩

/-- A further element goes behind the last one. -/
theorem Holds.push (h : B.Holds data start xs) (hroom : xs.length < B.size) :
    B.Holds (Function.update data (B.cell start xs.length) x) start (xs ++ [x]) := by
  refine ⟨by rw [List.length_append, List.length_singleton]; omega, fun k hk => ?_⟩
  rw [List.length_append, List.length_singleton] at hk
  rcases Nat.lt_or_ge k xs.length with hlt | hge
  · have hne : B.cell start k ≠ B.cell start xs.length := fun heq =>
      Nat.ne_of_lt hlt (cell_injective (Nat.lt_trans hlt hroom) hroom heq)
    rw [Function.update_of_ne hne, List.getElem_append_left hlt]
    exact h.2 k hlt
  · obtain rfl : k = xs.length := by omega
    rw [Function.update_self]
    simp

/-- The first element, and the rest behind the next counter. -/
theorem Holds.pop (h : B.Holds data start (x :: xs)) :
    data (B.cell start 0) = x ∧ B.Holds data ((start + 1) % B.wrap) xs := by
  have hlen := h.1
  rw [List.length_cons] at hlen
  refine ⟨h.2 0 (by simp), by omega, fun k hk => ?_⟩
  have := h.2 (k + 1) (by rw [List.length_cons]; omega)
  rw [cell_wrap, Nat.add_comm 1 k, this, List.getElem_cons_succ]

/-- The counters are equal exactly when the buffer is empty. -/
theorem Holds.empty_iff (h : B.Holds data start xs) (hstart : start < B.wrap) :
    (start + xs.length) % B.wrap = start ↔ xs = [] := by
  constructor
  · intro heq
    have : xs.length = 0 := wrap_injective start h.1 (Nat.zero_le _)
      (by rw [heq, Nat.add_zero, Nat.mod_eq_of_lt hstart])
    exact List.length_eq_zero_iff.mp this
  · rintro rfl
    rw [List.length_nil, Nat.add_zero, Nat.mod_eq_of_lt hstart]

/-- The counters are a whole buffer apart exactly when it is full. -/
theorem Holds.full_iff (h : B.Holds data start xs) :
    (start + xs.length) % B.wrap = (start + B.size) % B.wrap ↔ xs.length = B.size :=
  ⟨fun heq => wrap_injective _ h.1 (Nat.le_refl _) heq, fun heq => by rw [heq]⟩

end Shape

end OSProjects.CircularBuffer
