import Mathlib.Data.Fintype.Card
import Mathlib.Algebra.BigOperators.Group.Finset.Basic

/-!
# Reference counts

A finite family of slots, each empty or holding a reference. The number of slots that
hold a reference changes by one when a slot is filled or emptied.
-/

namespace OSProjects.ReferenceCount

variable {ι α : Type*} [Fintype ι] [DecidableEq ι] [DecidableEq α]

/-- The number of slots that hold `a`. -/
def refs (h : ι → Option α) (a : α) : Nat := (Finset.univ.filter fun i => h i = some a).card

variable {h : ι → Option α} {i : ι} {a b : α}

omit [DecidableEq ι] in
theorem refs_pos (hi : h i = some a) : 0 < refs h a :=
  Finset.card_pos.mpr ⟨i, by simp [hi]⟩

omit [DecidableEq ι] in
theorem refs_eq_zero (hnone : ∀ i, h i ≠ some a) : refs h a = 0 := by
  rw [refs, Finset.card_eq_zero, Finset.filter_eq_empty_iff]
  exact fun i _ => hnone i

/-- Filling an empty slot adds one to the count of what it now holds. -/
theorem refs_fill (hi : h i = none) (b : α) :
    refs (Function.update h i (some a)) b = refs h b + if b = a then 1 else 0 := by
  by_cases hb : b = a
  · subst hb
    have hset : (Finset.univ.filter fun j => Function.update h i (some b) j = some b) =
        insert i (Finset.univ.filter fun j => h j = some b) := by
      ext j
      rcases eq_or_ne j i with rfl | hne
      · simp
      · simp [hne]
    rw [refs, hset, Finset.card_insert_of_notMem (by simp [hi]), if_pos rfl, refs]
  · have hset : (Finset.univ.filter fun j => Function.update h i (some a) j = some b) =
        Finset.univ.filter fun j => h j = some b := by
      ext j
      rcases eq_or_ne j i with rfl | hne
      · simp [hi, Ne.symm hb]
      · simp [hne]
    rw [refs, hset, if_neg hb, refs, Nat.add_zero]

/-- Emptying a slot takes one from the count of what it has held. -/
theorem refs_empty (hi : h i = some a) (b : α) :
    refs (Function.update h i none) b + (if b = a then 1 else 0) = refs h b := by
  have hfill := refs_fill (h := Function.update h i none) (i := i) (a := a)
    (Function.update_self _ _ _) b
  rw [Function.update_idem, ← hi, Function.update_eq_self] at hfill
  exact hfill.symm

/-- Every reference is counted. -/
def Counted (count : α → Nat) (h : ι → Option α) : Prop := ∀ a, count a = refs h a

namespace Counted

variable {count : α → Nat}

omit [DecidableEq ι] in
theorem pos (hc : Counted count h) (hi : h i = some a) : 0 < count a := by
  rw [hc a]
  exact refs_pos hi

theorem fill (hc : Counted count h) (hi : h i = none) :
    Counted (Function.update count a (count a + 1)) (Function.update h i (some a)) := by
  intro b
  rw [refs_fill hi, ← hc b]
  rcases eq_or_ne b a with rfl | hne
  · simp
  · simp [hne]

theorem empty (hc : Counted count h) (hi : h i = some a) :
    Counted (Function.update count a (count a - 1)) (Function.update h i none) := by
  intro b
  have hb := refs_empty hi b
  rw [← hc b] at hb
  rcases eq_or_ne b a with rfl | hne
  · simp only [if_true] at hb
    rw [Function.update_self]
    omega
  · simp only [hne, if_false, Nat.add_zero] at hb
    rw [Function.update_of_ne hne, hb]

end Counted

end OSProjects.ReferenceCount
