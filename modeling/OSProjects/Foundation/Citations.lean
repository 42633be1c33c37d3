import Mathlib.Algebra.BigOperators.Group.Finset.Piecewise
import Mathlib.Algebra.Order.BigOperators.Group.Finset

/-!
# Citations

A family of lists, and how often its first lists cite an element. A change of one list changes
the number by what this list cites more or less.
-/

namespace OSProjects.Citations

variable {α : Type*} [DecidableEq α] {n i j : Nat} {l l' : Nat → List α} {new : List α} {a b : α}

/-- The occurrences of `a` in the first `n` lists. -/
def cited (n : Nat) (l : Nat → List α) (a : α) : Nat := ∑ i ∈ Finset.range n, (l i).count a

theorem cited_congr (h : ∀ i, i < n → (l' i).count a = (l i).count a) :
    cited n l' a = cited n l a :=
  Finset.sum_congr rfl fun i hi => h i (Finset.mem_range.mp hi)

theorem cited_pos (hi : i < n) (ha : a ∈ l i) : 0 < cited n l a :=
  Finset.sum_pos' (fun _ _ => Nat.zero_le _)
    ⟨i, Finset.mem_range.mpr hi, List.count_pos_iff.mpr ha⟩

theorem exists_of_cited_pos (h : 0 < cited n l a) : ∃ i, i < n ∧ a ∈ l i := by
  by_contra hnone
  refine Nat.ne_of_gt h (Finset.sum_eq_zero fun i hi => ?_)
  exact List.count_eq_zero.mpr fun ha => hnone ⟨i, Finset.mem_range.mp hi, ha⟩

theorem cited_update (hi : i < n) :
    cited n (Function.update l i new) a + (l i).count a = cited n l a + new.count a := by
  have hmem : i ∈ Finset.range n := Finset.mem_range.mpr hi
  have hfun : (fun k => (Function.update l i new k).count a) =
      Function.update (fun k => (l k).count a) i (new.count a) :=
    Function.comp_update (List.count a) l i new
  have hold := Finset.add_sum_erase (Finset.range n) (fun k => (l k).count a) hmem
  rw [cited, hfun, Finset.sum_update_of_mem hmem, Finset.sdiff_singleton_eq_erase, cited]
  omega

/-- One list cites one more. -/
theorem cited_add (hi : i < n) (h : new.Perm (b :: l i)) :
    cited n (Function.update l i new) a = cited n l a + if b = a then 1 else 0 := by
  have hcount : cited n (Function.update l i new) a + (l i).count a = cited n l a + new.count a :=
    cited_update hi
  rw [h.count_eq, List.count_cons] at hcount
  simp only [beq_iff_eq] at hcount
  omega

/-- Only one list cites. -/
theorem cited_single (hi : i < n) (h : ∀ j, j ≠ i → l j = []) : cited n l a = (l i).count a :=
  Finset.sum_eq_single_of_mem i (Finset.mem_range.mpr hi) fun j _ hj => by
    rw [h j hj, List.count_nil]

/-- What is cited at most once is cited by one list. -/
theorem eq_of_cited (h : cited n l a ≤ 1) (hi : i < n) (hj : j < n) (ha : a ∈ l i)
    (ha' : a ∈ l j) : i = j := by
  by_contra hne
  have hsplit := Finset.add_sum_erase (Finset.range n) (fun k => (l k).count a)
    (Finset.mem_range.mpr hi)
  have hother : 0 < ∑ k ∈ (Finset.range n).erase i, (l k).count a :=
    Finset.sum_pos' (fun _ _ => Nat.zero_le _)
      ⟨j, Finset.mem_erase.mpr ⟨Ne.symm hne, Finset.mem_range.mpr hj⟩, List.count_pos_iff.mpr ha'⟩
  have hhere : 0 < (l i).count a := List.count_pos_iff.mpr ha
  rw [cited] at h
  omega

end OSProjects.Citations
