import Mathlib.Logic.Function.Basic

/-!
# Items of a pool and the places that hold them

An allocator marks the items in use, and places elsewhere hold items. The two agree exactly when
every item in use is held by one place and by no other. Taking a free item into an empty place
and giving an item back keep them so.
-/

namespace OSProjects.Allocation

variable {κ β : Type*}

/-- The items in use are those held, each by one place. -/
structure Exact (used : β → Prop) (slot : κ → Option β) : Prop where
  held : ∀ k b, slot k = some b → used b
  unique : ∀ j k b, slot j = some b → slot k = some b → j = k
  owned : ∀ b, used b → ∃ k, slot k = some b

variable {used used' : β → Prop} {slot slot' : κ → Option β} {k : κ} {b : β}

namespace Exact

theorem congr (h : Exact used slot) (hused : ∀ b, used' b ↔ used b)
    (hslot : ∀ k, slot' k = slot k) : Exact used' slot' := by
  obtain rfl : slot' = slot := funext hslot
  exact ⟨fun k b hk => (hused b).mpr (h.held k b hk), h.unique,
    fun b hb => h.owned b ((hused b).mp hb)⟩

/-- A free item goes into an empty place. -/
theorem take (h : Exact used slot) (hfree : ¬ used b) (hempty : slot k = none)
    (hused : ∀ x, used' x ↔ used x ∨ x = b) (hself : slot' k = some b)
    (hother : ∀ j, j ≠ k → slot' j = slot j) : Exact used' slot' where
  held := by
    intro j x hj
    by_cases hjk : j = k
    · subst hjk
      exact (hused x).mpr (.inr (Option.some.inj (hj.symm.trans hself)))
    · rw [hother j hjk] at hj
      exact (hused x).mpr (.inl (h.held j x hj))
  unique := by
    have hnew : ∀ j, slot' j = some b → j = k := by
      intro j hj
      by_contra hjk
      rw [hother j hjk] at hj
      exact hfree (h.held j b hj)
    intro i j x hi hj
    by_cases hik : i = k
    · subst hik
      obtain rfl : x = b := Option.some.inj (hi.symm.trans hself)
      exact (hnew j hj).symm
    · by_cases hjk : j = k
      · subst hjk
        obtain rfl : x = b := Option.some.inj (hj.symm.trans hself)
        exact hnew i hi
      · rw [hother i hik] at hi
        rw [hother j hjk] at hj
        exact h.unique i j x hi hj
  owned := by
    intro x hx
    rcases (hused x).mp hx with hold | rfl
    · obtain ⟨j, hj⟩ := h.owned x hold
      have hjk : j ≠ k := by
        rintro rfl
        rw [hempty] at hj
        cases hj
      exact ⟨j, (hother j hjk).trans hj⟩
    · exact ⟨k, hself⟩

/-- The items of some places are given back. -/
theorem give (h : Exact used slot) (P : κ → Prop) [DecidablePred P]
    (hused : ∀ x, used' x ↔ used x ∧ ∀ k, P k → slot k ≠ some x)
    (hslot : ∀ k, slot' k = if P k then none else slot k) : Exact used' slot' := by
  have hold : ∀ j x, slot' j = some x → slot j = some x ∧ ¬ P j := by
    intro j x hj
    rw [hslot] at hj
    split at hj
    · cases hj
    · next hP => exact ⟨hj, hP⟩
  constructor
  · intro j x hj
    obtain ⟨hj, hP⟩ := hold j x hj
    refine (hused x).mpr ⟨h.held j x hj, fun k hk heq => ?_⟩
    exact hP (h.unique k j x heq hj ▸ hk)
  · exact fun i j x hi hj => h.unique i j x (hold i x hi).1 (hold j x hj).1
  · intro x hx
    obtain ⟨hx, hleft⟩ := (hused x).mp hx
    obtain ⟨j, hj⟩ := h.owned x hx
    exact ⟨j, by rw [hslot, if_neg fun hP => hleft j hP hj, hj]⟩

end Exact

end OSProjects.Allocation
