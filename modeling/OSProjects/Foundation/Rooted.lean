import Mathlib.Logic.Relation

/-!
# Rooted graphs

What a root leads to along a relation. Nothing of it lies on a cycle if the root has no
predecessor and every element that leads further has one.
-/

namespace OSProjects.Rooted

open Relation

variable {α : Type*} {R S : α → α → Prop} {r a j : α}

/-- A path that ends elsewhere does not need an element that leads nowhere. -/
theorem reach_of_leaf (hleaf : ∀ b, ¬ R j b) (hkept : ∀ a b, R a b → b ≠ j → S a b)
    (h : ReflTransGen R r a) (ha : a ≠ j) : ReflTransGen S r a := by
  induction h with
  | refl => exact .refl
  | @tail b c _ hbc ih =>
      have hbj : b ≠ j := fun heq => hleaf c (heq ▸ hbc)
      exact (ih hbj).tail (hkept b c hbc ha)

theorem no_cycle (hroot : ∀ p, ¬ R p r) (hone : ∀ p q b c, R p b → R q b → R b c → p = q)
    (h : ReflTransGen R r a) : ¬ TransGen R a a := by
  induction h with
  | refl =>
      intro hcycle
      obtain ⟨p, _, hp⟩ := TransGen.tail'_iff.mp hcycle
      exact hroot p hp
  | @tail a b _ hab ih =>
      -- the cycle enters `b` from its one predecessor, so this lies on a cycle itself
      intro hcycle
      obtain ⟨p, hbp, hp⟩ := TransGen.tail'_iff.mp hcycle
      obtain ⟨c, hc, _⟩ := TransGen.head'_iff.mp hcycle
      have heq : p = a := hone p a b c hp hab hc
      exact ih (TransGen.head' hab (heq ▸ hbp))

end OSProjects.Rooted
