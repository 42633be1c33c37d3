import Mathlib.Data.List.Basic

/-!
# Loops over a list that may fail

A loop returns as soon as every turn does, and what its turns preserve holds at its end.
-/

namespace OSProjects.Loop

variable {σ ι ε : Type*}

/-- Every turn returns, and takes the invariant for the remaining list to its tail. -/
theorem foldlM_total (turn : σ → ι → Except ε σ) {P : List ι → σ → Prop}
    (hturn : ∀ i rest s, P (i :: rest) s → ∃ s', turn s i = .ok s' ∧ P rest s')
    (l : List ι) (s : σ) (h : P l s) : ∃ s', l.foldlM turn s = .ok s' ∧ P [] s' := by
  induction l generalizing s with
  | nil => exact ⟨s, rfl, h⟩
  | cons i rest ih =>
      obtain ⟨s1, hs1, hP⟩ := hturn i rest s h
      obtain ⟨s', hs', hend⟩ := ih s1 hP
      refine ⟨s', ?_, hend⟩
      rw [List.foldlM_cons, hs1]
      exact hs'

/-- What every turn relates, a loop that returns relates. -/
theorem foldlM_relates {turn : σ → ι → Except ε σ} {R : σ → σ → Prop} (hrefl : ∀ s, R s s)
    (htrans : ∀ s t u, R s t → R t u → R s u)
    (hturn : ∀ i s s', turn s i = .ok s' → R s s') {l : List ι} {s s' : σ}
    (h : l.foldlM turn s = .ok s') : R s s' := by
  induction l generalizing s with
  | nil =>
      cases h
      exact hrefl _
  | cons i rest ih =>
      rw [List.foldlM_cons] at h
      cases hstep : turn s i with
      | error e =>
          rw [hstep] at h
          cases h
      | ok s1 =>
          rw [hstep] at h
          exact htrans s s1 s' (hturn i s s1 hstep) (ih h)

end OSProjects.Loop
