import Mathlib.Data.List.Induction

/-!
# Labelled transition systems and their finite runs

A run lists the labels of its steps. Invariants and simulations are stated for
one step and lifted to whole runs once and for all.
-/

namespace OSProjects.StepSystem

variable {σ τ ι : Type*} {step : σ → ι → σ → Prop} {s t u : σ} {ls ks : List ι}

/-- A finite run, extended at its end by one step. -/
inductive Run (step : σ → ι → σ → Prop) (s : σ) : List ι → σ → Prop
  | nil : Run step s [] s
  | concat {ls t l u} : Run step s ls t → step t l u → Run step s (ls ++ [l]) u

theorem Run.single {l : ι} (h : step s l t) : Run step s [l] t := by
  simpa using Run.concat Run.nil h

theorem Run.append (h : Run step s ls t) (h' : Run step t ks u) : Run step s (ls ++ ks) u := by
  induction h' with
  | nil => simpa using h
  | concat _ hstep ih =>
      rw [← List.append_assoc]
      exact ih.concat hstep

theorem Run.eq_of_nil (h : Run step s [] t) : t = s := by
  generalize hnil : [] = all at h
  cases h with
  | nil => rfl
  | concat _ _ => simp at hnil

/-- A run that ends with a label ends with a step. -/
theorem Run.last {l : ι} (h : Run step s (ls ++ [l]) u) :
    ∃ t, Run step s ls t ∧ step t l u := by
  generalize hall : ls ++ [l] = all at h
  cases h with
  | nil => simp at hall
  | concat hrun hstep =>
      obtain ⟨rfl, hl⟩ := List.append_inj' hall rfl
      obtain rfl : l = _ := by simpa using hl
      exact ⟨_, hrun, hstep⟩

/-- A run is cut at any place between its labels. -/
theorem Run.split (h : Run step s (ls ++ ks) u) : ∃ t, Run step s ls t ∧ Run step t ks u := by
  induction ks using List.reverseRecOn generalizing u with
  | nil => exact ⟨u, by simpa using h, Run.nil⟩
  | append_singleton ks k ih =>
      rw [← List.append_assoc] at h
      obtain ⟨v, hrun, hstep⟩ := h.last
      obtain ⟨t, ht, hrest⟩ := ih hrun
      exact ⟨t, ht, hrest.concat hstep⟩

/-- A run that has been computed, step by step. -/
theorem Run.of_foldlM {f : σ → ι → Option σ} (hf : ∀ s l t, f s l = some t → step s l t)
    (h : ls.foldlM f s = some t) : Run step s ls t := by
  induction ls generalizing s with
  | nil =>
      obtain rfl := Option.some.inj h
      exact Run.nil
  | cons l ls ih =>
      rw [List.foldlM_cons] at h
      obtain ⟨u, hstep, hrest⟩ := Option.bind_eq_some_iff.mp h
      exact (Run.single (hf s l u hstep)).append (ih hrest)

/-- A property that every step preserves holds at the end of every run. -/
theorem Run.invariant {P : σ → Prop} (hstep : ∀ t l u, P t → step t l u → P u)
    (h : Run step s ls t) (h0 : P s) : P t := by
  induction h with
  | nil => exact h0
  | concat _ hs ih => exact hstep _ _ _ ih hs

/-- A property that every step of the run preserves holds at its end. -/
theorem Run.invariant_of_mem {P : σ → Prop} (h : Run step s ls t)
    (hstep : ∀ t l u, l ∈ ls → P t → step t l u → P u) (h0 : P s) : P t := by
  induction h with
  | nil => exact h0
  | @concat ls t l u _ hs ih =>
      have ht := ih fun t l u hl => hstep t l u (List.mem_append_left _ hl)
      exact hstep t l u (List.mem_append_right _ (List.mem_singleton_self l)) ht hs

/-- An invariant may speak of the labels so far. -/
theorem Run.invariant_labels {P : List ι → σ → Prop}
    (hstep : ∀ ls t l u, P ls t → step t l u → P (ls ++ [l]) u)
    (h : Run step s ls t) (h0 : P [] s) : P ls t := by
  induction h with
  | nil => exact h0
  | concat _ hs ih => exact hstep _ _ _ _ ih hs

/-- Where the label fixes the step, the labels fix where a run ends. -/
theorem Run.unique (hstep : ∀ t l u v, step t l u → step t l v → u = v) (h : Run step s ls t)
    (h' : Run step s ls u) : t = u := by
  induction h generalizing u with
  | nil => exact h'.eq_of_nil.symm
  | concat _ hs ih =>
      obtain ⟨v, hrun, hv⟩ := h'.last
      obtain rfl := ih hrun
      exact hstep _ _ _ _ hs hv

/-- A run of one label is a step. -/
theorem Run.step_of_single {l : ι} (h : Run step s [l] t) : step s l t := by
  rw [← List.nil_append [l]] at h
  obtain ⟨u, hnil, hstep⟩ := h.last
  rwa [← hnil.eq_of_nil]

/-- A run of a smaller relation is a run of a larger one. -/
theorem Run.mono {step' : σ → ι → σ → Prop} (hsub : ∀ t l u, step t l u → step' t l u)
    (h : Run step s ls t) : Run step' s ls t := by
  induction h with
  | nil => exact Run.nil
  | concat _ hs ih => exact ih.concat (hsub _ _ _ hs)

/-- The same, where the steps of this run are known by their labels. -/
theorem Run.mono_of_mem {step' : σ → ι → σ → Prop} (h : Run step s ls t)
    (hsub : ∀ t l u, l ∈ ls → step t l u → step' t l u) : Run step' s ls t := by
  induction h with
  | nil => exact Run.nil
  | @concat ls t l u _ hs ih =>
      have hrun := ih fun t l u hl => hsub t l u (List.mem_append_left _ hl)
      exact hrun.concat (hsub t l u (List.mem_append_right _ (List.mem_singleton_self l)) hs)

/-- A forward simulation carries runs of the lower system to runs of the upper one. -/
theorem Run.simulation {stepA : τ → ι → τ → Prop} {R : σ → τ → Prop} {a : τ}
    (hsim : ∀ t l u b, R t b → step t l u → ∃ c, stepA b l c ∧ R u c)
    (h : Run step s ls t) (h0 : R s a) : ∃ b, Run stepA a ls b ∧ R t b := by
  induction h with
  | nil => exact ⟨a, Run.nil, h0⟩
  | concat _ hs ih =>
      obtain ⟨b, hrun, hR⟩ := ih
      obtain ⟨c, hc, hR'⟩ := hsim _ _ _ _ hR hs
      exact ⟨c, hrun.concat hc, hR'⟩

end OSProjects.StepSystem
