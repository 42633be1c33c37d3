import Mathlib.Data.List.Infix
import Mathlib.Data.List.Basic

/-!
# Splitting and searching separated strings

Strings are lists without their terminating NUL. `strtok` and `strrchr` follow
the C library; `joinWith` is the absolute path made of a list of components,
and the lemmas say how the two searches act on it.
-/

namespace OSProjects.CString

variable {α : Type*} [DecidableEq α]

/-- The tokens that repeated `strtok(s, sep)` calls return, with the run read so far in `cur`. -/
def strtokFrom (sep : α) : List α → List α → List (List α)
  | [], cur => if cur = [] then [] else [cur]
  | a :: s, cur =>
      if a = sep then
        if cur = [] then strtokFrom sep s [] else cur :: strtokFrom sep s []
      else strtokFrom sep s (cur ++ [a])

/-- All maximal runs of non-separator characters, from left to right. -/
def strtok (sep : α) (s : List α) : List (List α) := strtokFrom sep s []

/-- The index of the last occurrence of `c`. -/
def strrchr (c : α) : List α → Option Nat
  | [] => none
  | a :: s =>
      match strrchr c s with
      | some i => some (i + 1)
      | none => if a = c then some 0 else none

omit [DecidableEq α] in
/-- Every component preceded by a separator. -/
def joinWith (sep : α) (names : List (List α)) : List α :=
  names.flatMap fun n => sep :: n

omit [DecidableEq α] in
@[simp] theorem joinWith_nil (sep : α) : joinWith sep [] = [] := rfl

omit [DecidableEq α] in
@[simp] theorem joinWith_cons (sep : α) (n : List α) (names : List (List α)) :
    joinWith sep (n :: names) = sep :: (n ++ joinWith sep names) := by
  simp [joinWith]

omit [DecidableEq α] in
theorem joinWith_append (sep : α) (a b : List (List α)) :
    joinWith sep (a ++ b) = joinWith sep a ++ joinWith sep b := by
  simp [joinWith]

omit [DecidableEq α] in
theorem joinWith_concat (sep : α) (names : List (List α)) (n : List α) :
    joinWith sep (names ++ [n]) = joinWith sep names ++ sep :: n := by
  simp [joinWith_append]

theorem strtokFrom_run (sep : α) (n : List α) (hn : sep ∉ n) (s cur : List α) :
    strtokFrom sep (n ++ s) cur = strtokFrom sep s (cur ++ n) := by
  induction n generalizing cur with
  | nil => simp
  | cons a n ih =>
      have ha : a ≠ sep := fun h => hn (by simp [h])
      have hn' : sep ∉ n := fun h => hn (by simp [h])
      simp only [List.cons_append, strtokFrom, if_neg ha]
      rw [ih hn']
      simp

theorem strtokFrom_joinWith (sep : α) (names : List (List α))
    (h : ∀ n ∈ names, n ≠ [] ∧ sep ∉ n) (cur : List α) :
    strtokFrom sep (joinWith sep names) cur = (if cur = [] then [] else [cur]) ++ names := by
  induction names generalizing cur with
  | nil => simp [strtokFrom]
  | cons n names ih =>
      obtain ⟨hne, hsep⟩ := h n (by simp)
      have hrest := ih (fun n hn => h n (by simp [hn])) n
      have hrun : strtokFrom sep (n ++ joinWith sep names) [] = n :: names := by
        rw [strtokFrom_run sep n hsep]
        simpa [hne] using hrest
      by_cases hc : cur = []
      · simp [strtokFrom, hc, hrun]
      · simp [strtokFrom, hc, hrun]

/-- Tokenising a joined path gives its components back. -/
theorem strtok_joinWith (sep : α) (names : List (List α))
    (h : ∀ n ∈ names, n ≠ [] ∧ sep ∉ n) : strtok sep (joinWith sep names) = names := by
  simpa [strtok] using strtokFrom_joinWith sep names h []

theorem strtokFrom_append_sep (sep : α) (s t cur : List α) :
    strtokFrom sep (s ++ sep :: t) cur = strtokFrom sep s cur ++ strtok sep t := by
  induction s generalizing cur with
  | nil =>
      by_cases hcur : cur = []
      · simp [strtokFrom, strtok, hcur]
      · simp [strtokFrom, strtok, hcur]
  | cons a s ih =>
      rw [List.cons_append, strtokFrom, strtokFrom]
      split
      · split
        · exact ih []
        · rw [ih []]
          rfl
      · exact ih (cur ++ [a])

/-- A separator separates the tokens in front of it from those behind it. -/
theorem strtok_append_sep (sep : α) (s t : List α) :
    strtok sep (s ++ sep :: t) = strtok sep s ++ strtok sep t :=
  strtokFrom_append_sep sep s t []

theorem strtok_word {sep : α} {w : List α} (hne : w ≠ []) (hw : sep ∉ w) : strtok sep w = [w] := by
  have hrun := strtokFrom_run sep w hw [] []
  rw [List.append_nil, List.nil_append] at hrun
  rw [strtok, hrun, strtokFrom, if_neg hne]

/-- A word in front of a separator is the first token. -/
theorem strtok_word_sep {sep : α} {w : List α} (hne : w ≠ []) (hw : sep ∉ w) (s : List α) :
    strtok sep (w ++ sep :: s) = w :: strtok sep s := by
  rw [strtok_append_sep, strtok_word hne hw]
  rfl

theorem strtokFrom_ne_nil (sep : α) (s : List α) {cur : List α} (h : cur ≠ []) :
    strtokFrom sep s cur ≠ [] := by
  induction s generalizing cur with
  | nil => simp [strtokFrom, h]
  | cons a s ih =>
      rw [strtokFrom]
      split
      · simp
      · exact ih (by simp)

/-- Only a string of separators has no tokens. -/
theorem strtok_eq_nil {sep : α} {s : List α} : strtok sep s = [] ↔ ∀ c ∈ s, c = sep := by
  induction s with
  | nil => simp [strtok, strtokFrom]
  | cons a s ih =>
      rw [strtok, strtokFrom]
      by_cases ha : a = sep
      · rw [if_pos ha, if_pos rfl, List.forall_mem_cons]
        exact ih.trans (and_iff_right ha).symm
      · rw [if_neg ha]
        exact iff_of_false (strtokFrom_ne_nil sep s (by simp))
          fun h => ha (h a List.mem_cons_self)

omit [DecidableEq α] in
/-- The maximal runs of a string without the separator, in order. -/
inductive Runs (sep : α) : List α → List (List α) → Prop
  | nil : Runs sep [] []
  | sep {s words} (h : Runs sep s words) : Runs sep (sep :: s) words
  | word {w s words} (hne : w ≠ []) (hsep : sep ∉ w) (hmax : s = [] ∨ s.head? = some sep)
      (h : Runs sep s words) : Runs sep (w ++ s) (w :: words)

theorem runs_strtokFrom (sep : α) (s : List α) {cur : List α} (hcur : sep ∉ cur) :
    Runs sep (cur ++ s) (strtokFrom sep s cur) := by
  induction s generalizing cur with
  | nil =>
      rw [strtokFrom]
      split
      case isTrue hnil =>
        rw [hnil]
        exact Runs.nil
      case isFalse hne => exact Runs.word hne hcur (Or.inl rfl) Runs.nil
  | cons a s ih =>
      rw [strtokFrom]
      split
      case isTrue ha =>
        have hrest : Runs sep (a :: s) (strtokFrom sep s []) := by
          rw [ha]
          exact Runs.sep (ih List.not_mem_nil)
        split
        case isTrue hnil =>
          rw [hnil]
          exact hrest
        case isFalse hne => exact Runs.word hne hcur (Or.inr (by rw [ha]; rfl)) hrest
      case isFalse ha =>
        have hlonger : sep ∉ cur ++ [a] := by
          rw [List.mem_append, List.mem_singleton, not_or]
          exact ⟨hcur, fun h => ha h.symm⟩
        have hrest := ih hlonger
        rwa [List.append_assoc] at hrest

/-- The tokens are the maximal runs. -/
theorem runs_strtok (sep : α) (s : List α) : Runs sep s (strtok sep s) :=
  runs_strtokFrom sep s List.not_mem_nil

theorem strrchr_eq_none {c : α} {s : List α} : strrchr c s = none ↔ c ∉ s := by
  induction s with
  | nil => simp [strrchr]
  | cons a s ih =>
      cases hs : strrchr c s with
      | some i =>
          have hmem : c ∈ s := by
            by_contra hc
            rw [ih.mpr hc] at hs
            cases hs
          simp [strrchr, hs, hmem]
      | none =>
          have hmem : c ∉ s := ih.mp hs
          by_cases ha : a = c
          · simp [strrchr, hs, ha]
          · simp [strrchr, hs, ha, hmem, Ne.symm ha]

/-- `strrchr` finds the position behind which the character no longer occurs. -/
theorem strrchr_eq_some {c : α} {s : List α} {i : Nat} :
    strrchr c s = some i ↔ ∃ pre post, s = pre ++ c :: post ∧ pre.length = i ∧ c ∉ post := by
  induction s generalizing i with
  | nil => simp [strrchr]
  | cons a s ih =>
      constructor
      · intro h
        cases hs : strrchr c s with
        | some j =>
            simp only [strrchr, hs, Option.some.injEq] at h
            obtain ⟨pre, post, rfl, rfl, hc⟩ := ih.mp hs
            exact ⟨a :: pre, post, rfl, h, hc⟩
        | none =>
            by_cases ha : a = c
            · simp only [strrchr, hs, ha, if_true, Option.some.injEq] at h
              exact ⟨[], s, by simp [ha], h, strrchr_eq_none.mp hs⟩
            · simp [strrchr, hs, ha] at h
      · rintro ⟨pre, post, hs, hlen, hc⟩
        cases pre with
        | nil =>
            simp only [List.nil_append, List.cons.injEq] at hs
            obtain ⟨rfl, rfl⟩ := hs
            simpa [strrchr, strrchr_eq_none.mpr hc] using hlen
        | cons b pre =>
            simp only [List.cons_append, List.cons.injEq] at hs
            obtain ⟨rfl, rfl⟩ := hs
            have hj := ih.mpr ⟨pre, post, rfl, rfl, hc⟩
            simp only [strrchr, hj, Option.some.injEq]
            simpa using hlen

/-- The last separator of a joined path stands before its last component. -/
theorem strrchr_joinWith_concat (sep : α) (names : List (List α)) (n : List α)
    (hn : sep ∉ n) : strrchr sep (joinWith sep (names ++ [n])) = some (joinWith sep names).length :=
  strrchr_eq_some.mpr ⟨joinWith sep names, n, joinWith_concat sep names n, rfl, hn⟩

omit [DecidableEq α] in
/-- A joined path cut just before one of its separators is a shorter joined path. -/
theorem joinWith_prefix_of_sep (sep : α) {names : List (List α)} (h : ∀ n ∈ names, sep ∉ n)
    {pre post : List α} (hs : joinWith sep names = pre ++ sep :: post) :
    ∃ front n back, names = front ++ n :: back ∧ pre = joinWith sep front := by
  induction names generalizing pre with
  | nil => simp at hs
  | cons n names ih =>
      cases pre with
      | nil => exact ⟨[], n, names, rfl, rfl⟩
      | cons b pre =>
          simp only [joinWith_cons, List.cons_append, List.cons.injEq] at hs
          obtain ⟨rfl, hs⟩ := hs
          have hn : sep ∉ n := h n (by simp)
          -- The separator cannot lie inside the first component.
          obtain ⟨rest, hpre⟩ : ∃ rest, pre = n ++ rest := by
            rcases List.append_eq_append_iff.mp hs with ⟨rest, hpre, _⟩ | ⟨rest, hpre, hrest⟩
            · exact ⟨rest, hpre⟩
            · cases rest with
              | nil => exact ⟨[], by simpa using hpre.symm⟩
              | cons c rest =>
                  simp only [List.cons_append, List.cons.injEq] at hrest
                  exact absurd (by simp [hpre, hrest.1]) hn
          subst hpre
          rw [List.append_assoc, List.append_cancel_left_eq] at hs
          obtain ⟨front, m, back, rfl, rfl⟩ := ih (fun m hm => h m (by simp [hm])) hs
          exact ⟨n :: front, m, back, rfl, by simp⟩

/-- Cutting a joined path to `k` characters and then at its last separator leaves a
joined proper prefix of its components. -/
theorem joinWith_take_strrchr (sep : α) {names : List (List α)} (h : ∀ n ∈ names, sep ∉ n)
    {k i : Nat} (hi : strrchr sep ((joinWith sep names).take k) = some i) :
    ∃ front n back, names = front ++ n :: back ∧
      ((joinWith sep names).take k).take i = joinWith sep front := by
  obtain ⟨pre, post, hs, rfl, _⟩ := strrchr_eq_some.mp hi
  have hfull : joinWith sep names = pre ++ sep :: (post ++ (joinWith sep names).drop k) := by
    calc
      joinWith sep names = (joinWith sep names).take k ++ (joinWith sep names).drop k :=
        (List.take_append_drop k _).symm
      _ = _ := by rw [hs]; simp
  obtain ⟨front, n, back, hnames, rfl⟩ := joinWith_prefix_of_sep sep h hfull
  exact ⟨front, n, back, hnames, by rw [hs]; simp⟩

end OSProjects.CString
