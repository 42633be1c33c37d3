import Mathlib.Data.List.Basic
import Mathlib.Data.List.Induction

/-!
# Append-only logs of records

A log is a list, oldest record first. `newest` is the lookup that scans the
whole log and keeps the last match; `largest` is the scan for the greatest key
among the matching records.
-/

namespace OSProjects.VersionedLog

variable {α : Type*}

/-- The last record of the log that satisfies `p`. -/
def newest (p : α → Bool) (log : List α) : Option α := log.reverse.find? p

@[simp] theorem newest_nil (p : α → Bool) : newest p [] = none := rfl

@[simp] theorem newest_concat (p : α → Bool) (log : List α) (a : α) :
    newest p (log ++ [a]) = if p a then some a else newest p log := by
  simp only [newest, List.reverse_append, List.reverse_cons, List.reverse_nil, List.nil_append,
    List.singleton_append, List.find?_cons]
  cases p a <;> rfl

theorem newest_append (p : α → Bool) (log rest : List α) :
    newest p (log ++ rest) = (newest p rest).or (newest p log) := by
  simp [newest, List.find?_append]

/-- The scan that overwrites its result at every match computes `newest`. -/
theorem foldl_newest (p : α → Bool) (log : List α) (res : Option α) :
    log.foldl (fun res a => if p a then some a else res) res = (newest p log).or res := by
  induction log generalizing res with
  | nil => rfl
  | cons a log ih =>
      have hsplit : newest p (a :: log) = (newest p log).or (newest p [a]) :=
        newest_append p [a] log
      rw [List.foldl_cons, ih, hsplit, Option.or_assoc]
      cases h : p a <;> simp [newest, h]

theorem newest_eq_none {p : α → Bool} {log : List α} :
    newest p log = none ↔ ∀ a ∈ log, p a = false := by
  simp [newest]

/-- The newest match is followed by no other match. -/
theorem newest_eq_some {p : α → Bool} {log : List α} {a : α} :
    newest p log = some a ↔
      ∃ old young, log = old ++ a :: young ∧ p a = true ∧ ∀ b ∈ young, p b = false := by
  constructor
  · intro h
    obtain ⟨ha, as, bs, hlog, hbs⟩ := List.find?_eq_some_iff_append.mp h
    refine ⟨bs.reverse, as.reverse, ?_, ha, by simpa using hbs⟩
    have := congrArg List.reverse hlog
    simpa using this
  · rintro ⟨old, young, rfl, ha, hyoung⟩
    have hsplit : old ++ a :: young = (old ++ [a]) ++ young := by simp
    rw [hsplit, newest_append, newest_eq_none.mpr hyoung]
    simp [ha]

theorem mem_of_newest {p : α → Bool} {log : List α} {a : α} (h : newest p log = some a) :
    a ∈ log := by
  obtain ⟨old, young, rfl, _, _⟩ := newest_eq_some.mp h
  simp

theorem newest_sat {p : α → Bool} {log : List α} {a : α} (h : newest p log = some a) :
    p a = true := by
  obtain ⟨_, _, _, ha, _⟩ := newest_eq_some.mp h
  exact ha

/-- Queries that agree on the records find the same. -/
theorem newest_congr {p q : α → Bool} {log : List α} (h : ∀ a ∈ log, p a = q a) :
    newest p log = newest q log := by
  induction log using List.reverseRecOn with
  | nil => rfl
  | append_singleton log b ih =>
      rw [newest_concat, newest_concat, h b (by simp), ih fun a ha => h a (by simp [ha])]

/-- Rewriting records in place keeps a lookup when the matching records are fixed and no
other record becomes a match. -/
theorem newest_map_of_fixed {p : α → Bool} {g : α → α} {log : List α}
    (h : ∀ a ∈ log, p (g a) = p a ∧ (p a = true → g a = a)) :
    newest p (log.map g) = newest p log := by
  induction log using List.reverseRecOn with
  | nil => rfl
  | append_singleton log b ih =>
      obtain ⟨hp, hfix⟩ := h b (by simp)
      rw [List.map_append, List.map_singleton, newest_concat, newest_concat, hp,
        ih fun a ha => h a (by simp [ha])]
      by_cases hb : p b = true
      · rw [if_pos hb, if_pos hb, hfix hb]
      · rw [if_neg hb, if_neg hb]

/-- One step of the scan for the greatest key. -/
def raise (key : α → Nat) (p : α → Bool) (acc : Nat) (a : α) : Nat :=
  if acc < key a ∧ p a = true then key a else acc

/-- The greatest key among the records that satisfy `p`, zero when there is none. -/
def largest (key : α → Nat) (p : α → Bool) (log : List α) : Nat :=
  log.foldl (raise key p) 0

@[simp] theorem largest_nil (key : α → Nat) (p : α → Bool) : largest key p [] = 0 := rfl

theorem largest_concat (key : α → Nat) (p : α → Bool) (log : List α) (a : α) :
    largest key p (log ++ [a]) = raise key p (largest key p log) a := by
  simp [largest]

theorem le_raise (key : α → Nat) (p : α → Bool) (acc : Nat) (a : α) :
    acc ≤ raise key p acc a := by
  unfold raise
  split <;> omega

theorem key_le_raise (key : α → Nat) {p : α → Bool} (acc : Nat) {a : α} (h : p a = true) :
    key a ≤ raise key p acc a := by
  unfold raise
  split <;> simp_all

theorem key_le_largest {key : α → Nat} {p : α → Bool} {log : List α} {a : α}
    (ha : a ∈ log) (hp : p a = true) : key a ≤ largest key p log := by
  induction log using List.reverseRecOn with
  | nil => simp at ha
  | append_singleton log b ih =>
      rw [largest_concat]
      rcases List.mem_append.mp ha with h | h
      · exact Nat.le_trans (ih h) (le_raise key p _ b)
      · obtain rfl : a = b := by simpa using h
        exact key_le_raise key _ hp

/-- The greatest key is zero or belongs to a matching record. -/
theorem largest_eq_zero_or_mem (key : α → Nat) (p : α → Bool) (log : List α) :
    largest key p log = 0 ∨ ∃ a ∈ log, p a = true ∧ key a = largest key p log := by
  induction log using List.reverseRecOn with
  | nil => exact Or.inl rfl
  | append_singleton log b ih =>
      rw [largest_concat]
      by_cases hb : largest key p log < key b ∧ p b = true
      · exact Or.inr ⟨b, by simp, hb.2, by simp [raise, hb]⟩
      · have hr : raise key p (largest key p log) b = largest key p log := by simp [raise, hb]
        rw [hr]
        rcases ih with h | ⟨a, ha, hp, hk⟩
        · exact Or.inl h
        · exact Or.inr ⟨a, by simp [ha], hp, hk⟩

theorem largest_le {key : α → Nat} {p : α → Bool} {log : List α} {bound : Nat}
    (h : ∀ a ∈ log, p a = true → key a ≤ bound) : largest key p log ≤ bound := by
  rcases largest_eq_zero_or_mem key p log with h0 | ⟨a, ha, hp, hk⟩
  · omega
  · exact hk ▸ h a ha hp

end OSProjects.VersionedLog
