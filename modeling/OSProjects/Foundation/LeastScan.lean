import Mathlib.Data.List.Basic
import Mathlib.Order.Basic
import Mathlib.Order.Defs.LinearOrder
import Mathlib.Order.Lattice

/-!
# The first least element of a list

A scan from left to right that starts from a bound and keeps an element whenever its key
is less than every key kept before.
-/

namespace OSProjects.LeastScan

variable {α κ : Type*} [LinearOrder κ] (P : α → Prop) [DecidablePred P] (key : α → κ)

/-- One turn of the scan, with the element and the key that are kept. -/
def scanTurn (kept : Option α × κ) (a : α) : Option α × κ :=
  if P a ∧ key a < kept.2 then (some a, key a) else kept

/-- The element that the scan keeps. -/
def leastScan (bound : κ) (l : List α) : Option α := (l.foldl (scanTurn P key) (none, bound)).1

variable {P}

/-- The key that is kept is a lower bound, and it is the initial one or that of the first
element with it. -/
theorem foldl_scanTurn (l : List α) (o : Option α) (bound : κ) :
    (l.foldl (scanTurn P key) (o, bound)).2 ≤ bound ∧
      (∀ c ∈ l, P c → (l.foldl (scanTurn P key) (o, bound)).2 ≤ key c) ∧
      (l.foldl (scanTurn P key) (o, bound) = (o, bound) ∨
        ∃ pre a post, l = pre ++ a :: post ∧
          l.foldl (scanTurn P key) (o, bound) = (some a, key a) ∧ P a ∧ key a < bound ∧
            ∀ c ∈ pre, P c → key a < key c) := by
  induction l generalizing o bound with
  | nil => exact ⟨le_rfl, by simp, Or.inl rfl⟩
  | cons a l ih =>
      rw [List.foldl_cons]
      by_cases ha : P a ∧ key a < bound
      · have hturn : scanTurn P key (o, bound) a = (some a, key a) := if_pos ha
        rw [hturn]
        obtain ⟨hle, hall, hkept⟩ := ih (some a) (key a)
        refine ⟨hle.trans ha.2.le, fun c hc hPc => ?_, Or.inr ?_⟩
        · rcases List.mem_cons.mp hc with rfl | hc
          · exact hle
          · exact hall c hc hPc
        · rcases hkept with hsame | ⟨pre, b, post, rfl, hb, hPb, hlt, hpre⟩
          · exact ⟨[], a, l, rfl, hsame, ha.1, ha.2, by simp⟩
          · refine ⟨a :: pre, b, post, rfl, hb, hPb, hlt.trans ha.2, fun c hc hPc => ?_⟩
            rcases List.mem_cons.mp hc with rfl | hc
            · exact hlt
            · exact hpre c hc hPc
      · have hturn : scanTurn P key (o, bound) a = (o, bound) := if_neg ha
        rw [hturn]
        have habove : P a → bound ≤ key a := fun hPa => not_lt.mp fun hlt => ha ⟨hPa, hlt⟩
        obtain ⟨hle, hall, hkept⟩ := ih o bound
        refine ⟨hle, fun c hc hPc => ?_, hkept.imp_right ?_⟩
        · rcases List.mem_cons.mp hc with rfl | hc
          · exact hle.trans (habove hPc)
          · exact hall c hc hPc
        · rintro ⟨pre, b, post, rfl, hb, hPb, hlt, hpre⟩
          refine ⟨a :: pre, b, post, rfl, hb, hPb, hlt, fun c hc hPc => ?_⟩
          rcases List.mem_cons.mp hc with rfl | hc
          · exact hlt.trans_le (habove hPc)
          · exact hpre c hc hPc

variable {key}

/-- The scan finds nothing when no key is below the bound. -/
theorem leastScan_eq_none {bound : κ} {l : List α} :
    leastScan P key bound l = none ↔ ∀ c ∈ l, P c → bound ≤ key c := by
  obtain ⟨-, hall, hkept⟩ := foldl_scanTurn (P := P) key l none bound
  rw [leastScan]
  rcases hkept with hsame | ⟨pre, a, post, rfl, ha, hPa, hlt, -⟩
  · rw [hsame] at hall ⊢
    exact ⟨fun _ => hall, fun _ => rfl⟩
  · rw [ha]
    refine ⟨nofun, fun hbound => ?_⟩
    exact absurd (hbound a (by simp) hPa) (not_le.mpr hlt)

/-- What the scan finds is the first of the least. -/
theorem leastScan_eq_some {bound : κ} {l : List α} {a : α}
    (h : leastScan P key bound l = some a) :
    P a ∧ key a < bound ∧ (∀ c ∈ l, P c → key a ≤ key c) ∧
      ∃ pre post, l = pre ++ a :: post ∧ ∀ c ∈ pre, P c → key a < key c := by
  obtain ⟨-, hall, hkept⟩ := foldl_scanTurn (P := P) key l none bound
  rw [leastScan] at h
  rcases hkept with hsame | ⟨pre, b, post, rfl, hb, hPb, hlt, hpre⟩
  · rw [hsame] at h
    cases h
  · rw [hb] at h hall
    obtain rfl := Option.some.inj h
    exact ⟨hPb, hlt, hall, pre, post, rfl, hpre⟩

end OSProjects.LeastScan
