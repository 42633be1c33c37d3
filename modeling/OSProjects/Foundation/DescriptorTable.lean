import Mathlib.Data.Set.Finite.Basic

/-!
# Descriptor tables

A process knows its open objects by number. What is opened gets the lowest number that is free,
`dup2` makes a number stand for the object of another one, and a new process starts with a copy
of the table.
-/

namespace OSProjects.DescriptorTable

/-- The objects that are open, by their number. -/
abbrev Table (α : Type) := List (Option α)

variable {α : Type}

/-- The object that a number stands for. -/
def get (t : Table α) (fd : Nat) : Option α := t[fd]?.join

/-- The numbers that are open. -/
def openSet (t : Table α) : Set Nat := {fd | get t fd ≠ none}

/-- The table with an object at a number. -/
def put (t : Table α) (fd : Nat) (x : α) : Table α :=
  (t ++ List.replicate (fd + 1 - t.length) none).set fd (some x)

/-- The lowest number that is free. -/
def lowest (t : Table α) : Nat := t.findIdx Option.isNone

/-- An object is opened, with its number. -/
def openLowest (t : Table α) (x : α) : Table α × Nat := (put t (lowest t) x, lowest t)

def close (t : Table α) (fd : Nat) : Table α := t.set fd none

/-- `dup2(old, new)`; it fails when `old` is not open. -/
def dup2 (t : Table α) (old new : Nat) : Table α :=
  match get t old with
  | none => t
  | some x => put t new x

/-- `pipe`, with the numbers of the read end and of the write end. -/
def pipe (t : Table α) (readEnd writeEnd : α) : Table α × Nat × Nat :=
  let (t, r) := openLowest t readEnd
  let (t, w) := openLowest t writeEnd
  (t, r, w)

section Get

variable {t : Table α} {fd i old new : Nat} {x : α}

theorem get_put : get (put t fd x) i = if i = fd then some x else get t i := by
  rw [get, put, List.getElem?_set]
  by_cases h : fd = i
  · rw [if_pos h, if_pos h.symm, if_pos, Option.join_some]
    rw [List.length_append, List.length_replicate]
    omega
  · rw [if_neg h, if_neg (Ne.symm h), List.getElem?_append, get]
    split
    case isTrue => rfl
    case isFalse hlength =>
      rw [List.getElem?_eq_none (Nat.le_of_not_lt hlength), List.getElem?_replicate]
      split <;> rfl

theorem get_close : get (close t fd) i = if i = fd then none else get t i := by
  rw [get, close, List.getElem?_set]
  by_cases h : fd = i
  · rw [if_pos h, if_pos h.symm]
    split <;> rfl
  · rw [if_neg h, if_neg (Ne.symm h), get]

theorem get_dup2 (h : get t old = some x) :
    get (dup2 t old new) i = if i = new then some x else get t i := by
  rw [dup2, h]
  exact get_put

/-- The lowest free number is free. -/
theorem get_lowest (t : Table α) : get t (lowest t) = none := by
  rw [get, lowest]
  by_cases h : t.findIdx Option.isNone < t.length
  · rw [List.getElem?_eq_getElem h]
    exact Option.isNone_iff_eq_none.mp List.findIdx_getElem
  · rw [List.getElem?_eq_none (Nat.le_of_not_lt h)]
    rfl

/-- The ends of a pipe are two numbers that were free, and no other number changes. -/
theorem get_pipe (t : Table α) (x y : α) :
    ∃ u r w, pipe t x y = (u, r, w) ∧ get t r = none ∧ get t w = none ∧ r ≠ w ∧
      ∀ i, get u i = if i = w then some y else if i = r then some x else get t i := by
  have hfree := get_lowest (put t (lowest t) x)
  rw [get_put] at hfree
  split at hfree
  case isTrue => cases hfree
  case isFalse hne =>
    refine ⟨_, _, _, rfl, get_lowest t, hfree, Ne.symm hne, fun i => ?_⟩
    exact get_put.trans (congrArg _ get_put)

end Get

end OSProjects.DescriptorTable
