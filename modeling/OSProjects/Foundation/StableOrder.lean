import Mathlib.Data.List.Find
import Mathlib.Data.List.TakeWhile
import Mathlib.Order.Defs.LinearOrder
import Mathlib.Order.Basic

/-!
# Bounded queues by priority

What is pending is listed by falling priority, equal priorities in the order of arrival.
Insertion behind everything of at least its own priority keeps a list in this order, and
its head is the earliest arrival among those of highest priority.
-/

namespace OSProjects.StableOrder

variable {α κ : Type*} [LinearOrder κ] (key : α → κ)

/-- The list `queue` is the stable order of `pending`, which lists arrivals. -/
structure Arranged (queue pending : List α) : Prop where
  falling : queue.Pairwise fun x y => key y ≤ key x
  stable : ∀ k, queue.filter (fun x => key x = k) = pending.filter (fun x => key x = k)

/-- Insert behind everything of at least the same priority. -/
def insert (x : α) (queue : List α) : List α :=
  queue.takeWhile (fun y => key x ≤ key y) ++ x :: queue.dropWhile (fun y => key x ≤ key y)

/-- Nothing pending has a higher priority. -/
def Top (pending : List α) (x : α) : Prop := ∀ y ∈ pending, key y ≤ key x

instance (pending : List α) : DecidablePred (Top key pending) := fun _ =>
  inferInstanceAs (Decidable (∀ _ ∈ _, _))

/-- What can happen at a bounded queue. -/
inductive Event (α : Type*)
  | accepted (x : α)
  | refused (x : α)
  | taken (x : α)

/-- A queue for `c` arrivals hands out the earliest of highest priority. -/
inductive Step (c : Nat) : List α → Event α → List α → Prop
  | accepted {p x} (hroom : p.length < c) : Step c p (.accepted x) (p ++ [x])
  | refused {p x} (hfull : p.length = c) : Step c p (.refused x) p
  | taken {p x} (hfirst : p.find? (Top key p) = some x) :
      Step c p (.taken x) (p.eraseP (Top key p))

/-- What a sequence of events has let in. -/
def letIn : List (Event α) → List α :=
  List.filterMap fun | .accepted x => some x | _ => none

/-- What it has handed out. -/
def handedOut : List (Event α) → List α :=
  List.filterMap fun | .taken x => some x | _ => none

/-! ## Insertion -/

variable {key}

theorem lt_of_mem_dropWhile {x : α} {queue : List α}
    (h : queue.Pairwise fun x y => key y ≤ key x) {y : α}
    (hy : y ∈ queue.dropWhile (fun y => key x ≤ key y)) : key y < key x := by
  induction queue with
  | nil => simp at hy
  | cons z queue ih =>
      obtain ⟨hz, hqueue⟩ := List.pairwise_cons.mp h
      by_cases hle : key x ≤ key z
      · rw [List.dropWhile_cons_of_pos (by simpa using hle)] at hy
        exact ih hqueue hy
      · rw [List.dropWhile_cons_of_neg (by simpa using hle)] at hy
        rcases List.mem_cons.mp hy with rfl | hy
        · exact not_le.mp hle
        · calc key y ≤ key z := hz y hy
            _ < key x := not_le.mp hle

theorem le_of_mem_takeWhile {x y : α} {queue : List α}
    (hy : y ∈ queue.takeWhile (fun y => key x ≤ key y)) : key x ≤ key y := by
  simpa using List.mem_takeWhile_imp hy

/-- How an insertion at a place found otherwise is recognised. -/
theorem insert_eq {x : α} {above below : List α} (habove : ∀ y ∈ above, key x ≤ key y)
    (hbelow : ∀ y ∈ below, key y < key x) :
    insert key x (above ++ below) = above ++ x :: below := by
  have htake : below.takeWhile (fun y => key x ≤ key y) = [] := by
    cases below with
    | nil => rfl
    | cons y below => exact List.takeWhile_cons_of_neg (by simpa using hbelow y (by simp))
  have hdrop : below.dropWhile (fun y => key x ≤ key y) = below := by
    cases below with
    | nil => rfl
    | cons y below => exact List.dropWhile_cons_of_neg (by simpa using hbelow y (by simp))
  have hall : ∀ y ∈ above, decide (key x ≤ key y) = true := by simpa using habove
  rw [insert, List.takeWhile_append_of_pos hall, List.dropWhile_append_of_pos hall, htake, hdrop,
    List.append_nil]

namespace Arranged

variable {queue pending : List α} {x : α}

theorem nil : Arranged key [] ([] : List α) := ⟨List.Pairwise.nil, fun _ => rfl⟩

theorem perm (h : Arranged key queue pending) : queue.Perm pending := by
  classical
  refine List.perm_iff_count.mpr fun a => ?_
  calc queue.count a = (queue.filter fun x => key x = key a).count a :=
        (List.count_filter (by simp)).symm
    _ = (pending.filter fun x => key x = key a).count a := by rw [h.stable]
    _ = pending.count a := List.count_filter (by simp)

/-- A new arrival is inserted at its place. -/
theorem insert (h : Arranged key queue pending) (x : α) :
    Arranged key (insert key x queue) (pending ++ [x]) := by
  have happ := List.takeWhile_append_dropWhile (p := fun y => key x ≤ key y) (l := queue)
  constructor
  · have hfalling := h.falling
    rw [← happ, List.pairwise_append] at hfalling
    obtain ⟨htake, hdrop, hcross⟩ := hfalling
    rw [StableOrder.insert, List.pairwise_append, List.pairwise_cons]
    refine ⟨htake, ⟨fun y hy => (lt_of_mem_dropWhile h.falling hy).le, hdrop⟩, ?_⟩
    intro y hy z hz
    rcases List.mem_cons.mp hz with rfl | hz
    · exact le_of_mem_takeWhile hy
    · exact hcross y hy z hz
  · intro k
    rw [List.filter_append, ← h.stable k]
    conv_rhs => rw [← happ]
    rw [StableOrder.insert, List.filter_append, List.filter_append, List.append_assoc]
    congr 1
    by_cases hx : key x = k
    · -- What stands behind the new arrival has another priority.
      have hdrop : (queue.dropWhile fun y => key x ≤ key y).filter (fun y => key y = k) = [] := by
        rw [List.filter_eq_nil_iff]
        intro y hy
        simpa using ((lt_of_mem_dropWhile h.falling hy).trans_eq hx).ne
      rw [hdrop, List.filter_cons_of_pos (by simpa using hx), hdrop,
        List.filter_cons_of_pos (by simpa using hx)]
      rfl
    · rw [List.filter_cons_of_neg (by simpa using hx), List.filter_cons_of_neg (by simpa using hx),
        List.filter_nil, List.append_nil]

/-! ## Removal -/

theorem filter_eraseP_self (p : α → Bool) (l : List α) :
    (l.eraseP p).filter p = (l.filter p).tail := by
  induction l with
  | nil => rfl
  | cons a l ih =>
      by_cases ha : p a = true
      · rw [List.eraseP_cons_of_pos ha, List.filter_cons_of_pos ha, List.tail_cons]
      · rw [List.eraseP_cons_of_neg ha, List.filter_cons_of_neg ha,
          List.filter_cons_of_neg ha, ih]

theorem filter_eraseP_of_disjoint {p q : α → Bool} (h : ∀ a, p a = true → q a = false)
    (l : List α) : (l.eraseP p).filter q = l.filter q := by
  induction l with
  | nil => rfl
  | cons a l ih =>
      by_cases ha : p a = true
      · rw [List.eraseP_cons_of_pos ha, List.filter_cons_of_neg (by simp [h a ha])]
      · rw [List.eraseP_cons_of_neg ha]
        by_cases hq : q a = true
        · rw [List.filter_cons_of_pos hq, List.filter_cons_of_pos hq, ih]
        · rw [List.filter_cons_of_neg hq, List.filter_cons_of_neg hq, ih]

theorem eraseP_congr {p q : α → Bool} {l : List α} (h : ∀ a ∈ l, p a = q a) :
    l.eraseP p = l.eraseP q := by
  induction l with
  | nil => rfl
  | cons a l ih =>
      rw [List.eraseP_cons, List.eraseP_cons, h a List.mem_cons_self,
        ih fun b hb => h b (List.mem_cons_of_mem a hb)]

/-- What is pending is of highest priority when its priority is that of the head. -/
theorem top_iff (h : Arranged key (x :: queue) pending) {y : α} (hy : y ∈ pending) :
    Top key pending y ↔ key y = key x := by
  have hx : ∀ z ∈ pending, key z ≤ key x := by
    intro z hz
    rcases List.mem_cons.mp (h.perm.mem_iff.mpr hz) with rfl | hz
    · exact le_rfl
    · exact (List.pairwise_cons.mp h.falling).1 z hz
  constructor
  · intro htop
    exact (hx y hy).antisymm (htop x (h.perm.mem_iff.mp List.mem_cons_self))
  · intro heq z hz
    exact heq ▸ hx z hz

/-- The head is the earliest arrival of highest priority. -/
theorem find_top (h : Arranged key (x :: queue) pending) :
    pending.find? (Top key pending) = some x := by
  have hsame : pending.find? (Top key pending) = pending.find? fun y => key y = key x :=
    List.find?_congr fun y hy => by simp [h.top_iff hy]
  rw [hsame, ← List.head?_filter, ← h.stable (key x), List.filter_cons_of_pos (by simp)]
  rfl

/-- Without its head the list is the stable order of what is left. -/
theorem tail (h : Arranged key (x :: queue) pending) :
    Arranged key queue (pending.eraseP (Top key pending)) := by
  have hsame : pending.eraseP (Top key pending) = pending.eraseP fun y => key y = key x :=
    eraseP_congr fun y hy => by simp [h.top_iff hy]
  refine ⟨(List.pairwise_cons.mp h.falling).2, fun k => ?_⟩
  rw [hsame]
  by_cases hk : key x = k
  · subst hk
    rw [filter_eraseP_self, ← h.stable (key x), List.filter_cons_of_pos (by simp)]
    rfl
  · rw [filter_eraseP_of_disjoint, ← h.stable k, List.filter_cons_of_neg (by simpa using hk)]
    intro a ha
    simpa [of_decide_eq_true ha] using hk

end Arranged

/-! ## Conservation -/

theorem letIn_append (es fs : List (Event α)) :
    letIn (es ++ fs) = letIn es ++ letIn fs := List.filterMap_append

theorem handedOut_append (es fs : List (Event α)) : handedOut (es ++ fs) = handedOut es ++ handedOut fs :=
  List.filterMap_append

theorem perm_of_find? {p : α → Bool} {l : List α} {x : α} (h : l.find? p = some x) :
    l.Perm (x :: l.eraseP p) := by
  obtain ⟨hx, before, after, rfl, hbefore⟩ := List.find?_eq_some_iff_append.mp h
  rw [List.eraseP_append_right _ (by simpa using hbefore), List.eraseP_cons_of_pos hx]
  exact List.perm_middle

/-- What has been let in has been handed out or is pending. -/
theorem Step.perm {c : Nat} {p p' : List α} {e : Event α} (h : Step key c p e p')
    {before : List (Event α)} (hp : (letIn before).Perm (handedOut before ++ p)) :
    (letIn (before ++ [e])).Perm (handedOut (before ++ [e]) ++ p') := by
  rw [letIn_append, handedOut_append]
  cases h with
  | @accepted x hroom =>
      change (letIn before ++ [x]).Perm (handedOut before ++ [] ++ (p ++ [x]))
      rw [List.append_nil, ← List.append_assoc]
      exact hp.append_right _
  | refused hfull =>
      change (letIn before ++ []).Perm (handedOut before ++ [] ++ p)
      rwa [List.append_nil, List.append_nil]
  | @taken x hfirst =>
      change (letIn before ++ []).Perm (handedOut before ++ [x] ++ p.eraseP (Top key p))
      rw [List.append_nil, List.append_assoc]
      exact hp.trans ((perm_of_find? hfirst).append_left _)

end OSProjects.StableOrder
