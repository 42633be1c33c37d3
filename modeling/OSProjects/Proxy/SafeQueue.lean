import Mathlib.Logic.Function.Basic
import OSProjects.Foundation.StableOrder
import OSProjects.Foundation.StepSystem

/-!
# The request queue of the proxy server

`safequeue.c`. Each call is taken as one step, as its mutex makes it.
-/

namespace OSProjects.Proxy

open StableOrder StepSystem

/-- A parsed request. -/
structure ClientRequest where
  path : Option (List UInt8)
  priority : Int
  delay : Int
  bytesRead : Int
  clientFd : Int
  readBuffer : List UInt8
  deriving DecidableEq

/-- The queue. `elements` goes on behind the array, with what lies there in memory. -/
structure PriorityQueue where
  elements : Nat → ClientRequest
  capacity : Nat
  size : Nat

namespace PriorityQueue

/-- `create_queue`, on memory that holds `cells`. -/
def createQueue (maxSize : Nat) (cells : Nat → ClientRequest) : PriorityQueue where
  elements := cells
  capacity := maxSize
  size := 0

/-- One turn of the loop of `move_down`. -/
def moveTurn (elements : Nat → ClientRequest) (i : Nat) : Nat → ClientRequest :=
  Function.update elements i (elements (i + 1))

/-- `move_down`. -/
def moveDown (q : PriorityQueue) : PriorityQueue :=
  { q with
    elements := (List.range q.size).foldl moveTurn q.elements
    size := q.size - 1 }

/-- The loop of `add_work`, with `i` elements left to pass: the index where it stops, and
the array. -/
def shift (request : ClientRequest) :
    Nat → (Nat → ClientRequest) → Nat × (Nat → ClientRequest)
  | 0, elements => (0, elements)
  | i + 1, elements =>
      if (elements i).priority < request.priority then
        shift request i (Function.update elements (i + 1) (elements i))
      else (i + 1, elements)

/-- `add_work`. -/
def addWork (q : PriorityQueue) (request : ClientRequest) : PriorityQueue :=
  if q.size < q.capacity then
    let (i, elements) := shift request q.size q.elements
    { q with elements := Function.update elements i request, size := q.size + 1 }
  else q

/-- `get_work`, once the queue is not empty. -/
def getWork (q : PriorityQueue) : ClientRequest × PriorityQueue :=
  (q.elements 0, q.moveDown)

/-- The requests in the queue. -/
def queued (q : PriorityQueue) : List ClientRequest := (List.range q.size).map q.elements

@[simp] theorem length_queued (q : PriorityQueue) : q.queued.length = q.size := by
  simp [queued]

/-! ## The two loops -/

section Loops

variable {q : PriorityQueue} {request : ClientRequest} {e : Nat → ClientRequest}

theorem foldl_moveTurn (n : Nat) (e : Nat → ClientRequest) (j : Nat) :
    (List.range n).foldl moveTurn e j = if j < n then e (j + 1) else e j := by
  induction n generalizing j with
  | zero => simp
  | succ n ih =>
      rw [List.range_succ, List.foldl_append, List.foldl_cons, List.foldl_nil, moveTurn]
      rcases eq_or_ne j n with rfl | hne
      · rw [Function.update_self, ih, if_neg (by omega), if_pos (by omega)]
      · rw [Function.update_of_ne hne, ih]
        exact if_congr (by omega) rfl rfl

/-- Removal takes the head off. -/
theorem queued_moveDown (h : q.size ≠ 0) : q.queued = q.elements 0 :: q.moveDown.queued := by
  obtain ⟨n, hn⟩ := Nat.exists_eq_succ_of_ne_zero h
  have htail : q.moveDown.queued = (List.range n).map fun j => q.elements (j + 1) := by
    rw [queued, moveDown]
    simp only [hn, Nat.succ_eq_add_one, Nat.add_sub_cancel]
    refine List.map_congr_left fun j hj => ?_
    rw [foldl_moveTurn, if_pos (by have := List.mem_range.mp hj; omega)]
  rw [htail, queued, hn, Nat.succ_eq_add_one, List.range_succ_eq_map, List.map_cons,
    List.map_map]
  rfl

/-- Where the loop of `add_work` stops, and what it has moved. -/
theorem shift_spec (request : ClientRequest) (n : Nat) (e : Nat → ClientRequest) :
    ∃ i m, n = i + m ∧ (shift request n e).1 = i ∧
      (∀ j < m, (e (i + j)).priority < request.priority) ∧
      (∀ j, i = j + 1 → request.priority ≤ (e j).priority) ∧
      (∀ j, j < i ∨ n < j → (shift request n e).2 j = e j) ∧
      ∀ j < m, (shift request n e).2 (i + j + 1) = e (i + j) := by
  induction n generalizing e with
  | zero => exact ⟨0, 0, rfl, rfl, nofun, nofun, fun _ _ => rfl, nofun⟩
  | succ n ih =>
      rw [shift]
      split
      case isTrue hlt =>
        -- The moved element lies behind all that later turns read or write.
        have hold : ∀ j ≤ n, Function.update e (n + 1) (e n) j = e j := fun j hj =>
          Function.update_of_ne (by omega) _ _
        obtain ⟨i, m, hn, hi, hbelow, habove, hkeep, hmove⟩ :=
          ih (Function.update e (n + 1) (e n))
        refine ⟨i, m + 1, by omega, hi, fun j hj => ?_, fun j hj => ?_, fun j hj => ?_,
          fun j hj => ?_⟩
        · rcases eq_or_ne (i + j) n with heq | hne
          · rw [heq]
            exact hlt
          · have := hbelow j (by omega)
            rwa [hold _ (by omega)] at this
        · have := habove j hj
          rwa [hold _ (by omega)] at this
        · rw [hkeep j (by omega)]
          exact Function.update_of_ne (by omega) _ _
        · rcases eq_or_ne j m with rfl | hne
          · rw [hkeep _ (by omega), ← hn, Function.update_self]
          · rw [hmove j (by omega), hold _ (by omega)]
      case isFalse hle =>
        refine ⟨n + 1, 0, rfl, rfl, nofun, fun j hj => ?_, fun _ _ => rfl, nofun⟩
        obtain rfl : n = j := by omega
        exact not_lt.mp hle

/-- Where `add_work` puts a request: in front of what has a lower priority, and behind an
element that has not. -/
theorem addWork_inserts (hroom : q.size < q.capacity) :
    ∃ front back, q.queued = front ++ back ∧
      (q.addWork request).queued = front ++ request :: back ∧
      (∀ y ∈ back, y.priority < request.priority) ∧
      ∀ y, front.getLast? = some y → request.priority ≤ y.priority := by
  obtain ⟨i, m, hn, hi, hbelow, habove, hkeep, hmove⟩ := shift_spec request q.size q.elements
  refine ⟨(List.range i).map q.elements, (List.range m).map fun j => q.elements (i + j),
    ?_, ?_, fun y hy => ?_, fun y hy => ?_⟩
  · rw [queued, hn, List.range_add, List.map_append, List.map_map]
    rfl
  · rw [addWork, if_pos hroom]
    simp only [queued, hi]
    have hsize : q.size + 1 = i + (m + 1) := by omega
    rw [hsize, List.range_add, List.map_append, List.map_map, List.range_succ_eq_map,
      List.map_cons, List.map_map]
    congr 1
    · refine List.map_congr_left fun j hj => ?_
      have hlt := List.mem_range.mp hj
      rw [Function.update_of_ne (by omega), hkeep j (Or.inl hlt)]
    · congr 1
      · exact Function.update_self _ _ _
      · refine List.map_congr_left fun j hj => ?_
        have hlt := List.mem_range.mp hj
        simp only [Function.comp_apply, Nat.succ_eq_add_one, ← Nat.add_assoc]
        rw [Function.update_of_ne (by omega), hmove j hlt]
  · obtain ⟨j, hj, rfl⟩ := List.mem_map.mp hy
    exact hbelow j (List.mem_range.mp hj)
  · cases i with
    | zero => simp at hy
    | succ i =>
        rw [List.range_succ, List.map_append] at hy
        obtain rfl : q.elements i = y := by simpa using hy
        exact habove i rfl

/-- In a queue that is in order this is the place of a stable insertion. -/
theorem queued_addWork (hroom : q.size < q.capacity)
    (hfalling : q.queued.Pairwise fun x y => y.priority ≤ x.priority) :
    (q.addWork request).queued = StableOrder.insert ClientRequest.priority request q.queued := by
  obtain ⟨front, back, hsplit, hadded, hbelow, hlast⟩ := addWork_inserts hroom
  rw [hadded, hsplit]
  refine (insert_eq (fun y hy => ?_) hbelow).symm
  -- The last element in front has at least the priority of the new one, the others more.
  rw [hsplit] at hfalling
  have hfront := (List.pairwise_append.mp hfalling).1
  rcases List.eq_nil_or_concat front with rfl | ⟨rest, z, rfl⟩
  · simp at hy
  · rw [List.concat_eq_append] at hy hfront hlast
    have hz := hlast z (by simp)
    rcases List.mem_append.mp hy with hy | hy
    · exact hz.trans ((List.pairwise_append.mp hfront).2.2 y hy z (by simp))
    · rwa [List.mem_singleton.mp hy]

theorem addWork_full (hfull : ¬q.size < q.capacity) : q.addWork request = q := if_neg hfull

theorem addWork_size (hroom : q.size < q.capacity) :
    (q.addWork request).size = q.size + 1 := by
  rw [addWork, if_pos hroom]

@[simp] theorem addWork_capacity : (q.addWork request).capacity = q.capacity := by
  rw [addWork]
  split <;> rfl

end Loops

/-! ## Sequences of calls -/

/-- A call with its outcome. -/
inductive QueueStep : PriorityQueue → Event ClientRequest → PriorityQueue → Prop
  | accepted {q request} (hroom : q.size < q.capacity) :
      QueueStep q (.accepted request) (q.addWork request)
  | refused {q request} (hfull : ¬q.size < q.capacity) :
      QueueStep q (.refused request) (q.addWork request)
  | taken {q q' request} (hsize : q.size ≠ 0) (hget : q.getWork = (request, q')) :
      QueueStep q (.taken request) q'

/-- The array holds the stable order of what the abstract queue has pending. -/
structure Refines (c : Nat) (q : PriorityQueue) (pending : List ClientRequest) : Prop where
  capacity : q.capacity = c
  bounded : q.size ≤ c
  arranged : Arranged ClientRequest.priority q.queued pending

namespace Refines

variable {c : Nat} {q q' : PriorityQueue} {pending : List ClientRequest}

theorem create (cells : Nat → ClientRequest) : Refines c (createQueue c cells) [] :=
  ⟨rfl, Nat.zero_le c, Arranged.nil⟩

theorem size (h : Refines c q pending) : q.size = pending.length := by
  rw [← length_queued, h.arranged.perm.length_eq]

/-- Every call is a step of the abstract queue. -/
theorem step (h : Refines c q pending) {e : Event ClientRequest} (hstep : QueueStep q e q') :
    ∃ pending', Step ClientRequest.priority c pending e pending' ∧ Refines c q' pending' := by
  cases hstep with
  | @accepted request hroom =>
      rw [h.capacity] at hroom
      refine ⟨_, .accepted (h.size ▸ hroom), by simp [h.capacity], ?_, ?_⟩
      · rw [addWork_size (h.capacity ▸ hroom)]
        exact hroom
      · rw [queued_addWork (h.capacity ▸ hroom) h.arranged.falling]
        exact h.arranged.insert request
  | @refused request hfull =>
      rw [addWork_full hfull]
      rw [h.capacity] at hfull
      exact ⟨_, .refused (by have := h.size; have := h.bounded; omega), h⟩
  | taken hsize hget =>
      obtain ⟨rfl, rfl⟩ := Prod.mk.inj hget
      have harranged := h.arranged
      rw [queued_moveDown hsize] at harranged
      exact ⟨_, .taken harranged.find_top, h.capacity, (Nat.pred_le _).trans h.bounded,
        harranged.tail⟩

end Refines

end PriorityQueue

open PriorityQueue

/-! ## The refinement -/

/-- Every sequence of calls is one of a bounded queue that hands out the earliest request of
highest priority. -/
theorem queue_refines {c : Nat} {cells : Nat → ClientRequest} {events : List (Event ClientRequest)}
    {q : PriorityQueue} (h : Run QueueStep (createQueue c cells) events q) :
    q.size ≤ c ∧
      (∃ pending, Run (Step ClientRequest.priority c) [] events pending ∧
        Arranged ClientRequest.priority q.queued pending) ∧
      (letIn events).Perm (handedOut events ++ q.queued) ∧
      ∀ request, (q.size < c → ∃ front back, q.queued = front ++ back ∧
          (q.addWork request).queued = front ++ request :: back) ∧
        (q.size = c → q.addWork request = q) := by
  have hsim : ∀ q e q' pending, Refines c q pending → QueueStep q e q' →
      ∃ pending', Step ClientRequest.priority c pending e pending' ∧ Refines c q' pending' :=
    fun _ _ _ _ hq hstep => hq.step hstep
  obtain ⟨pending, hrun, hq⟩ := Run.simulation hsim h (Refines.create cells)
  have hperm := Run.invariant_labels (P := fun events pending =>
    (letIn events).Perm (handedOut events ++ pending)) (fun _ _ _ _ hp hstep => hstep.perm hp)
    hrun (List.Perm.refl _)
  refine ⟨hq.bounded, ⟨pending, hrun, hq.arranged⟩,
    hperm.trans (hq.arranged.perm.symm.append_left _), fun request => ⟨fun hroom => ?_, ?_⟩⟩
  · obtain ⟨front, back, hsplit, hadded, -⟩ :=
      addWork_inserts (hq.capacity ▸ hroom)
    exact ⟨front, back, hsplit, hadded⟩
  · intro hfull
    exact addWork_full (by rw [hq.capacity, hfull]; exact lt_irrefl c)

/-- A job of the given priority. -/
def job (priority : Int) : ClientRequest := ⟨none, priority, -1, 0, 0, []⟩

/-- Two jobs fill a queue of capacity 2; the one of higher priority leaves first. -/
theorem queue_refines_run : ∃ q, Run QueueStep (createQueue 2 fun _ => job 0)
      [.accepted (job (-1)), .accepted (job 5), .refused (job 9), .taken (job 5)] q ∧
    (∃ pending, Run (Step ClientRequest.priority 2) [] [.accepted (job (-1)), .accepted (job 5),
      .refused (job 9), .taken (job 5)] pending ∧
        Arranged ClientRequest.priority q.queued pending) := by
  have hrun : Run QueueStep (createQueue 2 fun _ => job 0) ([] ++ [.accepted (job (-1))] ++
      [.accepted (job 5)] ++ [.refused (job 9)] ++ [.taken (job 5)]) _ :=
    (((Run.nil.concat (.accepted (by decide))).concat (.accepted (by decide))).concat
      (.refused (by decide))).concat (.taken (by decide) (Prod.ext (by decide) rfl))
  exact ⟨_, hrun, (queue_refines hrun).2.1⟩

end OSProjects.Proxy
