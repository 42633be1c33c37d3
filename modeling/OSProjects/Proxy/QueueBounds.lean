import OSProjects.Foundation.Touching
import OSProjects.Proxy.SafeQueue

/-!
# The array of the request queue

The indices of `queue->elements` that the functions of `safequeue.c` read and write. The array
has as many elements as the queue has capacity.
-/

namespace OSProjects.Proxy

open StableOrder StepSystem Touching

namespace PriorityQueue

/-- A computation on a queue, with the indices of the elements that it touches. -/
abbrev OnQueue (β : Type) := Touching PriorityQueue Nat β

def readElement (i : Nat) : OnQueue ClientRequest := readAt i fun q => q.elements i

def writeElement (i : Nat) (request : ClientRequest) : OnQueue Unit :=
  writeAt i fun q => { q with elements := Function.update q.elements i request }

/-- The loop of `move_down`, with so many turns left. -/
def moveLoop : Nat → Nat → OnQueue Unit
  | 0, _ => pure ()
  | turns + 1, i => do
      let next ← readElement (i + 1)
      writeElement i next
      moveLoop turns (i + 1)

/-- `move_down`. -/
def moveDownAt : OnQueue Unit := do
  let size ← look size
  moveLoop size 0
  change fun q => { q with size := q.size - 1 }

/-- The loop of `add_work`, by the index where it stops. -/
def shiftAt (request : ClientRequest) : Nat → OnQueue Nat
  | 0 => pure 0
  | i + 1 => do
      let above ← readElement i
      if above.priority < request.priority then do
        let above ← readElement i
        writeElement (i + 1) above
        shiftAt request i
      else pure (i + 1)

/-- `add_work`. -/
def addWorkAt (request : ClientRequest) : OnQueue Unit := do
  let size ← look size
  let capacity ← look capacity
  if size < capacity then do
    let i ← shiftAt request size
    writeElement i request
    change fun q => { q with size := q.size + 1 }
  else pure ()

/-- `get_work`, once the queue is not empty. -/
def getWorkAt : OnQueue ClientRequest := do
  let request ← readElement 0
  moveDownAt
  pure request

/-! ## The same functions -/

section Same

variable (q : PriorityQueue) (request : ClientRequest)

theorem state_moveLoop (turns i : Nat) :
    ((moveLoop turns i).run q).state =
      { q with elements := (List.range' i turns).foldl moveTurn q.elements } := by
  induction turns generalizing i q with
  | zero => rfl
  | succ turns ih =>
      rw [moveLoop, List.range'_succ, List.foldl_cons]
      exact ih _ (i + 1)

theorem state_moveDownAt : (moveDownAt.run q).state = q.moveDown := by
  simp [moveDownAt, state_moveLoop, moveDown, List.range_eq_range']

theorem shiftAt_eq (n : Nat) :
    ((shiftAt request n).run q).value = (shift request n q.elements).1 ∧
      ((shiftAt request n).run q).state = { q with elements := (shift request n q.elements).2 } := by
  induction n generalizing q with
  | zero => exact ⟨rfl, rfl⟩
  | succ n ih =>
      rw [shiftAt, shift, readElement, value_readAt_bind, state_readAt_bind, run_ite]
      by_cases hlt : (q.elements n).priority < request.priority
      · simp only [if_pos hlt]
        exact ih { q with elements := Function.update q.elements (n + 1) (q.elements n) }
      · simp only [if_neg hlt]
        exact ⟨rfl, rfl⟩

theorem state_addWorkAt : ((addWorkAt request).run q).state = q.addWork request := by
  obtain ⟨hvalue, hstate⟩ := shiftAt_eq q request q.size
  rw [addWorkAt, addWork, run_look_bind, run_look_bind, run_ite]
  by_cases hroom : q.size < q.capacity
  · simp only [if_pos hroom]
    simp [hvalue, hstate, writeElement]
  · simp only [if_neg hroom]
    rfl

theorem getWorkAt_eq : ((getWorkAt.run q).value, (getWorkAt.run q).state) = q.getWork := by
  rw [getWork, ← state_moveDownAt]
  rfl

end Same

/-! ## Indices -/

section Indices

variable {q : PriorityQueue} {request : ClientRequest} {c : Nat}

/-- The last turn reads one element behind the one that it writes. -/
theorem within_moveLoop {turns i : Nat} :
    Within (· < c) (moveLoop turns i) q ↔ (turns ≠ 0 → i + turns < c) := by
  induction turns generalizing i q with
  | zero => simp [moveLoop]
  | succ turns ih =>
      simp only [moveLoop, within_bind, ih, readElement, writeElement, within_readAt, within_writeAt]
      omega

theorem within_shiftAt {n : Nat} (h : n < c) : Within (· < c) (shiftAt request n) q := by
  induction n generalizing q with
  | zero => exact within_pure 0
  | succ n ih =>
      rw [shiftAt, readElement, within_readAt_bind]
      refine ⟨by omega, ?_⟩
      split
      case isTrue =>
        rw [within_readAt_bind, within_bind]
        exact ⟨by omega, within_writeAt.mpr h, ih (by omega)⟩
      case isFalse => exact within_pure (n + 1)

theorem shift_le (request : ClientRequest) (n : Nat) (e : Nat → ClientRequest) :
    (shift request n e).1 ≤ n := by
  obtain ⟨i, m, hn, hi, -⟩ := shift_spec request n e
  omega

/-- The functions that add work stay in the array. -/
theorem within_addWorkAt : Within (· < q.capacity) (addWorkAt request) q := by
  rw [addWorkAt, within_look_bind, within_look_bind]
  split
  case isTrue hroom =>
    rw [within_bind, within_bind]
    refine ⟨within_shiftAt hroom, within_writeAt.mpr ?_, within_change _⟩
    rw [(shiftAt_eq q request q.size).1]
    exact (shift_le request q.size q.elements).trans_lt hroom
  case isFalse => exact within_pure ()

/-- `get_work` stays in the array exactly when one of its elements is not in use. -/
theorem within_getWorkAt (hsize : q.size ≠ 0) : Within (· < c) getWorkAt q ↔ q.size < c := by
  rw [getWorkAt, readElement, within_readAt_bind, within_bind, moveDownAt, within_look_bind,
    within_bind, within_moveLoop]
  simp only [within_change, within_pure, and_true]
  omega

end Indices

end PriorityQueue

open PriorityQueue

/-! ## Sequences of calls -/

inductive QueueCall
  | addWork (request : ClientRequest)
  | getWork

/-- A call that returns, with the indices that it has touched. `get_work` waits for an element. -/
inductive CallStep : PriorityQueue → QueueCall × List Nat → PriorityQueue → Prop
  | addWork {q request} :
      CallStep q (.addWork request, ((addWorkAt request).run q).touched) ((addWorkAt request).run q).state
  | getWork {q} (hsize : q.size ≠ 0) :
      CallStep q (.getWork, (getWorkAt.run q).touched) (getWorkAt.run q).state

/-- How many elements a queue holds after some calls. -/
def sizeAfter (c : Nat) (calls : List QueueCall) : Nat :=
  calls.foldl (fun size call =>
    match call with
    | .addWork _ => if size < c then size + 1 else size
    | .getWork => size - 1) 0

/-- No call of `get_work` comes when the queue is full. -/
def NeverFullAtGet (c : Nat) (calls : List QueueCall) : Prop :=
  ∀ pre, pre ++ [.getWork] <+: calls → sizeAfter c pre < c

/-- With its indices left out, a call is one of the queue. -/
theorem CallStep.queueStep {q q' : PriorityQueue} {label : QueueCall × List Nat}
    (h : CallStep q label q') : ∃ e, QueueStep q e q' := by
  cases h with
  | @addWork request =>
      rw [state_addWorkAt]
      by_cases hroom : q.size < q.capacity
      · exact ⟨_, .accepted hroom⟩
      · exact ⟨_, .refused hroom⟩
  | getWork hsize => exact ⟨_, .taken hsize (getWorkAt_eq q).symm⟩

section Runs

variable {c : Nat} {cells : Nat → ClientRequest} {labels : List (QueueCall × List Nat)}
  {q : PriorityQueue}

theorem sizeAfter_concat (c : Nat) (calls : List QueueCall) (call : QueueCall) :
    sizeAfter c (calls ++ [call]) =
      match call with
      | .addWork _ => if sizeAfter c calls < c then sizeAfter c calls + 1 else sizeAfter c calls
      | .getWork => sizeAfter c calls - 1 := by
  rw [sizeAfter, List.foldl_append]
  rfl

/-- What is read behind the array is not kept: after every run, the queue holds the stable order
of what a bounded queue has pending. -/
theorem exists_pending (h : Run CallStep (createQueue c cells) labels q) :
    ∃ events pending, Run (StableOrder.Step ClientRequest.priority c) [] events pending ∧
      Refines c q pending := by
  induction h with
  | nil => exact ⟨[], [], Run.nil, Refines.create cells⟩
  | concat _ hstep ih =>
      obtain ⟨events, pending, hrun, hq⟩ := ih
      obtain ⟨e, he⟩ := hstep.queueStep
      obtain ⟨pending', hpending, hq'⟩ := hq.step he
      exact ⟨events ++ [e], pending', hrun.concat hpending, hq'⟩

/-- The size of the queue follows from the calls alone. -/
theorem sized (h : Run CallStep (createQueue c cells) labels q) :
    q.capacity = c ∧ q.size = sizeAfter c (labels.map Prod.fst) := by
  refine Run.invariant_labels (P := fun labels q =>
    q.capacity = c ∧ q.size = sizeAfter c (labels.map Prod.fst)) ?_ h ⟨rfl, rfl⟩
  rintro labels q label q' ⟨hcapacity, hsize⟩ hstep
  rw [List.map_append, List.map_singleton, sizeAfter_concat, ← hsize, ← hcapacity]
  cases hstep with
  | @addWork request =>
      rw [state_addWorkAt, addWork_capacity]
      refine ⟨rfl, ?_⟩
      by_cases hroom : q.size < q.capacity
      · rw [addWork_size hroom]
        exact (if_pos hroom).symm
      · rw [addWork_full hroom]
        exact (if_neg hroom).symm
  | getWork _ =>
      have hstate : (getWorkAt.run q).state = q.moveDown := state_moveDownAt q
      rw [hstate]
      exact ⟨rfl, rfl⟩

theorem neverFullAtGet_concat {calls : List QueueCall} {call : QueueCall} :
    NeverFullAtGet c (calls ++ [call]) ↔
      NeverFullAtGet c calls ∧ (call = .getWork → sizeAfter c calls < c) := by
  constructor
  · intro h
    refine ⟨fun pre hpre => h pre (hpre.trans (List.prefix_append _ _)), ?_⟩
    rintro rfl
    exact h calls (List.prefix_refl _)
  · rintro ⟨hbefore, hlast⟩ pre hpre
    rcases List.prefix_concat_iff.mp hpre with heq | hpre
    · obtain ⟨rfl, hcall⟩ := List.append_inj' heq rfl
      exact hlast (List.singleton_inj.mp hcall).symm
    · exact hbefore pre hpre

/-- Only `get_work` leaves the array, and only when the queue is full. -/
theorem CallStep.indices {q' : PriorityQueue} {label : QueueCall × List Nat}
    (h : CallStep q label q') :
    (∀ i ∈ label.2, i < q.capacity) ↔ (label.1 = .getWork → q.size < q.capacity) := by
  cases h with
  | addWork => exact iff_of_true within_addWorkAt nofun
  | getWork hsize => exact (within_getWorkAt hsize).trans ⟨fun hroom _ => hroom, fun h => h rfl⟩

/-- Every run of calls stays in the array exactly when no call of `get_work` comes when the
queue is full. -/
theorem queue_indices_iff (h : Run CallStep (createQueue c cells) labels q) :
    (∀ label ∈ labels, ∀ i ∈ label.2, i < c) ↔ NeverFullAtGet c (labels.map Prod.fst) := by
  induction h with
  | nil => exact iff_of_true nofun fun pre hpre => absurd hpre (by simp)
  | @concat labels q label q' hrun hstep ih =>
      obtain ⟨hcapacity, hsize⟩ := sized hrun
      rw [List.map_append, List.map_singleton, neverFullAtGet_concat, ← ih, ← hsize,
        List.forall_mem_append, List.forall_mem_singleton]
      have hlast := hstep.indices
      rw [hcapacity] at hlast
      rw [hlast]

end Runs

/-- Two jobs in a queue of capacity 3, and one taken out. -/
theorem queue_indices_iff_run : ∃ labels q, Run CallStep (createQueue 3 fun _ => job 0) labels q ∧
    labels.map Prod.fst = [.addWork (job 1), .addWork (job 5), .getWork] ∧
    ((∀ label ∈ labels, ∀ i ∈ label.2, i < 3) ↔ NeverFullAtGet 3 (labels.map Prod.fst)) :=
  have hrun := ((Run.nil.concat (@CallStep.addWork _ (job 1))).concat
    (@CallStep.addWork _ (job 5))).concat (CallStep.getWork (by decide))
  ⟨_, _, hrun, rfl, queue_indices_iff hrun⟩

/-- A job is added to a queue of capacity 1 and taken out: the element behind the array is
read. -/
theorem element_behind_read : ¬∀ c cells labels q, 0 < c →
    Run CallStep (createQueue c cells) labels q →
      ∀ label ∈ labels, ∀ i ∈ label.2, i < c := by
  intro h
  have hrun := (Run.nil.concat (@CallStep.addWork (createQueue 1 fun _ => job 0) (job 1))).concat
    (CallStep.getWork (by decide))
  have hread := h 1 _ _ _ (by decide) hrun
  revert hread
  decide +kernel

end OSProjects.Proxy
