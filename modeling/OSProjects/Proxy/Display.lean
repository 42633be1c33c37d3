import OSProjects.Proxy.QueueBounds
import OSProjects.Proxy.Request

/-!
# Display of the queue

`display` of `safequeue.c`, which `serve_forever` calls behind `add_work`. It reads the queue
without the lock, between the assignments of other threads. The elements are pointers here:
one that no call has set leads to no request.
-/

namespace OSProjects.Proxy

open PriorityQueue

/-! ## Assignments -/

/-- The queue as it lies in memory. -/
@[ext]
structure QueueMemory where
  elements : Nat → Option ClientRequest
  size : Nat

/-- An assignment to an element. -/
inductive QueueStore
  /-- `queue->elements[i] = queue->elements[j]` -/
  | copy (i j : Nat)
  /-- `queue->elements[i] = request` -/
  | put (i : Nat) (request : ClientRequest)

def QueueMemory.store (m : QueueMemory) : QueueStore → QueueMemory
  | .copy i j => { m with elements := Function.update m.elements i (m.elements j) }
  | .put i request => { m with elements := Function.update m.elements i (some request) }

namespace PriorityQueue

/-- The memory of a queue that no call is at work on. -/
def memory (q : PriorityQueue) : QueueMemory where
  elements i := if i < q.size then some (q.elements i) else none
  size := q.size

/-- The assignments in the loop of `move_down`. -/
def moveDownStores (q : PriorityQueue) : List QueueStore :=
  (List.range q.size).map fun i => .copy i (i + 1)

/-- The assignments of `add_work` from its loop on, with `i` elements left to pass. -/
def shiftStores (request : ClientRequest) : Nat → (Nat → ClientRequest) → List QueueStore
  | 0, _ => [.put 0 request]
  | i + 1, elements =>
      if (elements i).priority < request.priority then
        .copy (i + 1) i ::
          shiftStores request i (Function.update elements (i + 1) (elements i))
      else [.put (i + 1) request]

/-- The assignments to elements that a call makes before it changes the size. -/
def callStores (q : PriorityQueue) : QueueCall → List QueueStore
  | .addWork request =>
      if q.size < q.capacity then shiftStores request q.size q.elements else []
  | .getWork => q.moveDownStores

/-- The queue that a call leaves; `get_work` waits while the queue is empty. -/
def afterCall (q : PriorityQueue) : QueueCall → PriorityQueue
  | .addWork request => q.addWork request
  | .getWork => if q.size = 0 then q else q.getWork.2

/-- The queue after calls that come one after the other, as the lock makes them. -/
def afterCalls (q : PriorityQueue) (calls : List QueueCall) : PriorityQueue :=
  calls.foldl afterCall q

end PriorityQueue

/-- A moment during calls: so many of them have changed the size and so many assignments of the
next one have been made. -/
structure Moment where
  calls : Nat
  stores : Nat

/-- The memory at a moment. -/
def PriorityQueue.memoryAt (q : PriorityQueue) (calls : List QueueCall) (moment : Moment) :
    QueueMemory :=
  let q := q.afterCalls (calls.take moment.calls)
  match calls.drop moment.calls with
  | [] => q.memory
  | call :: _ => ((q.callStores call).take moment.stores).foldl QueueMemory.store q.memory

/-! ## The loop -/

/-- The loop of `display` from turn `i` on, with so many turns left. A turn reads the size and
five times the element (for its path, priority, delay, client and text); `mem` is the memory at
each of these reads. -/
def displayFrom (mem : Nat → QueueMemory) : Nat → Nat → Option (Except Crash Unit)
  | 0, _ => none
  | turns + 1, i =>
      if i < (mem (6 * i)).size then
        if ∀ read ∈ [1, 2, 3, 4, 5], ((mem (6 * i + read)).elements i).isSome then
          displayFrom mem turns (i + 1)
        else some (.error .strayPointer)
      else some (.ok ())

/-- `display`, when other threads make `calls` and each of its reads comes at a moment of
them. -/
def display (q : PriorityQueue) (calls : List QueueCall) (moments : Nat → Moment) (turns : Nat) :
    Option (Except Crash Unit) :=
  displayFrom (fun read => q.memoryAt calls (moments read)) turns 0

/-! ## The elements in use -/

/-- The size of a queue of capacity `c` and size `n` after some calls. -/
def sizeFrom (c n : Nat) (calls : List QueueCall) : Nat :=
  calls.foldl (fun size call =>
    match call with
    | .addWork _ => if size < c then size + 1 else size
    | .getWork => size - 1) n

/-- How many elements lead to requests at a moment. A call of `add_work` adds one with its first
assignment, and `get_work` takes one away with its last one. -/
def inUse (c n : Nat) (calls : List QueueCall) (moment : Moment) : Nat :=
  let size := sizeFrom c n (calls.take moment.calls)
  match calls.drop moment.calls with
  | [] => size
  | .addWork _ :: _ => if size < c ∧ moment.stores ≠ 0 then size + 1 else size
  | .getWork :: _ => if size ≤ moment.stores then size - 1 else size

/-- Every element that a test of `display` has found below the size stays in use until the
turn is over. -/
def Spared (c n : Nat) (calls : List QueueCall) (moments : Nat → Moment) : Prop :=
  ∀ i, (∀ j ≤ i, j < sizeFrom c n (calls.take (moments (6 * j)).calls)) →
    ∀ read ∈ [1, 2, 3, 4, 5], i < inUse c n calls (moments (6 * i + read))

/-! ## What the assignments do -/

/-- The memory shows the first `n` of the elements. -/
def QueueMemory.Shows (m : QueueMemory) (e : Nat → ClientRequest) (n : Nat) : Prop :=
  ∀ i, m.elements i = if i < n then some (e i) else none

/-- What an assignment does to the requests. -/
def QueueStore.apply (e : Nat → ClientRequest) : QueueStore → Nat → ClientRequest
  | .copy i j => Function.update e i (e j)
  | .put i request => Function.update e i request

/-- How many elements lead to requests after an assignment, when `n` do before it. -/
def QueueStore.count (n : Nat) : QueueStore → Nat
  | .copy i j => if j < n then max n (i + 1) else min n i
  | .put i _ => max n (i + 1)

/-- An assignment that leaves no gap between the elements in use. -/
def QueueStore.Orderly (n : Nat) : QueueStore → Prop
  | .copy i j => j < n ∧ i ≤ n ∨ n ≤ j ∧ i + 1 = n
  | .put i _ => i ≤ n

def OrderlyFrom (n : Nat) : List QueueStore → Prop
  | [] => True
  | s :: rest => s.Orderly n ∧ OrderlyFrom (s.count n) rest

section Assignments

variable {m : QueueMemory} {e : Nat → ClientRequest} {n : Nat} {s : QueueStore}
  {ss : List QueueStore}

theorem QueueMemory.Shows.store (h : m.Shows e n) (hs : s.Orderly n) :
    (m.store s).Shows (s.apply e) (s.count n) := by
  intro k
  cases s with
  | copy i j =>
      have hbound : j < n ∧ i ≤ n ∨ n ≤ j ∧ i + 1 = n := hs
      simp only [QueueMemory.store, QueueStore.apply, QueueStore.count]
      rcases eq_or_ne k i with rfl | hne
      · rw [Function.update_self, Function.update_self, h j]
        split
        · rw [if_pos (by omega)]
        · rw [if_neg (by omega)]
      · rw [Function.update_of_ne hne, Function.update_of_ne hne, h k]
        exact if_congr (by split <;> omega) rfl rfl
  | put i request =>
      have hbound : i ≤ n := hs
      simp only [QueueMemory.store, QueueStore.apply, QueueStore.count]
      rcases eq_or_ne k i with rfl | hne
      · rw [Function.update_self, Function.update_self]
        exact (if_pos (lt_max_of_lt_right k.lt_succ_self)).symm
      · rw [Function.update_of_ne hne, Function.update_of_ne hne, h k]
        exact if_congr (by omega) rfl rfl

theorem QueueMemory.Shows.foldl (h : m.Shows e n) (hss : OrderlyFrom n ss) :
    (ss.foldl QueueMemory.store m).Shows (ss.foldl QueueStore.apply e)
      (ss.foldl QueueStore.count n) := by
  induction ss generalizing m e n with
  | nil => exact h
  | cons s rest ih => exact ih (h.store hss.1) hss.2

theorem OrderlyFrom.take (h : OrderlyFrom n ss) (made : Nat) : OrderlyFrom n (ss.take made) := by
  induction ss generalizing n made with
  | nil => rwa [List.take_nil]
  | cons s rest ih =>
      cases made with
      | zero => trivial
      | succ made => exact ⟨h.1, ih h.2 made⟩

/-- Assignments to elements leave the size alone. -/
theorem foldl_store_size (ss : List QueueStore) (m : QueueMemory) :
    (ss.foldl QueueMemory.store m).size = m.size := by
  induction ss generalizing m with
  | nil => rfl
  | cons s rest ih =>
      rw [List.foldl_cons, ih]
      cases s <;> rfl

end Assignments

namespace PriorityQueue

variable {q : PriorityQueue}

theorem memory_shows (q : PriorityQueue) : q.memory.Shows q.elements q.size := fun _ => rfl

/-! ### The assignments of a call -/

/-- The last copy of `move_down` is of an element that is not in use. -/
theorem copies_spec {i turns n : Nat} (h : i + turns = n) :
    OrderlyFrom n ((List.range' i turns).map fun i => .copy i (i + 1)) ∧
      ∀ made, (((List.range' i turns).map fun i => .copy i (i + 1)).take made).foldl
        QueueStore.count n = if turns ≠ 0 ∧ turns ≤ made then n - 1 else n := by
  induction turns generalizing i with
  | zero => exact ⟨trivial, fun made => by rw [List.range'_zero, List.map_nil, List.take_nil]; rfl⟩
  | succ turns ih =>
      rw [List.range'_succ, List.map_cons]
      have hcount : QueueStore.count n (.copy i (i + 1)) = if turns = 0 then n - 1 else n := by
        rw [QueueStore.count]
        split <;> split <;> omega
      by_cases hlast : turns = 0
      · subst hlast
        refine ⟨⟨.inr ⟨by omega, by omega⟩, trivial⟩, fun made => ?_⟩
        cases made with
        | zero => rfl
        | succ made =>
            rw [List.range'_zero, List.map_nil, List.take_succ_cons, List.take_nil]
            exact hcount.trans (if_pos ⟨Nat.one_ne_zero, by omega⟩).symm
      · rw [if_neg hlast] at hcount
        obtain ⟨horderly, hall⟩ := ih (show i + 1 + turns = n by omega)
        refine ⟨⟨.inl ⟨by omega, by omega⟩, hcount.symm ▸ horderly⟩, fun made => ?_⟩
        cases made with
        | zero => rfl
        | succ made =>
            rw [List.take_succ_cons, List.foldl_cons, hcount, hall made]
            exact if_congr (by omega) rfl rfl

theorem foldl_count_put (request : ClientRequest) {i c : Nat} (made : Nat) :
    (([.put i request] : List QueueStore).take made).foldl QueueStore.count c =
      if made = 0 then c else max c (i + 1) := by
  cases made with
  | zero => rfl
  | succ made =>
      rw [List.take_succ_cons, List.take_nil, if_neg (Nat.succ_ne_zero made)]
      rfl

/-- The first assignment of `add_work` is to the first element that is not in use. -/
theorem shiftStores_spec (request : ClientRequest) {n c : Nat} (hn : n ≤ c)
    (e : Nat → ClientRequest) :
    OrderlyFrom c (shiftStores request n e) ∧
      (∀ made, ((shiftStores request n e).take made).foldl QueueStore.count c =
        if made = 0 then c else max c (n + 1)) ∧
      (shiftStores request n e).foldl QueueStore.apply e =
        Function.update (shift request n e).2 (shift request n e).1 request := by
  induction n generalizing c e with
  | zero => exact ⟨⟨hn, trivial⟩, foldl_count_put request, rfl⟩
  | succ n ih =>
      rw [shiftStores, shift]
      split
      case isTrue =>
        have hcount : QueueStore.count c (.copy (n + 1) n) = max c (n + 2) := by
          rw [QueueStore.count, if_pos (by omega)]
        obtain ⟨horderly, hall, happly⟩ :=
          ih (show n ≤ max c (n + 2) by omega) (Function.update e (n + 1) (e n))
        refine ⟨⟨.inl ⟨by omega, hn⟩, hcount.symm ▸ horderly⟩, fun made => ?_, happly⟩
        cases made with
        | zero => rfl
        | succ made =>
            rw [List.take_succ_cons, List.foldl_cons, hcount, hall made,
              if_neg (Nat.succ_ne_zero made)]
            split <;> omega
      case isFalse => exact ⟨⟨hn, trivial⟩, foldl_count_put request, rfl⟩

/-- The assignments of a call keep the elements in use together. -/
theorem callStores_orderly (q : PriorityQueue) (call : QueueCall) :
    OrderlyFrom q.size (q.callStores call) := by
  cases call with
  | addWork request =>
      rw [callStores]
      split
      · exact (shiftStores_spec request le_rfl q.elements).1
      · trivial
  | getWork =>
      rw [callStores, moveDownStores, List.range_eq_range']
      exact (copies_spec (Nat.zero_add q.size)).1

theorem afterCall_size (q : PriorityQueue) (call : QueueCall) :
    (q.afterCall call).size = sizeFrom q.capacity q.size [call] ∧
      (q.afterCall call).capacity = q.capacity := by
  cases call with
  | addWork request =>
      refine ⟨?_, addWork_capacity⟩
      rw [afterCall, addWork]
      by_cases hroom : q.size < q.capacity
      · simp [sizeFrom, hroom]
      · simp [sizeFrom, hroom]
  | getWork =>
      rw [afterCall]
      split
      case isTrue hempty => exact ⟨by simp [sizeFrom, hempty], rfl⟩
      case isFalse => exact ⟨rfl, rfl⟩

theorem afterCalls_size (q : PriorityQueue) (calls : List QueueCall) :
    (q.afterCalls calls).size = sizeFrom q.capacity q.size calls ∧
      (q.afterCalls calls).capacity = q.capacity := by
  induction calls generalizing q with
  | nil => exact ⟨rfl, rfl⟩
  | cons call calls ih =>
      obtain ⟨hsize, hcapacity⟩ := q.afterCall_size call
      obtain ⟨hrest, hkept⟩ := ih (q.afterCall call)
      rw [hcapacity, hsize] at hrest
      exact ⟨hrest, hkept.trans hcapacity⟩

/-- The assignments of a call and its change of the size leave the memory of the queue after
the call. -/
theorem memory_afterCall (q : PriorityQueue) (call : QueueCall) :
    { (q.callStores call).foldl QueueMemory.store q.memory with size := (q.afterCall call).size } =
      (q.afterCall call).memory := by
  have hshows := q.memory_shows.foldl (q.callStores_orderly call)
  suffices (q.callStores call).foldl QueueStore.apply q.elements = (q.afterCall call).elements ∧
      (q.callStores call).foldl QueueStore.count q.size = (q.afterCall call).size by
    rw [this.1, this.2] at hshows
    exact QueueMemory.ext (funext hshows) rfl
  cases call with
  | addWork request =>
      obtain ⟨-, hcount, happly⟩ := shiftStores_spec request (Nat.le_refl q.size) q.elements
      rw [callStores, afterCall, addWork]
      split
      · have hall := hcount ((shiftStores request q.size q.elements).length + 1)
        rw [List.take_of_length_le (Nat.le_succ _), if_neg (Nat.succ_ne_zero _)] at hall
        exact ⟨happly, hall.trans (Nat.max_eq_right (Nat.le_succ _))⟩
      · exact ⟨rfl, rfl⟩
  | getWork =>
      rw [callStores, afterCall, moveDownStores]
      split
      case isTrue hempty =>
        rw [hempty]
        exact ⟨rfl, rfl⟩
      case isFalse hsize =>
        refine ⟨by rw [List.foldl_map]; rfl, ?_⟩
        have hall := (copies_spec (Nat.zero_add q.size)).2 q.size
        rw [← List.range_eq_range', List.take_of_length_le (by simp)] at hall
        exact hall.trans (if_pos ⟨hsize, le_rfl⟩)

variable (q) (calls : List QueueCall) (moment : Moment)

theorem memoryAt_size : (q.memoryAt calls moment).size =
    sizeFrom q.capacity q.size (calls.take moment.calls) := by
  rw [← (q.afterCalls_size _).1, memoryAt]
  cases hnext : calls.drop moment.calls with
  | nil => rfl
  | cons call rest => exact foldl_store_size _ _

/-- At every moment the elements in use are the first ones. -/
theorem memoryAt_isSome (i : Nat) :
    ((q.memoryAt calls moment).elements i).isSome ↔ i < inUse q.capacity q.size calls moment := by
  obtain ⟨hsize, hcapacity⟩ := q.afterCalls_size (calls.take moment.calls)
  have hshown : ∀ {m : QueueMemory} {e n}, m.Shows e n → ((m.elements i).isSome ↔ i < n) :=
    fun h => by rw [h i]; split <;> simp [*]
  rw [memoryAt, inUse]
  cases hnext : calls.drop moment.calls with
  | nil => exact (hshown (memory_shows _)).trans (by rw [hsize])
  | cons call rest =>
      have hmoment := hshown (((memory_shows _).foldl
        ((callStores_orderly (q.afterCalls (calls.take moment.calls)) call).take moment.stores)))
      refine hmoment.trans ?_
      rw [← hsize, ← hcapacity]
      generalize q.afterCalls (calls.take moment.calls) = q
      cases call with
      | addWork request =>
          rw [callStores]
          by_cases hroom : q.size < q.capacity
          · rw [if_pos hroom, (shiftStores_spec request le_rfl q.elements).2.1]
            simp only [hroom, true_and, ne_eq, ite_not]
            rw [Nat.max_eq_right (Nat.le_succ _)]
          · simp [hroom]
      | getWork =>
          rw [callStores, moveDownStores, List.range_eq_range',
            (copies_spec (Nat.zero_add q.size)).2]
          by_cases hempty : q.size = 0
          · simp [hempty]
          · simp [hempty]

end PriorityQueue

/-! ## Where `display` returns -/

/-- A call adds one element at most. -/
theorem sizeFrom_le (c n : Nat) (calls : List QueueCall) : sizeFrom c n calls ≤ n + calls.length := by
  induction calls generalizing n with
  | nil => exact le_rfl
  | cons call calls ih =>
      refine (ih _).trans ?_
      rw [List.length_cons]
      cases call with
      | addWork => dsimp only; split <;> omega
      | getWork => dsimp only; omega

section Turns

variable {mem : Nat → QueueMemory}

/-- A loop that returns has followed pointers to requests only. -/
theorem isSome_of_displayFrom {turns i k : Nat} (h : displayFrom mem turns i = some (.ok ()))
    (hk : i ≤ k) (htests : ∀ j, i ≤ j → j ≤ k → j < (mem (6 * j)).size) :
    ∀ read ∈ [1, 2, 3, 4, 5], ((mem (6 * k + read)).elements k).isSome := by
  induction turns generalizing i with
  | zero => cases h
  | succ turns ih =>
      rw [displayFrom, if_pos (htests i le_rfl hk)] at h
      split at h
      case isTrue hreads =>
        rcases hk.eq_or_lt with rfl | hlt
        · exact hreads
        · exact ih h hlt fun j hj hjk => htests j (by omega) hjk
      case isFalse => cases Option.some.inj h

/-- The loop ends when it comes to the bound of the size. -/
theorem displayFrom_returns {bound : Nat} (hbound : ∀ read, (mem read).size ≤ bound)
    {turns i : Nat} (hturns : bound ≤ i + turns)
    (hspared : ∀ k, i ≤ k → (∀ j, i ≤ j → j ≤ k → j < (mem (6 * j)).size) →
      ∀ read ∈ [1, 2, 3, 4, 5], ((mem (6 * k + read)).elements k).isSome) :
    displayFrom mem (turns + 1) i = some (.ok ()) := by
  induction turns generalizing i with
  | zero => exact if_neg (by have := hbound (6 * i); omega)
  | succ turns ih =>
      rw [displayFrom]
      split
      case isTrue htest =>
        have honly : ∀ j, i ≤ j → j ≤ i → j < (mem (6 * j)).size := fun j hj hji => by
          obtain rfl := Nat.le_antisymm hji hj
          exact htest
        rw [if_pos (hspared i le_rfl honly)]
        refine ih (by omega) fun k hk htests => hspared k (by omega) fun j hj hjk => ?_
        rcases hj.eq_or_lt with rfl | hlt
        · exact htest
        · exact htests j hlt hjk
      case isFalse => rfl

end Turns

/-- `display` returns exactly when the elements that it has found are spared. -/
theorem display_iff (q : PriorityQueue) (calls : List QueueCall) (moments : Nat → Moment) :
    (∃ turns, display q calls moments turns = some (.ok ())) ↔
      Spared q.capacity q.size calls moments := by
  have htest : ∀ j, j < (q.memoryAt calls (moments (6 * j))).size ↔
      j < sizeFrom q.capacity q.size (calls.take (moments (6 * j)).calls) := fun j => by
    rw [memoryAt_size]
  have hread : ∀ i read, ((q.memoryAt calls (moments (6 * i + read))).elements i).isSome ↔
      i < inUse q.capacity q.size calls (moments (6 * i + read)) :=
    fun i _ => memoryAt_isSome q calls _ i
  constructor
  · rintro ⟨turns, hreturns⟩ i htests read hmem
    exact (hread i read).mp (isSome_of_displayFrom hreturns (Nat.zero_le i)
      (fun j _ hj => (htest j).mpr (htests j hj)) read hmem)
  · intro hspared
    have hbound : ∀ read, (q.memoryAt calls (moments read)).size ≤ q.size + calls.length := by
      intro read
      rw [memoryAt_size]
      have hsize := sizeFrom_le q.capacity q.size (calls.take (moments read).calls)
      have hlen := List.length_take_le' (moments read).calls calls
      omega
    refine ⟨_, displayFrom_returns hbound (Nat.zero_add _).ge
      fun i _ htests read hmem => (hread i read).mpr ?_⟩
    exact hspared i (fun j hj => (htest j).mp (htests j (Nat.zero_le j) hj)) read hmem

/-- A worker takes the only job between the test of the first turn and its first read. -/
example : display ((createQueue 2 fun _ => job 0).addWork (job 1)) [.getWork]
    (fun read => ⟨if read = 0 then 0 else 1, 0⟩) 3 = some (.error .strayPointer) := by decide

end OSProjects.Proxy
