import Mathlib.Data.Fintype.Card
import OSProjects.Proxy.SafeQueue

/-!
# Threads at the request queue

Any number of threads call `add_work` and `get_work`. A stretch of code that holds the
mutex is one step. `pthread_cond_wait` ends a stretch, `pthread_cond_signal` lets one
blocked thread go on, and a blocked thread may also wake without a signal.
-/

namespace OSProjects.Proxy

open StepSystem PriorityQueue

/-! ## The condition variable -/

/-- Where a thread is with respect to `queue->cond`. -/
inductive Place
  /-- Not inside `get_work`, or about to enter it. -/
  | outside
  | blocked
  /-- Signalled, and about to test the queue again. -/
  | signalled
  /-- Awake without a signal, and about to test the queue again. -/
  | awake
  deriving DecidableEq, Repr

/-- The queue with the threads that use it. -/
structure Shared (T : Type*) where
  queue : PriorityQueue
  place : T → Place

/-- What a thread does in one step. -/
inductive Act (T : Type*)
  | add (t : T) (request : ClientRequest)
  | take (t : T) (request : ClientRequest)
  | wait (t : T)
  | wake (t : T)

section Counting

variable {T : Type*} [DecidableEq T]

/-- `pthread_cond_signal`: one blocked thread, if there is any, may go on. -/
inductive Signal (place : T → Place) : (T → Place) → Prop
  | nobody (hnone : ∀ t, place t ≠ .blocked) : Signal place place
  | one {t} (ht : place t = .blocked) : Signal place (Function.update place t .signalled)

/-- One step of a thread. -/
inductive SharedStep : Shared T → Act T → Shared T → Prop
  | added {s t request place} (ht : s.place t = .outside) (hroom : s.queue.size < s.queue.capacity)
      (hsignal : Signal s.place place) :
      SharedStep s (.add t request) ⟨s.queue.addWork request, place⟩
  | full {s t request} (ht : s.place t = .outside) (hfull : ¬s.queue.size < s.queue.capacity) :
      SharedStep s (.add t request) ⟨s.queue.addWork request, s.place⟩
  | take {s t request queue} (ht : s.place t ≠ .blocked) (hsize : s.queue.size ≠ 0)
      (hget : s.queue.getWork = (request, queue)) :
      SharedStep s (.take t request) ⟨queue, Function.update s.place t .outside⟩
  | wait {s t} (ht : s.place t ≠ .blocked) (hsize : s.queue.size = 0) :
      SharedStep s (.wait t) { s with place := Function.update s.place t .blocked }
  | wake {s t} (ht : s.place t = .blocked) :
      SharedStep s (.wake t) { s with place := Function.update s.place t .awake }

/-- Before the first call. -/
def Shared.start (T : Type*) (maxSize : Nat) (cells : Nat → ClientRequest) : Shared T where
  queue := createQueue maxSize cells
  place := fun _ => .outside

variable [Fintype T]

/-- The number of threads at a place. -/
def count (place : T → Place) (x : Place) : Nat := (Finset.univ.filter fun t => place t = x).card

omit [DecidableEq T] in
theorem count_eq_zero {place : T → Place} {x : Place} (h : ∀ t, place t ≠ x) :
    count place x = 0 := by
  rw [count, Finset.card_eq_zero, Finset.filter_eq_empty_iff]
  exact fun t _ => h t

/-- A thread comes to a place where it has not been. -/
theorem count_enter {place : T → Place} {x : Place} {t : T} (h : place t ≠ x) :
    count (Function.update place t x) x = count place x + 1 := by
  have hset : (Finset.univ.filter fun u => Function.update place t x u = x) =
      insert t (Finset.univ.filter fun u => place u = x) := by
    ext u
    rcases eq_or_ne u t with rfl | hne
    · simp
    · simp [hne]
  rw [count, hset, Finset.card_insert_of_notMem (by simp [h]), count]

/-- A thread that moves elsewhere leaves at most one place empty. -/
theorem count_leave (place : T → Place) (x y : Place) (t : T) :
    count place x ≤ count (Function.update place t y) x + 1 := by
  have hsub : (Finset.univ.filter fun u => place u = x) ⊆
      insert t (Finset.univ.filter fun u => Function.update place t y u = x) := by
    intro u hu
    rcases eq_or_ne u t with rfl | hne
    · simp
    · simpa [hne] using hu
  calc count place x
      ≤ (insert t (Finset.univ.filter fun u => Function.update place t y u = x)).card :=
        Finset.card_le_card hsub
    _ ≤ count (Function.update place t y) x + 1 := Finset.card_insert_le _ _

theorem count_update_of_ne {place : T → Place} {x y : Place} {t : T} (ht : place t ≠ x)
    (hy : y ≠ x) : count (Function.update place t y) x = count place x := by
  rw [count, count]
  congr 1
  ext u
  rcases eq_or_ne u t with rfl | hne
  · simp [ht, hy]
  · simp [hne]

/-! ## Wakeups -/

/-- As long as a thread is blocked, every request in the queue has a signalled thread that
is about to look for it. -/
def Shared.Attended (s : Shared T) : Prop :=
  ∀ t, s.place t = .blocked → s.queue.size ≤ count s.place .signalled

theorem Shared.Attended.step {s s' : Shared T} {a : Act T} (h : s.Attended)
    (hstep : SharedStep s a s') : s'.Attended := by
  cases hstep with
  | @added t request place ht hroom hsignal =>
      rw [Shared.Attended, addWork_size hroom]
      cases hsignal with
      | nobody hnone => exact fun u hu => absurd hu (hnone u)
      | one hu =>
          -- The new request and the signal for it balance.
          rw [count_enter (by rw [hu]; decide)]
          exact fun _ _ => Nat.succ_le_succ (h _ hu)
  | full ht hfull =>
      rw [addWork_full hfull]
      exact h
  | @take t request queue ht hsize hget =>
      obtain ⟨-, rfl⟩ := Prod.mk.inj hget
      intro u hu
      have hne : u ≠ t := by
        rintro rfl
        simp at hu
      have hle := h u (by simpa [hne] using hu)
      have hleave := count_leave s.place .signalled .outside t
      change s.queue.size - 1 ≤ count (Function.update s.place t .outside) .signalled
      omega
  | wait ht hsize =>
      intro u _
      change s.queue.size ≤ _
      rw [hsize]
      exact Nat.zero_le _
  | @wake t ht =>
      intro u hu
      change s.queue.size ≤ count (Function.update s.place t .awake) .signalled
      rw [count_update_of_ne (by rw [ht]; decide) (by decide)]
      exact h t ht

/-- In every reachable state, if a thread is blocked then at most as many requests wait as
signalled threads are about to test the queue. In particular there is no state with a
request, a blocked thread and no signalled one. -/
theorem no_lost_wakeup {c : Nat} {cells : Nat → ClientRequest} {acts : List (Act T)}
    {s : Shared T} (h : Run SharedStep (Shared.start T c cells) acts s) :
    (∀ t, s.place t = .blocked → s.queue.size ≤ count s.place .signalled) ∧
      ¬(s.queue.size ≠ 0 ∧ (∃ t, s.place t = .blocked) ∧ ∀ t, s.place t ≠ .signalled) := by
  have hattended : s.Attended :=
    h.invariant (fun _ _ _ hs hstep => hs.step hstep) fun _ ht => nomatch ht
  refine ⟨hattended, ?_⟩
  rintro ⟨hsize, ⟨t, ht⟩, hnone⟩
  have hle := hattended t ht
  rw [count_eq_zero hnone] at hle
  exact hsize (Nat.le_zero.mp hle)

end Counting

/-- A thread blocks, one adds a request and signals it, and a third one takes the request. -/
theorem no_lost_wakeup_run : ∃ acts s,
    Run SharedStep (Shared.start (Fin 3) 1 fun _ => job 0) acts s ∧ acts.length = 3 ∧
      ¬(s.queue.size ≠ 0 ∧ (∃ t, s.place t = .blocked) ∧ ∀ t, s.place t ≠ .signalled) := by
  have hrun : Run SharedStep (Shared.start (Fin 3) 1 fun _ => job 0)
      ([] ++ [.wait 0] ++ [.add 1 (job 7)] ++ [.take 2 (job 7)]) _ :=
    ((Run.nil.concat (.wait (by decide) rfl)).concat
      (.added rfl (by decide) (.one (t := 0) rfl))).concat
        (.take (by decide) (by decide) (Prod.ext (by decide) rfl))
  exact ⟨_, _, hrun, rfl, (no_lost_wakeup hrun).2⟩

end OSProjects.Proxy
