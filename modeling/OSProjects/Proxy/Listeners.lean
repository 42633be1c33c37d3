import OSProjects.Proxy.Request
import OSProjects.Proxy.Threads

/-!
# Listeners and workers

The loop of `serve_forever` in any number of listener threads, and that of `worker_thread`
in any number of workers. A listener reads `priorityQueue->size` in a step of its own,
without the mutex, before it calls `add_work` or `get_work`.
-/

namespace OSProjects.Proxy

open StepSystem PriorityQueue

/-! ## The threads -/

/-- Where a listener is in its loop. -/
inductive Listener
  | accepting
  /-- The request has been parsed, the size has not been read. -/
  | dispatching (request : ClientRequest)
  /-- About to call `add_work`. -/
  | adding (request : ClientRequest)
  /-- In `get_work`. -/
  | getting (request : ClientRequest)

/-- The listeners `L`, the workers `W` and what has become of the requests. -/
structure Server (L W : Type*) where
  shared : Shared (L ⊕ W)
  listener : L → Listener
  handled : List (ClientRequest × Outcome)

/-- A step of the server. -/
inductive ServerAct (L W : Type*)
  | parse (l : L) (request : ClientRequest)
  | read (l : L)
  | shared (a : Act (L ⊕ W))

section Steps

variable {L W : Type*} [DecidableEq L] [DecidableEq W]

/-- A listener is through with a request. -/
def Server.finish (s : Server L W) (l : L) (request : ClientRequest) (outcome : Outcome) :
    Server L W :=
  { s with
    listener := Function.update s.listener l .accepting
    handled := s.handled ++ [(request, outcome)] }

inductive ListenerStep (maxQueueSize : Nat) : Server L W → ServerAct L W → Server L W → Prop
  | parse {s l request kind} (hl : s.listener l = .accepting) (hkind : request.kind = .ok kind) :
      ListenerStep maxQueueSize s (.parse l request)
        { s with listener := Function.update s.listener l (.dispatching request) }
  | other {s l request} (hl : s.listener l = .dispatching request)
      (hkind : request.kind = .ok .other) :
      ListenerStep maxQueueSize s (.read l)
        (s.finish l request (.answered badRequest badRequestText))
  | full {s l request} (hl : s.listener l = .dispatching request)
      (hkind : request.kind = .ok .get) (hsize : s.shared.queue.size = maxQueueSize) :
      ListenerStep maxQueueSize s (.read l)
        (s.finish l request (.answered queueFull queueFullText))
  | room {s l request} (hl : s.listener l = .dispatching request)
      (hkind : request.kind = .ok .get) (hsize : s.shared.queue.size ≠ maxQueueSize) :
      ListenerStep maxQueueSize s (.read l)
        { s with listener := Function.update s.listener l (.adding request) }
  | empty {s l request} (hl : s.listener l = .dispatching request)
      (hkind : request.kind = .ok .getJob) (hsize : s.shared.queue.size = 0) :
      ListenerStep maxQueueSize s (.read l)
        (s.finish l request (.answered queueEmpty queueEmptyText))
  | jobs {s l request} (hl : s.listener l = .dispatching request)
      (hkind : request.kind = .ok .getJob) (hsize : s.shared.queue.size ≠ 0) :
      ListenerStep maxQueueSize s (.read l)
        { s with listener := Function.update s.listener l (.getting request) }
  | add {s l request shared} (hl : s.listener l = .adding request)
      (hstep : SharedStep s.shared (.add (.inl l) request) shared) :
      ListenerStep maxQueueSize s (.shared (.add (.inl l) request))
        ({ s with shared := shared }.finish l request
          (if s.shared.queue.size < s.shared.queue.capacity then .queued else .dropped))
  | take {s l request job text shared} (hl : s.listener l = .getting request)
      (hstep : SharedStep s.shared (.take (.inl l) job) shared) (htext : jobText job = .ok text) :
      ListenerStep maxQueueSize s (.shared (.take (.inl l) job))
        ({ s with shared := shared }.finish l request (.answered statusOk text))
  | wait {s l request shared} (hl : s.listener l = .getting request)
      (hstep : SharedStep s.shared (.wait (.inl l)) shared) :
      ListenerStep maxQueueSize s (.shared (.wait (.inl l))) { s with shared := shared }
  | serve {s w job shared} (hstep : SharedStep s.shared (.take (.inr w) job) shared) :
      ListenerStep maxQueueSize s (.shared (.take (.inr w) job)) { s with shared := shared }
  | idle {s w shared} (hstep : SharedStep s.shared (.wait (.inr w)) shared) :
      ListenerStep maxQueueSize s (.shared (.wait (.inr w))) { s with shared := shared }
  | wake {s t shared} (hstep : SharedStep s.shared (.wake t) shared) :
      ListenerStep maxQueueSize s (.shared (.wake t)) { s with shared := shared }

/-- The server after start-up. -/
def Server.start (L W : Type*) (maxQueueSize : Nat) (cells : Nat → ClientRequest) :
    Server L W where
  shared := Shared.start _ maxQueueSize cells
  listener := fun _ => .accepting
  handled := []

/-! ## No request vanishes -/

/-- What may become of a request of a kind. -/
def Outcome.Proper (kind : Except Crash Kind) (outcome : Outcome) : Prop :=
  match kind with
  | .ok .get => outcome = .answered queueFull queueFullText ∨ outcome = .queued
  | .ok .getJob =>
      outcome = .answered queueEmpty queueEmptyText ∨ ∃ text, outcome = .answered statusOk text
  | _ => True

/-- Every request that a listener is through with has been answered or queued, and no
listener waits on `queue->cond`. -/
structure Kept (s : Server L W) : Prop where
  proper : ∀ request outcome, (request, outcome) ∈ s.handled → outcome.Proper request.kind
  waits : ∀ l, s.shared.place (.inl l) = .outside

/-- A listener that has gone on to `add_work` finds room there, and one that has gone on to
`get_work` finds a job. -/
def InTime (s : Server L W) : ServerAct L W → Prop
  | .shared (.add (.inl _) _) => s.shared.queue.size < s.shared.queue.capacity
  | .shared (.take (.inl _) _) | .shared (.wait (.inl _)) => s.shared.queue.size ≠ 0
  | _ => True

/-- A listener gets to `add_work` and `get_work` with a request of the right kind. -/
def Dispatched (s : Server L W) : Prop :=
  ∀ l request, (s.listener l = .adding request → request.kind = .ok .get) ∧
    (s.listener l = .getting request → request.kind = .ok .getJob)

variable {maxQueueSize : Nat} {s s' : Server L W} {a : ServerAct L W}

omit [DecidableEq W] in
theorem Dispatched.update (h : Dispatched s) {l : L} {x : Listener}
    (hs' : s'.listener = Function.update s.listener l x)
    (hadd : ∀ request, x = .adding request → request.kind = .ok .get)
    (hget : ∀ request, x = .getting request → request.kind = .ok .getJob) : Dispatched s' := by
  intro l' request
  rw [hs']
  rcases eq_or_ne l' l with rfl | hne
  · rw [Function.update_self]
    exact ⟨hadd request, hget request⟩
  · rw [Function.update_of_ne hne]
    exact h l' request

theorem Dispatched.step (h : Dispatched s) (hstep : ListenerStep maxQueueSize s a s') :
    Dispatched s' := by
  cases hstep with
  | parse | other | full | empty | add | take => exact h.update rfl nofun nofun
  | room hl hkind => exact h.update rfl (by rintro _ ⟨⟩; exact hkind) nofun
  | jobs hl hkind => exact h.update rfl nofun (by rintro _ ⟨⟩; exact hkind)
  | wait | serve | idle | wake => exact h

/-- A listener leaves `outside` only when it finds the queue empty in `get_work`. -/
theorem SharedStep.outside {t t' : Shared (L ⊕ W)} {b : Act (L ⊕ W)} (hstep : SharedStep t b t')
    (h : ∀ l, t.place (.inl l) = .outside) (hb : ∀ l, b ≠ .wait (.inl l)) (l : L) :
    t'.place (.inl l) = .outside := by
  cases hstep with
  | added ht hroom hsignal =>
      cases hsignal with
      | nobody hnone => exact h l
      | one hu =>
          -- Only a worker can have been blocked.
          refine (Function.update_of_ne ?_ _ _).trans (h l)
          rintro rfl
          rw [h l] at hu
          cases hu
  | full => exact h l
  | @take u request queue ht hsize hget =>
      change Function.update t.place u .outside (.inl l) = .outside
      rcases eq_or_ne (Sum.inl l) u with rfl | hne
      · exact Function.update_self _ _ _
      · rw [Function.update_of_ne hne, h l]
  | @wait u ht hsize =>
      refine (Function.update_of_ne ?_ _ _).trans (h l)
      rintro rfl
      exact hb l rfl
  | @wake u ht =>
      refine (Function.update_of_ne ?_ _ _).trans (h l)
      rintro rfl
      rw [h l] at ht
      cases ht

omit [DecidableEq W] in
/-- One more request has been dealt with. -/
theorem Kept.finish (h : Kept s) {l : L} {request : ClientRequest} {outcome : Outcome}
    (hproper : outcome.Proper request.kind) : Kept (s.finish l request outcome) := by
  refine ⟨fun r o hmem => ?_, h.waits⟩
  rcases List.mem_append.mp hmem with hmem | hmem
  · exact h.proper r o hmem
  · obtain ⟨rfl, rfl⟩ := Prod.mk.inj (List.mem_singleton.mp hmem)
    exact hproper

theorem Kept.shared (h : Kept s) {b : Act (L ⊕ W)} {shared : Shared (L ⊕ W)}
    (hstep : SharedStep s.shared b shared) (hb : ∀ l, b ≠ .wait (.inl l)) :
    Kept { s with shared := shared } :=
  ⟨h.proper, hstep.outside h.waits hb⟩

/-- A step in time keeps the requests. -/
theorem Kept.step (h : Kept s) (hd : Dispatched s) (hstep : ListenerStep maxQueueSize s a s')
    (htime : InTime s a) : Kept s' := by
  cases hstep with
  | parse | room | jobs => exact ⟨h.proper, h.waits⟩
  | other hl hkind => exact h.finish (by rw [hkind]; trivial)
  | full hl hkind => exact h.finish (by rw [hkind]; exact Or.inl rfl)
  | empty hl hkind => exact h.finish (by rw [hkind]; exact Or.inl rfl)
  | add hl hstep =>
      refine (h.shared hstep nofun).finish ?_
      rw [(hd _ _).1 hl]
      exact Or.inr (if_pos htime)
  | take hl hstep htext =>
      refine (h.shared hstep nofun).finish ?_
      rw [(hd _ _).2 hl]
      exact Or.inr ⟨_, rfl⟩
  | wait hl hstep =>
      cases hstep with
      | wait ht hsize => exact absurd hsize htime
  | serve hstep => exact h.shared hstep nofun
  | idle hstep => exact h.shared hstep nofun
  | wake hstep => exact h.shared hstep nofun

/-- A step out of time drops a request or leaves a listener waiting. -/
theorem not_kept_of_late (hd : Dispatched s) (hstep : ListenerStep maxQueueSize s a s')
    (hlate : ¬InTime s a) : ¬Kept s' := by
  intro h
  cases hstep with
  | @add l request shared hl hstep =>
      have hdropped : (if s.shared.queue.size < s.shared.queue.capacity then Outcome.queued
          else .dropped) = .dropped := if_neg hlate
      have hproper := h.proper request .dropped
        (List.mem_append_right _ (List.mem_singleton.mpr (by rw [hdropped])))
      rw [(hd l request).1 hl] at hproper
      rcases hproper with hproper | hproper <;> cases hproper
  | take hl hstep =>
      cases hstep with
      | take ht hsize => exact hlate hsize
  | @wait l request shared hl hstep =>
      cases hstep with
      | wait ht hsize =>
          have houtside := h.waits l
          simp at houtside
  | _ => exact hlate trivial

end Steps

/-! ## The law -/

section Law

variable {L W : Type*} [DecidableEq L] [DecidableEq W]

/-- Requests are kept in every state of a run exactly when every `add_work` and `get_work` of
a listener is in time. -/
theorem requests_kept_iff (maxQueueSize : Nat) (cells : Nat → ClientRequest)
    (acts : List (ServerAct L W)) :
    (∀ pre s, pre <+: acts →
        Run (ListenerStep maxQueueSize) (Server.start L W maxQueueSize cells) pre s → Kept s) ↔
      ∀ pre a s s', pre ++ [a] <+: acts →
        Run (ListenerStep maxQueueSize) (Server.start L W maxQueueSize cells) pre s →
          ListenerStep maxQueueSize s a s' → InTime s a := by
  have hdispatched : ∀ pre s,
      Run (ListenerStep maxQueueSize) (Server.start L W maxQueueSize cells) pre s →
        Dispatched s := fun pre s hrun =>
    hrun.invariant (fun _ _ _ h hstep => h.step hstep) fun _ _ => ⟨nofun, nofun⟩
  constructor
  · intro hkept pre a s s' hpre hrun hstep
    by_contra hlate
    exact not_kept_of_late (hdispatched pre s hrun) hstep hlate
      (hkept _ s' hpre (hrun.concat hstep))
  · intro htime pre s hpre hrun
    induction hrun with
    | nil => exact ⟨nofun, fun _ => rfl⟩
    | @concat pre s a s' hrun hstep ih =>
        exact (ih ((List.prefix_append _ _).trans hpre)).step (hdispatched pre s hrun) hstep
          (htime pre a s s' hpre hrun hstep)

/-- A parsed `GET /1/a x`. -/
def getRequest (fd : Int) : ClientRequest :=
  ⟨some (StringSearch.ascii ['/', '1', '/', 'a']), 1, -1, 10, fd,
    StringSearch.ascii ['G', 'E', 'T', ' ', '/', '1', '/', 'a', ' ', 'x']⟩

/-- Two listeners find one free place. -/
theorem second_request_vanishes : ¬∀ (maxQueueSize : Nat) (cells : Nat → ClientRequest)
    (acts : List (ServerAct (Fin 2) (Fin 1))) (s : Server (Fin 2) (Fin 1)),
      Run (ListenerStep maxQueueSize) (Server.start _ _ maxQueueSize cells) acts s → Kept s := by
  intro hlaw
  have hkind : ∀ fd, (getRequest fd).kind = .ok .get := fun _ => rfl
  have hrun : Run (ListenerStep 1) (Server.start (Fin 2) (Fin 1) 1 fun _ => job 0)
      ([] ++ [.parse 0 (getRequest 5)] ++ [.parse 1 (getRequest 6)] ++ [.read 0] ++ [.read 1] ++
        [.shared (.add (.inl 0) (getRequest 5))] ++ [.shared (.add (.inl 1) (getRequest 6))]) _ :=
    (((((Run.nil.concat (.parse rfl (hkind 5))).concat (.parse rfl (hkind 6))).concat
      (.room rfl (hkind 5) (by decide))).concat (.room rfl (hkind 6) (by decide))).concat
      (.add rfl (.added rfl (by decide) (.nobody fun _ => nofun)))).concat
      (.add rfl (.full rfl (by decide)))
  have hproper := (hlaw 1 (fun _ => job 0) _ _ hrun).proper (getRequest 6) .dropped (by decide)
  rw [hkind 6] at hproper
  rcases hproper with hproper | hproper <;> cases hproper

end Law

end OSProjects.Proxy
