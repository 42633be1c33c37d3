import OSProjects.Foundation.ReferenceCount
import OSProjects.Proxy.Listeners

/-!
# Descriptors of client connections

What `serve_forever` and `serve_request` do with the sockets. Every branch of the listener
and every exit of a service lists its calls, and the descriptors are counted: how often each
has been opened, has been closed, and has belonged to a request that is finished.
-/

namespace OSProjects.Proxy

open StringSearch StepSystem PriorityQueue ReferenceCount

/-! ## Calls on sockets -/

/-- A connection to a client, or the one to the file server. -/
inductive Socket
  | client (fd : Int)
  | fileserver
  deriving DecidableEq

inductive SocketOp
  | sendError (s : Socket) (status : Nat) (text : List UInt8)
  | sendData (s : Socket) (data : List UInt8) (size : Int)
  | shutdown (s : Socket)
  | close (s : Socket)
  deriving DecidableEq

/-- How often `client_fd` is closed. -/
def closes (ops : List SocketOp) (fd : Int) : Nat := ops.count (.close (.client fd))

def badGateway : Nat := 502

def badGatewayText : List UInt8 :=
  ascii ['B', 'a', 'd', ' ', 'G', 'a', 't', 'e', 'w', 'a', 'y']

/-- The branches of `serve_forever` that answer and close. -/
def answer (request : ClientRequest) (status : Nat) (text : List UInt8) : List SocketOp :=
  [.sendError (.client request.clientFd) status text, .close (.client request.clientFd)]

/-- The last branch of `serve_forever`. -/
def answerBadRequest (request : ClientRequest) : List SocketOp :=
  [.sendError (.client request.clientFd) badRequest badRequestText]

/-- What a service meets: whether `connect` succeeds, whether the request can be sent, and
what `recv` delivers, with whether the client takes it. -/
structure Exchange where
  connects : Bool
  sends : Bool
  chunks : List (List UInt8 × Bool)

/-- The loop of `serve_request`. -/
def forward (client : Socket) : List (List UInt8 × Bool) → List SocketOp
  | [] => []
  | (data, true) :: rest => .sendData client data data.length :: forward client rest
  | (data, false) :: _ => [.sendData client data data.length]

/-- `serve_request`. -/
def serveRequest (x : Exchange) (request : ClientRequest) : List SocketOp :=
  let client := Socket.client request.clientFd
  if x.connects then
    .sendData .fileserver request.readBuffer request.bytesRead ::
      (if x.sends then forward client x.chunks
        else [.sendError client badGateway badGatewayText]) ++
      [.shutdown .fileserver, .close .fileserver, .shutdown client, .close client]
  else [.sendError client badGateway badGatewayText]

section Closes

variable {request : ClientRequest} {fd : Int}

theorem closes_answer (status : Nat) (text : List UInt8) :
    closes (answer request status text) fd = if fd = request.clientFd then 1 else 0 := by
  rcases eq_or_ne fd request.clientFd with rfl | hne
  · simp [closes, answer]
  · simp [closes, answer, hne, hne.symm]

theorem closes_answerBadRequest : closes (answerBadRequest request) fd = 0 := by
  simp [closes, answerBadRequest]

theorem closes_forward (client : Socket) (chunks : List (List UInt8 × Bool)) :
    closes (forward client chunks) fd = 0 := by
  induction chunks with
  | nil => rfl
  | cons chunk rest ih =>
      obtain ⟨data, _ | _⟩ := chunk
      · simp [closes, forward]
      · simpa [closes, forward] using ih

theorem closes_serveRequest {x : Exchange} (h : x.connects = true) :
    closes (serveRequest x request) fd = if fd = request.clientFd then 1 else 0 := by
  have hloop : closes (forward (.client request.clientFd) x.chunks) fd = 0 := closes_forward _ _
  simp only [closes] at hloop
  rcases eq_or_ne fd request.clientFd with rfl | hne
  · cases hsends : x.sends with
    | false => simp [closes, serveRequest, h, hsends]
    | true => simp [closes, serveRequest, h, hsends, hloop]
  · cases hsends : x.sends with
    | false => simp [closes, serveRequest, h, hsends, hne, hne.symm]
    | true => simp [closes, serveRequest, h, hsends, hloop, hne, hne.symm]

/-- A service that does not reach the file server leaves the client's descriptor open. -/
theorem closes_unreachable {x : Exchange} (h : x.connects = false) :
    closes (serveRequest x request) fd = 0 := by
  simp [closes, serveRequest, h]

end Closes

/-! ## The server with its descriptors -/

/-- The request that a listener has in hand. -/
def Listener.request : Listener → Option ClientRequest
  | .accepting => none
  | .dispatching request | .adding request | .getting request => some request

/-- The server, the jobs that its workers serve, and for each descriptor how often it has
been opened by `accept`, how often it has been closed, and how often it has belonged to a
request that is finished: answered, handed out or served. -/
structure Connections (L W : Type*) where
  server : Server L W
  job : W → Option ClientRequest
  opened : Int → Nat
  closed : Int → Nat
  finished : Int → Nat

/-- A step of the server, or a worker that is through with `serve_request`. -/
inductive ConnAct (L W : Type*)
  | server (a : ServerAct L W)
  | serve (w : W) (x : Exchange)

section Steps

variable {L W : Type*} [DecidableEq L] [DecidableEq W]

namespace Connections

def setListener (c : Connections L W) (l : L) (x : Listener) : Connections L W :=
  { c with server := { c.server with listener := Function.update c.server.listener l x } }

def setShared (c : Connections L W) (shared : Shared (L ⊕ W)) : Connections L W :=
  { c with server := { c.server with shared := shared } }

def setJob (c : Connections L W) (w : W) (job : Option ClientRequest) : Connections L W :=
  { c with job := Function.update c.job w job }

/-- `accept` has opened the descriptor. -/
def accepted (c : Connections L W) (fd : Int) : Connections L W :=
  { c with opened := Function.update c.opened fd (c.opened fd + 1) }

/-- A listener is through with a request. -/
def finish (c : Connections L W) (l : L) (request : ClientRequest) (outcome : Outcome) :
    Connections L W :=
  { c with server := c.server.finish l request outcome }

/-- The calls have been made, and the requests are finished. -/
def settle (c : Connections L W) (ops : List SocketOp) (requests : List ClientRequest) :
    Connections L W :=
  { c with
    closed := fun fd => c.closed fd + closes ops fd
    finished := fun fd => c.finished fd + (requests.map ClientRequest.clientFd).count fd }

end Connections

/-- The steps of the listeners and workers, with what they do to the sockets. `accept` hands
out a descriptor that is not open. -/
inductive ConnStep (maxQueueSize : Nat) : Connections L W → ConnAct L W → Connections L W → Prop
  | accept {c l request kind} (hl : c.server.listener l = .accepting)
      (hkind : request.kind = .ok kind)
      (hfree : c.opened request.clientFd = c.closed request.clientFd) :
      ConnStep maxQueueSize c (.server (.parse l request))
        ((c.setListener l (.dispatching request)).accepted request.clientFd)
  | other {c l request} (hl : c.server.listener l = .dispatching request)
      (hkind : request.kind = .ok .other) :
      ConnStep maxQueueSize c (.server (.read l))
        ((c.finish l request (.answered badRequest badRequestText)).settle
          (answerBadRequest request) [request])
  | full {c l request} (hl : c.server.listener l = .dispatching request)
      (hkind : request.kind = .ok .get) (hsize : c.server.shared.queue.size = maxQueueSize) :
      ConnStep maxQueueSize c (.server (.read l))
        ((c.finish l request (.answered queueFull queueFullText)).settle
          (answer request queueFull queueFullText) [request])
  | room {c l request} (hl : c.server.listener l = .dispatching request)
      (hkind : request.kind = .ok .get) (hsize : c.server.shared.queue.size ≠ maxQueueSize) :
      ConnStep maxQueueSize c (.server (.read l)) (c.setListener l (.adding request))
  | empty {c l request} (hl : c.server.listener l = .dispatching request)
      (hkind : request.kind = .ok .getJob) (hsize : c.server.shared.queue.size = 0) :
      ConnStep maxQueueSize c (.server (.read l))
        ((c.finish l request (.answered queueEmpty queueEmptyText)).settle
          (answer request queueEmpty queueEmptyText) [request])
  | jobs {c l request} (hl : c.server.listener l = .dispatching request)
      (hkind : request.kind = .ok .getJob) (hsize : c.server.shared.queue.size ≠ 0) :
      ConnStep maxQueueSize c (.server (.read l)) (c.setListener l (.getting request))
  | add {c l request shared} (hl : c.server.listener l = .adding request)
      (hstep : SharedStep c.server.shared (.add (.inl l) request) shared) :
      ConnStep maxQueueSize c (.server (.shared (.add (.inl l) request)))
        ((c.setShared shared).finish l request
          (if c.server.shared.queue.size < c.server.shared.queue.capacity then .queued
            else .dropped))
  | take {c l request job text shared} (hl : c.server.listener l = .getting request)
      (hstep : SharedStep c.server.shared (.take (.inl l) job) shared)
      (htext : jobText job = .ok text) :
      ConnStep maxQueueSize c (.server (.shared (.take (.inl l) job)))
        (((c.setShared shared).finish l request (.answered statusOk text)).settle
          (answer request statusOk text) [request, job])
  | wait {c l request shared} (hl : c.server.listener l = .getting request)
      (hstep : SharedStep c.server.shared (.wait (.inl l)) shared) :
      ConnStep maxQueueSize c (.server (.shared (.wait (.inl l)))) (c.setShared shared)
  | fetch {c w job shared} (hw : c.job w = none)
      (hstep : SharedStep c.server.shared (.take (.inr w) job) shared) :
      ConnStep maxQueueSize c (.server (.shared (.take (.inr w) job)))
        ((c.setShared shared).setJob w (some job))
  | idle {c w shared} (hw : c.job w = none)
      (hstep : SharedStep c.server.shared (.wait (.inr w)) shared) :
      ConnStep maxQueueSize c (.server (.shared (.wait (.inr w)))) (c.setShared shared)
  | wake {c t shared} (hstep : SharedStep c.server.shared (.wake t) shared) :
      ConnStep maxQueueSize c (.server (.shared (.wake t))) (c.setShared shared)
  | serve {c w job x} (hw : c.job w = some job) :
      ConnStep maxQueueSize c (.serve w x)
        ((c.setJob w none).settle (serveRequest x job) [job])

/-- Without the descriptors these are the steps of the server. -/
theorem ConnStep.listenerStep {maxQueueSize : Nat} {c c' : Connections L W} {a : ServerAct L W}
    (h : ConnStep maxQueueSize c (.server a) c') :
    ListenerStep maxQueueSize c.server a c'.server := by
  cases h with
  | accept hl hkind => exact .parse hl hkind
  | other hl hkind => exact .other hl hkind
  | full hl hkind hsize => exact .full hl hkind hsize
  | room hl hkind hsize => exact .room hl hkind hsize
  | empty hl hkind hsize => exact .empty hl hkind hsize
  | jobs hl hkind hsize => exact .jobs hl hkind hsize
  | add hl hstep => exact .add hl hstep
  | take hl hstep htext => exact .take hl hstep htext
  | wait hl hstep => exact .wait hl hstep
  | fetch hw hstep => exact .serve hstep
  | idle hw hstep => exact .idle hstep
  | wake hstep => exact .wake hstep

end Steps

/-! ## The requests that hold a descriptor -/

/-- The descriptor of the request that a listener has in hand. -/
def Listener.fd (x : Listener) : Option Int := x.request.map ClientRequest.clientFd

section Held

variable {L W : Type*} [Fintype L] [Fintype W]

/-- How many requests in the hands of a listener, in the queue or in the hands of a worker
have the descriptor. -/
def Connections.held (c : Connections L W) (fd : Int) : Nat :=
  refs (fun l => (c.server.listener l).fd) fd +
    (c.server.shared.queue.queued.map ClientRequest.clientFd).count fd +
    refs (fun w => (c.job w).map ClientRequest.clientFd) fd

/-- Every finished request has had its descriptor closed once, and the open descriptors are
those of the requests that are queued or in progress. -/
structure ClosedOnce (c : Connections L W) : Prop where
  closed : ∀ fd, c.closed fd = c.finished fd
  opened : ∀ fd, c.opened fd = c.closed fd + c.held fd

variable [DecidableEq L] [DecidableEq W] {c : Connections L W} {l : L} {w : W} (fd : Int)
  {x : Listener} {request job : ClientRequest}

omit [Fintype L] in
theorem fd_update (listener : L → Listener) (l : L) (x : Listener) :
    (fun m => (Function.update listener l x m).fd) =
      Function.update (fun m => (listener m).fd) l x.fd := by
  ext m : 1
  rcases eq_or_ne m l with rfl | hne
  · simp
  · simp [hne]

omit [Fintype W] in
theorem clientFd_update (jobs : W → Option ClientRequest) (w : W) (job : Option ClientRequest) :
    (fun v => (Function.update jobs w job v).map ClientRequest.clientFd) =
      Function.update (fun v => (jobs v).map ClientRequest.clientFd) w
        (job.map ClientRequest.clientFd) := by
  ext v : 1
  rcases eq_or_ne v w with rfl | hne
  · simp
  · simp [hne]

/-- A listener takes a request in hand. -/
theorem refs_listener_fill {listener : L → Listener} (hl : (listener l).fd = none)
    (hx : x.fd = some request.clientFd) : refs (fun m => (Function.update listener l x m).fd) fd =
      refs (fun m => (listener m).fd) fd + if fd = request.clientFd then 1 else 0 := by
  rw [fd_update, hx]
  exact refs_fill (h := fun m => (listener m).fd) hl fd

/-- A listener is through with a request. -/
theorem refs_listener_empty {listener : L → Listener} (hl : (listener l).fd = some request.clientFd) :
    refs (fun m => (Function.update listener l .accepting m).fd) fd +
      (if fd = request.clientFd then 1 else 0) = refs (fun m => (listener m).fd) fd := by
  rw [fd_update]
  exact refs_empty (h := fun m => (listener m).fd) hl fd

/-- A listener goes on with its request. -/
theorem refs_listener_same {listener : L → Listener} (hl : x.fd = (listener l).fd) :
    refs (fun m => (Function.update listener l x m).fd) fd = refs (fun m => (listener m).fd) fd := by
  rw [fd_update, hl]
  congr 1
  exact Function.update_eq_self l fun m => (listener m).fd

theorem count_singleton (fd' : Int) : [fd'].count fd = if fd = fd' then 1 else 0 := by
  rcases eq_or_ne fd fd' with rfl | hne
  · simp
  · simp [hne, hne.symm]

/-- A request that is added counts once. -/
theorem count_addWork {q : PriorityQueue} (hroom : q.size < q.capacity) :
    ((q.addWork request).queued.map ClientRequest.clientFd).count fd =
      (q.queued.map ClientRequest.clientFd).count fd + if fd = request.clientFd then 1 else 0 := by
  obtain ⟨front, back, hsplit, hadded, -⟩ := @addWork_inserts q request hroom
  rw [hadded, hsplit, ← count_singleton]
  simp only [List.map_append, List.map_cons, List.count_append, List.count_cons, List.count_nil]
  omega

/-- The request that is taken no longer counts. -/
theorem count_getWork {q queue : PriorityQueue} (hsize : q.size ≠ 0)
    (hget : q.getWork = (job, queue)) :
    (queue.queued.map ClientRequest.clientFd).count fd + (if fd = job.clientFd then 1 else 0) =
      (q.queued.map ClientRequest.clientFd).count fd := by
  obtain ⟨rfl, rfl⟩ := Prod.mk.inj hget
  rw [queued_moveDown hsize, ← count_singleton]
  simp only [List.map_cons, List.count_cons, List.count_nil]
  omega

namespace Connections

omit [DecidableEq W] in
/-- A listener that goes on with its request holds what it has held. -/
theorem held_setListener_same (hl : x.fd = (c.server.listener l).fd) :
    (c.setListener l x).held fd = c.held fd := by
  simp only [held, setListener, refs_listener_same fd hl]

omit [DecidableEq W] in
theorem held_setListener_fill (hl : (c.server.listener l).fd = none)
    (hx : x.fd = some request.clientFd) :
    (c.setListener l x).held fd = c.held fd + if fd = request.clientFd then 1 else 0 := by
  simp only [held, setListener, refs_listener_fill fd hl hx]
  omega

omit [DecidableEq W] in
theorem held_finish (outcome : Outcome) (hl : (c.server.listener l).fd = some request.clientFd) :
    (c.finish l request outcome).held fd + (if fd = request.clientFd then 1 else 0) =
      c.held fd := by
  have hcount := refs_listener_empty fd hl
  simp only [held, finish, Server.finish]
  omega

omit [DecidableEq L] [DecidableEq W] in
/-- Only the queue matters. -/
theorem held_setShared {shared : Shared (L ⊕ W)} {d d' : Nat}
    (h : (shared.queue.queued.map ClientRequest.clientFd).count fd + d =
      (c.server.shared.queue.queued.map ClientRequest.clientFd).count fd + d') :
    (c.setShared shared).held fd + d = c.held fd + d' := by
  simp only [held, setShared]
  omega

omit [DecidableEq L] in
theorem held_setJob_some (hw : c.job w = none) : (c.setJob w (some job)).held fd =
    c.held fd + if fd = job.clientFd then 1 else 0 := by
  have hcount := refs_fill (h := fun v => (c.job v).map ClientRequest.clientFd) (i := w)
    (a := job.clientFd) (by rw [hw, Option.map_none]) fd
  simp only [held, setJob, clientFd_update, Option.map_some, hcount]
  omega

omit [DecidableEq L] in
theorem held_setJob_none (hw : c.job w = some job) : (c.setJob w none).held fd +
    (if fd = job.clientFd then 1 else 0) = c.held fd := by
  have hcount := refs_empty (h := fun v => (c.job v).map ClientRequest.clientFd) (i := w)
    (a := job.clientFd) (by rw [hw, Option.map_some]) fd
  simp only [held, setJob, clientFd_update, Option.map_none]
  omega

end Connections

/-! ## Steps that release what they finish -/

/-- The step does not answer a request with 400, hands out no job, adds none to a full queue,
and reaches the file server. -/
def Releases (c : Connections L W) : ConnAct L W → Prop
  | .server (.read l) =>
      ∀ request, c.server.listener l = .dispatching request → request.kind ≠ .ok .other
  | .server (.shared (.add (.inl _) _)) =>
      c.server.shared.queue.size < c.server.shared.queue.capacity
  | .server (.shared (.take (.inl _) _)) => False
  | .serve _ x => x.connects = true
  | _ => True

variable {maxQueueSize : Nat} {c' : Connections L W} {a : ConnAct L W}

omit [DecidableEq W] in
/-- A request that is answered and closed. -/
theorem ClosedOnce.answered (h : ClosedOnce c) {status : Nat} {text : List UInt8}
    {outcome : Outcome} (hl : (c.server.listener l).fd = some request.clientFd) :
    ClosedOnce ((c.finish l request outcome).settle (answer request status text) [request]) := by
  constructor
  case closed =>
    intro fd
    change c.closed fd + closes (answer request status text) fd =
      c.finished fd + [request.clientFd].count fd
    rw [closes_answer, count_singleton, h.closed]
  case opened =>
    intro fd
    have hheld := Connections.held_finish fd outcome hl
    have hopened := h.opened fd
    change c.opened fd = c.closed fd + closes (answer request status text) fd +
      (c.finish l request outcome).held fd
    rw [closes_answer]
    omega

omit [DecidableEq L] [DecidableEq W] in
/-- Where only the queue and the hands change and no request comes or goes. -/
theorem ClosedOnce.of_held (h : ClosedOnce c) (hclosed : c'.closed = c.closed)
    (hfinished : c'.finished = c.finished) (hopened : c'.opened = c.opened)
    (hheld : ∀ fd, c'.held fd = c.held fd) : ClosedOnce c' := by
  constructor
  case closed =>
    intro fd
    rw [hclosed, hfinished, h.closed]
  case opened =>
    intro fd
    rw [hclosed, hopened, hheld, h.opened]

theorem ClosedOnce.step (h : ClosedOnce c) (hstep : ConnStep maxQueueSize c a c')
    (hreleases : Releases c a) : ClosedOnce c' := by
  cases hstep with
  | @accept l request kind hl hkind hfree =>
      constructor
      case closed => exact h.closed
      case opened =>
        intro fd
        have hnone : (c.server.listener l).fd = none := by
          rw [hl]
          rfl
        have hheld := Connections.held_setListener_fill fd (x := .dispatching request) hnone rfl
        have hopened := h.opened fd
        change Function.update c.opened request.clientFd (c.opened request.clientFd + 1) fd =
          c.closed fd + (c.setListener l (.dispatching request)).held fd
        rw [hheld]
        rcases eq_or_ne fd request.clientFd with rfl | hne
        · rw [Function.update_self, if_pos rfl, hopened]
          rfl
        · rw [Function.update_of_ne hne, if_neg hne, hopened]
          rfl
  | other hl hkind => exact absurd hkind (hreleases _ hl)
  | full hl => exact h.answered (by rw [hl]; rfl)
  | room hl =>
      exact h.of_held rfl rfl rfl fun fd => Connections.held_setListener_same fd (by rw [hl]; rfl)
  | empty hl => exact h.answered (by rw [hl]; rfl)
  | jobs hl =>
      exact h.of_held rfl rfl rfl fun fd => Connections.held_setListener_same fd (by rw [hl]; rfl)
  | @add l request shared hl hstep =>
      refine h.of_held rfl rfl rfl fun fd => ?_
      have hqueue : shared.queue = c.server.shared.queue.addWork request := by
        cases hstep with
        | added => rfl
        | full => rfl
      have hcount := @count_addWork fd request c.server.shared.queue hreleases
      rw [← hqueue] at hcount
      have hshared := Connections.held_setShared fd (d := 0) hcount
      have hrequest : ((c.setShared shared).server.listener l).fd = some request.clientFd := by
        rw [Connections.setShared, hl]
        rfl
      have hfinish := Connections.held_finish fd (if c.server.shared.queue.size <
        c.server.shared.queue.capacity then Outcome.queued else .dropped) hrequest
      omega
  | take => exact hreleases.elim
  | wait hl hstep =>
      cases hstep with
      | wait => exact h.of_held rfl rfl rfl fun _ => rfl
  | @fetch w job shared hw hstep =>
      refine h.of_held rfl rfl rfl fun fd => ?_
      cases hstep with
      | @take _ _ queue ht hsize hget =>
          have hcount := count_getWork fd hsize hget
          generalize hplace : Function.update c.server.shared.place (.inr w) .outside = place
          have hshared : (c.setShared ⟨queue, place⟩).held fd +
              (if fd = job.clientFd then 1 else 0) = c.held fd + 0 :=
            Connections.held_setShared fd hcount
          have hjob : ((c.setShared ⟨queue, place⟩).setJob w (some job)).held fd =
              (c.setShared ⟨queue, place⟩).held fd + if fd = job.clientFd then 1 else 0 :=
            Connections.held_setJob_some fd hw
          exact hjob.trans hshared
  | idle hw hstep =>
      cases hstep with
      | wait => exact h.of_held rfl rfl rfl fun _ => rfl
  | wake hstep =>
      cases hstep with
      | wake => exact h.of_held rfl rfl rfl fun _ => rfl
  | @serve w job x hw =>
      constructor
      case closed =>
        intro fd
        change c.closed fd + closes (serveRequest x job) fd =
          c.finished fd + [job.clientFd].count fd
        rw [closes_serveRequest hreleases, count_singleton, h.closed]
      case opened =>
        intro fd
        have hheld := Connections.held_setJob_none fd hw
        have hopened := h.opened fd
        change c.opened fd = c.closed fd + closes (serveRequest x job) fd +
          (c.setJob w none).held fd
        rw [closes_serveRequest hreleases]
        omega

/-- A step that does not release leaves a descriptor open. -/
theorem ClosedOnce.leak (h : ClosedOnce c) (hstep : ConnStep maxQueueSize c a c')
    (hkeeps : ¬Releases c a) : ¬ClosedOnce c' := by
  intro h'
  have hread : ∀ {l : L} {request : ClientRequest} {kind : Kind},
      c.server.listener l = .dispatching request → request.kind = .ok kind → kind ≠ .other →
        Releases c (.server (.read l)) := by
    intro l request kind hl hkind hne request' hl' hother
    obtain rfl := Listener.dispatching.inj (hl.symm.trans hl')
    exact hne (Except.ok.inj (hkind.symm.trans hother))
  cases hstep with
  | @other l request hl hkind =>
      have hnow := h'.closed request.clientFd
      change c.closed _ + closes (answerBadRequest request) _ =
        c.finished _ + [request.clientFd].count _ at hnow
      rw [closes_answerBadRequest, count_singleton, if_pos rfl, h.closed] at hnow
      omega
  | full hl hkind => exact hkeeps (hread hl hkind (by decide))
  | room hl hkind => exact hkeeps (hread hl hkind (by decide))
  | empty hl hkind => exact hkeeps (hread hl hkind (by decide))
  | jobs hl hkind => exact hkeeps (hread hl hkind (by decide))
  | @add l request shared hl hstep =>
      -- The request is gone, and its descriptor is open.
      have hshared : (c.setShared shared).held request.clientFd = c.held request.clientFd := by
        cases hstep with
        | added ht hroom => exact absurd hroom hkeeps
        | full ht hfull => simp only [Connections.held, Connections.setShared, addWork_full hfull]
      have hrequest : ((c.setShared shared).server.listener l).fd = some request.clientFd := by
        rw [Connections.setShared, hl]
        rfl
      have hfinish := Connections.held_finish request.clientFd (if c.server.shared.queue.size <
        c.server.shared.queue.capacity then Outcome.queued else .dropped) hrequest
      have hbefore := h.opened request.clientFd
      have hafter := h'.opened request.clientFd
      rw [if_pos rfl] at hfinish
      change c.opened _ = c.closed _ + _ at hafter
      omega
  | @take l request job text shared hl hstep htext =>
      have hnow := h'.closed job.clientFd
      change c.closed _ + closes (answer request statusOk text) _ =
        c.finished _ + [request.clientFd, job.clientFd].count _ at hnow
      have hboth : [request.clientFd, job.clientFd].count job.clientFd =
          [request.clientFd].count job.clientFd + 1 := by
        have hsplit : ([request.clientFd] ++ [job.clientFd]).count job.clientFd =
            [request.clientFd].count job.clientFd + [job.clientFd].count job.clientFd :=
          List.count_append
        rwa [List.count_singleton_self] at hsplit
      rw [closes_answer, h.closed, hboth, count_singleton] at hnow
      omega
  | @serve w job x hw =>
      have hnow := h'.closed job.clientFd
      change c.closed _ + closes (serveRequest x job) _ = c.finished _ + [job.clientFd].count _
        at hnow
      rw [closes_unreachable (by simpa [Releases] using hkeeps), count_singleton, if_pos rfl,
        h.closed] at hnow
      omega
  | _ => exact hkeeps trivial

end Held

/-! ## The law -/

section Law

variable {L W : Type*} [Fintype L] [Fintype W] [DecidableEq L] [DecidableEq W]

/-- The server after start-up, before the first connection. -/
def Connections.start (L W : Type*) (maxQueueSize : Nat) (cells : Nat → ClientRequest) :
    Connections L W where
  server := Server.start L W maxQueueSize cells
  job := fun _ => none
  opened := fun _ => 0
  closed := fun _ => 0
  finished := fun _ => 0

omit [DecidableEq L] [DecidableEq W] in
theorem ClosedOnce.start (maxQueueSize : Nat) (cells : Nat → ClientRequest) :
    ClosedOnce (Connections.start L W maxQueueSize cells) := by
  constructor
  case closed => exact fun _ => rfl
  case opened =>
    intro fd
    have hlisteners : refs (fun _ : L => Listener.accepting.fd) fd = 0 :=
      refs_eq_zero fun _ => nofun
    have hworkers : refs (fun _ : W => (none : Option Int)) fd = 0 := refs_eq_zero fun _ => nofun
    simp [Connections.held, Connections.start, Server.start, Shared.start, createQueue, queued,
      hlisteners, hworkers]

/-- Every descriptor is closed once in every state of a run exactly when every step of the
run releases what it finishes. -/
theorem closed_once_iff (maxQueueSize : Nat) (cells : Nat → ClientRequest)
    (acts : List (ConnAct L W)) :
    (∀ pre c, pre <+: acts →
        Run (ConnStep maxQueueSize) (Connections.start L W maxQueueSize cells) pre c →
          ClosedOnce c) ↔
      ∀ pre a c c', pre ++ [a] <+: acts →
        Run (ConnStep maxQueueSize) (Connections.start L W maxQueueSize cells) pre c →
          ConnStep maxQueueSize c a c' → Releases c a := by
  constructor
  · intro hclosed pre a c c' hpre hrun hstep
    by_contra hkeeps
    have hbefore := hclosed pre c ((List.prefix_append _ _).trans hpre) hrun
    exact hbefore.leak hstep hkeeps (hclosed _ c' hpre (hrun.concat hstep))
  · intro hreleases pre c hpre hrun
    induction hrun with
    | nil => exact ClosedOnce.start maxQueueSize cells
    | @concat pre c a c' hrun hstep ih =>
        exact (ih ((List.prefix_append _ _).trans hpre)).step hstep
          (hreleases pre a c c' hpre hrun hstep)

/-- A parsed `POST /1/a x`. -/
def postRequest (fd : Int) : ClientRequest :=
  ⟨some (ascii ['/', '1', '/', 'a']), 1, -1, 11, fd,
    ascii ['P', 'O', 'S', 'T', ' ', '/', '1', '/', 'a', ' ', 'x']⟩

/-- A request with another method is answered, and its connection stays open. -/
theorem bad_request_leaks : ¬∀ (maxQueueSize : Nat) (cells : Nat → ClientRequest)
    (acts : List (ConnAct (Fin 1) (Fin 1))) (c : Connections (Fin 1) (Fin 1)),
      Run (ConnStep maxQueueSize) (Connections.start _ _ maxQueueSize cells) acts c →
        ClosedOnce c := by
  intro hlaw
  have hkind : (postRequest 5).kind = .ok .other := rfl
  have hrun : Run (ConnStep 1) (Connections.start (Fin 1) (Fin 1) 1 fun _ => job 0)
      ([] ++ [.server (.parse 0 (postRequest 5))] ++ [.server (.read 0)]) _ :=
    (Run.nil.concat (.accept rfl hkind rfl)).concat (.other rfl hkind)
  have hclosed := (hlaw 1 (fun _ => job 0) _ _ hrun).closed 5
  exact absurd hclosed (by decide)

end Law

end OSProjects.Proxy
