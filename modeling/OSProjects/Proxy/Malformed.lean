import Mathlib.Data.List.Perm.Subperm
import OSProjects.Proxy.Display

/-!
# Malformed requests

Exactly which bytes the parser and the dispatch get through, in every state that the
server can reach and with every call of the other threads in between.
-/

namespace OSProjects.Proxy

open StringSearch StepSystem PriorityQueue

/-! ## Requests that are parsed without harm -/

/-- The lines of a request, as `strtok` cuts them. -/
def lines (bytes : List UInt8) : List (List UInt8) :=
  (tokensFrom lineEnd [] (cstr bytes) []).map Token.text

/-- The first line has two spaces with `path` between the first two. Unless that is
`/GetJob`, it has two slashes, and no later line starts with a colon. -/
def WellFormed (bytes path : List UInt8) : Prop :=
  ∃ method version headers,
    lines bytes = (method ++ space :: (path ++ space :: version)) :: headers ∧
      space ∉ method ∧ space ∉ path ∧
        (path = getJobCmd ∨ 2 ≤ path.count slash ∧ ∀ line ∈ headers, line.head? ≠ some colon)

section Parsing

variable {sep : UInt8 → Bool} {parsed : Parsed}

theorem strtok_text (bytes junk : List UInt8) :
    (strtok lineEnd (bytes ++ 0 :: junk)).map Token.text = lines bytes := by
  rw [strtok, cstr_append_zero]
  exact tokensFrom_text _ _ _ _

/-- A token consists of bytes of the string. -/
theorem mem_of_mem_tokensFrom {beyond s cur : List UInt8} {t : Token}
    (ht : t ∈ tokensFrom sep beyond s cur) {b : UInt8} (hb : b ∈ t.text) : b ∈ cur ∨ b ∈ s :=
  List.mem_append.mp ((infix_of_mem_tokensFrom ht).subset hb)

theorem nameSize_eq_none {i : Nat} : nameSize i = none ↔ i = 0 := by
  cases i <;> simp [nameSize]

@[simp] theorem headerLine_path (parsed : Parsed) (t : Token) :
    (headerLine parsed t).path = parsed.path := by
  rw [headerLine]
  split
  · rfl
  · dsimp only
    split <;> rfl

/-- A header line wraps a size around exactly when it starts with a colon. -/
theorem headerLine_sizes (parsed : Parsed) (t : Token) :
    none ∈ (headerLine parsed t).sizes ↔
      none ∈ parsed.sizes ∨ t.text.head? = some colon := by
  rw [headerLine]
  split
  case h_1 hnone =>
    rw [strstr_singleton_eq_none] at hnone
    constructor
    · exact Or.inl
    · rintro (h | h)
      · exact h
      · exact absurd (List.mem_of_mem_head? h) hnone
  case h_2 i hi =>
    have hsizes : ∀ p : Parsed, p.sizes = parsed.sizes ++ [nameSize i] →
        (none ∈ p.sizes ↔ none ∈ parsed.sizes ∨ t.text.head? = some colon) := by
      intro p hp
      rw [hp, List.mem_append, List.mem_singleton, eq_comm, nameSize_eq_none]
      obtain ⟨pre, post, htext, hpre, rfl⟩ := strstr_singleton_eq_some.mp hi
      refine or_congr Iff.rfl ?_
      rw [htext]
      cases pre with
      | nil => simp
      | cons b pre =>
          have hb : b ≠ colon := fun h => hpre (by simp [h])
          simp [hb]
    dsimp only
    split
    · exact hsizes _ rfl
    · exact hsizes _ rfl

theorem foldl_headerLine (rest : List Token) (parsed : Parsed) :
    (rest.foldl headerLine parsed).path = parsed.path ∧
      (none ∈ (rest.foldl headerLine parsed).sizes ↔
        none ∈ parsed.sizes ∨ ∃ line ∈ rest.map Token.text, line.head? = some colon) := by
  induction rest generalizing parsed with
  | nil => simp
  | cons t rest ih =>
      obtain ⟨hpath, hsizes⟩ := ih (headerLine parsed t)
      refine ⟨hpath.trans (headerLine_path parsed t), hsizes.trans ?_⟩
      rw [headerLine_sizes, or_assoc]
      simp

/-- How the first line is read when it has two spaces. -/
theorem requestLine_split {method path version : List UInt8} (hmethod : space ∉ method)
    (hpath : space ∉ path) :
    requestLine (method ++ space :: (path ++ space :: version)) =
      if path = getJobCmd then .ok (⟨some path, -1, -1, [some path.length]⟩, true)
      else
        match strstr [slash] path with
        | none => .error .nullString
        | some s1 =>
            .ok (⟨some path, atoi (strndup (path.drop (s1 + 1))
              (strstr [slash] (path.drop (s1 + 1)))), -1,
              [some path.length, strstr [slash] (path.drop (s1 + 1))]⟩, false) := by
  have hdrop : (method ++ space :: (path ++ space :: version)).drop (method.length + 1) =
      path ++ space :: version := by
    rw [← List.drop_drop, List.drop_left]
    rfl
  have hcopy : strndup (path ++ space :: version) (some path.length) = path := List.take_left
  rw [requestLine, strstr_split hmethod]
  cases hslash : strstr [slash] path with
  | none => simp only [hdrop, strstr_split hpath, hcopy, hslash]
  | some s1 => simp only [hdrop, strstr_split hpath, hcopy, hslash]

/-- A second slash is found behind the first one. -/
theorem count_slash {path : List UInt8} :
    2 ≤ path.count slash ↔ ∃ s1, strstr [slash] path = some s1 ∧
      strstr [slash] (path.drop (s1 + 1)) ≠ none := by
  constructor
  · intro hcount
    have hmem : slash ∈ path := List.count_pos_iff.mp (by omega)
    have hsome : strstr [slash] path ≠ none := fun h => strstr_singleton_eq_none.mp h hmem
    obtain ⟨s1, hs1⟩ := Option.ne_none_iff_exists'.mp hsome
    obtain ⟨pre, post, rfl, hpre, rfl⟩ := strstr_singleton_eq_some.mp hs1
    refine ⟨_, hs1, fun hnone => ?_⟩
    rw [← List.drop_drop, List.drop_left] at hnone
    have hpost := List.count_eq_zero.mpr (strstr_singleton_eq_none.mp hnone)
    rw [List.count_append, List.count_cons_self, List.count_eq_zero.mpr hpre] at hcount
    simp only [List.drop_one, List.tail_cons] at hpost
    omega
  · rintro ⟨s1, hs1, hs2⟩
    obtain ⟨pre, post, rfl, hpre, rfl⟩ := strstr_singleton_eq_some.mp hs1
    rw [← List.drop_drop, List.drop_left, ne_eq, strstr_singleton_eq_none, not_not] at hs2
    have hpost := List.count_pos_iff.mpr hs2
    rw [List.count_append, List.count_cons_self]
    simp only [List.drop_one, List.tail_cons] at hpost
    omega

theorem mem_of_mem_strndup {t : List UInt8} {size : Option Nat} {b : UInt8}
    (h : b ∈ strndup t size) : b ∈ t := by
  cases size with
  | none => exact h
  | some n => exact List.mem_of_mem_take h

/-- What a first line has that is read at all. -/
theorem requestLine_mem {token : List UInt8} {stop : Bool}
    (h : requestLine token = .ok (parsed, stop)) :
    parsed.path.isSome ∧ space ∈ token ∧ (parsed.path ≠ some getJobCmd → slash ∈ token) := by
  rw [requestLine] at h
  split at h
  · cases h
  case h_2 s1 hs1 =>
    obtain ⟨pre, post, htoken, -, -⟩ := strstr_singleton_eq_some.mp hs1
    have hspace : space ∈ token := by simp [htoken]
    dsimp only at h
    split at h
    case isTrue hjob =>
      obtain ⟨rfl, -⟩ := Prod.mk.inj (Except.ok.inj h)
      exact ⟨rfl, hspace, fun hne => absurd (congrArg some hjob) hne⟩
    case isFalse hjob =>
      split at h
      · cases h
      case h_2 s2 hs2 =>
        obtain ⟨rfl, -⟩ := Prod.mk.inj (Except.ok.inj h)
        refine ⟨rfl, hspace, fun _ => ?_⟩
        obtain ⟨pre, post, hpath, -, -⟩ := strstr_singleton_eq_some.mp hs2
        have hslash : slash ∈ strndup (token.drop (s1 + 1))
            (strstr [space] (token.drop (s1 + 1))) := by
          rw [hpath]
          simp
        exact List.mem_of_mem_drop (mem_of_mem_strndup hslash)

/-- What a first line has whose sizes have not wrapped around. -/
theorem requestLine_eq_ok {token : List UInt8} {stop : Bool}
    (h : requestLine token = .ok (parsed, stop)) (hsizes : none ∉ parsed.sizes) :
    ∃ method path version, token = method ++ space :: (path ++ space :: version) ∧
      space ∉ method ∧ space ∉ path ∧ parsed.path = some path ∧
        (stop = true ∧ path = getJobCmd ∨ stop = false ∧ 2 ≤ path.count slash) := by
  have hsplit : ∃ method path version,
      token = method ++ space :: (path ++ space :: version) ∧ space ∉ method ∧ space ∉ path := by
    rw [requestLine] at h
    split at h
    · cases h
    case h_2 s1 hs1 =>
      obtain ⟨method, post, rfl, hmethod, rfl⟩ := strstr_singleton_eq_some.mp hs1
      rw [← List.drop_drop, List.drop_left] at h
      have hsecond : strstr [space] post ≠ none := by
        intro hnone
        simp only [List.drop_one, List.tail_cons, hnone] at h
        -- Every branch that returns has kept the size.
        split at h
        · obtain ⟨rfl, -⟩ := Prod.mk.inj (Except.ok.inj h)
          simp at hsizes
        · split at h
          · cases h
          · obtain ⟨rfl, -⟩ := Prod.mk.inj (Except.ok.inj h)
            simp at hsizes
      obtain ⟨s2, hs2⟩ := Option.ne_none_iff_exists'.mp hsecond
      obtain ⟨path, version, rfl, hpath, -⟩ := strstr_singleton_eq_some.mp hs2
      exact ⟨method, path, version, rfl, hmethod, hpath⟩
  obtain ⟨method, path, version, rfl, hmethod, hpath⟩ := hsplit
  rw [requestLine_split hmethod hpath] at h
  refine ⟨method, path, version, rfl, hmethod, hpath, ?_⟩
  split at h
  case isTrue hjob =>
    obtain ⟨rfl, rfl⟩ := Prod.mk.inj (Except.ok.inj h)
    exact ⟨rfl, Or.inl ⟨rfl, hjob⟩⟩
  case isFalse hjob =>
    split at h
    · cases h
    case h_2 s1 hs1 =>
      obtain ⟨rfl, rfl⟩ := Prod.mk.inj (Except.ok.inj h)
      refine ⟨rfl, Or.inr ⟨rfl, count_slash.mpr ⟨s1, hs1, fun hnone => ?_⟩⟩⟩
      simp [hnone] at hsizes

/-- The lines of a request are read without harm exactly when it is well formed. -/
theorem parseLines_iff {tokens : List Token} {path : List UInt8} :
    (∃ parsed, parseLines tokens = .ok parsed ∧ parsed.path = some path ∧
        none ∉ parsed.sizes) ↔
      ∃ method version headers,
        tokens.map Token.text = (method ++ space :: (path ++ space :: version)) :: headers ∧
          space ∉ method ∧ space ∉ path ∧
            (path = getJobCmd ∨
              2 ≤ path.count slash ∧ ∀ line ∈ headers, line.head? ≠ some colon) := by
  cases tokens with
  | nil => simp [parseLines, Parsed.start]
  | cons first rest =>
      rw [parseLines]
      constructor
      · rintro ⟨parsed, h, hpath, hsizes⟩
        split at h
        · cases h
        case h_2 line =>
          obtain rfl := Except.ok.inj h
          obtain ⟨method, path', version, htoken, hmethod, hspace, hpath', hform⟩ :=
            requestLine_eq_ok line hsizes
          obtain rfl := Option.some.inj (hpath'.symm.trans hpath)
          refine ⟨method, version, rest.map Token.text, by rw [List.map_cons, htoken], hmethod,
            hspace, Or.inl ?_⟩
          simpa using hform
        case h_3 first' line =>
          obtain rfl := Except.ok.inj h
          obtain ⟨hkeep, hheaders⟩ := foldl_headerLine rest first'
          rw [hheaders, not_or] at hsizes
          obtain ⟨method, path', version, htoken, hmethod, hspace, hpath', hform⟩ :=
            requestLine_eq_ok line hsizes.1
          obtain rfl := Option.some.inj (hpath'.symm.trans (hkeep.symm.trans hpath))
          refine ⟨method, version, rest.map Token.text, by rw [List.map_cons, htoken], hmethod,
            hspace, Or.inr ⟨by simpa using hform, fun line hline hcolon => ?_⟩⟩
          exact hsizes.2 ⟨line, hline, hcolon⟩
      · rintro ⟨method, version, headers, htexts, hmethod, hspace, hform⟩
        rw [List.map_cons, List.cons.injEq] at htexts
        obtain ⟨hfirst, rfl⟩ := htexts
        rw [hfirst, requestLine_split hmethod hspace]
        by_cases hjob : path = getJobCmd
        · rw [if_pos hjob]
          exact ⟨_, rfl, rfl, by simp⟩
        · obtain ⟨hcount, hheaders⟩ := hform.resolve_left hjob
          obtain ⟨s1, hs1, hs2⟩ := count_slash.mp hcount
          rw [if_neg hjob, hs1]
          obtain ⟨hkeep, hsizes⟩ := foldl_headerLine rest ⟨some path, atoi (strndup
            (path.drop (s1 + 1)) (strstr [slash] (path.drop (s1 + 1)))), -1,
            [some path.length, strstr [slash] (path.drop (s1 + 1))]⟩
          refine ⟨_, rfl, hkeep, fun hnone => ?_⟩
          rcases hsizes.mp hnone with hnone | ⟨line, hline, hcolon⟩
          · simp [hs2.symm] at hnone
          · exact hheaders line hline hcolon

theorem parseClientRequest_eq_ok {fd : Int} {bytes junk : List UInt8} {request : ClientRequest}
    {sizes : List (Option Nat)}
    (h : parseClientRequest fd bytes junk = .ok (request, sizes)) :
    ∃ parsed, parseLines (strtok lineEnd (bytes ++ 0 :: junk)) = .ok parsed ∧
      request.path = parsed.path ∧ request.readBuffer = cstr bytes ∧ sizes = parsed.sizes := by
  rw [parseClientRequest] at h
  split at h
  · cases h
  case h_2 parsed hparsed =>
    obtain ⟨rfl, rfl⟩ := Prod.mk.inj (Except.ok.inj h)
    exact ⟨parsed, hparsed, rfl, cstr_append_zero bytes junk, rfl⟩

/-- Parsing a request is harmless exactly when the request is well formed. -/
theorem parseClientRequest_iff {fd : Int} {bytes junk path : List UInt8} :
    (∃ request sizes, parseClientRequest fd bytes junk = .ok (request, sizes) ∧
        none ∉ sizes ∧ request.path = some path) ↔ WellFormed bytes path := by
  rw [WellFormed, ← strtok_text bytes junk, ← parseLines_iff]
  constructor
  · rintro ⟨request, sizes, h, hsizes, hpath⟩
    obtain ⟨parsed, hparsed, hpath', -, rfl⟩ := parseClientRequest_eq_ok h
    exact ⟨parsed, hparsed, hpath'.symm.trans hpath, hsizes⟩
  · rintro ⟨parsed, hparsed, hpath, hsizes⟩
    refine ⟨⟨parsed.path, parsed.priority, parsed.delay, bytes.length, fd,
      cstr (bytes ++ 0 :: junk)⟩, parsed.sizes, ?_, hsizes, hpath⟩
    rw [parseClientRequest, hparsed]

/-- A request with a path has a first line that could be read. -/
theorem parseLines_path {tokens : List Token} {path : List UInt8}
    (h : parseLines tokens = .ok parsed) (hpath : parsed.path = some path) :
    ∃ token ∈ tokens, space ∈ token.text ∧ (path ≠ getJobCmd → slash ∈ token.text) := by
  cases tokens with
  | nil =>
      obtain rfl := Except.ok.inj h
      cases hpath
  | cons first rest =>
      have hfirst : ∀ line stop, requestLine first.text = .ok (line, stop) →
          line.path = some path → ∃ token ∈ first :: rest,
            space ∈ token.text ∧ (path ≠ getJobCmd → slash ∈ token.text) := by
        intro line stop hline hlinePath
        obtain ⟨-, hspace, hslash⟩ := requestLine_mem hline
        refine ⟨first, List.mem_cons_self, hspace, fun hne => hslash ?_⟩
        rwa [hlinePath, ne_eq, Option.some.injEq]
      rw [parseLines] at h
      split at h
      · cases h
      case h_2 line hline =>
        obtain rfl := Except.ok.inj h
        exact hfirst _ _ hline hpath
      case h_3 line hline =>
        obtain rfl := Except.ok.inj h
        exact hfirst _ _ hline ((foldl_headerLine rest line).1.symm.trans hpath)

end Parsing

/-! ## The queue of the server -/

/-- What the server has done. -/
inductive ServerEvent
  | request (bytes : List UInt8)
  | served (job : ClientRequest)

/-- A listener deals with a request, or a worker takes a job. What a listener has read
outside the lock may be out of date. -/
inductive ServerStep (maxQueueSize : Nat) : PriorityQueue → ServerEvent → PriorityQueue → Prop
  | request {q fd bytes junk size request sizes outcome q'}
      (hread : bytes.length ≤ libhttpRequestMaxSize)
      (hparse : parseClientRequest fd bytes junk = .ok (request, sizes))
      (hdispatch : dispatch maxQueueSize size q request = .ok (outcome, q')) :
      ServerStep maxQueueSize q (.request bytes) q'
  | served {q job q'} (hsize : q.size ≠ 0) (hget : q.getWork = (job, q')) :
      ServerStep maxQueueSize q (.served job) q'

/-- The capacity is the configured one, and every job is long enough for
`job->read_buffer + 4`. -/
structure Readable (maxQueueSize : Nat) (q : PriorityQueue) : Prop where
  capacity : q.capacity = maxQueueSize
  jobs : ∀ job ∈ q.queued, 4 ≤ job.readBuffer.length

section Server

variable {maxQueueSize size : Nat} {q q' : PriorityQueue} {request : ClientRequest}

/-- A request for the queue has a space, a slash and the letters of `GET`. -/
theorem length_of_kind_get {fd : Int} {bytes junk : List UInt8} {sizes : List (Option Nat)}
    (h : parseClientRequest fd bytes junk = .ok (request, sizes)) (hkind : request.kind = .ok .get) :
    4 ≤ request.readBuffer.length := by
  obtain ⟨parsed, hparsed, hpath, htext, -⟩ := parseClientRequest_eq_ok h
  rw [ClientRequest.kind, hpath] at hkind
  split at hkind
  · cases hkind
  case h_2 path hsome =>
    split at hkind
    · cases hkind
    case isFalse hjob =>
      split at hkind
      case isFalse => cases hkind
      case isTrue hget =>
        have hne : path ≠ getJobCmd := by
          rintro rfl
          exact hjob (by decide)
        obtain ⟨token, htoken, hspace, hslash⟩ := parseLines_path hparsed hsome
        have hmem : ∀ b ∈ token.text, b ∈ cstr bytes := by
          intro b hb
          rw [strtok, cstr_append_zero] at htoken
          simpa using mem_of_mem_tokensFrom htoken hb
        rw [htext] at hget ⊢
        have hsubset : [space, slash, 71, 69, 84] ⊆ cstr bytes := by
          intro b hb
          simp only [List.mem_cons, List.not_mem_nil, or_false] at hb
          rcases hb with rfl | rfl | hletters
          · exact hmem _ hspace
          · exact hmem _ (hslash hne)
          · exact mem_of_strstr hget (by simpa [getName, ascii] using hletters)
        have hle := (List.subperm_of_subset (by decide) hsubset).length_le
        simp only [List.length_cons, List.length_nil] at hle
        omega

theorem Readable.getWork (h : Readable maxQueueSize q) (hsize : q.size ≠ 0) :
    4 ≤ q.getWork.1.readBuffer.length ∧ Readable maxQueueSize q.getWork.2 := by
  have hjobs := h.jobs
  rw [queued_moveDown hsize] at hjobs
  exact ⟨hjobs _ List.mem_cons_self, h.capacity, fun job hjob =>
    hjobs job (List.mem_cons_of_mem _ hjob)⟩

theorem Readable.addWork (h : Readable maxQueueSize q) (hrequest : 4 ≤ request.readBuffer.length) :
    Readable maxQueueSize (q.addWork request) := by
  by_cases hroom : q.size < q.capacity
  · obtain ⟨front, back, hsplit, hadded, -⟩ := @addWork_inserts q request hroom
    refine ⟨addWork_capacity.trans h.capacity, fun job hjob => ?_⟩
    rw [hadded, List.mem_append, List.mem_cons] at hjob
    have hold := h.jobs job
    rw [hsplit, List.mem_append] at hold
    rcases hjob with hjob | rfl | hjob
    · exact hold (Or.inl hjob)
    · exact hrequest
    · exact hold (Or.inr hjob)
  · rwa [addWork_full hroom]

theorem Readable.step {e : ServerEvent} (h : Readable maxQueueSize q)
    (hstep : ServerStep maxQueueSize q e q') : Readable maxQueueSize q' := by
  cases hstep with
  | request hread hparse hdispatch =>
      unfold dispatch at hdispatch
      split at hdispatch
      · cases hdispatch
      · split at hdispatch
        · obtain ⟨-, rfl⟩ := Prod.mk.inj (Except.ok.inj hdispatch)
          exact h
        · split at hdispatch
          · obtain ⟨-, rfl⟩ := Prod.mk.inj (Except.ok.inj hdispatch)
            exact h
          case isFalse hsize =>
            split at hdispatch
            · cases hdispatch
            · obtain ⟨-, rfl⟩ := Prod.mk.inj (Except.ok.inj hdispatch)
              exact (h.getWork hsize).2
      case h_3 hkind =>
        split at hdispatch
        · obtain ⟨-, rfl⟩ := Prod.mk.inj (Except.ok.inj hdispatch)
          exact h
        · obtain ⟨-, rfl⟩ := Prod.mk.inj (Except.ok.inj hdispatch)
          exact h.addWork (length_of_kind_get hparse hkind)
      · obtain ⟨-, rfl⟩ := Prod.mk.inj (Except.ok.inj hdispatch)
        exact h
  | served hsize hget =>
      obtain ⟨-, rfl⟩ := Prod.mk.inj hget
      exact (h.getWork hsize).2

theorem Readable.of_run {cells : Nat → ClientRequest} {events : List ServerEvent}
    (h : Run (ServerStep maxQueueSize) (createQueue maxQueueSize cells) events q) :
    Readable maxQueueSize q :=
  h.invariant (fun _ _ _ hq hstep => hq.step hstep) ⟨rfl, fun _ hjob => nomatch hjob⟩

/-! ## The law -/

/-- What the other threads and the client do while a listener deals with a request. -/
structure Surroundings where
  /-- The size of the queue when the listener looks at it outside the lock. -/
  size : Nat
  /-- The calls that come behind the listener's `add_work`. -/
  calls : List QueueCall
  /-- When each read of `display` comes. -/
  moments : Nat → Moment
  /-- The client takes an answer; otherwise `SIGPIPE`, which nothing handles, ends the
  process. -/
  connected : Bool

/-- The listener comes to its next `accept` with a request answered or queued. -/
def Outcome.Ends (outcome : Outcome) (w : Surroundings) (q : PriorityQueue) : Prop :=
  match outcome with
  | .answered _ _ => w.connected = true
  | .queued => ∃ turns, display q w.calls w.moments turns = some (.ok ())
  | .dropped | .blocked => False

/-- The listener gets through a request: the bytes and their NUL fit into the buffer, no null
pointer and no element that was never set is followed, no size has wrapped around, and the
request is answered or queued. -/
def Handled (maxQueueSize : Nat) (w : Surroundings) (q : PriorityQueue) (fd : Int)
    (bytes junk : List UInt8) : Prop :=
  ∃ request sizes outcome q', bytes.length < libhttpRequestMaxSize + 1 ∧
    parseClientRequest fd bytes junk = .ok (request, sizes) ∧ none ∉ sizes ∧
      dispatch maxQueueSize w.size q request = .ok (outcome, q') ∧ outcome.Ends w q'

/-- What the listener has read of the queue still holds where it matters, the elements that
`display` finds are spared, and a client that gets an answer takes it. -/
def Undisturbed (maxQueueSize : Nat) (w : Surroundings) (q : PriorityQueue)
    (bytes path : List UInt8) : Prop :=
  if (strstr getJobName path).isSome then (w.size ≠ 0 → q.size ≠ 0) ∧ w.connected = true
  else if (strstr getName (cstr bytes)).isSome ∧ w.size ≠ maxQueueSize then
    q.size < maxQueueSize ∧ Spared maxQueueSize (q.size + 1) w.calls w.moments
  else w.connected = true

/-- The dispatch of a request with a path. -/
theorem dispatch_iff {w : Surroundings} (h : Readable maxQueueSize q) {path bytes : List UInt8}
    (hpath : request.path = some path) (htext : request.readBuffer = cstr bytes) :
    (∃ outcome q', dispatch maxQueueSize w.size q request = .ok (outcome, q') ∧
        outcome.Ends w q') ↔
      Undisturbed maxQueueSize w q bytes path := by
  by_cases hjob : (strstr getJobName path).isSome
  · have hkind : request.kind = .ok .getJob := by
      rw [ClientRequest.kind, hpath]
      exact if_pos hjob
    rw [Undisturbed, if_pos hjob]
    simp only [dispatch, hkind]
    by_cases hread : w.size = 0
    · simp [hread, Outcome.Ends]
    · by_cases hsize : q.size = 0
      · simp [hread, hsize, Outcome.Ends]
      · have htake : jobText q.getWork.1 = .ok (q.getWork.1.readBuffer.drop 4) :=
          if_pos (h.getWork hsize).1
        simp [hread, hsize, htake, Outcome.Ends]
  · by_cases hget : (strstr getName (cstr bytes)).isSome
    · have hkind : request.kind = .ok .get := by
        rw [ClientRequest.kind, hpath, htext]
        exact (if_neg hjob).trans (if_pos hget)
      rw [Undisturbed, if_neg hjob]
      simp only [dispatch, hkind, h.capacity, hget, true_and]
      by_cases hread : w.size = maxQueueSize
      · simp [hread, Outcome.Ends]
      · rw [if_neg hread, if_pos hread]
        by_cases hroom : q.size < maxQueueSize
        · have hshown := display_iff (q.addWork request) w.calls w.moments
          rw [addWork_capacity, addWork_size (by rwa [h.capacity]), h.capacity] at hshown
          simp [hroom, Outcome.Ends, hshown]
        · simp [hroom, Outcome.Ends]
    · have hkind : request.kind = .ok .other := by
        rw [ClientRequest.kind, hpath, htext]
        exact (if_neg hjob).trans (if_neg hget)
      rw [Undisturbed, if_neg hjob, if_neg (fun hboth => hget hboth.1)]
      simp [dispatch, hkind, Outcome.Ends]

end Server

/-- In every state that the server can reach, the listener gets through a request exactly
when it is well formed and the other threads and the client do not disturb it. -/
theorem malformed_input_iff {maxQueueSize : Nat} {cells : Nat → ClientRequest}
    {events : List ServerEvent} {q : PriorityQueue}
    (h : Run (ServerStep maxQueueSize) (createQueue maxQueueSize cells) events q)
    (w : Surroundings) (fd : Int) {bytes : List UInt8} (junk : List UInt8)
    (hread : bytes.length ≤ libhttpRequestMaxSize) :
    Handled maxQueueSize w q fd bytes junk ↔
      ∃ path, WellFormed bytes path ∧ Undisturbed maxQueueSize w q bytes path := by
  have hreadable := Readable.of_run h
  constructor
  · rintro ⟨request, sizes, outcome, q', -, hparse, hsizes, hdispatch, hends⟩
    obtain ⟨parsed, -, -, htext, -⟩ := parseClientRequest_eq_ok hparse
    cases hpath : request.path with
    | none => simp [dispatch, ClientRequest.kind, hpath] at hdispatch
    | some path =>
        exact ⟨path, parseClientRequest_iff.mp ⟨request, sizes, hparse, hsizes, hpath⟩,
          (dispatch_iff hreadable hpath htext).mp ⟨outcome, q', hdispatch, hends⟩⟩
  · rintro ⟨path, hform, hundisturbed⟩
    obtain ⟨request, sizes, hparse, hsizes, hpath⟩ :=
      (@parseClientRequest_iff fd bytes junk path).mpr hform
    obtain ⟨parsed, -, -, htext, -⟩ := parseClientRequest_eq_ok hparse
    obtain ⟨outcome, q', hdispatch, hends⟩ :=
      (dispatch_iff hreadable hpath htext).mpr hundisturbed
    exact ⟨request, sizes, outcome, q', Nat.lt_succ_of_le hread, hparse, hsizes, hdispatch, hends⟩

/-- `GET /1/a x` with a header line. -/
def sampleRequest : List UInt8 :=
  ascii ['G', 'E', 'T', ' ', '/', '1', '/', 'a', ' ', 'x', '\r', '\n', 'D', 'e', 'l', 'a', 'y', ':',
    ' ', '2']

/-- A worker takes a job out of the queue between the first and the second turn of `display`. -/
def oneTaken : Surroundings where
  size := 1
  calls := [.getWork]
  moments read := if read < 6 then ⟨0, 1⟩ else ⟨1, 0⟩
  connected := false

/-- The sample comes in for the second time; its client is gone when it is queued. -/
theorem malformed_input_iff_run : ∃ q,
    Run (ServerStep 2) (createQueue 2 fun _ => job 0) [.request sampleRequest] q ∧
      Handled 2 oneTaken q 5 sampleRequest [] := by
  have hfirst := @ServerStep.request 2 (createQueue 2 fun _ => job 0) 4 sampleRequest [] 0 _ _ _ _
    (by decide) rfl rfl
  refine ⟨_, Run.single hfirst, (malformed_input_iff (Run.single hfirst) oneTaken 5 []
    (by decide)).mpr ⟨ascii ['/', '1', '/', 'a'], ?_, ?_⟩⟩
  · exact ⟨ascii ['G', 'E', 'T'], ascii ['x'],
      [ascii ['D', 'e', 'l', 'a', 'y', ':', ' ', '2']], by decide⟩
  · rw [Undisturbed, if_neg (by decide), if_pos (by decide)]
    refine ⟨by decide, fun i htests => ?_⟩
    cases i with
    | zero => decide
    | succ i => exact absurd (htests 1 (Nat.succ_le_succ i.zero_le)) (by decide)

/-- A client that connects and sends nothing. -/
theorem empty_request_crashes : ¬∀ maxQueueSize cells events q w fd bytes junk,
    Run (ServerStep maxQueueSize) (createQueue maxQueueSize cells) events q →
      bytes.length ≤ libhttpRequestMaxSize → w.size = q.size → w.calls = [] →
        w.connected = true → Handled maxQueueSize w q fd bytes junk := by
  intro hlaw
  obtain ⟨request, sizes, outcome, q', -, hparse, -, hdispatch, -⟩ :=
    hlaw 1 (fun _ => job 0) [] _ ⟨0, [], fun _ => ⟨0, 0⟩, true⟩ 5 [] [] Run.nil (by decide)
      rfl rfl rfl
  obtain ⟨rfl, -⟩ := Prod.mk.inj (Except.ok.inj hparse)
  cases hdispatch

end OSProjects.Proxy
