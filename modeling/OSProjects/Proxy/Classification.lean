import OSProjects.Proxy.Malformed

/-!
# Classification of requests

The parser compares the target with `/GetJob`, the dispatch searches the target and the
whole request for words. Where the two agree, for every target, header and body.
-/

namespace OSProjects.Proxy

open StringSearch StepSystem PriorityQueue

/-- The request line has two spaces, with `target` between the first two. -/
def RequestLine (bytes method target : List UInt8) : Prop :=
  ∃ version headers, lines bytes = (method ++ space :: (target ++ space :: version)) :: headers ∧
    space ∉ method ∧ space ∉ target

/-- The outcomes of the branch for `/GetJob`. -/
def Outcome.OfGetJob (outcome : Outcome) : Prop :=
  outcome = .answered queueEmpty queueEmptyText ∨ outcome = .blocked ∨
    ∃ text, outcome = .answered statusOk text

/-- What a method and a target ask for. -/
def Intended (method target : List UInt8) (outcome : Outcome) : Prop :=
  if target = getJobCmd then outcome.OfGetJob
  else if method = getName then outcome = .queued ∨ outcome = .answered queueFull queueFullText
  else outcome = .answered badRequest badRequestText

/-- The bytes and their NUL fit into the buffer, and the listener does with the request what
its method and target ask for. -/
def Classified (maxQueueSize size : Nat) (q : PriorityQueue) (fd : Int)
    (bytes junk method target : List UInt8) : Prop :=
  ∃ request sizes outcome q', bytes.length < libhttpRequestMaxSize + 1 ∧
    parseClientRequest fd bytes junk = .ok (request, sizes) ∧
      dispatch maxQueueSize size q request = .ok (outcome, q') ∧ Intended method target outcome

/-- The searches find the words only where they are meant, and a place that was free when
the listener looked is still free. -/
def Unmistaken (maxQueueSize size : Nat) (q : PriorityQueue)
    (bytes method target : List UInt8) : Prop :=
  target = getJobCmd ∨
    slash ∈ target ∧ ¬getJobName <:+: target ∧
      (method = getName ∧ (size ≠ maxQueueSize → q.size < maxQueueSize) ∨
        method ≠ getName ∧ ¬getName <:+: cstr bytes)

section Line

variable {bytes method target : List UInt8}

/-- The method is found in the request. -/
theorem RequestLine.method_infix (h : RequestLine bytes method target) :
    method <:+: cstr bytes := by
  obtain ⟨version, headers, hlines, -, -⟩ := h
  have hmem : method ++ space :: (target ++ space :: version) ∈ lines bytes := by
    rw [hlines]
    exact List.mem_cons_self
  rw [lines, List.mem_map] at hmem
  obtain ⟨token, htoken, htext⟩ := hmem
  have hline := infix_of_mem_tokensFrom htoken
  rw [htext, List.nil_append] at hline
  exact (List.prefix_append method _).isInfix.trans hline

/-- A request with a request line is parsed unless it has no slash to look for. -/
theorem RequestLine.parse (h : RequestLine bytes method target) (fd : Int) (junk : List UInt8) :
    (∃ request sizes, parseClientRequest fd bytes junk = .ok (request, sizes)) ↔
      target = getJobCmd ∨ slash ∈ target := by
  obtain ⟨version, headers, hlines, hmethod, htarget⟩ := h
  rw [← strtok_text bytes junk, List.map_eq_cons_iff] at hlines
  obtain ⟨first, rest, htokens, hfirst, -⟩ := hlines
  rw [parseClientRequest, htokens, parseLines, hfirst, requestLine_split hmethod htarget]
  by_cases hjob : target = getJobCmd
  · simp [hjob]
  · rw [if_neg hjob]
    cases hslash : strstr [slash] target with
    | none =>
        have hnone := strstr_singleton_eq_none.mp hslash
        simp [hjob, hnone]
    | some s1 =>
        have hsome : slash ∈ target := by
          by_contra hnone
          rw [strstr_singleton_eq_none.mpr hnone] at hslash
          cases hslash
        simp [hsome]

/-- The parser keeps the target of a request line. -/
theorem RequestLine.path (h : RequestLine bytes method target) {fd : Int} {junk : List UInt8}
    {request : ClientRequest} {sizes : List (Option Nat)}
    (hparse : parseClientRequest fd bytes junk = .ok (request, sizes)) :
    request.path = some target ∧ request.readBuffer = cstr bytes := by
  obtain ⟨version, headers, hlines, hmethod, htarget⟩ := h
  obtain ⟨parsed, hparsed, hpath, htext, -⟩ := parseClientRequest_eq_ok hparse
  rw [← strtok_text bytes junk, List.map_eq_cons_iff] at hlines
  obtain ⟨first, rest, htokens, hfirst, -⟩ := hlines
  refine ⟨hpath.trans ?_, htext⟩
  rw [htokens, parseLines, hfirst, requestLine_split hmethod htarget] at hparsed
  by_cases hjob : target = getJobCmd
  · rw [if_pos hjob] at hparsed
    obtain rfl := Except.ok.inj hparsed
    rfl
  · rw [if_neg hjob] at hparsed
    cases hslash : strstr [slash] target with
    | none =>
        rw [hslash] at hparsed
        cases hparsed
    | some s1 =>
        rw [hslash] at hparsed
        obtain rfl := Except.ok.inj hparsed
        exact (foldl_headerLine rest _).1

end Line

section Branches

variable {maxQueueSize size : Nat} {q q' : PriorityQueue} {request : ClientRequest}
  {outcome : Outcome}

/-- The branch of a request can be told from what it comes to. -/
theorem dispatch_kind (hrequest : dispatch maxQueueSize size q request = .ok (outcome, q')) :
    (request.kind = .ok .getJob ∧ outcome.OfGetJob) ∨
      (request.kind = .ok .get ∧ (outcome = .answered queueFull queueFullText ∧ size = maxQueueSize ∨
        outcome = (if q.size < q.capacity then .queued else .dropped) ∧ size ≠ maxQueueSize)) ∨
      request.kind = .ok .other ∧ outcome = .answered badRequest badRequestText := by
  unfold dispatch at hrequest
  cases hkind : request.kind with
  | error e =>
      rw [hkind] at hrequest
      cases hrequest
  | ok kind =>
      rw [hkind] at hrequest
      cases kind with
      | getJob =>
          refine Or.inl ⟨rfl, ?_⟩
          dsimp only at hrequest
          split at hrequest
          · obtain ⟨rfl, -⟩ := Prod.mk.inj (Except.ok.inj hrequest)
            exact Or.inl rfl
          · split at hrequest
            · obtain ⟨rfl, -⟩ := Prod.mk.inj (Except.ok.inj hrequest)
              exact Or.inr (Or.inl rfl)
            · split at hrequest
              · cases hrequest
              · obtain ⟨rfl, -⟩ := Prod.mk.inj (Except.ok.inj hrequest)
                exact Or.inr (Or.inr ⟨_, rfl⟩)
      | get =>
          refine Or.inr (Or.inl ⟨rfl, ?_⟩)
          dsimp only at hrequest
          split at hrequest
          case isTrue hfull =>
            obtain ⟨rfl, -⟩ := Prod.mk.inj (Except.ok.inj hrequest)
            exact Or.inl ⟨rfl, hfull⟩
          case isFalse hfull =>
            obtain ⟨rfl, -⟩ := Prod.mk.inj (Except.ok.inj hrequest)
            exact Or.inr ⟨rfl, hfull⟩
      | other =>
          obtain ⟨rfl, -⟩ := Prod.mk.inj (Except.ok.inj hrequest)
          exact Or.inr (Or.inr ⟨rfl, rfl⟩)

/-- A branch that is taken comes to an end. -/
theorem dispatch_total (h : Readable maxQueueSize q) {kind : Kind}
    (hkind : request.kind = .ok kind) :
    ∃ outcome q', dispatch maxQueueSize size q request = .ok (outcome, q') := by
  unfold dispatch
  rw [hkind]
  cases kind with
  | getJob =>
      dsimp only
      split
      · exact ⟨_, _, rfl⟩
      · split
        · exact ⟨_, _, rfl⟩
        case isFalse hsize =>
          have htake : jobText q.getWork.1 = .ok (q.getWork.1.readBuffer.drop 4) :=
            if_pos (h.getWork hsize).1
          rw [htake]
          exact ⟨_, _, rfl⟩
  | get =>
      dsimp only
      split
      · exact ⟨_, _, rfl⟩
      · exact ⟨_, _, rfl⟩
  | other => exact ⟨_, _, rfl⟩

/-- The two searches of `serve_forever`. -/
theorem kind_eq_ok {target bytes : List UInt8} (hpath : request.path = some target)
    (htext : request.readBuffer = cstr bytes) :
    (request.kind = .ok .getJob ∧ getJobName <:+: target) ∨
      (request.kind = .ok .get ∧ ¬getJobName <:+: target ∧ getName <:+: cstr bytes) ∨
      request.kind = .ok .other ∧ ¬getJobName <:+: target ∧ ¬getName <:+: cstr bytes := by
  rw [ClientRequest.kind, hpath, htext]
  dsimp only
  split
  case isTrue hjob => exact Or.inl ⟨rfl, strstr_isSome.mp hjob⟩
  case isFalse hjob =>
    rw [strstr_isSome] at hjob
    split
    case isTrue hget => exact Or.inr (Or.inl ⟨rfl, hjob, strstr_isSome.mp hget⟩)
    case isFalse hget =>
      rw [strstr_isSome] at hget
      exact Or.inr (Or.inr ⟨rfl, hjob, hget⟩)

/-- With a target other than `/GetJob`, the outcome is the intended one exactly when the
searches agree with the method and no place is lost. -/
theorem intended_iff {bytes method target : List UInt8} (hcapacity : q.capacity = maxQueueSize)
    (hrequest : dispatch maxQueueSize size q request = .ok (outcome, q'))
    (hpath : request.path = some target) (htext : request.readBuffer = cstr bytes)
    (hmethod : method <:+: cstr bytes) (htarget : target ≠ getJobCmd) :
    Intended method target outcome ↔
      ¬getJobName <:+: target ∧
        (method = getName ∧ (size ≠ maxQueueSize → q.size < maxQueueSize) ∨
          method ≠ getName ∧ ¬getName <:+: cstr bytes) := by
  rw [Intended, if_neg htarget]
  rcases kind_eq_ok hpath htext with ⟨hkind, hword⟩ | ⟨hkind, hword, hget⟩ | ⟨hkind, hword, hget⟩
  · -- The branch for `/GetJob` answers with a status of its own.
    obtain houtcome := (dispatch_kind hrequest).resolve_right (by simp [hkind])
    have hnot : ∀ status text, outcome = .answered status text → status = queueEmpty ∨
        status = statusOk := by
      rintro status text rfl
      rcases houtcome.2 with h | h | ⟨text, h⟩
      · exact Or.inl (Outcome.answered.inj h).1
      · cases h
      · exact Or.inr (Outcome.answered.inj h).1
    have hqueued : outcome ≠ .queued := by
      rintro rfl
      simp [Outcome.OfGetJob] at houtcome
    refine iff_of_false (fun h => ?_) fun h => h.1 hword
    split at h
    · exact absurd (hnot _ _ (h.resolve_left hqueued)) (by decide)
    · exact absurd (hnot _ _ h) (by decide)
  · have hfull : (outcome = .queued ∨ outcome = .answered queueFull queueFullText) ↔
        (size ≠ maxQueueSize → q.size < maxQueueSize) := by
      rcases dispatch_kind hrequest with h | ⟨-, ⟨rfl, hsize⟩ | ⟨rfl, hsize⟩⟩ | h
      · simp [hkind] at h
      · simp [hsize]
      · rw [hcapacity]
        by_cases hroom : q.size < maxQueueSize
        · simp [hroom]
        · simp [hroom, hsize]
      · simp [hkind] at h
    split
    case isTrue hmethod => simp [hfull, hword, hmethod]
    case isFalse hother =>
      refine iff_of_false (fun h => ?_) ?_
      · rcases dispatch_kind hrequest with h' | ⟨-, ⟨rfl, hsize⟩ | ⟨rfl, hsize⟩⟩ | h'
        · simp [hkind] at h'
        · exact absurd (Outcome.answered.inj h).1 (by decide)
        · split at h <;> cases h
        · simp [hkind] at h'
      · rintro ⟨-, ⟨h, -⟩ | ⟨-, h⟩⟩
        · exact hother h
        · exact h hget
  · have hbad : outcome = .answered badRequest badRequestText := by
      rcases dispatch_kind hrequest with h | ⟨h, -⟩ | h
      · simp [hkind] at h
      · simp [hkind] at h
      · exact h.2
    have hother : method ≠ getName := by
      rintro rfl
      exact hget hmethod
    rw [if_neg hother]
    exact iff_of_true hbad ⟨hword, Or.inr ⟨hother, hget⟩⟩

end Branches

/-- In every state that the server can reach, a request gets what its method and target ask
for exactly when the searches cannot mistake it. -/
theorem classified_iff {maxQueueSize : Nat} {cells : Nat → ClientRequest}
    {events : List ServerEvent} {q : PriorityQueue}
    (h : Run (ServerStep maxQueueSize) (createQueue maxQueueSize cells) events q) (size : Nat)
    (fd : Int) {bytes : List UInt8} (junk : List UInt8) {method target : List UInt8}
    (hread : bytes.length ≤ libhttpRequestMaxSize) (hline : RequestLine bytes method target) :
    Classified maxQueueSize size q fd bytes junk method target ↔
      Unmistaken maxQueueSize size q bytes method target := by
  have hreadable := Readable.of_run h
  constructor
  · rintro ⟨request, sizes, outcome, q', -, hparse, hdispatch, hintended⟩
    by_cases hjob : target = getJobCmd
    · exact Or.inl hjob
    · have hslash := ((hline.parse fd junk).mp ⟨request, sizes, hparse⟩).resolve_left hjob
      obtain ⟨hpath, htext⟩ := hline.path hparse
      exact Or.inr ⟨hslash, (intended_iff hreadable.capacity hdispatch hpath htext
        hline.method_infix hjob).mp hintended⟩
  · intro hclear
    obtain ⟨request, sizes, hparse⟩ :=
      (hline.parse fd junk).mpr (hclear.imp_right And.left)
    obtain ⟨hpath, htext⟩ := hline.path hparse
    have hkind : ∃ kind, request.kind = .ok kind := by
      rcases kind_eq_ok hpath htext with h | h | h <;> exact ⟨_, h.1⟩
    obtain ⟨kind, hkind⟩ := hkind
    obtain ⟨outcome, q', hdispatch⟩ := @dispatch_total _ size _ _ hreadable kind hkind
    refine ⟨request, sizes, outcome, q', Nat.lt_succ_of_le hread, hparse, hdispatch, ?_⟩
    by_cases hjob : target = getJobCmd
    · have hword : getJobName <:+: target := by
        rw [hjob]
        decide
      rw [Intended, if_pos hjob]
      rcases kind_eq_ok hpath htext with h | h | h
      · rcases dispatch_kind hdispatch with h' | h' | h'
        · exact h'.2
        · simp [h.1] at h'
        · simp [h.1] at h'
      · exact absurd hword h.2.1
      · exact absurd hword h.2.1
    · exact (intended_iff hreadable.capacity hdispatch hpath htext hline.method_infix hjob).mpr
        (hclear.resolve_left hjob).2

/-- `GET /1/a x` with a header line, right after start-up. -/
theorem classified_iff_run :
    Run (ServerStep 1) (createQueue 1 fun _ => job 0) [] (createQueue 1 fun _ => job 0) ∧
      Classified 1 0 (createQueue 1 fun _ => job 0) 5 sampleRequest [] getName
        (ascii ['/', '1', '/', 'a']) := by
  refine ⟨Run.nil, (classified_iff Run.nil 0 5 [] (by decide) ?_).mpr
    (Or.inr ⟨by decide, by decide, Or.inl ⟨rfl, fun _ => Nat.zero_lt_one⟩⟩)⟩
  exact ⟨ascii ['x'], [ascii ['D', 'e', 'l', 'a', 'y', ':', ' ', '2']], by decide⟩

/-- `PUT /1/WIDGET x`, with the letters of the method of another request in its target. -/
def wordRequest : List UInt8 :=
  ascii ['P', 'U', 'T', ' ', '/', '1', '/', 'W', 'I', 'D', 'G', 'E', 'T', ' ', 'x']

/-- A request with another method is queued for a word in its target. -/
theorem word_mistaken : ¬∀ maxQueueSize cells events q size fd bytes junk method target,
    Run (ServerStep maxQueueSize) (createQueue maxQueueSize cells) events q →
      bytes.length ≤ libhttpRequestMaxSize → size = q.size →
        RequestLine bytes method target →
          Classified maxQueueSize size q fd bytes junk method target := by
  intro hlaw
  have hline : RequestLine wordRequest (ascii ['P', 'U', 'T'])
      (ascii ['/', '1', '/', 'W', 'I', 'D', 'G', 'E', 'T']) := ⟨ascii ['x'], [], by decide⟩
  obtain ⟨request, sizes, outcome, q', -, hparse, hdispatch, hintended⟩ :=
    hlaw 1 (fun _ => job 0) [] _ 0 5 wordRequest [] _ _ Run.nil (by decide) rfl hline
  have hbad : outcome = .answered badRequest badRequestText := hintended
  obtain ⟨hpath, htext⟩ := hline.path hparse
  rcases kind_eq_ok hpath htext with h | h | h
  · exact absurd h.2 (by decide)
  · rcases dispatch_kind hdispatch with h' | ⟨-, ⟨rfl, -⟩ | ⟨rfl, -⟩⟩ | h'
    · simp [h.1] at h'
    · cases hbad
    · cases hbad
    · simp [h.1] at h'
  · exact absurd (show getName <:+: cstr wordRequest by decide) h.2.2

end OSProjects.Proxy
