import OSProjects.Foundation.Transfer
import OSProjects.Proxy.Descriptors
import OSProjects.Proxy.Malformed

/-!
# The bytes that the proxy passes on

`serve_request` replays the copy that `parse_client_request` has made of a request, and
passes on what the file server sends. The copy was made as a string, the replay counts bytes.
-/

namespace OSProjects.Proxy.Relay

open ByteMemory StringSearch Transfer

def responseBufsize : Nat := 10000

/-- `strcpy` to the start of a buffer. -/
def strcpy (buffer : Memory) (s : List UInt8) : Memory := Store.apply ⟨0, s ++ [0]⟩ buffer

/-- `http_send_data`, from call number `k` of `write` on. A call that transfers nothing does
not count as one that gets on. -/
def httpSendData (write : Results) (m : Memory) (k data size : Nat) : Option Sent :=
  sendLoop write m size k data size

/-! ## Errors -/

/-- `http_get_response_message` for the codes of an error. -/
def httpGetResponseMessage (status : Nat) : List UInt8 :=
  if status = badRequest then ascii ['B', 'a', 'd', ' ', 'R', 'e', 'q', 'u', 'e', 's', 't']
  else
    ascii ['I', 'n', 't', 'e', 'r', 'n', 'a', 'l', ' ', 'S', 'e', 'r', 'v', 'e', 'r', ' ', 'E', 'r', 'r',
      'o', 'r']

/-- `http_start_response`, `http_send_header` and `http_end_headers` of an error. -/
def errorHead (status : Nat) : List UInt8 :=
  ascii ['H', 'T', 'T', 'P', '/', '1', '.', '0', ' '] ++ ascii (Nat.toDigits 10 status) ++
    space :: httpGetResponseMessage status ++ ascii ['\r', '\n'] ++
    ascii ['C', 'o', 'n', 't', 'e', 'n', 't', '-', 'T', 'y', 'p', 'e', ':', ' ', 't', 'e', 'x', 't', '/', 'h',
      't', 'm', 'l', '\r', '\n', '\r', '\n']

/-- What the client gets from `send_error_response`. -/
def sendErrorResponse (write : Results) (status : Nat) (text : List UInt8) :
    Option (List UInt8) :=
  (httpSendData write (strcpy (fun _ => 0) (text ++ [10])) 0 0 (text.length + 1)).map fun s =>
    errorHead status ++ s.bytes

/-! ## Serving -/

/-- What one call of `recv` delivers before the file server closes. -/
structure Chunk where
  bytes : List UInt8
  pos : 0 < bytes.length
  le : bytes.length ≤ responseBufsize - 1

/-- What `serve_request` meets: whether `connect` succeeds, what its writes to the file server
and to the client return, and what `recv` delivers. -/
structure Network where
  connects : Bool
  toServer : Results
  toClient : Results
  response : List Chunk

/-- What has gone out to the file server and to the client. -/
structure Served where
  toServer : List UInt8
  toClient : List UInt8
  deriving DecidableEq

/-- The loop of `serve_request`: `recv` into the buffer, and send from the buffer. -/
def forward (write : Results) : Nat → Memory → List Chunk → Option (List UInt8)
  | _, _, [] => some []
  | k, buffer, chunk :: rest =>
      let buffer := Store.apply ⟨0, chunk.bytes⟩ buffer
      match httpSendData write buffer k 0 chunk.bytes.length with
      | none => none
      | some s =>
          if s.ok then (forward write s.calls buffer rest).map (s.bytes ++ ·) else some s.bytes

/-- `serve_request`. The copy of the request lies in memory that held `fresh` before, the
response goes through `buffer`. -/
def serveRequest (net : Network) (fresh buffer : Memory) (request : ClientRequest) :
    Option Served :=
  if net.connects then
    let size := (request.bytesRead % 2 ^ 64).toNat
    match httpSendData net.toServer (strcpy fresh request.readBuffer) 0 0 size with
    | none => none
    | some s =>
        if s.ok then (forward net.toClient 0 buffer net.response).map (⟨s.bytes, ·⟩)
        else
          (sendErrorResponse net.toClient badGateway badGatewayText).map (⟨s.bytes, ·⟩)
  else (sendErrorResponse net.toClient badGateway badGatewayText).map (⟨[], ·⟩)

/-! ## Its calls on the sockets -/

/-- Which of the chunks the client takes. -/
def outcomes (write : Results) : Nat → Memory → List Chunk → List (List UInt8 × Bool)
  | _, _, [] => []
  | k, buffer, chunk :: rest =>
      let buffer := Store.apply ⟨0, chunk.bytes⟩ buffer
      match httpSendData write buffer k 0 chunk.bytes.length with
      | none => [(chunk.bytes, false)]
      | some s => (chunk.bytes, s.ok) :: outcomes write s.calls buffer rest

/-- What `serve_request` meets, call by call. -/
def Network.exchange (net : Network) (fresh buffer : Memory) (request : ClientRequest) :
    Exchange where
  connects := net.connects
  sends := (httpSendData net.toServer (strcpy fresh request.readBuffer) 0 0
    (request.bytesRead % 2 ^ 64).toNat).any Sent.ok
  chunks := outcomes net.toClient 0 buffer net.response

/-- What some calls on the sockets have got out, with the buffer for responses and the number of
the next `write` to the client. -/
structure Traffic where
  buffer : Memory
  calls : Nat
  served : Served

/-- What one more call gets out. -/
def Traffic.send (net : Network) (fresh : Memory) (x : Traffic) : SocketOp → Option Traffic
  | .sendData .fileserver data size =>
      (httpSendData net.toServer (strcpy fresh data) 0 0 (size % 2 ^ 64).toNat).map fun s =>
        { x with served := { x.served with toServer := x.served.toServer ++ s.bytes } }
  | .sendData (.client _) data _ =>
      let buffer := Store.apply ⟨0, data⟩ x.buffer
      (httpSendData net.toClient buffer x.calls 0 data.length).map fun s =>
        ⟨buffer, s.calls, { x.served with toClient := x.served.toClient ++ s.bytes }⟩
  | .sendError _ status text =>
      (sendErrorResponse net.toClient status text).map fun bytes =>
        { x with served := { x.served with toClient := x.served.toClient ++ bytes } }
  | .shutdown _ | .close _ => some x

section Calls

variable {net : Network} {fresh buffer : Memory}

theorem forward_eq_send (fd : Int) (x : Traffic) (response : List Chunk) :
    ((Proxy.forward (.client fd) (outcomes net.toClient x.calls x.buffer response)).foldlM
        (Traffic.send net fresh) x).map Traffic.served =
      (forward net.toClient x.calls x.buffer response).map fun bytes =>
        { x.served with toClient := x.served.toClient ++ bytes } := by
  induction response generalizing x with
  | nil => simp [outcomes, Proxy.forward, forward]
  | cons chunk rest ih =>
      rw [outcomes, forward]
      dsimp only
      cases hsend : httpSendData net.toClient (Store.apply ⟨0, chunk.bytes⟩ x.buffer) x.calls 0
        chunk.bytes.length with
      | none =>
          simp [Proxy.forward, Traffic.send, hsend]
      | some s =>
          obtain ⟨bytes, calls, ok⟩ := s
          cases ok with
          | false => simp [Proxy.forward, Traffic.send, hsend]
          | true =>
              have hrest := ih ⟨Store.apply ⟨0, chunk.bytes⟩ x.buffer, calls,
                { x.served with toClient := x.served.toClient ++ bytes }⟩
              dsimp only at hrest ⊢
              rw [Proxy.forward, List.foldlM_cons, Traffic.send, hsend]
              refine hrest.trans ?_
              simp [Function.comp_def, List.append_assoc]

/-- The bytes of a service are those that its calls get out, one after the other. -/
theorem serveRequest_eq_send (net : Network) (fresh buffer : Memory) (request : ClientRequest) :
    serveRequest net fresh buffer request =
      ((Proxy.serveRequest (net.exchange fresh buffer request) request).foldlM
        (Traffic.send net fresh) ⟨buffer, 0, ⟨[], []⟩⟩).map Traffic.served := by
  rw [serveRequest, Proxy.serveRequest, Network.exchange]
  dsimp only
  cases net.connects with
  | false => simp [Traffic.send, Function.comp_def]
  | true =>
      rw [if_pos rfl, if_pos rfl, List.cons_append, List.foldlM_cons, Traffic.send]
      cases hsend : httpSendData net.toServer (strcpy fresh request.readBuffer) 0 0
        (request.bytesRead % 2 ^ 64).toNat with
      | none => rfl
      | some s =>
          obtain ⟨bytes, calls, ok⟩ := s
          rw [Option.map_some, Option.any_some]
          cases ok with
          | true =>
              -- The calls at the end get nothing out.
              have hforward := @forward_eq_send net fresh request.clientFd
                ⟨buffer, 0, ⟨bytes, []⟩⟩ net.response
              simpa [Traffic.send, Option.map_eq_bind, Function.comp_def] using hforward.symm
          | false =>
              simp [Traffic.send, Function.comp_def]

end Calls

/-! ## Requests that get through -/

/-- Whatever memory held before, and however transfers are split, the file server gets the
bytes of the request, and the client all that the file server sends. -/
def ByteExact (bytes : List UInt8) (request : ClientRequest) : Prop :=
  ∀ (net : Network) (fresh buffer : Memory), net.connects = true → net.toServer.Splits →
    net.toClient.Splits →
      serveRequest net fresh buffer request = some ⟨bytes, net.response.flatMap Chunk.bytes⟩

section Bytes

variable {fresh : Memory} {bytes s : List UInt8}

theorem httpSendData_of_splits {write : Results} (h : write.Splits) (m : Memory)
    (k data size : Nat) :
    ∃ calls, httpSendData write m k data size = some ⟨readBytes m data size, calls, true⟩ :=
  sendLoop_of_splits h m le_rfl k data

/-- The response passes through unchanged. -/
theorem forward_of_splits {write : Results} (h : write.Splits) (k : Nat) (buffer : Memory)
    (response : List Chunk) :
    forward write k buffer response = some (response.flatMap Chunk.bytes) := by
  induction response generalizing k buffer with
  | nil => rfl
  | cons chunk rest ih =>
      obtain ⟨calls, hsend⟩ := httpSendData_of_splits h (Store.apply ⟨0, chunk.bytes⟩ buffer) k 0
        chunk.bytes.length
      rw [forward, hsend, Store.readBytes_apply_self]
      dsimp only
      rw [if_pos rfl, ih, List.flatMap_cons, Option.map_some]

/-- What `serve_request` sends is the start of the copy. -/
theorem serveRequest_of_splits {net : Network} (hconnects : net.connects = true)
    (hserver : net.toServer.Splits) (hclient : net.toClient.Splits) (fresh buffer : Memory)
    {request : ClientRequest} {n : Nat} (hread : request.bytesRead = n) (hn : n < 2 ^ 64) :
    serveRequest net fresh buffer request =
      some ⟨readBytes (strcpy fresh request.readBuffer) 0 n,
        net.response.flatMap Chunk.bytes⟩ := by
  have hsize : (request.bytesRead % 2 ^ 64).toNat = n := by
    rw [hread]
    omega
  obtain ⟨calls, hsend⟩ := httpSendData_of_splits hserver (strcpy fresh request.readBuffer) 0 0 n
  rw [serveRequest, if_pos hconnects]
  dsimp only
  rw [hsize, hsend]
  dsimp only
  rw [if_pos rfl, forward_of_splits hclient, Option.map_some]

/-- The copy holds the string and its NUL. -/
theorem readBytes_strcpy {n : Nat} (hn : n ≤ s.length + 1) :
    readBytes (strcpy fresh s) 0 n = (s ++ [0]).take n := by
  have hall := Store.readBytes_apply_self 0 (s ++ [0]) fresh
  rw [List.length_append, List.length_singleton] at hall
  obtain ⟨rest, hrest⟩ := Nat.exists_eq_add_of_le hn
  rw [hrest] at hall
  rw [← hall, take_readBytes]
  rfl

/-- Behind its NUL, the copy holds what was there before. -/
theorem strcpy_beyond {i : Nat} (hi : s.length < i) : strcpy fresh s i = fresh i := by
  apply Store.apply_of_stop_le
  simp only [Store.stop, List.length_append, List.length_singleton]
  omega

/-- A string ends in front of the first NUL of its bytes. -/
theorem cstr_split {a b : List UInt8} (ha : 0 ∉ a) : cstr (a ++ 0 :: b) = a := by
  rw [cstr_terminated ha]

/-- The copy replays exactly the bytes whose only NUL is at their end. -/
theorem replays_iff :
    (∀ fresh, readBytes (strcpy fresh (cstr bytes)) 0 bytes.length = bytes) ↔
      0 ∉ bytes.dropLast := by
  by_cases hzero : 0 ∈ bytes
  case neg =>
    refine iff_of_true (fun fresh => ?_) fun h => hzero (List.dropLast_subset bytes h)
    rw [cstr_eq_self hzero, readBytes_strcpy (Nat.le_succ _), List.take_left]
  case pos =>
    obtain ⟨a, b, rfl, ha⟩ := List.eq_append_cons_of_mem hzero
    rw [cstr_split ha]
    cases b with
    | nil =>
        refine iff_of_true (fun fresh => ?_) (by rwa [List.dropLast_concat])
        rw [readBytes_strcpy (by simp), List.take_length]
    | cons c b =>
        refine iff_of_false (fun h => ?_) (by simp)
        -- The byte behind the NUL comes from memory, where it may be any other.
        have hc := h fun _ => c + 1
        have hbyte := congrArg (fun l => l[a.length + 1]?) hc
        rw [getElem?_readBytes _ (by simp), Nat.zero_add, strcpy_beyond (Nat.lt_succ_self _)] at hbyte
        simp at hbyte

end Bytes

/-- What the parser puts into a request of the bytes that it has read. -/
theorem parseClientRequest_copy {fd : Int} {bytes junk : List UInt8} {request : ClientRequest}
    {sizes : List (Option Nat)} (h : parseClientRequest fd bytes junk = .ok (request, sizes)) :
    request.readBuffer = cstr bytes ∧ request.bytesRead = bytes.length := by
  obtain ⟨-, -, -, htext, -⟩ := parseClientRequest_eq_ok h
  refine ⟨htext, ?_⟩
  rw [parseClientRequest] at h
  split at h
  · cases h
  · obtain ⟨rfl, -⟩ := Prod.mk.inj (Except.ok.inj h)
    rfl

/-- For every request that the parser has read, all bytes reach the file server exactly when
none of them in front of the last one is a NUL; then the whole response reaches the client. -/
theorem byte_exact_iff {fd : Int} {bytes junk : List UInt8} {request : ClientRequest}
    {sizes : List (Option Nat)} (hsize : bytes.length ≤ libhttpRequestMaxSize)
    (h : parseClientRequest fd bytes junk = .ok (request, sizes)) :
    ByteExact bytes request ↔ 0 ∉ bytes.dropLast := by
  obtain ⟨hcopy, hread⟩ := parseClientRequest_copy h
  have hmax : libhttpRequestMaxSize < 2 ^ 64 := by decide
  have hserved : ∀ (net : Network) (fresh buffer : Memory), net.connects = true →
      net.toServer.Splits → net.toClient.Splits →
        serveRequest net fresh buffer request =
          some ⟨readBytes (strcpy fresh (cstr bytes)) 0 bytes.length,
            net.response.flatMap Chunk.bytes⟩ := by
    intro net fresh buffer hconnects hserver hclient
    rw [← hcopy]
    exact serveRequest_of_splits hconnects hserver hclient fresh buffer hread (by omega)
  rw [← replays_iff]
  constructor
  · intro hexact fresh
    have hone : Results.Splits fun _ _ => 1 := fun _ n hn => ⟨le_rfl, Int.ofNat_le.mpr hn⟩
    have hall := hexact ⟨true, fun _ _ => 1, fun _ _ => 1, []⟩ fresh fresh rfl hone hone
    rw [hserved _ fresh fresh rfl hone hone] at hall
    exact (Served.mk.inj (Option.some.inj hall)).1
  · intro hreplays net fresh buffer hconnects hserver hclient
    rw [hserved net fresh buffer hconnects hserver hclient, hreplays fresh]

/-- The request of a browser has no NUL. -/
theorem byte_exact_iff_sample : ∃ request sizes,
    parseClientRequest 5 sampleRequest [] = .ok (request, sizes) ∧
      ByteExact sampleRequest request := by
  have hparse : ∃ r, parseClientRequest 5 sampleRequest [] = .ok r :=
    ⟨_, rfl⟩
  obtain ⟨⟨request, sizes⟩, hparse⟩ := hparse
  exact ⟨request, sizes, hparse, (byte_exact_iff (by decide) hparse).mpr (by decide)⟩

/-- `GET /1/a x` with a header line and a body of a NUL and a letter. -/
def nulRequest : List UInt8 :=
  sampleRequest ++ ascii ['\r', '\n', '\r', '\n'] ++ 0 :: ascii ['b']

/-- A request that is queued, and that the file server gets with another last byte. -/
theorem body_lost : ∃ fd request sizes, nulRequest.length ≤ libhttpRequestMaxSize ∧
    parseClientRequest fd nulRequest [] = .ok (request, sizes) ∧ request.kind = .ok .get ∧
      ¬ByteExact nulRequest request := by
  obtain ⟨r, hr⟩ : ∃ r, parseClientRequest 5 nulRequest [] = .ok r := ⟨_, rfl⟩
  obtain ⟨request, sizes⟩ := r
  refine ⟨5, request, sizes, by decide, hr, ?_, fun hexact => ?_⟩
  · have hkind : (parseClientRequest 5 nulRequest []).toOption.map (fun r => r.1.kind) =
        some (.ok .get) := by decide
    rw [hr] at hkind
    exact Option.some.inj hkind
  · obtain ⟨hcopy, hread⟩ := parseClientRequest_copy hr
    have hone : Results.Splits fun _ _ => 1 := fun _ n hn => ⟨le_rfl, Int.ofNat_le.mpr hn⟩
    have hall := hexact ⟨true, fun _ _ => 1, fun _ _ => 1, []⟩ (fun _ => 0) (fun _ => 0) rfl hone hone
    rw [serveRequest_of_splits rfl hone hone _ _ hread (by decide), hcopy] at hall
    have hbytes := (Served.mk.inj (Option.some.inj hall)).1
    exact absurd hbytes (by decide)

end OSProjects.Proxy.Relay
