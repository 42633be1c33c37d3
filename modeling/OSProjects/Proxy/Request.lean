import OSProjects.Foundation.StringSearch
import OSProjects.Proxy.SafeQueue

/-!
# Requests

`parse_client_request` and the dispatch of `serve_forever`. The model stops where the
source follows a null pointer, and keeps the lengths that the source passes on.
-/

namespace OSProjects.Proxy

open StringSearch StepSystem PriorityQueue

/-! ## Parsing -/

/-- Where the process is killed by a signal. -/
inductive Crash
  /-- `strstr(NULL, ...)`, also with a pointer next to `NULL`. -/
  | nullString
  /-- A string that starts behind the end of its buffer. -/
  | pastEnd
  /-- An element of the queue that no call has set. -/
  | strayPointer
  deriving DecidableEq, Repr

def libhttpRequestMaxSize : Nat := 8192

def getJobCmd : List UInt8 := ascii ['/', 'G', 'e', 't', 'J', 'o', 'b']
def getJobName : List UInt8 := ascii ['G', 'e', 't', 'J', 'o', 'b']
def getName : List UInt8 := ascii ['G', 'E', 'T']
def delayName : List UInt8 := ascii ['D', 'e', 'l', 'a', 'y']
def space : UInt8 := 32
def slash : UInt8 := 47
def colon : UInt8 := 58

/-- A character of `"\r\n"`. -/
def lineEnd (b : UInt8) : Bool := b == 13 || b == 10

/-- What the loop of `parse_client_request` has found so far. `sizes` lists the values of
`size` that were passed to `strndup` and `strncmp`; `none` is one that has wrapped around. -/
structure Parsed where
  path : Option (List UInt8)
  priority : Int
  delay : Int
  sizes : List (Option Nat)

def Parsed.start : Parsed := ⟨none, -1, -1, []⟩

/-- The first turn of the loop; true where it leaves the loop. -/
def requestLine (token : List UInt8) : Except Crash (Parsed × Bool) :=
  match strstr [space] token with
  | none => .error .nullString
  | some s1 =>
      let size := strstr [space] (token.drop (s1 + 1))
      let path := strndup (token.drop (s1 + 1)) size
      if path = getJobCmd then .ok (⟨some path, -1, -1, [size]⟩, true)
      else
        match strstr [slash] path with
        | none => .error .nullString
        | some s1 =>
            let size2 := strstr [slash] (path.drop (s1 + 1))
            .ok (⟨some path, atoi (strndup (path.drop (s1 + 1)) size2), -1, [size, size2]⟩, false)

/-- `value - token - 1` for the index of the colon. -/
def nameSize : Nat → Option Nat
  | 0 => none
  | i + 1 => some i

/-- A later turn of the loop. -/
def headerLine (parsed : Parsed) (token : Token) : Parsed :=
  match strstr [colon] token.text with
  | none => parsed
  | some i =>
      let parsed := { parsed with sizes := parsed.sizes ++ [nameSize i] }
      if strncmpZero delayName token.text (nameSize i) then
        { parsed with delay := atoi (token.from (i + 2)) }
      else parsed

/-- The loop of `parse_client_request`. -/
def parseLines : List Token → Except Crash Parsed
  | [] => .ok Parsed.start
  | first :: rest =>
      match requestLine first.text with
      | .error e => .error e
      | .ok (parsed, true) => .ok parsed
      | .ok (parsed, false) => .ok (rest.foldl headerLine parsed)

/-- `parse_client_request`, where `read` has delivered `bytes` and `junk` lies in memory
behind the NUL that is put after them. -/
def parseClientRequest (fd : Int) (bytes junk : List UInt8) :
    Except Crash (ClientRequest × List (Option Nat)) :=
  let readBuffer := bytes ++ 0 :: junk
  match parseLines (strtok lineEnd readBuffer) with
  | .error e => .error e
  | .ok parsed =>
      .ok (⟨parsed.path, parsed.priority, parsed.delay, bytes.length, fd, cstr readBuffer⟩,
        parsed.sizes)

/-! ## Dispatch -/

/-- What becomes of a request at its listener. -/
inductive Outcome
  /-- `send_error_response` with a status and a text. -/
  | answered (status : Nat) (text : List UInt8)
  | queued
  /-- `add_work` has found the queue full and returned. -/
  | dropped
  /-- `get_work` waits. -/
  | blocked
  deriving DecidableEq

def statusOk : Nat := 200
def badRequest : Nat := 400
def queueEmpty : Nat := 598
def queueFull : Nat := 599

def queueEmptyText : List UInt8 :=
  ascii ['Q', 'u', 'e', 'u', 'e', ' ', 'i', 's', ' ', 'e', 'm', 'p', 't', 'y']

def queueFullText : List UInt8 :=
  ascii ['Q', 'u', 'e', 'u', 'e', ' ', 'i', 's', ' ', 'f', 'u', 'l', 'l']

def badRequestText : List UInt8 :=
  ascii ['B', 'a', 'd', ' ', 'r', 'e', 'q', 'u', 'e', 's', 't']

/-- The branches of `serve_forever`. -/
inductive Kind
  | getJob | get | other
  deriving DecidableEq, Repr

/-- Which branch `serve_forever` takes for a request. -/
def ClientRequest.kind (request : ClientRequest) : Except Crash Kind :=
  match request.path with
  | none => .error .nullString
  | some path =>
      if (strstr getJobName path).isSome then .ok .getJob
      else if (strstr getName request.readBuffer).isSome then .ok .get
      else .ok .other

/-- `job->read_buffer + 4`. -/
def jobText (job : ClientRequest) : Except Crash (List UInt8) :=
  if 4 ≤ job.readBuffer.length then .ok (job.readBuffer.drop 4) else .error .pastEnd

/-- What `serve_forever` does with a parsed request up to its call of `display`, when it has
read `size` outside the lock and finds `q` when it has the lock. -/
def dispatch (maxQueueSize size : Nat) (q : PriorityQueue) (request : ClientRequest) :
    Except Crash (Outcome × PriorityQueue) :=
  match request.kind with
  | .error e => .error e
  | .ok .getJob =>
      if size = 0 then .ok (.answered queueEmpty queueEmptyText, q)
      else if q.size = 0 then .ok (.blocked, q)
      else
        match jobText q.getWork.1 with
        | .error e => .error e
        | .ok text => .ok (.answered statusOk text, q.getWork.2)
  | .ok .get =>
      if size = maxQueueSize then .ok (.answered queueFull queueFullText, q)
      else .ok (if q.size < q.capacity then .queued else .dropped, q.addWork request)
  | .ok .other => .ok (.answered badRequest badRequestText, q)

end OSProjects.Proxy
