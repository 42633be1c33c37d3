import Mathlib.Data.List.Chain
import Mathlib.Logic.Function.Basic
import OSProjects.Foundation.StepSystem
import OSProjects.Proxy.Request

/-!
# The cursor of `strtok`

`parse_client_request` in any number of listeners, one call of `strtok` after the other. The
place where `strtok` goes on is one variable of the C library, and all listeners share it.
-/

namespace OSProjects.Proxy

open StringSearch StepSystem

/-! ## Calls of `strtok` in listeners -/

/-- Where `strtok` goes on when it is called with `NULL`. -/
inductive Cursor (L : Type*)
  | unset
  /-- In the buffer of a listener, with the memory from there on. -/
  | inBuffer (l : L) (rest : List UInt8)
  /-- In a buffer that has been freed. -/
  | freed

/-- What a listener keeps between two calls of `strtok`: its request and what it has found. -/
inductive Parser
  | idle
  | parsing (bytes junk : List UInt8) (parsed : Parsed)

/-- A call of `parse_client_request` that has ended. -/
structure Parse where
  bytes : List UInt8
  junk : List UInt8
  result : Except Crash Parsed

/-- The listeners, the cursor that they share, and the requests that have been parsed. -/
structure Parses (L : Type*) where
  cursor : Cursor L
  parser : L → Parser
  ended : List Parse

/-- A listener's first call of `strtok` for a request, and its later ones. -/
inductive ParseAct (L : Type*)
  | first (l : L) (bytes junk : List UInt8)
  | next (l : L)

/-- The listener that calls. -/
def ParseAct.caller {L : Type*} : ParseAct L → L
  | .first l _ _ => l
  | .next l => l

section Calls

variable {L : Type*} [DecidableEq L]

/-- Freeing a listener's buffer. -/
def Cursor.free (cursor : Cursor L) (l : L) : Cursor L :=
  match cursor with
  | .inBuffer owner rest => if owner = l then .freed else .inBuffer owner rest
  | cursor => cursor

/-- The listener goes on with its loop. -/
def Parses.goOn (s : Parses L) (l : L) (cursor : Cursor L) (bytes junk : List UInt8)
    (parsed : Parsed) : Parses L :=
  { s with
    cursor := cursor
    parser := Function.update s.parser l (.parsing bytes junk parsed) }

/-- The listener leaves its loop and frees its buffer. -/
def Parses.leave (s : Parses L) (l : L) (cursor : Cursor L) (bytes junk : List UInt8)
    (result : Except Crash Parsed) : Parses L where
  cursor := cursor.free l
  parser := Function.update s.parser l .idle
  ended := s.ended ++ [⟨bytes, junk, result⟩]

/-- `strtok(read_buffer, "\r\n")` and the first turn of the loop. -/
def Parses.first (s : Parses L) (l : L) (bytes junk : List UInt8) : Parses L :=
  match strtokNext lineEnd (bytes ++ 0 :: junk) with
  | (none, rest) => s.leave l (.inBuffer l rest) bytes junk (.ok Parsed.start)
  | (some token, rest) =>
      match requestLine token.text with
      | .error e => s.leave l (.inBuffer l rest) bytes junk (.error e)
      | .ok (parsed, true) => s.leave l (.inBuffer l rest) bytes junk (.ok parsed)
      | .ok (parsed, false) => s.goOn l (.inBuffer l rest) bytes junk parsed

/-- `strtok(NULL, "\r\n")` in whichever buffer the cursor is, and a later turn. -/
def Parses.next (s : Parses L) (l owner : L) (memory bytes junk : List UInt8)
    (parsed : Parsed) : Parses L :=
  match strtokNext lineEnd memory with
  | (none, rest) => s.leave l (.inBuffer owner rest) bytes junk (.ok parsed)
  | (some token, rest) =>
      s.goOn l (.inBuffer owner rest) bytes junk (headerLine parsed token)

/-- No listener has followed a null pointer. -/
def Parses.alive (s : Parses L) : Prop := ∀ p ∈ s.ended, p.result.isOk = true

instance (s : Parses L) : Decidable s.alive :=
  inferInstanceAs (Decidable (∀ p ∈ s.ended, p.result.isOk = true))

inductive ParseStep : Parses L → ParseAct L → Parses L → Prop
  | first {s l bytes junk} (halive : s.alive) (hl : s.parser l = .idle) :
      ParseStep s (.first l bytes junk) (s.first l bytes junk)
  | next {s l owner memory bytes junk parsed} (halive : s.alive)
      (hl : s.parser l = .parsing bytes junk parsed)
      (hcursor : s.cursor = .inBuffer owner memory) :
      ParseStep s (.next l) (s.next l owner memory bytes junk parsed)
  -- Anything may come of a call in memory that has been freed.
  | freed {s l bytes junk parsed t} (halive : s.alive)
      (hl : s.parser l = .parsing bytes junk parsed) (hcursor : s.cursor = .freed) :
      ParseStep s (.next l) t

/-- The calls that do not run into freed memory, one after the other. -/
def Parses.call (s : Parses L) : ParseAct L → Option (Parses L)
  | .first l bytes junk =>
      match s.parser l with
      | .idle => if s.alive then some (s.first l bytes junk) else none
      | .parsing _ _ _ => none
  | .next l =>
      match s.parser l, s.cursor with
      | .parsing bytes junk parsed, .inBuffer owner memory =>
          if s.alive then some (s.next l owner memory bytes junk parsed) else none
      | _, _ => none

theorem ParseStep.of_call {s t : Parses L} {a : ParseAct L} (h : s.call a = some t) :
    ParseStep s a t := by
  cases a with
  | first l bytes junk =>
      rw [Parses.call] at h
      split at h
      case h_1 hl =>
        obtain ⟨halive, ht⟩ := Option.ite_none_right_eq_some.mp h
        exact Option.some.inj ht ▸ ParseStep.first halive hl
      case h_2 => cases h
  | next l =>
      rw [Parses.call] at h
      split at h
      case h_1 hl hcursor =>
        obtain ⟨halive, ht⟩ := Option.ite_none_right_eq_some.mp h
        exact Option.some.inj ht ▸ ParseStep.next halive hl hcursor
      case h_2 => cases h

theorem run_of_calls {s t : Parses L} {acts : List (ParseAct L)}
    (h : acts.foldlM Parses.call s = some t) : Run ParseStep s acts t := by
  induction acts generalizing s with
  | nil =>
      cases h
      exact Run.nil
  | cons a acts ih =>
      rw [List.foldlM_cons] at h
      obtain ⟨u, hcall, hrest⟩ := Option.bind_eq_some_iff.mp h
      exact (Run.single (ParseStep.of_call hcall)).append (ih hrest)

/-- Before the first request. -/
def Parses.start (L : Type*) : Parses L := ⟨.unset, fun _ => .idle, []⟩

end Calls

/-! ## Parsing alone and with others -/

/-- What `parse_client_request` finds when it runs alone. -/
def alone (bytes junk : List UInt8) : Except Crash Parsed :=
  parseLines (strtok lineEnd (bytes ++ 0 :: junk))

theorem parseClientRequest_alone (fd : Int) (bytes junk : List UInt8) :
    (parseClientRequest fd bytes junk).map (fun r => (r.1.path, r.1.priority, r.1.delay)) =
      (alone bytes junk).map fun p => (p.path, p.priority, p.delay) := by
  rw [parseClientRequest, alone]
  cases parseLines (strtok lineEnd (bytes ++ 0 :: junk)) with
  | error e => rfl
  | ok parsed => rfl

/-- The path, the priority and the delay of a parse are those of `parse_client_request` alone. -/
def Parse.Independent (p : Parse) : Prop :=
  ∀ fd, p.result.map (fun r => (r.path, r.priority, r.delay)) =
    (parseClientRequest fd p.bytes p.junk).map fun r => (r.1.path, r.1.priority, r.1.delay)

theorem Parse.Independent.delay {p : Parse} (h : p.Independent) (fd : Int) :
    p.result.toOption.map Parsed.delay =
      (parseClientRequest fd p.bytes p.junk).toOption.map fun r => r.1.delay := by
  have hfound := h fd
  cases hresult : p.result with
  | error e =>
      cases hother : parseClientRequest fd p.bytes p.junk with
      | error e' => rfl
      | ok r =>
          rw [hresult, hother] at hfound
          cases hfound
  | ok parsed =>
      cases hother : parseClientRequest fd p.bytes p.junk with
      | error e' =>
          rw [hresult, hother] at hfound
          cases hfound
      | ok r =>
          rw [hresult, hother] at hfound
          have hsame := Except.ok.inj hfound
          exact congrArg (fun f => some f.2.2) hsame

/-- No other listener calls `strtok` between two calls of one parse. -/
def Uninterrupted {L : Type*} (a b : ParseAct L) : Prop :=
  match b with
  | .first _ _ _ => True
  | .next l => a.caller = l

section Laws

variable {L : Type*} [DecidableEq L] {s : Parses L} {l : L} {bytes junk : List UInt8}

/-- Every parse that has ended has found what it finds alone. -/
def Parses.Own (s : Parses L) : Prop := ∀ p ∈ s.ended, p.result = alone p.bytes p.junk

/-- The cursor is where the listener will find the rest of its own request. -/
def Parses.OnTrack (s : Parses L) (l : L) : Prop :=
  ∀ bytes junk parsed, s.parser l = .parsing bytes junk parsed →
    ∃ rest, s.cursor = .inBuffer l rest ∧ 0 ∈ rest ∧
      alone bytes junk = .ok ((strtok lineEnd rest).foldl headerLine parsed)

theorem Parses.Own.leave (h : s.Own) (cursor : Cursor L) {result : Except Crash Parsed}
    (hresult : result = alone bytes junk) : (s.leave l cursor bytes junk result).Own := by
  intro p hp
  rcases List.mem_append.mp hp with hp | hp
  · exact h p hp
  · rw [List.mem_singleton.mp hp]
    exact hresult

theorem Parses.OnTrack.leave (s : Parses L) (cursor : Cursor L) (result : Except Crash Parsed) :
    (s.leave l cursor bytes junk result).OnTrack l := by
  intro bytes' junk' parsed hparser
  simp [Parses.leave] at hparser

theorem Parses.OnTrack.goOn (s : Parses L) {rest : List UInt8} {parsed : Parsed}
    (hrest : 0 ∈ rest)
    (halone : alone bytes junk = .ok ((strtok lineEnd rest).foldl headerLine parsed)) :
    (s.goOn l (.inBuffer l rest) bytes junk parsed).OnTrack l := by
  intro bytes' junk' parsed' hparser
  have hself : Parser.parsing bytes junk parsed = .parsing bytes' junk' parsed' := by
    simpa [Parses.goOn] using hparser
  cases hself
  exact ⟨rest, rfl, hrest, halone⟩

/-- The first call is the beginning of a parse that runs alone. -/
theorem Parses.first_own (h : s.Own) (l : L) (bytes junk : List UInt8) :
    (s.first l bytes junk).Own ∧ (s.first l bytes junk).OnTrack l := by
  have hmem : (0 : UInt8) ∈ bytes ++ 0 :: junk := by simp
  rw [Parses.first]
  rcases hcall : strtokNext lineEnd (bytes ++ 0 :: junk) with ⟨_ | token, rest⟩
  · have halone : alone bytes junk = .ok Parsed.start := by
      rw [alone, strtok_eq_nil hmem hcall, parseLines]
    exact ⟨h.leave _ halone.symm, Parses.OnTrack.leave s _ _⟩
  · have htokens := strtok_eq_cons hmem hcall
    rcases hline : requestLine token.text with e | ⟨parsed, _ | _⟩
    · have halone : alone bytes junk = .error e := by
        simp only [alone, htokens, parseLines, hline]
      simp only [hline]
      exact ⟨h.leave _ halone.symm, Parses.OnTrack.leave s _ _⟩
    · have halone : alone bytes junk = .ok ((strtok lineEnd rest).foldl headerLine parsed) := by
        simp only [alone, htokens, parseLines, hline]
      simp only [hline]
      exact ⟨h, Parses.OnTrack.goOn s (zero_mem_rest hmem hcall) halone⟩
    · have halone : alone bytes junk = .ok parsed := by
        simp only [alone, htokens, parseLines, hline]
      simp only [hline]
      exact ⟨h.leave _ halone.symm, Parses.OnTrack.leave s _ _⟩

/-- A later call goes on with its own request when the cursor has stayed there. -/
theorem Parses.next_own (h : s.Own) {rest : List UInt8} {parsed : Parsed} (hrest : 0 ∈ rest)
    (halone : alone bytes junk = .ok ((strtok lineEnd rest).foldl headerLine parsed)) :
    (s.next l l rest bytes junk parsed).Own ∧ (s.next l l rest bytes junk parsed).OnTrack l := by
  rw [Parses.next]
  rcases hcall : strtokNext lineEnd rest with ⟨_ | token, rest'⟩
  · rw [strtok_eq_nil hrest hcall, List.foldl_nil] at halone
    exact ⟨h.leave _ halone.symm, Parses.OnTrack.leave s _ _⟩
  · rw [strtok_eq_cons hrest hcall, List.foldl_cons] at halone
    exact ⟨h, Parses.OnTrack.goOn s (zero_mem_rest hrest hcall) halone⟩

/-- A call whose listener is on track leaves it on track. -/
theorem ParseStep.own {t : Parses L} {a : ParseAct L} (h : ParseStep s a t) (hown : s.Own)
    (htrack : ∀ l, a = .next l → s.OnTrack l) : t.Own ∧ t.OnTrack a.caller := by
  cases h with
  | @first l bytes junk halive hl => exact Parses.first_own hown l bytes junk
  | @next l owner memory bytes junk parsed halive hl hcursor =>
      obtain ⟨rest, hplace, hrest, halone⟩ := htrack l rfl bytes junk parsed hl
      rw [hplace] at hcursor
      cases hcursor
      exact Parses.next_own hown hrest halone
  | @freed l bytes junk parsed t halive hl hcursor =>
      obtain ⟨rest, hplace, -⟩ := htrack l rfl bytes junk parsed hl
      rw [hplace] at hcursor
      cases hcursor

/-- As long as no parse is interrupted, the last caller is on track. -/
theorem own_of_uninterrupted {ls : List (ParseAct L)} {t : Parses L}
    (h : Run ParseStep (Parses.start L) ls t) (hcalls : ls.IsChain Uninterrupted) :
    t.Own ∧ ∀ a ∈ ls.getLast?, t.OnTrack a.caller := by
  induction h with
  | nil => exact ⟨by simp [Parses.Own, Parses.start], by simp⟩
  | @concat ls t a u hrun hstep ih =>
      obtain ⟨hbefore, -, hlast⟩ := List.isChain_append.mp hcalls
      obtain ⟨hown, htrack⟩ := ih hbefore
      have hcaller : ∀ l, a = .next l → t.OnTrack l := by
        rintro l rfl
        cases hprev : ls.getLast? with
        | none =>
            rw [List.getLast?_eq_none_iff.mp hprev] at hrun
            rw [hrun.eq_of_nil]
            intro bytes junk parsed hparser
            cases hparser
        | some b =>
            have hb : Uninterrupted b (.next l) := hlast b hprev (.next l) rfl
            exact hb ▸ htrack b hprev
      obtain ⟨hown', htrack'⟩ := hstep.own hown hcaller
      refine ⟨hown', fun b hb => ?_⟩
      rw [List.getLast?_concat] at hb
      exact Option.some.inj hb ▸ htrack'

end Laws

/-- When no other listener calls `strtok` between two calls of one parse, every parse finds
what it finds alone. -/
theorem parse_independent {L : Type*} [DecidableEq L] {ls : List (ParseAct L)} {t : Parses L}
    (h : Run ParseStep (Parses.start L) ls t) (hcalls : ls.IsChain Uninterrupted) :
    ∀ p ∈ t.ended, p.Independent := by
  intro p hp fd
  rw [parseClientRequest_alone, (own_of_uninterrupted h hcalls).1 p hp]

/-! ## Two listeners -/

/-- `GET /1/a x`, and `GET /2/b x`, with a delay each. -/
def delayFive : List UInt8 :=
  ascii ['G', 'E', 'T', ' ', '/', '1', '/', 'a', ' ', 'x', '\r', '\n',
    'D', 'e', 'l', 'a', 'y', ':', ' ', '5']

def delayNine : List UInt8 :=
  ascii ['G', 'E', 'T', ' ', '/', '2', '/', 'b', ' ', 'x', '\r', '\n',
    'D', 'e', 'l', 'a', 'y', ':', ' ', '9']

/-- The delays that parses have found. -/
def Parses.delays {L : Type*} (s : Parses L) : List (Option Int) :=
  s.ended.map fun p => p.result.toOption.map Parsed.delay

/-- One listener after the other. -/
def inTurn : List (ParseAct Bool) :=
  [.first true delayFive [], .next true, .next true,
    .first false delayNine [], .next false, .next false]

theorem parse_independent_in_turn :
    ∃ t, Run ParseStep (Parses.start Bool) inTurn t ∧ t.delays = [some 5, some 9] ∧
      ∀ p ∈ t.ended, p.Independent := by
  have hrun : (inTurn.foldlM Parses.call (Parses.start Bool)).any
      (fun t => decide (t.delays = [some 5, some 9])) = true := by
    decide +kernel
  obtain ⟨t, ht, hdelays⟩ := (Option.any_eq_true _ _).mp hrun
  have hcalls : inTurn.IsChain Uninterrupted := by
    simp [inTurn, Uninterrupted, ParseAct.caller]
  exact ⟨t, run_of_calls ht, of_decide_eq_true hdelays, parse_independent (run_of_calls ht) hcalls⟩

/-- A second listener starts in the middle of the first one's parse. -/
def inBetween : List (ParseAct Bool) :=
  [.first true delayFive [], .first false delayNine [], .next true, .next true]

/-- The first listener reads the delay in the second one's request. -/
theorem delay_of_other_request :
    ¬∀ (acts : List (ParseAct Bool)) (t : Parses Bool),
      Run ParseStep (Parses.start Bool) acts t → ∀ p ∈ t.ended, p.Independent := by
  intro h
  have hrun : (inBetween.foldlM Parses.call (Parses.start Bool)).any
      (fun t => decide (∃ p ∈ t.ended, p.result.toOption.map Parsed.delay = some 9 ∧
        (parseClientRequest 0 p.bytes p.junk).toOption.map (fun r => r.1.delay) = some 5)) =
      true := by
    decide +kernel
  obtain ⟨t, ht, hdelays⟩ := (Option.any_eq_true _ _).mp hrun
  obtain ⟨p, hp, hnine, hfive⟩ := of_decide_eq_true hdelays
  have hsame := (h inBetween t (run_of_calls ht) p hp).delay 0
  rw [hnine, hfive] at hsame
  cases hsame

end OSProjects.Proxy
