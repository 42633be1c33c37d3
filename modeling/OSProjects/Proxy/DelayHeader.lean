import Mathlib.Data.List.DropRight
import OSProjects.Proxy.Malformed

/-!
# The `Delay` header

The parser compares the name of a header up to the byte in front of its last one, and goes on
behind the blank line. Which requests it reads the right priority and delay from.
-/

namespace OSProjects.Proxy

open StringSearch StepSystem PriorityQueue

/-! ## Requests with headers -/

/-- Bytes of one line. -/
def Plain (s : List UInt8) : Prop := ∀ b ∈ s, b ≠ 0 ∧ lineEnd b = false

instance (s : List UInt8) : Decidable (Plain s) :=
  inferInstanceAs (Decidable (∀ b ∈ s, b ≠ 0 ∧ lineEnd b = false))

/-- A header line `Name: value`. -/
structure Header where
  name : List UInt8
  value : List UInt8
  name_plain : Plain name
  value_plain : Plain value
  noColon : colon ∉ name

def crlf : List UInt8 := [13, 10]

def Header.line (h : Header) : List UInt8 := h.name ++ colon :: space :: h.value

/-- A request with the target `/number/tail`, its headers, a blank line and a body. -/
structure HttpRequest where
  method : List UInt8
  number : List UInt8
  tail : List UInt8
  version : List UInt8
  headers : List Header
  body : List UInt8
  method_plain : Plain method
  method_word : space ∉ method
  number_digits : number ≠ [] ∧ ∀ b ∈ number, isDigit b = true
  tail_plain : Plain tail
  tail_word : space ∉ tail
  version_plain : Plain version

namespace HttpRequest

variable (r : HttpRequest)

def target : List UInt8 := slash :: (r.number ++ slash :: r.tail)

def firstLine : List UInt8 := r.method ++ space :: (r.target ++ space :: r.version)

/-- The headers and the blank line. -/
def headerBlock (headers : List Header) : List UInt8 :=
  (headers.flatMap fun h => h.line ++ crlf) ++ crlf

/-- What the client sends. -/
def text : List UInt8 := r.firstLine ++ crlf ++ headerBlock r.headers ++ r.body

end HttpRequest

/-! ## Numbers -/

/-- The integer that a text starts with. -/
def intValue (s : List UInt8) : Int :=
  match s.dropWhile isSpace with
  | 45 :: s => -(digits s : Int)
  | 43 :: s => digits s
  | s => digits s

/-- The values of an `int`. -/
def FitsInt (z : Int) : Prop := -2 ^ 31 ≤ z ∧ z < 2 ^ 31

instance (z : Int) : Decidable (FitsInt z) := inferInstanceAs (Decidable (_ ∧ _))

section Numbers

variable {s : List UInt8}

theorem atoi_eq (s : List UInt8) :
    atoi s = (max (-2 ^ 63) (min (intValue s) (2 ^ 63 - 1)) + 2 ^ 31) % 2 ^ 32 - 2 ^ 31 := rfl

theorem fitsInt_atoi (s : List UInt8) : FitsInt (atoi s) := by
  rw [atoi_eq, FitsInt]
  omega

/-- `atoi` returns the integer exactly when it is an `int`. -/
theorem atoi_eq_iff : atoi s = intValue s ↔ FitsInt (intValue s) := by
  constructor
  · intro h
    rw [← h]
    exact fitsInt_atoi s
  · rintro ⟨hlow, hhigh⟩
    rw [atoi_eq]
    omega

/-- A text of digits stands for their value. -/
theorem intValue_digits (h : ∀ b ∈ s, isDigit b = true) : intValue s = digits s := by
  cases s with
  | nil => rfl
  | cons b s =>
      have hb := h b List.mem_cons_self
      simp only [isDigit, Bool.and_eq_true, decide_eq_true_eq] at hb
      have hspace : isSpace b = false := by
        simp only [isSpace, Bool.or_eq_false_iff, beq_eq_false_iff_ne, Bool.and_eq_false_iff,
          decide_eq_false_iff_not, ne_eq]
        refine ⟨?_, Or.inr ?_⟩
        · rintro rfl
          exact absurd hb.1 (by decide)
        · exact fun hle => absurd (UInt8.le_trans hb.1 hle) (by decide)
      rw [intValue, List.dropWhile_cons_of_neg (by rw [hspace]; nofun)]
      split
      case h_1 heq =>
        obtain ⟨rfl, -⟩ := List.cons.inj heq
        exact absurd hb.1 (by decide)
      case h_2 heq =>
        obtain ⟨rfl, -⟩ := List.cons.inj heq
        exact absurd hb.1 (by decide)
      case h_3 => rfl

end Numbers

/-! ## What a line sets -/

/-- The delay that a line sets. -/
def delayOf (t : Token) : Option Int :=
  match strstr [colon] t.text with
  | none => none
  | some i =>
      if strncmpZero delayName t.text (nameSize i) then some (atoi (t.from (i + 2))) else none

/-- A name that differs from `Delay` at most in its last byte, or is the start of such a
name. -/
def Header.lookalike (h : Header) : Bool := !h.name.isEmpty && h.name.dropLast.isPrefixOf delayName

/-- The delay that the parser takes from a header. -/
def Header.delay (h : Header) : Option Int := if h.lookalike then some (atoi h.value) else none

section Lines

variable {parsed : Parsed} {t : Token}

theorem headerLine_delay (parsed : Parsed) (t : Token) :
    (headerLine parsed t).delay = (delayOf t).getD parsed.delay := by
  rw [headerLine, delayOf]
  cases strstr [colon] t.text with
  | none => rfl
  | some i =>
      dsimp only
      split <;> rfl

theorem headerLine_priority (parsed : Parsed) (t : Token) :
    (headerLine parsed t).priority = parsed.priority := by
  rw [headerLine]
  split
  · rfl
  · dsimp only
    split <;> rfl

/-- The last line that sets a delay decides. -/
theorem foldl_headerLine_delay (tokens : List Token) (parsed : Parsed) :
    (tokens.foldl headerLine parsed).delay =
      (tokens.filterMap delayOf).getLast?.getD parsed.delay := by
  induction tokens generalizing parsed with
  | nil => rfl
  | cons t rest ih =>
      rw [List.foldl_cons, ih, headerLine_delay, List.filterMap_cons]
      cases delayOf t with
      | none => rfl
      | some d =>
          dsimp only
          rw [List.getLast?_cons, Option.getD_some, Option.getD_some]

theorem foldl_headerLine_priority (tokens : List Token) (parsed : Parsed) :
    (tokens.foldl headerLine parsed).priority = parsed.priority := by
  induction tokens generalizing parsed with
  | nil => rfl
  | cons t rest ih => rw [List.foldl_cons, ih, headerLine_priority]

/-- The names that the comparison takes for `Delay`. -/
theorem strncmpZero_iff (h : Header) (s : List UInt8) :
    strncmpZero delayName (h.name ++ colon :: s) (nameSize h.name.length) = h.lookalike := by
  rcases List.eq_nil_or_concat h.name with hname | ⟨front, last, hname⟩
  · rw [Header.lookalike, hname]
    simp only [List.nil_append, List.length_nil, nameSize, strncmpZero, strndup,
      List.isEmpty_nil, Bool.not_true, Bool.false_and, beq_eq_false_iff_ne]
    intro heq
    exact absurd (List.cons.inj heq).1 (by decide)
  · have hlength : nameSize (front ++ [last]).length = some front.length := by
      rw [List.length_append, List.length_singleton, nameSize]
    have htake : (front ++ [last] ++ colon :: s).take front.length = front := by
      rw [List.append_assoc, List.take_left]
    rw [Header.lookalike, hname, List.concat_eq_append, hlength, strncmpZero, strndup, strndup,
      htake, List.dropLast_concat, Bool.eq_iff_iff]
    have hne : (front ++ [last]).isEmpty = false := by simp
    rw [hne, Bool.not_false, Bool.true_and, beq_iff_eq, List.isPrefixOf_iff_prefix,
      List.prefix_iff_eq_take, eq_comm]

/-- What a header line sets depends on the header only. -/
theorem delayOf_header {h : Header} (ht : t.text = h.line) : delayOf t = h.delay := by
  have hcolon : strstr [colon] h.line = some h.name.length := strstr_split h.noColon
  have hvalue : t.from (h.name.length + 2) = h.value := by
    have hlength : h.name.length + 2 ≤ h.line.length := by
      simp only [Header.line, List.length_append, List.length_cons]
      omega
    rw [Token.from, ht, if_pos hlength, Header.line, ← List.drop_drop, List.drop_left]
    rfl
  rw [delayOf, ht, hcolon]
  dsimp only
  rw [hvalue, Header.line, strncmpZero_iff, Header.delay]

end Lines

/-! ## The tokens of a request -/

section Tokens

variable {beyond s n : List UInt8} {c : UInt8}

theorem Plain.sep (h : Plain n) : ∀ b ∈ n, lineEnd b = false := fun b hb => (h b hb).2

theorem Plain.noNul (h : Plain n) : 0 ∉ n := fun hmem => (h 0 hmem).1 rfl

theorem Plain.append (hs : Plain s) (hn : Plain n) : Plain (s ++ n) := by
  intro b hb
  rcases List.mem_append.mp hb with hb | hb
  · exact hs b hb
  · exact hn b hb

theorem Plain.cons (hc : c ≠ 0 ∧ lineEnd c = false) (hn : Plain n) : Plain (c :: n) :=
  List.forall_mem_cons.mpr ⟨hc, hn⟩

/-- A line is a token, whatever follows. -/
theorem tokensFrom_line (hn : Plain n) (hne : n ≠ []) (beyond s : List UInt8) :
    ∃ t, t.text = n ∧
      tokensFrom lineEnd beyond (n ++ crlf ++ s) [] = t :: tokensFrom lineEnd beyond s [] := by
  refine ⟨⟨n, 10 :: s ++ 0 :: beyond⟩, rfl, ?_⟩
  rw [List.append_assoc, tokensFrom_run hn.sep, List.nil_append]
  have hcr : lineEnd 13 = true := rfl
  have hlf : lineEnd 10 = true := rfl
  rw [crlf, List.cons_append, tokensFrom, if_pos hcr, if_neg hne, List.cons_append, tokensFrom,
    if_pos hlf, if_pos rfl, List.nil_append]

/-- The blank line is no token. -/
theorem tokensFrom_crlf (beyond s : List UInt8) :
    tokensFrom lineEnd beyond (crlf ++ s) [] = tokensFrom lineEnd beyond s [] := by
  have hcr : lineEnd 13 = true := rfl
  have hlf : lineEnd 10 = true := rfl
  rw [crlf, List.cons_append, tokensFrom, if_pos hcr, if_pos rfl, List.cons_append, tokensFrom,
    if_pos hlf, if_pos rfl, List.nil_append]

theorem Header.line_plain (h : Header) : Plain h.line :=
  h.name_plain.append (Plain.cons ⟨by decide, rfl⟩ (Plain.cons ⟨by decide, rfl⟩ h.value_plain))

theorem Header.line_ne_nil (h : Header) : h.line ≠ [] := by simp [Header.line]

/-- Every header is a token, and they set what the headers set. -/
theorem tokensFrom_headerBlock (headers : List Header) (beyond s : List UInt8) :
    ∃ ts, ts.filterMap delayOf = headers.filterMap Header.delay ∧
      tokensFrom lineEnd beyond (HttpRequest.headerBlock headers ++ s) [] =
        ts ++ tokensFrom lineEnd beyond s [] := by
  induction headers with
  | nil => exact ⟨[], rfl, tokensFrom_crlf beyond s⟩
  | cons h rest ih =>
      obtain ⟨ts, hts, htokens⟩ := ih
      obtain ⟨t, ht, hline⟩ := tokensFrom_line h.line_plain h.line_ne_nil beyond
        (HttpRequest.headerBlock rest ++ s)
      refine ⟨t :: ts, ?_, ?_⟩
      · rw [List.filterMap_cons, List.filterMap_cons, delayOf_header ht, hts]
      · have hblock : HttpRequest.headerBlock (h :: rest) =
            h.line ++ crlf ++ HttpRequest.headerBlock rest := by
          rw [HttpRequest.headerBlock, List.flatMap_cons, List.append_assoc]
          rfl
        rw [hblock, List.append_assoc, hline, htokens, List.cons_append]

end Tokens

namespace HttpRequest

variable (r : HttpRequest)

theorem firstLine_plain : Plain r.firstLine := by
  have hnumber : Plain r.number := by
    intro b hb
    have hdigit := r.number_digits.2 b hb
    simp only [isDigit, Bool.and_eq_true, decide_eq_true_eq] at hdigit
    refine ⟨?_, ?_⟩
    · rintro rfl
      exact absurd hdigit.1 (by decide)
    · rw [lineEnd, Bool.or_eq_false_iff, beq_eq_false_iff_ne, beq_eq_false_iff_ne]
      constructor <;>
      · rintro rfl
        exact absurd hdigit.1 (by decide)
  have hslash : slash ≠ 0 ∧ lineEnd slash = false := ⟨by decide, rfl⟩
  have hspace : space ≠ 0 ∧ lineEnd space = false := ⟨by decide, rfl⟩
  have htarget : Plain r.target := (hnumber.append (r.tail_plain.cons hslash)).cons hslash
  exact r.method_plain.append ((htarget.append (r.version_plain.cons hspace)).cons hspace)

theorem target_word : space ∉ r.target := by
  have hnumber : space ∉ r.number := by
    intro hmem
    exact absurd (r.number_digits.2 space hmem) (by decide)
  rw [target, List.mem_cons, List.mem_append, List.mem_cons]
  rintro (h | h | h | h)
  · exact absurd h (by decide)
  · exact hnumber h
  · exact absurd h (by decide)
  · exact r.tail_word h

theorem headerBlock_noNul (headers : List Header) : 0 ∉ headerBlock headers := by
  rw [headerBlock, List.mem_append, List.mem_flatMap]
  rintro (⟨h, -, hmem⟩ | hmem)
  · rcases List.mem_append.mp hmem with hmem | hmem
    · exact h.line_plain.noNul hmem
    · exact absurd hmem (by decide)
  · exact absurd hmem (by decide)

/-- The tokens of a request: its first line, its headers, and the lines of its body. -/
theorem strtok_text (junk : List UInt8) :
    ∃ first ts, first.text = r.firstLine ∧
      ts.filterMap delayOf = r.headers.filterMap Header.delay ∧
      strtok lineEnd (r.text ++ 0 :: junk) =
        first :: (ts ++ strtok lineEnd (r.body ++ 0 :: junk)) := by
  have hnul : 0 ∉ r.firstLine ++ crlf ++ headerBlock r.headers := by
    rw [List.mem_append, List.mem_append]
    rintro ((h | h) | h)
    · exact r.firstLine_plain.noNul h
    · exact absurd h (by decide)
    · exact headerBlock_noNul r.headers h
  have hne : r.firstLine ≠ [] := by simp [firstLine]
  have hsplit : strtok lineEnd (r.firstLine ++ crlf ++ headerBlock r.headers ++
      (r.body ++ 0 :: junk)) = _ := strtok_append hnul (r.body ++ 0 :: junk)
  generalize hbeyond : (r.body ++ 0 :: junk).drop ((cstr (r.body ++ 0 :: junk)).length + 1) =
    beyond at hsplit
  obtain ⟨ts, hts, hheaders⟩ :=
    tokensFrom_headerBlock r.headers beyond (cstr (r.body ++ 0 :: junk))
  obtain ⟨first, hfirst, hline⟩ := tokensFrom_line r.firstLine_plain hne beyond
    (headerBlock r.headers ++ cstr (r.body ++ 0 :: junk))
  refine ⟨first, ts, hfirst, hts, ?_⟩
  rw [text, List.append_assoc, hsplit, List.append_assoc, hline, hheaders, ← hbeyond]
  rfl

/-! ## What is read and what is meant -/

/-- The delays that the lines of the body set. -/
def bodyDelays (junk : List UInt8) : List Int :=
  (strtok lineEnd (r.body ++ 0 :: junk)).filterMap delayOf

/-- The parser reads every request of this form. -/
theorem parse_text (fd : Int) (junk : List UInt8) :
    ∃ request sizes, parseClientRequest fd r.text junk = .ok (request, sizes) ∧
      request.priority = atoi r.number ∧
        request.delay =
          (r.headers.filterMap Header.delay ++ r.bodyDelays junk).getLast?.getD (-1) := by
  obtain ⟨first, ts, hfirst, hts, htokens⟩ := r.strtok_text junk
  have hjob : r.target ≠ getJobCmd := by
    intro heq
    -- The first byte of the number is a digit.
    obtain ⟨b, rest, hnumber⟩ := List.exists_cons_of_ne_nil r.number_digits.1
    have hdigit := r.number_digits.2 b (by rw [hnumber]; exact List.mem_cons_self)
    rw [target, hnumber, List.cons_append] at heq
    obtain ⟨-, hrest⟩ := List.cons.inj heq
    obtain ⟨rfl, -⟩ := List.cons.inj hrest
    exact absurd hdigit (by decide)
  have hdigits : slash ∉ r.number := fun hmem =>
    absurd (r.number_digits.2 slash hmem) (by decide)
  have hslash : strstr [slash] r.target = some 0 := @strstr_split _ [] _ List.not_mem_nil
  have hdrop : r.target.drop (0 + 1) = r.number ++ slash :: r.tail := rfl
  have hnumber : strstr [slash] (r.number ++ slash :: r.tail) = some r.number.length :=
    strstr_split hdigits
  have hcopy : strndup (r.number ++ slash :: r.tail) (some r.number.length) = r.number :=
    List.take_left
  have hline : requestLine first.text = .ok (⟨some r.target, atoi r.number, -1,
      [some r.target.length, some r.number.length]⟩, false) := by
    rw [hfirst, firstLine, requestLine_split r.method_word r.target_word, if_neg hjob, hslash]
    dsimp only
    rw [hdrop, hnumber, hcopy]
  rw [parseClientRequest, htokens, parseLines, hline]
  refine ⟨_, _, rfl, ?_, ?_⟩
  · rw [foldl_headerLine_priority]
  · rw [foldl_headerLine_delay, List.filterMap_append, hts]
    rfl

/-- The delay that the last header named `Delay` stands for. -/
def wanted : Int :=
  match (r.headers.filter fun h => h.name == delayName).getLast? with
  | none => -1
  | some h => intValue h.value

/-- The parser finds the number of the target, and the delay of the last header named
`Delay`, in what `read` delivers of the text. -/
def ReadsExactly (fd : Int) (junk : List UInt8) : Prop :=
  ∃ request sizes,
    parseClientRequest fd (r.text.take libhttpRequestMaxSize) junk = .ok (request, sizes) ∧
      request.priority = digits r.number ∧ request.delay = r.wanted

/-- The delays that are set behind the last header named `Delay`: by headers whose names are
taken for `Delay`, and by lines of the body. -/
def strays (junk : List UInt8) : List Int :=
  (r.headers.rtakeWhile fun h => h.name != delayName).filterMap Header.delay ++ r.bodyDelays junk

/-- The numbers are values of an `int`, and the last stray delay, if there is one, is the
delay that is wanted. -/
structure DelayKept (junk : List UInt8) : Prop where
  number : FitsInt (digits r.number)
  strays : ∀ d ∈ (r.strays junk).getLast?, d = r.wanted
  fits : r.strays junk = [] → FitsInt r.wanted

section Wanted

variable {r}

/-- A header named `Delay` sets the delay. -/
theorem delay_of_name {h : Header} (hname : h.name = delayName) :
    h.delay = some (atoi h.value) := by
  have hlookalike : h.lookalike = true := by
    rw [Header.lookalike, hname]
    decide
  rw [Header.delay, if_pos hlookalike]

/-- Without the strays, the parser finds the value of the last header named `Delay`. -/
theorem delay_eq_wanted_iff {front : List Header}
    (hfront : front = r.headers.rdropWhile fun h => h.name != delayName) :
    (front.filterMap Header.delay).getLast?.getD (-1) = r.wanted ↔ FitsInt r.wanted := by
  have hlater : (r.headers.rtakeWhile fun h => h.name != delayName).filter
      (fun h => h.name == delayName) = [] := by
    rw [List.filter_eq_nil_iff]
    intro h hh heq
    have hne := List.mem_rtakeWhile_imp hh
    rw [bne, heq] at hne
    cases hne
  have hnamed : r.headers.filter (fun h => h.name == delayName) =
      front.filter fun h => h.name == delayName := by
    conv_lhs => rw [← List.rdropWhile_append_rtakeWhile (p := fun h : Header => h.name != delayName)
      (l := r.headers)]
    rw [List.filter_append, hlater, List.append_nil, hfront]
  rcases List.eq_nil_or_concat front with hnil | ⟨init, h, hconcat⟩
  · have hnone : r.wanted = -1 := by
      rw [wanted, hnamed, hnil]
      rfl
    rw [hnil, hnone]
    exact iff_of_true rfl (by decide)
  · have hname : h.name = delayName := by
      have hne : (r.headers.rdropWhile fun h => h.name != delayName) ≠ [] := by
        rw [← hfront, hconcat]
        simp
      have hlast := List.rdropWhile_last_not _ _ hne
      simp only [← hfront, hconcat, List.concat_eq_append, List.getLast_append_singleton, bne_iff_ne,
        ne_eq, not_not] at hlast
      exact hlast
    have hvalue : r.wanted = intValue h.value := by
      rw [wanted, hnamed, hconcat, List.concat_eq_append, List.filter_append]
      have hone : [h].filter (fun h => h.name == delayName) = [h] := by simp [hname]
      rw [hone, List.getLast?_concat]
    rw [hvalue, hconcat, List.concat_eq_append, List.filterMap_append,
      List.filterMap_cons_some (delay_of_name hname), List.filterMap_nil, List.getLast?_concat,
      Option.getD_some]
    exact atoi_eq_iff

end Wanted

end HttpRequest

/-- For every request with a number in its target, every list of headers and every body that
`read` delivers at once, the parser reads the number and the last header named `Delay` exactly
when both are an `int` and no other line behind that header is taken for one with another
value. -/
theorem delay_exact_iff {r : HttpRequest} (hsize : r.text.length ≤ libhttpRequestMaxSize)
    (fd : Int) (junk : List UInt8) : r.ReadsExactly fd junk ↔ r.DelayKept junk := by
  obtain ⟨request, sizes, hparse, hpriority, hdelay⟩ := r.parse_text fd junk
  have hwhole : r.text.take libhttpRequestMaxSize = r.text := List.take_of_length_le hsize
  have hread : r.ReadsExactly fd junk ↔
      request.priority = digits r.number ∧ request.delay = r.wanted := by
    rw [HttpRequest.ReadsExactly, hwhole]
    constructor
    · rintro ⟨request', sizes', hparse', hread⟩
      obtain ⟨rfl, -⟩ := Prod.mk.inj (Except.ok.inj (hparse.symm.trans hparse'))
      exact hread
    · exact fun hread => ⟨request, sizes, hparse, hread⟩
  have hnumber : request.priority = digits r.number ↔ FitsInt (digits r.number) := by
    rw [hpriority, ← intValue_digits r.number_digits.2]
    exact atoi_eq_iff
  have hsplit : r.headers.filterMap Header.delay ++ r.bodyDelays junk =
      (r.headers.rdropWhile fun h => h.name != delayName).filterMap Header.delay ++
        r.strays junk := by
    conv_lhs => rw [← List.rdropWhile_append_rtakeWhile (p := fun h : Header => h.name != delayName)
      (l := r.headers)]
    rw [List.filterMap_append, List.append_assoc]
    rfl
  have hstrays : request.delay = r.wanted ↔
      (∀ d ∈ (r.strays junk).getLast?, d = r.wanted) ∧
        (r.strays junk = [] → FitsInt r.wanted) := by
    rw [hdelay, hsplit]
    rcases List.eq_nil_or_concat (r.strays junk) with hnil | ⟨init, d, hconcat⟩
    · rw [hnil, List.append_nil, HttpRequest.delay_eq_wanted_iff rfl]
      simp
    · rw [hconcat, List.concat_eq_append, ← List.append_assoc, List.getLast?_concat,
        Option.getD_some, List.getLast?_concat]
      simp
  rw [hread, hnumber, hstrays]
  exact ⟨fun ⟨hfits, hlast, hnone⟩ => ⟨hfits, hlast, hnone⟩,
    fun h => ⟨h.number, h.strays, h.fits⟩⟩

/-- `GET /1/a x` with the header `Delay: 5` behind a header whose name is one letter. -/
def delayRequest : HttpRequest where
  method := getName
  number := ascii ['1']
  tail := ascii ['a']
  version := ascii ['x']
  headers := [⟨ascii ['D'], ascii ['7'], by decide +kernel, by decide +kernel, by decide +kernel⟩,
    ⟨delayName, ascii ['5'], by decide +kernel, by decide +kernel, by decide +kernel⟩]
  body := []
  method_plain := by decide +kernel
  method_word := by decide +kernel
  number_digits := by decide +kernel
  tail_plain := by decide +kernel
  tail_word := by decide +kernel
  version_plain := by decide +kernel

/-- The header `Delay` comes last, so the stray one in front of it does not count. -/
theorem delay_exact_iff_last : delayRequest.text.length ≤ libhttpRequestMaxSize ∧
    delayRequest.wanted = 5 ∧ delayRequest.ReadsExactly 5 [] := by
  have hsize : delayRequest.text.length ≤ libhttpRequestMaxSize := by decide
  refine ⟨hsize, by decide, (delay_exact_iff hsize 5 []).mpr ⟨by decide, ?_, by decide⟩⟩
  have hnone : delayRequest.strays [] = [] := by decide
  simp [hnone]

/-- `GET /1/a x` with a header whose name is one letter. -/
def letterRequest : HttpRequest where
  method := getName
  number := ascii ['1']
  tail := ascii ['a']
  version := ascii ['x']
  headers := [⟨ascii ['D'], ascii ['5'], by decide +kernel, by decide +kernel, by decide +kernel⟩]
  body := []
  method_plain := by decide +kernel
  method_word := by decide +kernel
  number_digits := by decide +kernel
  tail_plain := by decide +kernel
  tail_word := by decide +kernel
  version_plain := by decide +kernel

/-- Every name of one letter is taken for `Delay`. -/
theorem letter_is_delay : ¬∀ (r : HttpRequest) (fd : Int) (junk : List UInt8),
    r.text.length ≤ libhttpRequestMaxSize → r.ReadsExactly fd junk := by
  intro hall
  obtain ⟨request, sizes, hparse, -, hdelay⟩ := hall letterRequest 5 [] (by decide)
  have hfive : (parseClientRequest 5 (letterRequest.text.take libhttpRequestMaxSize)
      []).toOption.map (fun r => r.1.delay) = some 5 := by decide
  rw [hparse] at hfive
  have hwanted : letterRequest.wanted = -1 := by decide
  rw [hwanted] at hdelay
  exact absurd (hdelay.symm.trans (Option.some.inj hfive)) (by decide)

end OSProjects.Proxy
