import OSProjects.Foundation.LineReading

/-!
# The formatter of manual pages

`wgroff` from the bytes of its input to the bytes of the page, with its refusals. What the
page consists of is kept call by call, as `fputs` writes it.
-/

namespace OSProjects.Manual

open StringSearch LineReading

/-! ## Lines -/

def space : UInt8 := 32
def dot : UInt8 := 46

/-- `"\033[1m"`, `"\033[3m"`, `"\033[4m"` and `"\033[0m"`. -/
def bold : List UInt8 := [27, 91, 49, 109]
def italic : List UInt8 := [27, 91, 51, 109]
def underline : List UInt8 := [27, 91, 52, 109]
def plain : List UInt8 := [27, 91, 48, 109]

/-- Why no page comes about. -/
inductive Refusal
  /-- `"Improper formatting on line %i\n"`. -/
  | improper (line : Nat)
  /-- A null pointer, or a buffer that is too small. -/
  | crash
  deriving DecidableEq, Repr

def removeTrailingNewline (s : List UInt8) : List UInt8 :=
  if s.getLast? = some newline then s.dropLast else s

/-- `toupper` in the C locale. -/
def toupper (b : UInt8) : UInt8 := if 97 ≤ b ∧ b ≤ 122 then b - 32 else b

def toUppercase (s : List UInt8) : List UInt8 := s.map toupper

/-- The loop of `format_line`: `/fB`, `/fI`, `/fU`, `/fP` and `//` are replaced. -/
def formatFrom : List UInt8 → List UInt8
  | [] => []
  | 47 :: 102 :: 66 :: line => bold ++ formatFrom line
  | 47 :: 102 :: 73 :: line => italic ++ formatFrom line
  | 47 :: 102 :: 85 :: line => underline ++ formatFrom line
  | 47 :: 102 :: 80 :: line => plain ++ formatFrom line
  | 47 :: 47 :: line => 47 :: formatFrom line
  | b :: line => b :: formatFrom line

/-- `format_line`, with its indent of seven spaces. -/
def formatLine (line : List UInt8) : List UInt8 := List.replicate 7 space ++ formatFrom line

/-- What the loop of `wgroff` writes for a line. -/
inductive Part
  /-- A section header, in upper case. -/
  | heading (sh : List UInt8)
  | text (formatted : List UInt8)
  deriving DecidableEq

/-- The line of a section header. -/
def headingLine (sh : List UInt8) : List UInt8 := bold ++ sh ++ plain ++ [newline]

/-- The bytes that `fputs` writes. -/
def Part.bytes : Part → List UInt8
  | .heading sh => newline :: headingLine sh
  | .text formatted => formatted

def hash : List UInt8 := ascii ['#']
def thMark : List UInt8 := ascii ['.', 'T', 'H']
def shMark : List UInt8 := ascii ['.', 'S', 'H']

/-- A turn of the loop. A section header has to fit into the 512 bytes of `sub_head`. -/
def formatPiece (line : List UInt8) : Except Refusal (List Part) :=
  if (strstr hash line).isSome then .ok []
  else if (strstr shMark line).isSome then
    match strstr [space] line with
    | none => .error .crash
    | some i =>
        let sh := removeTrailingNewline (toUppercase (line.drop (i + 1)))
        if (Part.heading sh).bytes.length < 512 then .ok [.heading sh] else .error .crash
  else .ok [.text (formatLine line)]

/-- The loop of `wgroff`. -/
def formatPieces : List (List UInt8) → Except Refusal (List Part)
  | [] => .ok []
  | line :: rest =>
      match formatPiece (cstr line) with
      | .error e => .error e
      | .ok parts =>
          match formatPieces rest with
          | .error e => .error e
          | .ok later => .ok (parts ++ later)

/-! ## Pages -/

/-- A page that has been written. -/
structure Page where
  path : List UInt8
  header : List UInt8
  parts : List Part
  footer : List UInt8
  deriving DecidableEq

def Page.contents (page : Page) : List UInt8 :=
  page.header ++ page.parts.flatMap Part.bytes ++ page.footer

/-- The path of the page and its date, from the first line. -/
def titleHeader (line : List UInt8) : Except Refusal (List UInt8 × List UInt8) :=
  match (strtok (· == space) (line ++ [0])).map Token.text with
  | [] => .error .crash
  | mark :: args =>
      if (strstr thMark mark).isNone then .error (.improper 1)
      else
        match args with
        | command :: number :: args =>
            if atoi number < 1 ∨ 9 < atoi number then .error (.improper 1)
            else
              match args with
              | [] => .error .crash
              | date :: _ =>
                  if 50 ≤ date.length then .error .crash
                  else if date.dropLast.length ≠ 10 then .error (.improper 1)
                  else .ok (command ++ dot :: number, date.dropLast)
        | _ => .error .crash

/-- `while (strlen(s) < n) strcat(s, " ")`. -/
def pad (n : Nat) (s : List UInt8) : List UInt8 := s ++ List.replicate (n - s.length) space

def firstLine (path : List UInt8) : List UInt8 := pad (80 - path.length) path ++ path ++ [newline]

def lastLine (time : List UInt8) : List UInt8 :=
  pad 80 (pad ((80 - time.length) / 2) [] ++ time) ++ [newline]

/-- `wgroff`, where `fopen` can create the files that `creates` tells; for another one `fputs`
gets a null pointer. With a path of more than 79 bytes, `79 - strlen(path)` wraps around and
the loop runs out of `firstLine`. -/
def wgroff (creates : List UInt8 → Bool) (input : List UInt8) : Except Refusal Page :=
  match fgets 100 input with
  | none => .error .crash
  | some (line, rest) =>
      match titleHeader (cstr line) with
      | .error e => .error e
      | .ok (path, time) =>
          if 79 < path.length ∨ creates path = false then .error .crash
          else
            match formatPieces (pieces 512 rest) with
            | .error e => .error e
            | .ok parts => .ok ⟨path, firstLine path, parts, lastLine time⟩

/-! ## What the formatter writes -/

/-- A formatted line: indented, with a newline at its end at most, and without a NUL. -/
structure Formatted (line : List UInt8) : Prop where
  indented : line.head? = some space
  oneLine : OneLine line
  noNul : 0 ∉ line

section Format

variable {line : List UInt8}

/-- Every replacement is a run without a newline and without a NUL. -/
theorem oneLine_append {s t : List UInt8} (hs : newline ∉ s) (ht : OneLine t) :
    OneLine (s ++ t) := by
  induction s with
  | nil => exact ht
  | cons b s ih =>
      rw [List.mem_cons, not_or] at hs
      exact ⟨fun heq => absurd heq.symm hs.1, ih hs.2⟩

theorem formatFrom_oneLine (h : OneLine line) : OneLine (formatFrom line) := by
  induction line using formatFrom.induct with
  | case1 => trivial
  | case2 line ih | case3 line ih | case4 line ih | case5 line ih =>
      exact oneLine_append (by decide) (ih h.2.2.2)
  | case6 line ih => exact ⟨nofun, ih h.2.2⟩
  | case7 b line h1 h2 h3 h4 h5 ih =>
      rw [formatFrom]
      · exact ⟨fun hb => by rw [h.1 hb]; rfl, ih h.2⟩
      all_goals assumption

theorem zero_notMem_formatFrom (h : 0 ∉ line) : 0 ∉ formatFrom line := by
  induction line using formatFrom.induct with
  | case1 => exact h
  | case2 line ih | case3 line ih | case4 line ih | case5 line ih =>
      simp [formatFrom, bold, italic, underline, plain] at h ⊢
      exact ih h
  | case6 line ih =>
      simp [formatFrom] at h ⊢
      exact ih h
  | case7 b line h1 h2 h3 h4 h5 ih =>
      rw [List.mem_cons, not_or] at h
      rw [formatFrom]
      · exact fun hmem => (List.mem_cons.mp hmem).elim h.1 (ih h.2)
      all_goals assumption

/-- A line of `line[512]` fits into `fl[1024]` when it has been formatted. -/
theorem length_formatFrom_le (line : List UInt8) :
    3 * (formatFrom line).length ≤ 4 * line.length := by
  induction line using formatFrom.induct with
  | case1 => exact le_rfl
  | case2 line ih | case3 line ih | case4 line ih | case5 line ih =>
      simp [formatFrom, bold, italic, underline, plain]
      omega
  | case6 line ih =>
      simp [formatFrom]
      omega
  | case7 b line h1 h2 h3 h4 h5 ih =>
      rw [formatFrom]
      · simp only [List.length_cons]
        omega
      all_goals assumption

theorem formatLine_formatted (hline : OneLine line) (hnul : 0 ∉ line) :
    Formatted (formatLine line) where
  indented := rfl
  oneLine := oneLine_append (by decide) (formatFrom_oneLine hline)
  noNul := by simpa [formatLine, space] using zero_notMem_formatFrom hnul

theorem toupper_ne_zero {b : UInt8} (hb : b ≠ 0) : toupper b ≠ 0 := by
  rw [toupper]
  split
  case isTrue h =>
    intro hzero
    have hb32 : b = 32 := by
      rw [← UInt8.sub_add_cancel b 32, hzero]
      rfl
    rw [hb32] at h
    exact absurd h (by decide)
  case isFalse => exact hb

theorem zero_notMem_toUppercase (h : 0 ∉ line) : 0 ∉ toUppercase line := by
  rw [toUppercase, List.mem_map]
  rintro ⟨b, hb, hzero⟩
  apply toupper_ne_zero _ hzero
  rintro rfl
  exact h hb

theorem removeTrailingNewline_subset (s : List UInt8) : removeTrailingNewline s ⊆ s := by
  rw [removeTrailingNewline]
  split
  · exact List.dropLast_subset s
  · exact List.Subset.refl s

/-- What the loop writes: headers without a NUL, and formatted lines. -/
def Part.Sound : Part → Prop
  | .heading sh => 0 ∉ sh
  | .text formatted => Formatted formatted

theorem formatPiece_sound {parts : List Part} (hline : OneLine line) (hnul : 0 ∉ line)
    (h : formatPiece line = .ok parts) : ∀ part ∈ parts, part.Sound := by
  rw [formatPiece] at h
  split at h
  · cases h
    nofun
  · split at h
    · split at h
      · cases h
      · dsimp only at h
        split at h
        case isTrue =>
          cases h
          intro part hpart
          rw [List.mem_singleton.mp hpart]
          intro hzero
          apply zero_notMem_toUppercase _ (removeTrailingNewline_subset _ hzero)
          exact fun hdrop => hnul (List.mem_of_mem_drop hdrop)
        case isFalse => cases h
    · cases h
      intro part hpart
      rw [List.mem_singleton.mp hpart]
      exact formatLine_formatted hline hnul

theorem formatPieces_sound {pieces : List (List UInt8)} {parts : List Part}
    (hpieces : ∀ line ∈ pieces, OneLine line) (h : formatPieces pieces = .ok parts) :
    ∀ part ∈ parts, part.Sound := by
  induction pieces generalizing parts with
  | nil =>
      cases h
      nofun
  | cons line rest ih =>
      rw [formatPieces] at h
      split at h
      case h_1 => cases h
      case h_2 first hfirst =>
        split at h
        case h_1 => cases h
        case h_2 later hlater =>
          cases h
          have hone : OneLine (cstr line) :=
            (hpieces line List.mem_cons_self).of_part (cstr_front line).isInfix
          intro part hpart
          rcases List.mem_append.mp hpart with hpart | hpart
          · exact formatPiece_sound hone (zero_notMem_cstr line) hfirst part hpart
          · exact ih (fun line hline => hpieces line (List.mem_cons_of_mem _ hline)) hlater part hpart

end Format

/-- A page as `wgroff` writes it. -/
structure Page.Sound (page : Page) : Prop where
  header : 0 ∉ page.header
  parts : ∀ part ∈ page.parts, part.Sound
  footer : Formatted page.footer
  footer_whole : Whole page.footer

section Written

variable {line time : List UInt8}

/-- What a first line gives: a path without a NUL, and ten bytes on one line. -/
theorem titleHeader_ok {path : List UInt8} (hline : OneLine line) (hnul : 0 ∉ line)
    (h : titleHeader line = .ok (path, time)) :
    0 ∉ path ∧ 0 ∉ time ∧ newline ∉ time ∧ time.length = 10 := by
  have hcstr := cstr_terminated hnul []
  have htoken : ∀ text ∈ (strtok (· == space) (line ++ [0])).map Token.text, text <:+: line := by
    intro text htext
    obtain ⟨t, ht, rfl⟩ := List.mem_map.mp htext
    exact hcstr ▸ strtok_within ht
  rw [titleHeader] at h
  generalize (strtok (· == space) (line ++ [0])).map Token.text = header at h htoken
  split at h
  case h_1 => cases h
  case h_2 mark args =>
    split at h
    · cases h
    · split at h
      case h_1 command number args =>
        split at h
        · cases h
        · split at h
          case h_1 => cases h
          case h_2 date rest =>
            split at h
            · cases h
            · split at h
              · cases h
              case isFalse hlength =>
                cases h
                have hcommand := (htoken command (by simp)).subset
                have hnumber := (htoken number (by simp)).subset
                have hdate := htoken date (by simp)
                refine ⟨?_, ?_, (hline.of_part hdate).dropLast, Decidable.not_not.mp hlength⟩
                · rw [List.mem_append, List.mem_cons]
                  rintro (hmem | hmem | hmem)
                  · exact hnul (hcommand hmem)
                  · cases hmem
                  · exact hnul (hnumber hmem)
                · exact fun hmem => hnul (hdate.subset (List.dropLast_subset date hmem))
      case h_2 => cases h

theorem pad_subset (n : Nat) (s : List UInt8) {b : UInt8} (hb : b ∈ pad n s) :
    b ∈ s ∨ b = space := by
  rw [pad, List.mem_append] at hb
  exact hb.imp_right List.eq_of_mem_replicate

theorem lastLine_eq (h : time.length = 10) :
    lastLine time =
      List.replicate 35 space ++ (time ++ (List.replicate 35 space ++ [newline])) := by
  have hcenter : pad ((80 - time.length) / 2) [] = List.replicate 35 space := by simp [pad, h]
  rw [lastLine, hcenter, pad, List.length_append, List.length_replicate, h]
  simp only [List.append_assoc]

theorem lastLine_formatted (hlength : time.length = 10) (hnul : 0 ∉ time)
    (hline : newline ∉ time) : Formatted (lastLine time) where
  indented := by
    rw [lastLine_eq hlength]
    rfl
  oneLine := by
    rw [lastLine_eq hlength, ← List.append_assoc, ← List.append_assoc]
    apply oneLine_append_newline
    simpa [space, newline] using hline
  noNul := by simpa [lastLine_eq hlength, space, newline] using hnul

/-- Whatever page `wgroff` writes is of this kind. -/
theorem wgroff_sound {creates : List UInt8 → Bool} {input : List UInt8} {page : Page}
    (h : wgroff creates input = .ok page) : page.Sound := by
  rw [wgroff] at h
  split at h
  case h_1 => cases h
  case h_2 line rest hline =>
    split at h
    case h_1 => cases h
    case h_2 path time htitle =>
      have hone : OneLine (cstr line) := (fgets_oneLine hline).of_part (cstr_front line).isInfix
      obtain ⟨hpath, htime, hnewline, hlength⟩ :=
        titleHeader_ok hone (zero_notMem_cstr line) htitle
      split at h
      · cases h
      · split at h
        case h_1 => cases h
        case h_2 parts hparts =>
          cases h
          constructor
          case header =>
            intro hzero
            rcases List.mem_append.mp hzero with hzero | hzero
            · rcases List.mem_append.mp hzero with hzero | hzero
              · rcases pad_subset _ _ hzero with hzero | hzero
                · exact hpath hzero
                · cases hzero
              · exact hpath hzero
            · cases List.mem_singleton.mp hzero
          case parts => exact formatPieces_sound (fun line => oneLine_of_mem_pieces) hparts
          case footer => exact lastLine_formatted hlength htime hnewline
          case footer_whole => exact whole_append_newline _

end Written

end OSProjects.Manual
