import OSProjects.Manual.Wgroff

/-!
# The search in manual pages

What `open_file` does with one regular file of its directory: it looks for the headings of
two sections, and for the keyword in the lines behind them.
-/

namespace OSProjects.Manual

open StringSearch LineReading

/-! ## Reading a page -/

def nameHeading : List UInt8 := ascii ['N', 'A', 'M', 'E']

def descriptionHeading : List UInt8 :=
  ascii ['D', 'E', 'S', 'C', 'R', 'I', 'P', 'T', 'I', 'O', 'N']

/-- The strings by which `open_file` knows a heading. -/
def headingMark (heading : List UInt8) : List UInt8 := bold ++ heading ++ plain

/-- `found_file`, and the string in `name_section`. -/
structure Search where
  found : Bool
  nameSection : List UInt8
  deriving DecidableEq

/-- `strcat(name_section, line)`, in the 1000 bytes of `malloc`. -/
def appendName (nameSection line : List UInt8) : Option (List UInt8) :=
  if nameSection.length + line.length < 1000 then some (nameSection ++ line) else none

/-- A line of the section. Only the one of the name is kept. -/
def Search.line (keyword : List UInt8) (keep : Bool) (s : Search) (line : List UInt8) :
    Option Search :=
  let found := s.found || (strstr keyword line).isSome
  if keep then (appendName s.nameSection line).map fun name => ⟨found, name⟩
  else some ⟨found, s.nameSection⟩

/-- The inner loops, up to an empty line. -/
def readSection (keyword : List UInt8) (keep : Bool) (s : Search) (file : List UInt8) :
    Option (Search × List UInt8) :=
  match _h : fgets 518 file with
  | none => some (s, file)
  | some (line, rest) =>
      if line.head? = some newline then some (s, rest)
      else
        match s.line keyword keep (cstr line) with
        | none => none
        | some s => readSection keyword keep s rest
  termination_by file.length
  decreasing_by exact fgets_length (by decide) _h

/-- A section is read where the line has its heading. -/
def readIf (keyword heading : List UInt8) (keep : Bool) (content : List UInt8)
    (s : Search × List UInt8) : Option (Search × List UInt8) :=
  if (strstr (headingMark heading) (cstr content)).isSome then readSection keyword keep s.1 s.2
  else some s

theorem readSection_eof (keyword : List UInt8) (keep : Bool) (s : Search) :
    readSection keyword keep s [] = some (s, []) := by
  rw [readSection]
  rfl

/-- A turn of the inner loops. -/
theorem readSection_of_fgets {keyword file line rest : List UInt8} {keep : Bool} {s : Search}
    (h : fgets 518 file = some (line, rest)) :
    readSection keyword keep s file =
      if line.head? = some newline then some (s, rest)
      else (s.line keyword keep (cstr line)).bind fun s => readSection keyword keep s rest := by
  rw [readSection]
  split
  case h_1 hnone =>
    rw [h] at hnone
    cases hnone
  case h_2 hsome =>
    rw [h] at hsome
    cases hsome
    split
    · rfl
    · cases s.line keyword keep (cstr line) <;> rfl

theorem readSection_length {keyword file rest : List UInt8} {keep : Bool} {s t : Search}
    (h : readSection keyword keep s file = some (t, rest)) : rest.length ≤ file.length := by
  induction hlength : file.length using Nat.strong_induction_on generalizing s file with
  | _ n ih =>
      cases hread : fgets 518 file with
      | none =>
          rw [fgets_eq_none.mp hread, readSection_eof] at h
          cases h
          exact Nat.zero_le n
      | some p =>
          obtain ⟨line, after⟩ := p
          have hshorter := fgets_length (by decide) hread
          rw [readSection_of_fgets hread] at h
          split at h
          · cases h
            omega
          · obtain ⟨s', -, hrest⟩ := Option.bind_eq_some_iff.mp h
            exact (ih after.length (hlength ▸ hshorter) hrest rfl).trans (by omega)

theorem readIf_length {keyword heading content file rest : List UInt8} {keep : Bool}
    {s t : Search} (h : readIf keyword heading keep content (s, file) = some (t, rest)) :
    rest.length ≤ file.length := by
  rw [readIf] at h
  split at h
  · exact readSection_length h
  · cases h
    exact le_rfl

/-- The outer loop. -/
def search (keyword : List UInt8) (s : Search) (file : List UInt8) : Option Search :=
  match _h : fgets 1000 file with
  | none => some s
  | some (content, rest) =>
      match _hname : readIf keyword nameHeading true content (s, rest) with
      | none => none
      | some (s1, rest1) =>
          match _hdescription : readIf keyword descriptionHeading false content (s1, rest1) with
          | none => none
          | some (s2, rest2) => search keyword s2 rest2
  termination_by file.length
  decreasing_by
    have hread := fgets_length (by decide) _h
    have hfirst := readIf_length _hname
    have hsecond := readIf_length _hdescription
    omega

/-- Whether `open_file` counts a regular file as found; `memory` is what `malloc` has returned
for `name_section`. None is a `strcat` that runs out of it. -/
def openFile (keyword memory contents : List UInt8) : Option Bool :=
  (search keyword ⟨false, cstr memory⟩ contents).map Search.found

theorem search_eof (keyword : List UInt8) (s : Search) : search keyword s [] = some s := by
  rw [search]
  rfl

/-- A turn of the outer loop. -/
theorem search_of_fgets {keyword file content rest : List UInt8} {s : Search}
    (h : fgets 1000 file = some (content, rest)) :
    search keyword s file =
      ((readIf keyword nameHeading true content (s, rest)).bind
        (readIf keyword descriptionHeading false content)).bind
          fun p => search keyword p.1 p.2 := by
  rw [search]
  split
  case h_1 hnone =>
    rw [h] at hnone
    cases hnone
  case h_2 hsome =>
    rw [h] at hsome
    cases hsome
    split
    case h_1 hname => rw [hname, Option.bind_none, Option.bind_none]
    case h_2 s1 rest1 hname =>
      rw [hname, Option.bind_some]
      split
      case h_1 hdescription => rw [hdescription, Option.bind_none]
      case h_2 hdescription => rw [hdescription, Option.bind_some]

end OSProjects.Manual
