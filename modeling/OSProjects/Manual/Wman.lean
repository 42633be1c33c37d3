import Mathlib.Data.List.Nodup
import OSProjects.Manual.TitleHeader

/-!
# The manual program

`wgroff` names a page by its title, and `wman` makes up the path of a page again from the name
and the section that it is asked for.
-/

namespace OSProjects.Manual

open StringSearch LineReading

/-! ## `wman` -/

/-- The contents of the files, by the paths that `fopen` is given. -/
abbrev Files := List UInt8 → Option (List UInt8)

/-- The path that a run has opened, what it has printed, and its exit status. -/
structure WmanRun where
  opened : Option (List UInt8)
  output : List UInt8
  status : Nat
  deriving DecidableEq

/-- `snprintf`, which keeps one byte of the buffer for the NUL. -/
def snprintf (size : Nat) (text : List UInt8) : List UInt8 := text.take (size - 1)

def manDirectory : List UInt8 :=
  ascii ['.', '/', 'm', 'a', 'n', '_', 'p', 'a', 'g', 'e', 's', '/', 'm', 'a', 'n']

/-- `%i` of a number below ten. -/
def decimal (n : Nat) : List UInt8 := [UInt8.ofNat (48 + n)]

/-- The loop that prints a file. -/
def printFile (file : List UInt8) : List UInt8 := (pieces 512 file).flatMap cstr

/-- `wman`, with the path of the file that it prints. -/
def wman (files : Files) (fileName path : List UInt8) : Option (List UInt8 × List UInt8) :=
  let buf := snprintf 100 (path ++ ascii ['/'] ++ fileName ++ ascii ['.', '1'])
  (files buf).map fun file => (buf, printFile file)

def noEntry (fileName : List UInt8) : List UInt8 :=
  ascii ['N', 'o', ' ', 'm', 'a', 'n', 'u', 'a', 'l', ' ', 'e', 'n', 't', 'r', 'y', ' ', 'f', 'o',
    'r', ' '] ++ fileName

def inSection (pageNumber : Nat) : List UInt8 :=
  ascii [' ', 'i', 'n', ' ', 's', 'e', 'c', 't', 'i', 'o', 'n', ' '] ++ decimal pageNumber

def invalidSection : List UInt8 :=
  ascii ['i', 'n', 'v', 'a', 'l', 'i', 'd', ' ', 's', 'e', 'c', 't', 'i', 'o', 'n', '\n']

def whatPage : List UInt8 :=
  ascii ['W', 'h', 'a', 't', ' ', 'm', 'a', 'n', 'u', 'a', 'l', ' ', 'p', 'a', 'g', 'e', ' ', 'd',
    'o', ' ', 'y', 'o', 'u', ' ', 'w', 'a', 'n', 't', '?', '\n', 'F', 'o', 'r', ' ', 'e', 'x', 'a',
    'm', 'p', 'l', 'e', ',', ' ', 't', 'r', 'y', ' ', '\'', 'w', 'm', 'a', 'n', ' ', 'w', 'm', 'a',
    'n', '\'', '\n']

/-- A run that prints a file or else a message. -/
def report (found : Option (List UInt8 × List UInt8)) (message : List UInt8) : WmanRun :=
  match found with
  | some (path, text) => ⟨some path, text, 0⟩
  | none => ⟨none, message, 0⟩

/-- `main`, with the program's name in front of its arguments. -/
def wmanMain (files : Files) : List (List UInt8) → WmanRun
  | [_, fileName] =>
      let found := (List.range' 1 9).findSome? fun i =>
        wman files fileName (snprintf 100 (manDirectory ++ decimal i))
      report found (noEntry fileName ++ [newline])
  | _ :: number :: fileName :: _ =>
      let pageNumber := atoi number
      if pageNumber < 1 ∨ 9 < pageNumber then ⟨none, invalidSection, 1⟩
      else
        let found := wman files fileName (manDirectory ++ decimal pageNumber.toNat)
        report found (noEntry fileName ++ inSection pageNumber.toNat ++ [newline])
  | _ => ⟨none, whatPage, 0⟩

/-! ## Collections of pages -/

/-- The name of a page: a word of a line, and one component of a path. -/
@[ext] structure PageName where
  text : List UInt8
  ne_nil : text ≠ []
  word : space ∉ text ∧ newline ∉ text
  noNul : 0 ∉ text
  component : 47 ∉ text

/-- A page of a section, with the fields of its title. -/
structure Entry where
  name : PageName
  number : UInt8
  date : List UInt8
  contents : List UInt8
  number_mem : number ∈ sections
  isDate : IsDate date

/-- `.TH <page> <s> <date>`, with its newline. -/
def Entry.title (e : Entry) : List UInt8 :=
  thMark ++ space :: (e.name.text ++ space :: e.number :: space :: e.date) ++ [newline]

/-- The file name that `wgroff` generates from the title. -/
def Entry.fileName (e : Entry) : List UInt8 :=
  match titleHeader (cstr e.title) with
  | .ok (path, _) => path
  | .error _ => []

/-- Where the file is stored. -/
def Entry.path (e : Entry) : List UInt8 := manDirectory ++ e.number :: (ascii ['/'] ++ e.fileName)

/-- A set of pages, at different paths. -/
structure Collection where
  entries : List Entry
  nodup : (entries.map Entry.path).Nodup

/-- What is stored: the pages and nothing else. -/
def Collection.files (c : Collection) : Files := fun path =>
  (c.entries.find? fun e => e.path = path).map Entry.contents

/-- A run that finds the page. -/
def Entry.shown (e : Entry) : WmanRun := ⟨some e.path, e.contents, 0⟩

/-- A page is found in the section that is asked for, or else in the first section that has it,
and where there is no such page, the run says so. -/
structure WmanLaw (c : Collection) (name : PageName) : Prop where
  found : ∀ program, ∀ e ∈ c.entries, e.name = name →
    wmanMain c.files [program, [e.number], name.text] = e.shown
  missing : ∀ program, ∀ s ∈ sections, (∀ e ∈ c.entries, e.name = name → e.number ≠ s) →
    wmanMain c.files [program, [s], name.text] =
      ⟨none, noEntry name.text ++ inSection (s.toNat - 48) ++ [newline], 0⟩
  first : ∀ program, ∀ e ∈ c.entries, e.name = name →
    (∀ f ∈ c.entries, f.name = name → e.number ≤ f.number) →
      wmanMain c.files [program, name.text] = e.shown
  none : ∀ program, (∀ e ∈ c.entries, e.name ≠ name) →
    wmanMain c.files [program, name.text] = ⟨none, noEntry name.text ++ [newline], 0⟩

/-- The page is stored in the first section only, as a text without a NUL, its name has at most
80 bytes, and it does not begin with a file name of 82 bytes. -/
structure Findable (c : Collection) (name : PageName) : Prop where
  own : ∀ e ∈ c.entries, e.name = name → e.number = 49 ∧ name.text.length ≤ 80 ∧ 0 ∉ e.contents
  others : ∀ e ∈ c.entries, ¬(e.fileName.length = 82 ∧ e.fileName <+: name.text)

/-! ## What is printed -/

/-- Nothing is left out exactly when no piece has a NUL. -/
theorem flatMap_cstr_eq (ps : List (List UInt8)) :
    ps.flatMap cstr = ps.flatten ↔ ∀ p ∈ ps, 0 ∉ p := by
  have hle (ps : List (List UInt8)) : (ps.flatMap cstr).length ≤ ps.flatten.length := by
    induction ps with
    | nil => exact le_rfl
    | cons p ps ih =>
        rw [List.flatMap_cons, List.flatten_cons, List.length_append, List.length_append]
        exact Nat.add_le_add (cstr_front p).length_le ih
  induction ps with
  | nil => simp
  | cons p ps ih =>
      rw [List.forall_mem_cons, List.flatMap_cons, List.flatten_cons]
      constructor
      · intro h
        obtain ⟨cut, hcut⟩ := cstr_front p
        have hrest : ps.flatMap cstr = cut ++ ps.flatten := by
          apply List.append_cancel_left
          rw [h, ← List.append_assoc, hcut]
        have hlength := congrArg List.length hrest
        rw [List.length_append] at hlength
        have hnone : cut = [] := List.eq_nil_of_length_eq_zero (by have := hle ps; omega)
        rw [hnone] at hcut hrest
        rw [List.append_nil] at hcut
        exact ⟨hcut ▸ zero_notMem_cstr p, ih.mp hrest⟩
      · rintro ⟨hp, hps⟩
        rw [cstr_eq_self hp, ih.mpr hps]

theorem printFile_eq (file : List UInt8) : printFile file = file ↔ 0 ∉ file := by
  have hflatten : (pieces 512 file).flatten = file := flatten_pieces (by decide) file
  have hmem : 0 ∉ file ↔ ∀ p ∈ pieces 512 file, 0 ∉ p := by
    conv_lhs => rw [← hflatten]
    simp [List.mem_flatten]
  rw [hmem, ← flatMap_cstr_eq, hflatten, printFile]

/-! ## The names of the files -/

section Names

variable {c : Collection} {name : PageName} {e : Entry} {s : UInt8}

theorem IsDate.notMem {date : List UInt8} (h : IsDate date) {b : UInt8} (hdigit : isDigit b = false)
    (hb : b ≠ 45) : b ∉ date := by
  intro hmem
  rcases h.bytes.2 b hmem with hdate | hdate
  · exact absurd hdate (by rw [hdigit]; exact Bool.false_ne_true)
  · exact hb hdate

/-- The title is accepted. -/
theorem Entry.titleHeader_eq (e : Entry) :
    titleHeader (cstr e.title) = .ok (e.name.text ++ dot :: [e.number], e.date) := by
  have hdate : 0 ∉ e.date := e.isDate.notMem rfl (by decide)
  have hnumber : 0 ≠ e.number := (atoi_section e.number e.number_mem).2.1.symm
  have hnul : 0 ∉ e.title := by
    simpa [Entry.title, thMark, ascii, space, newline, e.name.noNul, hdate] using hnumber
  have hnewline : space ∉ [newline] := by decide
  exact titleHeader_title e.name.ne_nil e.name.word.1 e.number_mem e.isDate hnewline le_rfl rfl hnul

theorem Entry.fileName_eq (e : Entry) : e.fileName = e.name.text ++ [dot, e.number] := by
  rw [Entry.fileName, e.titleHeader_eq]

theorem Page.Sound.noNul {page : Page} (h : page.Sound) : 0 ∉ page.contents := by
  intro hmem
  rcases List.mem_append.mp hmem with hmem | hmem
  · rcases List.mem_append.mp hmem with hmem | hmem
    · exact h.header hmem
    · obtain ⟨part, hpart, hbyte⟩ := List.mem_flatMap.mp hmem
      have hsound := h.parts part hpart
      cases part with
      | heading sh =>
          exact hsound (by simpa [Part.bytes, headingLine, bold, plain, newline] using hbyte)
      | text formatted => exact hsound.noNul hbyte
  · exact h.footer.noNul hmem

/-- `wgroff` stores a page without a NUL under this name, when the title fits into its buffer. -/
theorem wgroff_entry {creates : List UInt8 → Bool} {text : List UInt8} {page : Page}
    (hfits : e.name.text.length ≤ 81) (h : wgroff creates (e.title ++ text) = .ok page) :
    page.path = e.fileName ∧ 0 ∉ page.contents := by
  have hnumber : newline ≠ e.number := by
    rintro hnewline
    exact absurd (hnewline ▸ e.number_mem) (by decide)
  have hdate : 10 ∉ e.date := e.isDate.notMem rfl (by decide)
  have hname : 10 ∉ e.name.text := e.name.word.2
  have hline : OneLine e.title := by
    apply oneLine_append_newline
    simpa [thMark, ascii, space, newline, hname, hdate] using hnumber
  have hlength : e.title.length < 100 := by
    have hten := e.isDate.bytes.1
    simp [Entry.title, thMark, ascii]
    omega
  have hread := fgets_line hline (whole_append_newline _) (by simp [Entry.title]) hlength text
  refine ⟨?_, (wgroff_sound h).noNul⟩
  rw [wgroff, hread] at h
  dsimp only at h
  rw [e.titleHeader_eq] at h
  dsimp only at h
  split at h
  · cases h
  · split at h
    case h_1 => cases h
    case h_2 =>
      cases h
      exact e.fileName_eq.symm

/-- The file name is looked up for another page only when it has been cut off. -/
theorem fileName_eq_take :
    e.fileName = (name.text ++ [dot, 49]).take 82 ↔
      (e.name = name ∧ e.number = 49 ∧ name.text.length ≤ 80) ∨
        (e.fileName.length = 82 ∧ e.fileName <+: name.text) := by
  constructor
  · intro h
    by_cases hshort : name.text.length ≤ 80
    case pos =>
      rw [List.take_of_length_le (by simpa using hshort), e.fileName_eq] at h
      obtain ⟨hname, hend⟩ := List.append_inj' h rfl
      exact Or.inl ⟨PageName.ext hname, by simpa using hend, hshort⟩
    case neg =>
      have hlength : e.fileName.length = 82 := by
        rw [h, List.length_take, List.length_append]
        simp
        omega
      refine Or.inr ⟨hlength, ?_⟩
      have hcut : name.text.length ≠ 81 := by
        intro hone
        have hdot : e.name.text ++ [dot, e.number] = name.text ++ [dot] := by
          rw [← e.fileName_eq, h, List.take_append, hone, List.take_of_length_le (by omega)]
          rfl
        have hlast := congrArg List.getLast? hdot
        have hnumber : e.number = dot := by simpa using hlast
        exact absurd (hnumber ▸ e.number_mem) (by decide)
      rw [h, List.take_append_of_le_length (by omega)]
      exact List.take_prefix _ _
  · rintro (⟨hname, hnumber, hshort⟩ | ⟨hlength, hprefix⟩)
    · rw [e.fileName_eq, hname, hnumber, List.take_of_length_le (by simpa using hshort)]
    · have hlong := hprefix.length_le
      rw [List.take_append_of_le_length (by omega), ← hlength]
      exact List.prefix_iff_eq_take.mp hprefix

end Names

/-! ## Runs -/

section Lookup

variable {c : Collection} {name : PageName} {e : Entry} {s : UInt8}

/-- The path that `wman` makes up for a page of a section. -/
def PageName.lookedUp (name : PageName) (s : UInt8) : List UInt8 :=
  manDirectory ++ s :: (ascii ['/'] ++ (name.text ++ [dot, 49]).take 82)

theorem path_eq_lookedUp :
    e.path = name.lookedUp s ↔ e.number = s ∧ e.fileName = (name.text ++ [dot, 49]).take 82 := by
  rw [Entry.path, PageName.lookedUp, List.append_cancel_left_eq, List.cons.injEq,
    List.append_cancel_left_eq]

theorem wman_eq (files : Files) (name : PageName) (s : UInt8) :
    wman files name.text (manDirectory ++ [s]) =
      (files (name.lookedUp s)).map fun file => (name.lookedUp s, printFile file) := by
  have hbuf : snprintf 100 (manDirectory ++ [s] ++ ascii ['/'] ++ name.text ++ ascii ['.', '1']) =
      name.lookedUp s := by
    have hsplit : manDirectory ++ [s] ++ ascii ['/'] ++ name.text ++ ascii ['.', '1'] =
        (manDirectory ++ s :: ascii ['/']) ++ (name.text ++ [dot, 49]) := by
      simp [ascii, dot]
    rw [hsplit, snprintf, List.take_append, List.take_of_length_le (by simp [manDirectory, ascii]),
      PageName.lookedUp, ← List.cons_append, ← List.append_assoc]
    rfl
  rw [wman, hbuf]

theorem decimal_section : ∀ s ∈ sections, ¬(atoi [s] < 1 ∨ 9 < atoi [s]) ∧
    (atoi [s]).toNat = s.toNat - 48 ∧ decimal (s.toNat - 48) = [s] := by
  decide +kernel

/-- One section is looked through. -/
theorem wmanMain_section (files : Files) (program : List UInt8) (name : PageName)
    (hs : s ∈ sections) :
    wmanMain files [program, [s], name.text] =
      report ((files (name.lookedUp s)).map fun file => (name.lookedUp s, printFile file))
        (noEntry name.text ++ inSection (s.toNat - 48) ++ [newline]) := by
  obtain ⟨hvalid, hnumber, hdecimal⟩ := decimal_section s hs
  rw [wmanMain]
  dsimp only
  rw [if_neg hvalid, hnumber, hdecimal, wman_eq]

/-- All sections are looked through in their order. -/
theorem wmanMain_page (files : Files) (program : List UInt8) (name : PageName) :
    wmanMain files [program, name.text] =
      report (sections.findSome? fun s =>
          (files (name.lookedUp s)).map fun file => (name.lookedUp s, printFile file))
        (noEntry name.text ++ [newline]) := by
  have hpaths : sections.map (fun s => manDirectory ++ [s]) =
      (List.range' 1 9).map fun i => snprintf 100 (manDirectory ++ decimal i) := by
    decide +kernel
  have hfound := congrArg (List.findSome? (wman files name.text)) hpaths
  rw [List.findSome?_map, List.findSome?_map] at hfound
  rw [wmanMain]
  refine congrArg (report · _) (hfound.symm.trans ?_)
  exact congrArg (List.findSome? · sections) (funext (wman_eq files name))

theorem files_eq_none {path : List UInt8} :
    c.files path = none ↔ ∀ e ∈ c.entries, e.path ≠ path := by
  simp [Collection.files, List.find?_eq_none]

theorem files_path (he : e ∈ c.entries) : c.files e.path = some e.contents := by
  have hfind : c.entries.find? (fun f => f.path = e.path) = some e := by
    cases hfound : c.entries.find? (fun f => f.path = e.path) with
    | none => exact absurd (List.find?_eq_none.mp hfound e he) (by simp)
    | some f =>
        have hmem := List.mem_of_find?_eq_some hfound
        have hpath : f.path = e.path := by simpa using List.find?_some hfound
        rw [List.inj_on_of_nodup_map c.nodup hmem he hpath]
  rw [Collection.files, hfind]
  rfl

/-- A page is shown by the lookup of its own path, when it is printed as it is. -/
theorem report_eq_shown {message : List UInt8} (he : e ∈ c.entries) :
    report ((c.files (name.lookedUp s)).map fun file => (name.lookedUp s, printFile file)) message =
        e.shown ↔
      e.path = name.lookedUp s ∧ 0 ∉ e.contents := by
  constructor
  · intro h
    have hpath : e.path = name.lookedUp s := by
      cases hfile : c.files (name.lookedUp s) with
      | none =>
          rw [hfile] at h
          cases congrArg WmanRun.opened h
      | some file =>
          rw [hfile] at h
          exact (Option.some.inj (congrArg WmanRun.opened h)).symm
    rw [← hpath, files_path he] at h
    exact ⟨hpath, (printFile_eq e.contents).mp (congrArg WmanRun.output h)⟩
  · rintro ⟨hpath, hnul⟩
    rw [← hpath, files_path he, Entry.shown]
    rw [Option.map_some, (printFile_eq e.contents).mpr hnul]
    rfl

/-- The file name of a page does not begin its name. -/
theorem not_fileName_prefix : ¬(e.fileName <+: e.name.text) := by
  intro hprefix
  have hlength := hprefix.length_le
  rw [e.fileName_eq, List.length_append] at hlength
  exact absurd hlength (by simp)

/-- For a name that can be found, the path that is made up is that of the page. -/
theorem Findable.path_eq (h : Findable c name) (he : e ∈ c.entries) :
    e.path = name.lookedUp s ↔ e.name = name ∧ e.number = s := by
  rw [path_eq_lookedUp, fileName_eq_take]
  constructor
  · rintro ⟨hnumber, hown | hother⟩
    · exact ⟨hown.1, hnumber⟩
    · exact absurd hother (h.others e he)
  · rintro ⟨hname, hnumber⟩
    obtain ⟨hone, hshort, -⟩ := h.own e he hname
    exact ⟨hnumber, Or.inl ⟨hname, hone, hshort⟩⟩

theorem Findable.files_none (h : Findable c name)
    (hnone : ∀ e ∈ c.entries, e.name = name → e.number ≠ s) : c.files (name.lookedUp s) = none := by
  apply files_eq_none.mpr
  intro e he hpath
  obtain ⟨hname, hnumber⟩ := (h.path_eq he).mp hpath
  exact hnone e he hname hnumber

/-- Where every page is found, each of them is in the first section under a short name. -/
theorem WmanLaw.findable (law : WmanLaw c name) : Findable c name := by
  constructor
  case own =>
    intro e he hname
    have hfound := law.found [] e he hname
    rw [wmanMain_section _ _ _ e.number_mem, report_eq_shown he] at hfound
    obtain ⟨hpath, hnul⟩ := hfound
    rcases fileName_eq_take.mp (path_eq_lookedUp.mp hpath).2 with hown | ⟨-, hprefix⟩
    · exact ⟨hown.2.1, hown.2.2, hnul⟩
    · exact absurd (hname ▸ hprefix) not_fileName_prefix
  case others =>
    -- The file of `e` is opened in its section, where it is the page of another name.
    rintro e he ⟨hlength, hprefix⟩
    have hpath : e.path = name.lookedUp e.number :=
      path_eq_lookedUp.mpr ⟨rfl, fileName_eq_take.mpr (Or.inr ⟨hlength, hprefix⟩)⟩
    by_cases hown : ∃ f ∈ c.entries, f.name = name ∧ f.number = e.number
    case pos =>
      obtain ⟨f, hf, hname, hnumber⟩ := hown
      have hfound := law.found [] f hf hname
      rw [wmanMain_section _ _ _ f.number_mem, report_eq_shown hf, hnumber, ← hpath] at hfound
      have hsame : f.fileName = e.fileName := by
        simpa [Entry.path, hnumber] using hfound.1
      rw [← hsame, ← hname] at hprefix
      exact not_fileName_prefix hprefix
    case neg =>
      have hmissing := law.missing [] e.number e.number_mem
        fun f hf hname hnumber => hown ⟨f, hf, hname, hnumber⟩
      rw [wmanMain_section _ _ _ e.number_mem, ← hpath, files_path he] at hmissing
      cases congrArg WmanRun.opened hmissing

theorem Findable.law (h : Findable c name) : WmanLaw c name := by
  constructor
  case found =>
    intro program e he hname
    rw [wmanMain_section _ _ _ e.number_mem, report_eq_shown he, h.path_eq he]
    exact ⟨⟨hname, rfl⟩, (h.own e he hname).2.2⟩
  case missing =>
    intro program s hs hnone
    rw [wmanMain_section _ _ _ hs, h.files_none hnone]
    rfl
  case first =>
    intro program e he hname _
    obtain ⟨hone, -, hnul⟩ := h.own e he hname
    have hpath : e.path = name.lookedUp 49 := (h.path_eq he).mpr ⟨hname, hone⟩
    have hsections : sections = 49 :: sections.tail := rfl
    rw [wmanMain_page, hsections, List.findSome?_cons_of_isSome]
    · exact (report_eq_shown he).mpr ⟨hpath, hnul⟩
    · rw [← hpath, files_path he]
      rfl
  case none =>
    intro program hnone
    have hfiles : ∀ s ∈ sections, ((c.files (name.lookedUp s)).map fun file =>
        (name.lookedUp s, printFile file)) = none := by
      intro s _
      rw [h.files_none fun e he hname _ => hnone e he hname]
      rfl
    rw [wmanMain_page, List.findSome?_eq_none_iff.mpr hfiles]
    rfl

end Lookup

/-- Pages are found by their name exactly when each of them is in the first section, has no NUL
and a name of at most 80 bytes, and no file name of 82 bytes begins the name that is asked for. -/
theorem wman_law_iff (c : Collection) (name : PageName) : WmanLaw c name ↔ Findable c name :=
  ⟨WmanLaw.findable, Findable.law⟩

/-- A page `a` of the second section. -/
def secondSection : Entry where
  name := ⟨ascii ['a'], by decide, by decide, by decide, by decide⟩
  number := 50
  date := ascii ['2', '0', '2', '3', '-', '0', '8', '-', '1', '5']
  contents := ascii ['a', '\n']
  number_mem := by decide
  isDate := ⟨ascii ['2', '0', '2', '3'], ascii ['0', '8'], ascii ['1', '5'], rfl, rfl, rfl, rfl,
    by decide +kernel⟩

/-- It is looked up as `a.1` there. -/
theorem section_ignored : ¬∀ (c : Collection) (name : PageName), WmanLaw c name := by
  intro h
  have hlaw := h ⟨[secondSection], List.nodup_singleton _⟩ secondSection.name
  have hfound := hlaw.found [] secondSection List.mem_cons_self rfl
  rw [wmanMain_section _ _ _ secondSection.number_mem, report_eq_shown List.mem_cons_self] at hfound
  exact absurd hfound.1 (by decide +kernel)

end OSProjects.Manual
