import OSProjects.Manual.Wapropos

/-!
# The search agrees with the formatter

The sections of a page, as the formatter has written them, against what the search finds in
the bytes of the page.
-/

namespace OSProjects.Manual

open StringSearch LineReading

/-! ## Sections -/

/-- A header with the text behind it. -/
structure Section where
  heading : List UInt8
  body : List UInt8
  deriving DecidableEq

/-- The text in front of the first header, and the sections. -/
def sectionsOf : List Part → List UInt8 × List Section
  | [] => ([], [])
  | .text formatted :: parts => (formatted ++ (sectionsOf parts).1, (sectionsOf parts).2)
  | .heading sh :: parts => ([], ⟨sh, (sectionsOf parts).1⟩ :: (sectionsOf parts).2)

def Page.preamble (page : Page) : List UInt8 := (sectionsOf page.parts).1

def Page.sections (page : Page) : List Section := (sectionsOf page.parts).2

/-- The bytes of a section behind the newline in front of its header. -/
def Section.bytes (sec : Section) : List UInt8 := headingLine sec.heading ++ sec.body

/-- The sections in which a keyword counts. -/
def Section.Searched (sec : Section) : Prop :=
  sec.heading = nameHeading ∨ sec.heading = descriptionHeading

instance (sec : Section) : Decidable sec.Searched :=
  inferInstanceAs (Decidable (sec.heading = nameHeading ∨ sec.heading = descriptionHeading))

/-- The sections with the footer as a part of the last one, as they stand in the file. -/
def withFooter (footer : List UInt8) (sections : List Section) : List Section :=
  sections.dropLast ++
    sections.getLast?.toList.map fun sec => ⟨sec.heading, sec.body ++ footer⟩

def Page.fileSections (page : Page) : List Section := withFooter page.footer page.sections

/-- The text that is read into `name_section`. -/
def nameText (sections : List Section) : List UInt8 :=
  (sections.filter (·.heading = nameHeading)).flatMap Section.body

/-- The text of a file's sections, from the second one's newline on. -/
def laterBytes (sections : List Section) : List UInt8 :=
  sections.flatMap fun sec => newline :: sec.bytes

/-! ## What the search reads -/

/-- No line of the text is taken for one of the two headings. -/
def NoMark (s : List UInt8) : Prop :=
  ¬headingMark nameHeading <:+: s ∧ ¬headingMark descriptionHeading <:+: s

instance (s : List UInt8) : Decidable (NoMark s) :=
  inferInstanceAs (Decidable (¬headingMark nameHeading <:+: s ∧
    ¬headingMark descriptionHeading <:+: s))

/-- No piece of the text that the outer loop reads into `content[1000]` is taken for one. -/
def Unmarked (s : List UInt8) : Prop := ∀ piece ∈ pieces 1000 s, NoMark piece

instance (s : List UInt8) : Decidable (Unmarked s) :=
  inferInstanceAs (Decidable (∀ piece ∈ pieces 1000 s, NoMark piece))

/-- A section that the search reads line by line, or passes over. -/
structure Section.Legible (sec : Section) : Prop where
  noNul : 0 ∉ sec.bytes
  whole : sec.Searched → Whole sec.body
  lines : sec.Searched → ∀ line ∈ lines sec.body,
    line.head? ≠ some newline ∧ line.length < 518
  passed : ¬sec.Searched → Unmarked sec.bytes

section Reading

variable {keyword file rest s' : List UInt8} {s : Search} {keep : Bool}

/-- What reading a text does to the search: the keyword may be in a line of it, and the text
goes behind `name_section` when it is kept. -/
structure Search.Reads (keyword : List UInt8) (keep : Bool) (s t : Search) (text : List UInt8) :
    Prop where
  found : t.found = true ↔ s.found = true ∨ Occurs keyword text
  nameSection : t.nameSection = if keep then s.nameSection ++ text else s.nameSection

theorem readIf_of_noMark {heading content : List UInt8} (h : ¬headingMark heading <:+: content)
    (hnul : 0 ∉ content) (p : Search × List UInt8) :
    readIf keyword heading keep content p = some p := by
  rw [readIf, if_neg]
  rwa [strstr_isSome, cstr_eq_self hnul]

/-- The outer loop passes over text without a heading. -/
theorem search_skip (keyword : List UInt8) {text : List UInt8} (hwhole : Whole text) (hnul : 0 ∉ text)
    (hmark : Unmarked text) (s : Search) (rest : List UInt8) :
    search keyword s (text ++ rest) = search keyword s rest := by
  induction hlength : text.length using Nat.strong_induction_on generalizing text with
  | _ n ih =>
      cases hread : fgets 1000 text with
      | none => rw [fgets_eq_none.mp hread, List.nil_append]
      | some p =>
          obtain ⟨line, after⟩ := p
          have htext := fgets_append hread
          have hshorter := fgets_length (by decide) hread
          rw [Unmarked, pieces_cons (by decide) hread, List.forall_mem_cons] at hmark
          have hnone : 0 ∉ line := fun h => hnul (htext ▸ List.mem_append_left after h)
          rw [search_of_fgets (fgets_append_right hread (Or.inl hwhole) rest),
            readIf_of_noMark hmark.1.1 hnone, Option.bind_some,
            readIf_of_noMark hmark.1.2 hnone, Option.bind_some]
          exact ih after.length (hlength ▸ hshorter) (Whole.of_append (htext ▸ hwhole))
            (fun h => hnul (htext ▸ List.mem_append_right line h)) hmark.2 rfl

theorem readSection_blank (keyword : List UInt8) (keep : Bool) (s : Search) (rest : List UInt8) :
    readSection keyword keep s (newline :: rest) = some (s, rest) := by
  have hread : fgets 518 (newline :: rest) = some ([newline], rest) := by simp [fgets, takeLine]
  rw [readSection_of_fgets hread]
  rfl

/-- There is room for a text in `name_section`, should there be one to be kept. -/
def Search.Room (s : Search) (keep : Bool) (text : List UInt8) : Prop :=
  keep = true → text ≠ [] → s.nameSection.length + text.length < 1000

theorem Search.line_reads (keyword : List UInt8) {line : List UInt8} (hne : line ≠ [])
    (h : s.Room keep line) :
    ∃ t, s.line keyword keep line = some t ∧
      (t.found = true ↔ s.found = true ∨ keyword <:+: line) ∧
        t.nameSection = if keep then s.nameSection ++ line else s.nameSection := by
  have hfound : (s.found || (strstr keyword line).isSome) = true ↔
      s.found = true ∨ keyword <:+: line := by rw [Bool.or_eq_true, strstr_isSome]
  cases keep with
  | false => exact ⟨_, rfl, hfound, rfl⟩
  | true =>
      refine ⟨⟨_, s.nameSection ++ line⟩, ?_, hfound, rfl⟩
      simp only [Search.line, appendName, if_pos (h rfl hne), Option.map_some]
      rfl

/-- The inner loops read line after line. -/
theorem readSection_lines {ls : List (List UInt8)}
    (hls : ∀ line ∈ ls, OneLine line ∧ Whole line ∧ line ≠ [] ∧ 0 ∉ line ∧
      line.head? ≠ some newline ∧ line.length < 518)
    (s : Search) (hroom : s.Room keep ls.flatten) (rest : List UInt8) :
    ∃ t : Search, readSection keyword keep s (ls.flatten ++ rest) =
        readSection keyword keep t rest ∧
      (t.found = true ↔ s.found = true ∨ ∃ line ∈ ls, keyword <:+: line) ∧
      t.nameSection = if keep then s.nameSection ++ ls.flatten else s.nameSection := by
  induction ls generalizing s with
  | nil => exact ⟨s, rfl, by simp, by simp⟩
  | cons line ls ih =>
      obtain ⟨hone, hwhole, hne, hnul, hhead, hlength⟩ := hls line List.mem_cons_self
      have hread := fgets_line hone hwhole hne hlength (ls.flatten ++ rest)
      have hall (hkeep : keep = true) :
          s.nameSection.length + (line.length + ls.flatten.length) < 1000 := by
        rw [← List.length_append, ← List.flatten_cons]
        exact hroom hkeep (List.append_ne_nil_of_left_ne_nil hne _)
      have hfirst : s.Room keep line := fun hkeep _ => by
        have hboth := hall hkeep
        omega
      obtain ⟨u, hline, hfound, hname⟩ := Search.line_reads keyword hne hfirst
      have hrest : u.Room keep ls.flatten := by
        intro hkeep _
        have hboth := hall hkeep
        rw [hname, if_pos hkeep, List.length_append]
        omega
      obtain ⟨t, hlater, hfound', hname'⟩ :=
        ih (fun line hline => hls line (List.mem_cons_of_mem _ hline)) u hrest
      refine ⟨t, ?_, ?_, ?_⟩
      · rw [List.flatten_cons, List.append_assoc, readSection_of_fgets hread, if_neg hhead,
          cstr_eq_self hnul, hline, Option.bind_some, hlater]
      · rw [hfound', hfound, List.exists_mem_cons_iff, or_assoc]
      · rw [hname', hname]
        cases keep <;> simp

/-- A section's body is read whole. -/
theorem readSection_body (keyword : List UInt8) {body : List UInt8} (hwhole : Whole body) (hnul : 0 ∉ body)
    (hlines : ∀ line ∈ lines body, line.head? ≠ some newline ∧ line.length < 518)
    (s : Search) (hroom : s.Room keep body) (rest : List UInt8) :
    ∃ t : Search, readSection keyword keep s (body ++ rest) = readSection keyword keep t rest ∧
      s.Reads keyword keep t body := by
  have hls : ∀ line ∈ lines body, OneLine line ∧ Whole line ∧ line ≠ [] ∧ 0 ∉ line ∧
      line.head? ≠ some newline ∧ line.length < 518 := by
    intro line hline
    have hin := List.infix_of_mem_flatten hline
    rw [flatten_lines] at hin
    exact ⟨oneLine_of_mem_lines hline, whole_of_mem_lines hwhole hline, lines_ne_nil hline,
      fun h => hnul (hin.subset h), hlines line hline⟩
  rw [← flatten_lines body] at hroom
  obtain ⟨t, hread, hfound, hname⟩ := readSection_lines hls s hroom rest
  rw [flatten_lines] at hread hname
  exact ⟨t, hread, hfound, hname⟩

/-- The outer loop at a header that it knows. -/
theorem search_heading {sec : Section} (hsearched : sec.Searched) (s : Search)
    (file : List UInt8) :
    search keyword s (headingLine sec.heading ++ file) =
      (readSection keyword (decide (sec.heading = nameHeading)) s file).bind
        fun p => search keyword p.1 p.2 := by
  have hread (heading : List UInt8) (h : heading = nameHeading ∨ heading = descriptionHeading) :
      fgets 1000 (headingLine heading ++ file) = some (headingLine heading, file) := by
    have hline : newline ∉ bold ++ heading ++ plain := by
      rcases h with rfl | rfl <;> decide
    have hlength : (headingLine heading).length < 1000 := by
      rcases h with rfl | rfl <;> decide
    exact fgets_line (oneLine_append_newline hline) (whole_append_newline _)
      (List.append_ne_nil_of_right_ne_nil _ (List.cons_ne_nil _ _)) hlength file
  rw [search_of_fgets (hread sec.heading hsearched)]
  rcases hsearched with hname | hdescription
  · have hother (p : Search × List UInt8) :
        readIf keyword descriptionHeading false (headingLine nameHeading) p = some p :=
      readIf_of_noMark (by decide +kernel) (by decide) p
    have hfound : (strstr (headingMark nameHeading) (cstr (headingLine nameHeading))).isSome =
        true := by decide +kernel
    have hkeep : decide (nameHeading = nameHeading) = true := by decide
    rw [hname, readIf, if_pos hfound, hkeep]
    cases readSection keyword true s file with
    | none => rfl
    | some p => rw [Option.bind_some, hother]
  · have hother : readIf keyword nameHeading true (headingLine descriptionHeading) (s, file) =
        some (s, file) :=
      readIf_of_noMark (by decide +kernel) (by decide) _
    have hfound : (strstr (headingMark descriptionHeading)
        (cstr (headingLine descriptionHeading))).isSome = true := by decide +kernel
    have hne : decide (descriptionHeading = nameHeading) = false := by decide
    rw [hdescription, hother, Option.bind_some, readIf, if_pos hfound, hne]

theorem nameText_cons (sec : Section) (secs : List Section) :
    nameText (sec :: secs) =
      if sec.heading = nameHeading then sec.body ++ nameText secs else nameText secs := by
  by_cases h : sec.heading = nameHeading <;> simp [nameText, h]

/-- The room for the names is room for the section at hand, and for the later ones. -/
theorem room_cons (keyword : List UInt8) {sec : Section} {secs : List Section}
    (hroom : s.Room true (nameText (sec :: secs))) :
    s.Room (decide (sec.heading = nameHeading)) sec.body ∧
      ∀ t : Search, s.Reads keyword (decide (sec.heading = nameHeading)) t sec.body →
        t.Room true (nameText secs) := by
  rw [nameText_cons] at hroom
  by_cases h : sec.heading = nameHeading
  · rw [if_pos h] at hroom
    constructor
    · intro _ hne
      have hall := hroom rfl (List.append_ne_nil_of_left_ne_nil hne _)
      rw [List.length_append] at hall
      omega
    · intro t ht _ hne
      have hall := hroom rfl (List.append_ne_nil_of_right_ne_nil _ hne)
      rw [List.length_append] at hall
      rw [ht.nameSection, if_pos (decide_eq_true h), List.length_append]
      omega
  · rw [if_neg h] at hroom
    constructor
    · intro hkeep
      exact absurd (of_decide_eq_true hkeep) h
    · intro t ht
      rwa [Search.Room, ht.nameSection, if_neg (by simpa using h)]

/-- A text and a newline behind it have the headings of the text. -/
theorem NoMark.append_newline {text : List UInt8} (h : NoMark text) :
    NoMark (text ++ [newline]) := by
  have hmark (mark : List UInt8) (hline : newline ∉ mark) (hlength : 1 < mark.length)
      (hnone : ¬mark <:+: text) : ¬mark <:+: text ++ [newline] := by
    intro hin
    rcases (infix_append_cons hline).mp hin with hin | hin
    · exact hnone hin
    · exact absurd hin.length_le (Nat.not_le.mpr hlength)
  exact ⟨hmark _ (by decide) (by decide) h.1, hmark _ (by decide) (by decide) h.2⟩

theorem Unmarked.append_newline {text : List UInt8} (h : Unmarked text) :
    Unmarked (text ++ [newline]) := by
  induction hlength : text.length using Nat.strong_induction_on generalizing text with
  | _ n ih =>
      cases hread : fgets 1000 text with
      | none =>
          rw [fgets_eq_none.mp hread]
          decide +kernel
      | some p =>
          obtain ⟨line, after⟩ := p
          have hshorter := fgets_length (by decide) hread
          rw [Unmarked, pieces_cons (by decide) hread, List.forall_mem_cons] at h
          by_cases hafter : after = []
          · -- The text is one piece, and what is read of it with the newline is a part of both.
            have htext : line = text := by rw [← fgets_append hread, hafter, List.append_nil]
            intro piece hpiece
            have hin := List.infix_of_mem_flatten hpiece
            rw [flatten_pieces (by decide), ← htext] at hin
            exact ⟨fun hmark => h.1.append_newline.1 (hmark.trans hin),
              fun hmark => h.1.append_newline.2 (hmark.trans hin)⟩
          · rw [Unmarked, pieces_cons (by decide)
              (fgets_append_right hread (Or.inr hafter) [newline]), List.forall_mem_cons]
            exact ⟨h.1, ih after.length (hlength ▸ hshorter) h.2 rfl⟩

/-- The outer loop from the header of a section on. -/
theorem search_sections (keyword : List UInt8) {sec : Section} {secs : List Section}
    (hlegible : ∀ x ∈ sec :: secs, x.Legible)
    (hlast : ∀ x ∈ (sec :: secs).getLast?, Whole x.body) (s : Search)
    (hroom : s.Room true (nameText (sec :: secs))) :
    ∃ t, search keyword s (sec.bytes ++ laterBytes secs) = some t ∧
      (t.found = true ↔ s.found = true ∨
        ∃ x ∈ sec :: secs, x.Searched ∧ Occurs keyword x.body) := by
  induction secs generalizing sec s with
  | nil =>
      have hsec := hlegible sec List.mem_cons_self
      have hwhole : Whole sec.body := hlast sec rfl
      have hnul := hsec.noNul
      rw [laterBytes, List.flatMap_nil]
      by_cases hsearched : sec.Searched
      · obtain ⟨t, hread, ht⟩ := readSection_body keyword hwhole
          (fun h => hnul (List.mem_append_right _ h)) (hsec.lines hsearched) s
          (room_cons keyword hroom).1 []
        refine ⟨t, ?_, ?_⟩
        · rw [Section.bytes, List.append_assoc, search_heading hsearched, hread, readSection_eof,
            Option.bind_some, search_eof]
        · rw [ht.found]
          simp [hsearched]
      · have hbytes : Whole sec.bytes := (whole_append_newline _).append hwhole
        refine ⟨s, ?_, by simp [hsearched]⟩
        rw [search_skip keyword hbytes hnul (hsec.passed hsearched), search_eof]
  | cons next secs ih =>
      have hsec := hlegible sec List.mem_cons_self
      have hnul := hsec.noNul
      have hrest : ∀ x ∈ next :: secs, x.Legible :=
        fun x hx => hlegible x (List.mem_cons_of_mem sec hx)
      have hlater : laterBytes (next :: secs) = newline :: (next.bytes ++ laterBytes secs) := rfl
      rw [List.getLast?_cons_cons] at hlast
      rw [hlater]
      by_cases hsearched : sec.Searched
      · obtain ⟨hfits, hkeeps⟩ := room_cons keyword hroom
        obtain ⟨u, hread, hu⟩ := readSection_body keyword (hsec.whole hsearched)
          (fun h => hnul (List.mem_append_right _ h)) (hsec.lines hsearched) s hfits
          (newline :: (next.bytes ++ laterBytes secs))
        obtain ⟨t, hsearch, ht⟩ := ih hrest hlast u (hkeeps u hu)
        refine ⟨t, ?_, ?_⟩
        · rw [Section.bytes, List.append_assoc, search_heading hsearched, hread,
            readSection_blank, Option.bind_some, hsearch]
        · rw [ht, hu.found, or_assoc]
          simp [hsearched]
      · have hnames : nameText (sec :: next :: secs) = nameText (next :: secs) := by
          rw [nameText_cons, if_neg fun h => hsearched (Or.inl h)]
        rw [hnames] at hroom
        obtain ⟨t, hsearch, ht⟩ := ih hrest hlast s hroom
        refine ⟨t, ?_, ?_⟩
        · have hsplit : sec.bytes ++ newline :: (next.bytes ++ laterBytes secs) =
              (sec.bytes ++ [newline]) ++ (next.bytes ++ laterBytes secs) := by simp
          have hnone : 0 ∉ sec.bytes ++ [newline] := by simpa [newline] using hnul
          rw [hsplit, search_skip keyword (whole_append_newline _) hnone
            (hsec.passed hsearched).append_newline, hsearch]
        · rw [ht]
          simp [hsearched]

end Reading

/-! ## Pages of the formatter -/

/-- Formatted lines, one after the other. -/
inductive Text : List UInt8 → Prop
  | nil : Text []
  | cons {t s} (ht : Formatted t) (hs : Text s) : Text (t ++ s)

section Pages

variable {s t footer : List UInt8} {page : Page}

theorem Text.append (hs : Text s) (ht : Text t) : Text (s ++ t) := by
  induction hs with
  | nil => exact ht
  | cons hfirst hs ih =>
      rw [List.append_assoc]
      exact Text.cons hfirst ih

theorem Formatted.ne_nil (h : Formatted t) : t ≠ [] := by
  rintro rfl
  cases h.indented

theorem Text.of_formatted (h : Formatted t) : Text t := by
  rw [← List.append_nil t]
  exact Text.cons h Text.nil

theorem Text.noNul (h : Text s) : 0 ∉ s := by
  induction h with
  | nil => simp
  | cons hfirst hs ih => exact fun h => (List.mem_append.mp h).elim hfirst.noNul ih

/-- No line of the text is empty, since the formatter indents what it writes. -/
theorem Text.indented (h : Text s) : ∀ line ∈ lines s, line.head? = some space := by
  induction h with
  | nil => nofun
  | @cons t s hfirst hs ih =>
      intro line hline
      have hne := hfirst.ne_nil
      obtain ⟨first, rest, hlines, hprefix, hrest⟩ := lines_append hfirst.oneLine hne s
      rw [hlines] at hline
      rcases List.mem_cons.mp hline with rfl | hline
      · obtain ⟨more, rfl⟩ := hprefix
        rw [List.head?_append_of_ne_nil _ hne]
        exact hfirst.indented
      · exact ih line (hrest line hline)

theorem sectionsOf_sound {parts : List Part} (h : ∀ part ∈ parts, part.Sound) :
    Text (sectionsOf parts).1 ∧
      ∀ sec ∈ (sectionsOf parts).2, 0 ∉ sec.heading ∧ Text sec.body := by
  induction parts with
  | nil => exact ⟨Text.nil, nofun⟩
  | cons part parts ih =>
      obtain ⟨hpreamble, hsecs⟩ := ih fun part hpart => h part (List.mem_cons_of_mem _ hpart)
      have hpart := h part List.mem_cons_self
      cases part with
      | text formatted => exact ⟨Text.cons hpart hpreamble, hsecs⟩
      | heading sh =>
          refine ⟨Text.nil, fun sec hsec => ?_⟩
          rcases List.mem_cons.mp hsec with rfl | hsec
          · exact ⟨hpart, hpreamble⟩
          · exact hsecs sec hsec

theorem flatMap_bytes (parts : List Part) :
    parts.flatMap Part.bytes = (sectionsOf parts).1 ++ laterBytes (sectionsOf parts).2 := by
  induction parts with
  | nil => rfl
  | cons part parts ih =>
      rw [List.flatMap_cons, ih]
      cases part with
      | text formatted => simp [sectionsOf, Part.bytes]
      | heading sh => simp [sectionsOf, Part.bytes, laterBytes, Section.bytes]

theorem withFooter_concat (secs : List Section) (last : Section) :
    withFooter footer (secs ++ [last]) = secs ++ [⟨last.heading, last.body ++ footer⟩] := by
  simp [withFooter]

theorem laterBytes_append (xs ys : List Section) :
    laterBytes (xs ++ ys) = laterBytes xs ++ laterBytes ys :=
  List.flatMap_append

/-- The bytes of a page with sections. -/
theorem Page.contents_eq {sec : Section} {secs : List Section}
    (h : page.fileSections = sec :: secs) :
    page.contents =
      page.header ++ page.preamble ++ [newline] ++ (sec.bytes ++ laterBytes secs) := by
  have hlater : laterBytes page.sections ++ page.footer = laterBytes page.fileSections := by
    rcases List.eq_nil_or_concat page.sections with hnil | ⟨init, last, hlast⟩
    · rw [Page.fileSections, hnil] at h
      cases h
    · rw [List.concat_eq_append] at hlast
      rw [Page.fileSections, hlast, withFooter_concat, laterBytes_append, laterBytes_append]
      simp [laterBytes, Section.bytes]
  have hbytes : page.parts.flatMap Part.bytes = page.preamble ++ laterBytes page.sections :=
    flatMap_bytes page.parts
  rw [Page.contents, hbytes, ← List.append_assoc, List.append_assoc _ (laterBytes page.sections),
    hlater, h]
  simp [laterBytes]

/-- What stands in front of the first header. -/
def Page.opening (page : Page) : List UInt8 :=
  page.header ++ page.preamble ++ if page.sections = [] then page.footer else []

/-- The page as `open_file` can read it: no piece outside of the two sections is taken for a
heading, the sections end with a line of their own, their lines fit into `line[518]`, and the
names, if there are any, fit behind what `name_section` holds already. -/
structure Page.Readable (page : Page) (memory : List UInt8) : Prop where
  opening : Unmarked page.opening
  passed : ∀ sec ∈ page.fileSections, ¬sec.Searched → Unmarked sec.bytes
  whole : ∀ sec ∈ page.sections.dropLast, sec.Searched → Whole sec.body
  fits : ∀ sec ∈ page.fileSections, sec.Searched → ∀ line ∈ lines sec.body, line.length < 518
  room : nameText page.fileSections ≠ [] →
    (cstr memory).length + (nameText page.fileSections).length < 1000

theorem Page.Sound.section (hsound : page.Sound) {sec : Section} (h : sec ∈ page.sections) :
    0 ∉ sec.heading ∧ Text sec.body :=
  (sectionsOf_sound hsound.parts).2 sec h

/-- The sections of a readable page are read as they have been written. -/
theorem Page.Readable.legible {memory : List UInt8} (hread : page.Readable memory)
    (hsound : page.Sound) : ∀ sec ∈ page.fileSections, sec.Legible := by
  intro sec hsec
  have hfits := hread.fits sec hsec
  have hpassed := hread.passed sec hsec
  have hfrom {x : Section} (hx : x ∈ page.sections) (hheading : sec.heading = x.heading)
      (htext : Text sec.body) (hwhole : sec.Searched → Whole sec.body) : sec.Legible := by
    constructor
    case noNul =>
      have hnul := (hsound.section hx).1
      simpa [Section.bytes, headingLine, bold, plain, newline, hheading, hnul] using htext.noNul
    case whole => exact hwhole
    case lines =>
      intro hsearched line hline
      refine ⟨?_, hfits hsearched line hline⟩
      rw [htext.indented line hline]
      decide
    case passed => exact hpassed
  rw [Page.fileSections, withFooter] at hsec
  rcases List.mem_append.mp hsec with hsec | hsec
  · have hx := List.dropLast_subset _ hsec
    exact hfrom hx rfl (hsound.section hx).2 (hread.whole sec hsec)
  · obtain ⟨last, hlast, rfl⟩ := List.mem_map.mp hsec
    have hx := List.mem_of_getLast? (Option.mem_toList.mp hlast)
    exact hfrom hx rfl ((hsound.section hx).2.append (Text.of_formatted hsound.footer))
      fun _ => hsound.footer_whole.append_of_ne_nil hsound.footer.ne_nil last.body

theorem whole_last_fileSections (hsound : page.Sound) :
    ∀ sec ∈ page.fileSections.getLast?, Whole sec.body := by
  intro sec hsec
  rcases List.eq_nil_or_concat page.sections with hnil | ⟨init, last, hlast⟩
  · rw [Page.fileSections, hnil] at hsec
    cases hsec
  · rw [List.concat_eq_append] at hlast
    rw [Page.fileSections, hlast, withFooter_concat, List.getLast?_concat] at hsec
    cases hsec
    exact hsound.footer_whole.append_of_ne_nil hsound.footer.ne_nil last.body

/-- A keyword is a single word. -/
def SingleWord (keyword : List UInt8) : Prop :=
  keyword ≠ [] ∧ ∀ b ∈ keyword, isSpace b = false

/-- The keyword occurs in a rendered line of one of the two sections. -/
def Page.Mentions (page : Page) (keyword : List UInt8) : Prop :=
  ∃ sec ∈ page.sections, sec.Searched ∧ Occurs keyword sec.body

/-- The search reports the page exactly when one of the two sections mentions the keyword. -/
def Agrees (keyword memory : List UInt8) (page : Page) : Prop :=
  ∃ found, openFile keyword memory page.contents = some found ∧
    (found = true ↔ page.Mentions keyword)

theorem SingleWord.space {keyword : List UInt8} (h : SingleWord keyword) : space ∉ keyword :=
  fun hmem => Bool.noConfusion (h.2 _ hmem)

theorem SingleWord.newline {keyword : List UInt8} (h : SingleWord keyword) :
    newline ∉ keyword :=
  fun hmem => Bool.noConfusion (h.2 _ hmem)

/-- A word in a text or in the footer behind it. -/
theorem SingleWord.occurs_append {keyword text : List UInt8} (h : SingleWord keyword)
    (hsound : page.Sound) :
    Occurs keyword (text ++ page.footer) ↔ Occurs keyword text ∨ keyword <:+: page.footer := by
  obtain ⟨footer, hfooter⟩ := List.head?_eq_some_iff.mp hsound.footer.indented
  rw [occurs_iff h.1 h.newline, occurs_iff h.1 h.newline, hfooter]
  exact infix_append_cons h.space

/-- The search takes the footer for a part of the last section. -/
theorem exists_fileSections {keyword : List UInt8} (h : SingleWord keyword)
    (hsound : page.Sound) :
    (∃ sec ∈ page.fileSections, sec.Searched ∧ Occurs keyword sec.body) ↔
      page.Mentions keyword ∨
        ∃ last ∈ page.sections.getLast?, last.Searched ∧ keyword <:+: page.footer := by
  rcases List.eq_nil_or_concat page.sections with hnil | ⟨init, last, hlast⟩
  · simp [Page.fileSections, Page.Mentions, hnil, withFooter]
  · rw [List.concat_eq_append] at hlast
    have hsearched : Section.Searched ⟨last.heading, last.body ++ page.footer⟩ ↔ last.Searched :=
      Iff.rfl
    simp only [Page.fileSections, Page.Mentions, hlast, withFooter_concat, List.mem_append,
      List.mem_singleton, or_and_right, exists_or, exists_eq_left, List.getLast?_concat,
      Option.mem_some_iff, exists_eq_left', hsearched, h.occurs_append hsound, and_or_left]
    exact or_assoc.symm

/-- The search through a readable page. -/
theorem search_page {keyword memory : List UInt8} (hword : SingleWord keyword)
    (hsound : page.Sound) (hread : page.Readable memory) :
    ∃ found, openFile keyword memory page.contents = some found ∧
      (found = true ↔ page.Mentions keyword ∨
        ∃ last ∈ page.sections.getLast?, last.Searched ∧ keyword <:+: page.footer) := by
  have hlegible := hread.legible hsound
  have hnul : 0 ∉ page.header ++ page.preamble := by
    rw [List.mem_append, not_or]
    exact ⟨hsound.header, (sectionsOf_sound hsound.parts).1.noNul⟩
  rw [← exists_fileSections hword hsound]
  cases hsecs : page.fileSections with
  | nil =>
      have hnone : page.sections = [] := by
        rcases List.eq_nil_or_concat page.sections with hnil | ⟨init, last, hlast⟩
        · exact hnil
        · rw [List.concat_eq_append] at hlast
          rw [Page.fileSections, hlast, withFooter_concat] at hsecs
          exact absurd hsecs (List.append_ne_nil_of_right_ne_nil _ (List.cons_ne_nil _ _))
      have hcontents : page.contents = page.header ++ page.preamble ++ page.footer := by
        rw [Page.contents, flatMap_bytes, ← List.append_assoc]
        have hlater : laterBytes (sectionsOf page.parts).2 = [] := by
          rw [Page.sections] at hnone
          rw [hnone]
          rfl
        rw [hlater, List.append_nil]
        rfl
      have hopening := hread.opening
      rw [Page.opening, if_pos hnone, ← hcontents] at hopening
      have hskip : search keyword ⟨false, cstr memory⟩ (page.contents ++ []) =
          search keyword ⟨false, cstr memory⟩ [] := by
        apply search_skip _ _ _ hopening
        · rw [hcontents]
          exact hsound.footer_whole.append_of_ne_nil hsound.footer.ne_nil _
        · rw [hcontents]
          exact fun h => (List.mem_append.mp h).elim hnul hsound.footer.noNul
      rw [List.append_nil, search_eof] at hskip
      refine ⟨false, ?_, by simp⟩
      rw [openFile, hskip]
      rfl
  | cons sec secs =>
      have hopening := hread.opening
      have hsome : page.sections ≠ [] := by
        intro hnone
        rw [Page.fileSections, hnone] at hsecs
        cases hsecs
      rw [Page.opening, if_neg hsome, List.append_nil] at hopening
      have hskip := search_skip keyword (whole_append_newline _)
        (by simpa [newline] using hnul) hopening.append_newline ⟨false, cstr memory⟩
        (sec.bytes ++ laterBytes secs)
      have hroom : Search.Room ⟨false, cstr memory⟩ true (nameText page.fileSections) :=
        fun _ => hread.room
      rw [hsecs] at hroom hlegible
      obtain ⟨t, hsearch, ht⟩ := search_sections keyword hlegible
        (hsecs ▸ whole_last_fileSections hsound) ⟨false, cstr memory⟩ hroom
      refine ⟨t.found, ?_, ?_⟩
      · rw [openFile, Page.contents_eq hsecs, hskip, hsearch]
        rfl
      · rw [ht]
        simp

/-- On a readable page the search agrees with the formatter, except for a word that occurs in
the footer only, when one of the two sections is the last one. -/
theorem agrees_iff {creates : List UInt8 → Bool} {input memory keyword : List UInt8}
    (h : wgroff creates input = .ok page)
    (hword : SingleWord keyword) (hread : page.Readable memory) :
    Agrees keyword memory page ↔
      ∀ last ∈ page.sections.getLast?, last.Searched → keyword <:+: page.footer →
        page.Mentions keyword := by
  obtain ⟨found, hopen, hfound⟩ := search_page hword (wgroff_sound h) hread
  constructor
  · rintro ⟨found', hopen', hagrees⟩ last hlast hsearched hfooter
    have hsame : found = found' := by
      rw [hopen] at hopen'
      exact Option.some.inj hopen'
    rw [← hagrees, ← hsame, hfound]
    exact Or.inr ⟨last, hlast, hsearched, hfooter⟩
  · intro hlast
    refine ⟨found, hopen, hfound.trans ⟨?_, Or.inl⟩⟩
    rintro (hmentions | ⟨last, hmem, hsearched, hfooter⟩)
    · exact hmentions
    · exact hlast last hmem hsearched hfooter

end Pages

/-! ## Two pages -/

instance (word s : List UInt8) : Decidable (Occurs word s) :=
  inferInstanceAs (Decidable (∃ line ∈ lines s, word <:+: line))

instance (page : Page) (keyword : List UInt8) : Decidable (page.Mentions keyword) :=
  inferInstanceAs (Decidable (∃ sec ∈ page.sections, sec.Searched ∧ Occurs keyword sec.body))

theorem exists_page {input : List UInt8} {P : Page → Bool}
    (h : (wgroff (fun _ => true) input).toOption.any P = true) :
    ∃ page, wgroff (fun _ => true) input = .ok page ∧ P page = true := by
  cases hpage : wgroff (fun _ => true) input with
  | error e =>
      rw [hpage] at h
      cases h
  | ok page =>
      rw [hpage] at h
      exact ⟨page, rfl, h⟩

/-- `.TH w 1 2023-08-15`, and a name and a description of one line each. -/
def shortInput : List UInt8 :=
  ascii ['.', 'T', 'H', ' ', 'w', ' ', '1', ' ',
      '2', '0', '2', '3', '-', '0', '8', '-', '1', '5', '\n',
    '.', 'S', 'H', ' ', 'n', 'a', 'm', 'e', '\n', 'w', ' ', '-', ' ', 'x', '\n',
    '.', 'S', 'H', ' ', 'd', 'e', 's', 'c', 'r', 'i', 'p', 't', 'i', 'o', 'n', '\n',
    'f', 'i', 'n', 'd', '\n']

/-- A third section behind the two. -/
def longerInput : List UInt8 := shortInput ++ ascii ['.', 'S', 'H', ' ', 's', 'e', 'e', '\n']

def freshMemory : List UInt8 := List.replicate 1000 0

theorem agrees_iff_longer :
    ∃ page, wgroff (fun _ => true) longerInput = .ok page ∧
      page.Mentions (ascii ['f', 'i', 'n', 'd']) ∧
        Agrees (ascii ['f', 'i', 'n', 'd']) freshMemory page := by
  obtain ⟨page, hpage, hcheck⟩ := @exists_page longerInput (fun page => decide (
    Unmarked page.opening ∧
    (∀ sec ∈ page.fileSections, ¬sec.Searched → Unmarked sec.bytes) ∧
    (∀ sec ∈ page.sections.dropLast, sec.Searched → sec.body.getLast? = some newline) ∧
    (∀ sec ∈ page.fileSections, sec.Searched → ∀ line ∈ lines sec.body, line.length < 518) ∧
    (cstr freshMemory).length + (nameText page.fileSections).length < 1000 ∧
    page.Mentions (ascii ['f', 'i', 'n', 'd']))) (by decide +kernel)
  obtain ⟨hopening, hpassed, hwhole, hfits, hroom, hmentions⟩ := of_decide_eq_true hcheck
  have hread : page.Readable freshMemory := by
    refine ⟨hopening, hpassed, fun sec hsec hsearched b hb => ?_, hfits, fun _ => hroom⟩
    rw [hwhole sec hsec hsearched] at hb
    exact (Option.some.inj hb).symm
  exact ⟨page, hpage, hmentions,
    (agrees_iff hpage ⟨by decide, by decide +kernel⟩ hread).mpr fun _ _ _ _ => hmentions⟩

/-- The year of the footer is found in a page that does not mention it. -/
theorem footer_found :
    ¬∀ (creates : List UInt8 → Bool) (input memory keyword : List UInt8) (page : Page),
      wgroff creates input = .ok page → SingleWord keyword → Agrees keyword memory page := by
  intro h
  obtain ⟨page, hpage, hcheck⟩ := @exists_page shortInput (fun page => decide (
    openFile (ascii ['2', '0', '2', '3']) freshMemory page.contents = some true ∧
    ¬page.Mentions (ascii ['2', '0', '2', '3']))) (by decide +kernel)
  obtain ⟨hopen, hmentions⟩ := of_decide_eq_true hcheck
  obtain ⟨found, hfound, hagrees⟩ :=
    h (fun _ => true) shortInput freshMemory (ascii ['2', '0', '2', '3']) page hpage
      ⟨by decide, by decide +kernel⟩
  rw [hopen] at hfound
  exact hmentions (hagrees.mp (Option.some.inj hfound).symm)

end OSProjects.Manual
