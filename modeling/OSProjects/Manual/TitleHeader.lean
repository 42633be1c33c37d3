import OSProjects.Foundation.CString
import OSProjects.Manual.SourceLines

/-!
# The title line

What `wgroff` makes of the first line of a file, against the form that a title should have.
-/

namespace OSProjects.Manual

open StringSearch LineReading

/-- `YYYY-MM-DD`. -/
def IsDate (date : List UInt8) : Prop :=
  ∃ year month day, date = year ++ 45 :: (month ++ 45 :: day) ∧ year.length = 4 ∧
    month.length = 2 ∧ day.length = 2 ∧ ∀ b ∈ year ++ month ++ day, isDigit b = true

/-- The numbers of the sections. -/
def sections : List UInt8 := ascii ['1', '2', '3', '4', '5', '6', '7', '8', '9']

/-- `.TH <command> <section> <date>`. -/
def IsTitle (text : List UInt8) : Prop :=
  ∃ command number date, text = thMark ++ space :: (command ++ space :: number :: space :: date) ∧
    command ≠ [] ∧ space ∉ command ∧ number ∈ sections ∧ IsDate date

/-- Titles are accepted, and every other line is refused with a message. -/
structure TitleLaw (line : List UInt8) : Prop where
  title : IsTitle (removeTrailingNewline line) → ∃ path time,
    titleHeader (cstr line) = .ok (path, time)
  other : ¬IsTitle (removeTrailingNewline line) → titleHeader (cstr line) = .error (.improper 1)

/-- The words of a line up to its first NUL. -/
def words (line : List UInt8) : List (List UInt8) := CString.strtok space (cstr line)

/-- The first word has no `.TH` in it, the third one has a value that is no section, or the
fourth one fits into `time` and has not eleven bytes. -/
def Refused (words : List (List UInt8)) : Prop :=
  (∃ mark rest, words = mark :: rest ∧ ¬thMark <:+: mark) ∨
    (∃ mark command number rest, words = mark :: command :: number :: rest ∧
      (atoi number < 1 ∨ 9 < atoi number)) ∨
    ∃ mark command number date rest, words = mark :: command :: number :: date :: rest ∧
      date.length < 50 ∧ date.length ≠ 11

/-! ## Refusals -/

section Words

variable {line s w : List UInt8}

theorem words_eq (line : List UInt8) :
    (strtok (· == space) (cstr line ++ [0])).map Token.text = words line := by
  have hcstr := cstr_terminated (zero_notMem_cstr line) []
  rw [strtok, hcstr, text_tokensFrom]
  rfl

/-- A title is refused with a message exactly for these words. -/
theorem titleHeader_refused :
    titleHeader (cstr line) = .error (.improper 1) ↔ Refused (words line) := by
  rw [titleHeader, words_eq]
  generalize words line = words
  cases words with
  | nil => simp [Refused]
  | cons mark args =>
      have hmark : (strstr thMark mark).isNone = true ↔ ¬thMark <:+: mark := by
        rw [Option.isNone_iff_eq_none, ← Option.not_isSome_iff_eq_none, strstr_isSome]
      simp only [hmark]
      split
      case isTrue hnot => simp [Refused, hnot]
      case isFalse hmark =>
        rw [Decidable.not_not] at hmark
        rcases args with _ | ⟨command, _ | ⟨number, args⟩⟩
        · simp [Refused, hmark]
        · simp [Refused, hmark]
        · dsimp only
          split
          case isTrue hnumber => simp [Refused, hmark, hnumber]
          case isFalse hnumber =>
            cases args with
            | nil => simp [Refused, hmark, hnumber]
            | cons date rest =>
                have hdate : Refused (mark :: command :: number :: date :: rest) ↔
                    date.length < 50 ∧ date.length ≠ 11 := by simp [Refused, hmark, hnumber]
                rw [hdate]
                dsimp only
                rw [List.length_dropLast]
                split
                case isTrue => exact iff_of_false (fun h => by cases h) (by omega)
                case isFalse =>
                  split
                  case isTrue => exact iff_of_true rfl (by omega)
                  case isFalse => exact iff_of_false (fun h => by cases h) (by omega)

/-! ## Titles -/

theorem IsDate.bytes {date : List UInt8} (h : IsDate date) :
    date.length = 10 ∧ ∀ b ∈ date, isDigit b = true ∨ b = 45 := by
  obtain ⟨year, month, day, rfl, hyear, hmonth, hday, hdigits⟩ := h
  refine ⟨?_, fun b hb => ?_⟩
  · simp only [List.length_append, List.length_cons]
    omega
  · simp only [List.mem_append, List.mem_cons] at hb hdigits
    rcases hb with hb | hb | hb | hb | hb
    · exact Or.inl (hdigits b (Or.inl (Or.inl hb)))
    · exact Or.inr hb
    · exact Or.inl (hdigits b (Or.inl (Or.inr hb)))
    · exact Or.inr hb
    · exact Or.inl (hdigits b (Or.inr hb))

theorem atoi_section : ∀ b ∈ sections, b ≠ space ∧ b ≠ 0 ∧ ¬(atoi [b] < 1 ∨ 9 < atoi [b]) := by
  decide +kernel

/-- The words of a title, whatever ends the line. -/
theorem words_title {command date : List UInt8} {number : UInt8} (last : List UInt8)
    (hne : command ≠ []) (hcommand : space ∉ command) (hnumber : number ∈ sections)
    (hdate : space ∉ date ++ last) (hlast : date ≠ []) :
    CString.strtok space (thMark ++ space :: (command ++ space :: number :: space :: date) ++ last) =
      [thMark, command, [number], date ++ last] := by
  have hsplit : thMark ++ space :: (command ++ space :: number :: space :: date) ++ last =
      thMark ++ space :: (command ++ space :: ([number] ++ space :: (date ++ last))) := by simp
  rw [hsplit, CString.strtok_word_sep (by decide) (by decide),
    CString.strtok_word_sep hne hcommand]
  rw [CString.strtok_word_sep (List.cons_ne_nil _ _), CString.strtok_word _ hdate]
  · simp [hlast]
  · simpa using (atoi_section number hnumber).1.symm

/-- Behind a title without a NUL, only a newline makes eleven bytes of the date. -/
theorem titleHeader_title {command date : List UInt8} {number : UInt8} {last : List UInt8}
    (hne : command ≠ []) (hcommand : space ∉ command) (hnumber : number ∈ sections)
    (hdate : IsDate date) (hlast : space ∉ last) (hshort : last.length ≤ 1)
    (hline : line = thMark ++ space :: (command ++ space :: number :: space :: date) ++ last)
    (hnul : 0 ∉ line) :
    titleHeader (cstr line) =
      if last.length = 1 then .ok (command ++ dot :: [number], date) else .error (.improper 1) := by
  obtain ⟨hlength, hbytes⟩ := hdate.bytes
  have hspace : space ∉ date := fun hmem => by
    rcases hbytes space hmem with h | h <;> cases h
  have hdateNe : date ≠ [] := List.ne_nil_of_length_eq_add_one hlength
  have hwords := words_title last hne hcommand hnumber
    (fun hmem => (List.mem_append.mp hmem).elim hspace hlast) hdateNe
  rw [← hline] at hwords
  rw [titleHeader, words_eq, words, cstr_eq_self hnul, hwords]
  have hmark : ¬(strstr thMark thMark).isNone = true := by decide
  dsimp only
  rw [if_neg hmark, if_neg (atoi_section number hnumber).2.2]
  rw [List.length_append, List.length_dropLast, List.length_append, hlength]
  rw [if_neg (by omega)]
  rcases last with _ | ⟨b, rest⟩
  · rfl
  · rw [List.length_cons] at hshort ⊢
    obtain rfl : rest = [] := List.eq_nil_of_length_eq_zero (by omega)
    simp

/-- A NUL in a title leaves no third word. -/
theorem titleHeader_nul {command rest : List UInt8} (hcommand : space ∉ command)
    (hnul : 0 ∈ command) (hline : line = thMark ++ space :: (command ++ rest)) :
    titleHeader (cstr line) = .error .crash := by
  have hcut := cstr_append_drop hnul
  have hspace : space ∉ cstr command := fun hmem => hcommand ((cstr_front command).subset hmem)
  have hcstr : cstr line = thMark ++ space :: cstr command := by
    have hsplit : line = thMark ++ space :: cstr command ++
        0 :: (command.drop ((cstr command).length + 1) ++ rest) := by
      rw [hline]
      conv_lhs => rw [← hcut]
      simp
    have hzero : 0 ∉ thMark ++ space :: cstr command := by
      rw [List.mem_append, List.mem_cons, not_or, not_or]
      exact ⟨by decide, by decide, zero_notMem_cstr command⟩
    rw [hsplit, cstr_terminated hzero]
  rw [titleHeader, words_eq, words, hcstr, CString.strtok_word_sep (by decide) (by decide)]
  rcases eq_or_ne (cstr command) [] with hnil | hne
  · rw [hnil]
    rfl
  · rw [CString.strtok_word hne hspace]
    rfl

/-- A title is accepted when it ends with a newline and has no NUL. -/
theorem title_accepted (h : IsTitle (removeTrailingNewline line)) :
    (∃ path time, titleHeader (cstr line) = .ok (path, time)) ↔
      line.getLast? = some newline ∧ 0 ∉ line := by
  obtain ⟨command, number, date, htext, hne, hcommand, hnumber, hdate⟩ := h
  obtain ⟨last, hline, hspace, hnewline⟩ : ∃ last,
      line = thMark ++ space :: (command ++ space :: number :: space :: date) ++ last ∧
        (last = [] ∨ last = [newline]) ∧ (line.getLast? = some newline ↔ last.length = 1) := by
    by_cases hlast : line.getLast? = some newline
    case pos =>
      obtain ⟨front, rfl⟩ := List.getLast?_eq_some_iff.mp hlast
      rw [removeTrailingNewline, if_pos hlast, List.dropLast_concat] at htext
      exact ⟨[newline], by rw [htext], Or.inr rfl, iff_of_true hlast rfl⟩
    case neg =>
      rw [removeTrailingNewline, if_neg hlast] at htext
      exact ⟨[], by rw [List.append_nil, htext], Or.inl rfl, iff_of_false hlast Nat.zero_ne_one⟩
  rw [hnewline]
  by_cases hnul : 0 ∈ line
  case neg =>
    have hlast : space ∉ last ∧ last.length ≤ 1 := by rcases hspace with rfl | rfl <;> decide
    rw [titleHeader_title hne hcommand hnumber hdate hlast.1 hlast.2 hline hnul]
    by_cases hone : last.length = 1
    · rw [if_pos hone]
      exact iff_of_true ⟨_, _, rfl⟩ ⟨hone, hnul⟩
    · rw [if_neg hone]
      exact iff_of_false (by rintro ⟨path, time, ⟨⟩⟩) fun h => hone h.1
  case pos =>
    have hlast : 0 ∉ last := by rcases hspace with rfl | rfl <;> decide
    have hdateNul : 0 ∉ date := fun hmem => by
      rcases hdate.bytes.2 0 hmem with h | h <;> cases h
    have hmem : 0 ∈ command := by
      rw [hline] at hnul
      simpa [hlast, hdateNul, (atoi_section number hnumber).2.1.symm, thMark, ascii, space]
        using hnul
    rw [List.append_assoc, List.cons_append, List.append_assoc] at hline
    rw [titleHeader_nul hcommand hmem hline]
    exact iff_of_false (by rintro ⟨path, time, ⟨⟩⟩) fun h => h.2 hnul

end Words

/-- A line is treated as it should be exactly when it is a title with a newline at its end and
without a NUL, or no title and refused by one of its words. -/
theorem title_law_iff (line : List UInt8) :
    TitleLaw line ↔
      (IsTitle (removeTrailingNewline line) → line.getLast? = some newline ∧ 0 ∉ line) ∧
        (¬IsTitle (removeTrailingNewline line) → Refused (words line)) := by
  constructor
  · intro law
    exact ⟨fun h => (title_accepted h).mp (law.title h),
      fun h => titleHeader_refused.mp (law.other h)⟩
  · rintro ⟨htitle, hother⟩
    exact ⟨fun h => (title_accepted h).mpr (htitle h),
      fun h => titleHeader_refused.mpr (hother h)⟩

/-- `.TH` alone is read through null pointers. -/
theorem fields_missing : ¬∀ line : List UInt8, line.length ≤ 99 → TitleLaw line := by
  intro h
  have hlaw := h (thMark ++ [newline]) (by decide)
  have hwords : ¬IsTitle (removeTrailingNewline (thMark ++ [newline])) := by
    rintro ⟨command, number, date, htext, -⟩
    have hlength := congrArg List.length htext
    simp [removeTrailingNewline, thMark, ascii] at hlength
  have hcrash : titleHeader (cstr (thMark ++ [newline])) = .error .crash := by decide +kernel
  have hother := hlaw.other hwords
  rw [hcrash] at hother
  cases hother

end OSProjects.Manual
