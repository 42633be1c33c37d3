import OSProjects.Manual.FormatBuffer

/-!
# The lines of a source file

Which lines `wgroff` translates as it should. It reads a file in pieces of at most 511 bytes,
and looks for its marks anywhere in a piece.
-/

namespace OSProjects.Manual

open StringSearch LineReading

/-- `".SH "`. -/
def shStart : List UInt8 := ascii ['.', 'S', 'H', ' ']

/-- What a line should become: a section header behind an empty line, nothing for a comment,
and otherwise an indented line. -/
def translate (line : List UInt8) : List UInt8 :=
  if shStart.isPrefixOf line then
    newline :: headingLine (toUppercase ((removeTrailingNewline line).drop 4))
  else if line.head? = some 35 then []
  else formatLine (removeTrailingNewline line) ++ [newline]

/-- The bytes are what the loop writes while it reads the text. -/
def Writes (text bytes : List UInt8) : Prop :=
  ∃ parts, formatPieces (pieces 512 text) = .ok parts ∧ parts.flatMap Part.bytes = bytes

/-- Every line behind the first one is translated, and the page consists of the translations in
their order. -/
def LineByLine (creates : List UInt8 → Bool) (input : List UInt8) : Prop :=
  ∃ page, wgroff creates input = .ok page ∧
    (∀ line ∈ (lines input).tail, Writes line (translate line)) ∧
    page.parts.flatMap Part.bytes = (lines input).tail.flatMap translate

/-- Every piece of the text has a `#` in front of its first NUL. -/
def Silent (text : List UInt8) : Prop := ∀ piece ∈ pieces 512 text, 35 ∈ cstr piece

instance (text : List UInt8) : Decidable (Silent text) :=
  inferInstanceAs (Decidable (∀ piece ∈ pieces 512 text, 35 ∈ cstr piece))

/-- A section header has a name of at most 501 bytes. Neither a header nor a line of text has a
`#` or a NUL in it, and a line of text ends with a newline, has at most 511 bytes with it, and
has no `.SH` in it. -/
def Kept (line : List UInt8) : Prop :=
  if shStart.isPrefixOf line then
    35 ∉ line ∧ 0 ∉ line ∧ ((removeTrailingNewline line).drop 4).length ≤ 501
  else if line.head? = some 35 then Silent line
  else 35 ∉ line ∧ 0 ∉ line ∧ ¬shMark <:+: line ∧ newline ∈ line ∧ line.length ≤ 511

instance (line : List UInt8) : Decidable (Kept line) :=
  inferInstanceAs (Decidable (if shStart.isPrefixOf line then
      35 ∉ line ∧ 0 ∉ line ∧ ((removeTrailingNewline line).drop 4).length ≤ 501
    else if line.head? = some 35 then Silent line
    else 35 ∉ line ∧ 0 ∉ line ∧ ¬shMark <:+: line ∧ newline ∈ line ∧ line.length ≤ 511))

/-! ## Bytes -/

/-- The bytes of the marks and of what stands for them. -/
def markBytes : List UInt8 := [47, 102, 66, 73, 85, 80] ++ bold ++ italic ++ underline ++ plain

section Bytes

variable {line s t : List UInt8} {b c : UInt8}

/-- Other bytes are as many as before. -/
theorem count_formatFrom (hc : c ∉ markBytes) (line : List UInt8) :
    (formatFrom line).count c = line.count c := by
  have hmark : ∀ s : List UInt8, s ⊆ markBytes → s.count c = 0 := fun s hs =>
    List.count_eq_zero_of_not_mem fun hmem => hc (hs hmem)
  have hreplaced : ∀ m t line : List UInt8, m ⊆ markBytes → t ⊆ markBytes →
      (formatFrom line).count c = line.count c →
        (t ++ formatFrom line).count c = (m ++ line).count c := by
    intro m t line hm ht ih
    rw [List.count_append, List.count_append, hmark m hm, hmark t ht, ih]
  induction line using formatFrom.induct with
  | case1 => rfl
  | case2 line ih => exact hreplaced [47, 102, 66] bold line (by decide) (by decide) ih
  | case3 line ih => exact hreplaced [47, 102, 73] italic line (by decide) (by decide) ih
  | case4 line ih => exact hreplaced [47, 102, 85] underline line (by decide) (by decide) ih
  | case5 line ih => exact hreplaced [47, 102, 80] plain line (by decide) (by decide) ih
  | case6 line ih => exact hreplaced [47, 47] [47] line (by decide) (by decide) ih
  | case7 b line h1 h2 h3 h4 h5 ih =>
      rw [formatFrom]
      · rw [List.count_cons, List.count_cons, ih]
      all_goals assumption

theorem mem_formatFrom (hc : c ∉ markBytes) : c ∈ formatFrom line ↔ c ∈ line := by
  rw [← List.count_pos_iff, ← List.count_pos_iff, count_formatFrom hc]

/-- Below the letters, `toupper` changes nothing. -/
theorem toupper_eq_iff (hc : c < 65) : toupper b = c ↔ b = c := by
  rw [toupper]
  split
  case isTrue h =>
    have hc65 : c.toNat < 65 := UInt8.lt_iff_toNat_lt.mp hc
    have hb97 : 97 ≤ b.toNat := UInt8.le_iff_toNat_le.mp h.1
    have hsub : (b - 32).toNat = b.toNat - 32 :=
      UInt8.toNat_sub_of_le b 32 (UInt8.le_iff_toNat_le.mpr (Nat.le_trans (by decide) hb97))
    apply iff_of_false
    · rintro rfl
      omega
    · rintro rfl
      omega
  case isFalse => rfl

theorem mem_toUppercase (hc : c < 65) : c ∈ toUppercase s ↔ c ∈ s := by
  simp [toUppercase, toupper_eq_iff hc]

end Bytes

/-! ## Pieces -/

section Pieces

variable {line : List UInt8} {ps qs : List (List UInt8)} {parts : List Part} {c : UInt8}

theorem strstr_hash : (strstr hash line).isSome = true ↔ 35 ∈ line := by
  have hnone : strstr hash line = none ↔ 35 ∉ line := strstr_singleton_eq_none
  rw [← not_iff_not, ← hnone, Option.not_isSome_iff_eq_none]

/-- What a turn of the loop writes. -/
theorem formatPiece_ok (h : formatPiece line = .ok parts) :
    35 ∈ line ∧ parts = [] ∨
      35 ∉ line ∧ ¬shMark <:+: line ∧ parts = [.text (formatLine line)] ∨
      35 ∉ line ∧ shMark <:+: line ∧ ∃ i, strstr [space] line = some i ∧
        (Part.heading (removeTrailingNewline (toUppercase (line.drop (i + 1))))).bytes.length < 512 ∧
        parts = [.heading (removeTrailingNewline (toUppercase (line.drop (i + 1))))] := by
  rw [formatPiece] at h
  by_cases hhash : 35 ∈ line
  case pos =>
    rw [if_pos (strstr_hash.mpr hhash)] at h
    cases h
    exact Or.inl ⟨hhash, rfl⟩
  case neg =>
    rw [if_neg (mt strstr_hash.mp hhash)] at h
    split at h
    case isTrue hsh =>
      split at h
      · cases h
      case h_2 i hi =>
        dsimp only at h
        split at h
        case isTrue hfits =>
          cases h
          exact Or.inr (Or.inr ⟨hhash, strstr_isSome.mp hsh, i, hi, hfits, rfl⟩)
        case isFalse => cases h
    case isFalse hsh =>
      cases h
      exact Or.inr (Or.inl ⟨hhash, mt strstr_isSome.mpr hsh, rfl⟩)

theorem formatPiece_hash (h : 35 ∈ line) : formatPiece line = .ok [] := by
  rw [formatPiece, if_pos (strstr_hash.mpr h)]

theorem formatPiece_text (h : 35 ∉ line) (hsh : ¬shMark <:+: line) :
    formatPiece line = .ok [.text (formatLine line)] := by
  rw [formatPiece, if_neg (mt strstr_hash.mp h), if_neg (mt strstr_isSome.mp hsh)]

theorem formatPieces_cons_ok {p : List UInt8} :
    formatPieces (p :: ps) = .ok parts ↔ ∃ first later, formatPiece (cstr p) = .ok first ∧
      formatPieces ps = .ok later ∧ parts = first ++ later := by
  rw [formatPieces]
  constructor
  · intro h
    split at h
    · cases h
    case h_2 first hfirst =>
      split at h
      · cases h
      case h_2 later hlater =>
        cases h
        exact ⟨first, later, hfirst, hlater, rfl⟩
  · rintro ⟨first, later, hfirst, hlater, rfl⟩
    rw [hfirst]
    dsimp only
    rw [hlater]

theorem formatPieces_singleton {p : List UInt8} (h : formatPiece (cstr p) = .ok parts) :
    formatPieces [p] = .ok parts :=
  formatPieces_cons_ok.mpr ⟨parts, [], h, rfl, (List.append_nil parts).symm⟩

theorem formatPieces_append_ok :
    formatPieces (ps ++ qs) = .ok parts ↔ ∃ first later, formatPieces ps = .ok first ∧
      formatPieces qs = .ok later ∧ parts = first ++ later := by
  induction ps generalizing parts with
  | nil =>
      constructor
      · exact fun h => ⟨[], parts, rfl, h, rfl⟩
      · rintro ⟨first, later, hfirst, hlater, rfl⟩
        cases hfirst
        exact hlater
  | cons p ps ih =>
      rw [List.cons_append, formatPieces_cons_ok]
      constructor
      · rintro ⟨first, rest, hfirst, hrest, rfl⟩
        obtain ⟨middle, later, hmiddle, hlater, rfl⟩ := ih.mp hrest
        exact ⟨first ++ middle, later, formatPieces_cons_ok.mpr ⟨first, middle, hfirst, hmiddle, rfl⟩,
          hlater, (List.append_assoc _ _ _).symm⟩
      · rintro ⟨front, later, hfront, hlater, rfl⟩
        obtain ⟨first, middle, hfirst, hmiddle, rfl⟩ := formatPieces_cons_ok.mp hfront
        exact ⟨first, middle ++ later, hfirst, ih.mpr ⟨middle, later, hmiddle, hlater, rfl⟩,
          List.append_assoc _ _ _⟩

/-- Only pieces with a `#` write nothing. -/
theorem silent_iff :
    (∃ parts, formatPieces ps = .ok parts ∧ parts.flatMap Part.bytes = []) ↔
      ∀ p ∈ ps, 35 ∈ cstr p := by
  induction ps with
  | nil => exact iff_of_true ⟨[], rfl, rfl⟩ nofun
  | cons p ps ih =>
      rw [List.forall_mem_cons, ← ih]
      constructor
      · rintro ⟨parts, h, hbytes⟩
        obtain ⟨first, later, hfirst, hlater, rfl⟩ := formatPieces_cons_ok.mp h
        rw [List.flatMap_append, List.append_eq_nil_iff] at hbytes
        refine ⟨?_, later, hlater, hbytes.2⟩
        rcases formatPiece_ok hfirst with ⟨hhash, -⟩ | ⟨-, -, rfl⟩ | ⟨-, -, i, -, -, rfl⟩
        · exact hhash
        · cases hbytes.1
        · cases hbytes.1
      · rintro ⟨hhash, later, hlater, hbytes⟩
        exact ⟨later, formatPieces_cons_ok.mpr ⟨[], later, formatPiece_hash hhash, hlater, rfl⟩, hbytes⟩

/-- Neither a `#` nor a NUL is ever written. -/
theorem notMem_bytes (hc : c = 35 ∨ c = 0) (h : formatPieces ps = .ok parts) :
    c ∉ parts.flatMap Part.bytes := by
  induction ps generalizing parts with
  | nil =>
      cases h
      exact List.not_mem_nil
  | cons p ps ih =>
      obtain ⟨first, later, hfirst, hlater, rfl⟩ := formatPieces_cons_ok.mp h
      rw [List.flatMap_append, List.mem_append, not_or]
      refine ⟨?_, ih hlater⟩
      have hline : 35 ∉ cstr p → c ∉ cstr p := fun hhash => by
        rcases hc with rfl | rfl
        · exact hhash
        · exact zero_notMem_cstr p
      have hmark : c ∉ markBytes ∧ c < 65 ∧ c ≠ space ∧ c ≠ newline := by
        rcases hc with rfl | rfl <;> decide
      rcases formatPiece_ok hfirst with ⟨-, rfl⟩ | ⟨hhash, -, rfl⟩ | ⟨hhash, -, i, -, -, rfl⟩
      · exact List.not_mem_nil
      · rw [List.flatMap_singleton, Part.bytes, formatLine, List.mem_append, not_or]
        exact ⟨fun hmem => hmark.2.2.1 (List.eq_of_mem_replicate hmem),
          fun hmem => hline hhash ((mem_formatFrom hmark.1).mp hmem)⟩
      · rw [List.flatMap_singleton, Part.bytes, headingLine, List.mem_cons, not_or]
        refine ⟨hmark.2.2.2, fun hmem => ?_⟩
        simp only [List.mem_append, List.mem_singleton] at hmem
        rcases hmem with ((hmem | hmem) | hmem) | hmem
        · exact hmark.1 (by simp [markBytes, hmem])
        · have hdrop := (mem_toUppercase hmark.2.1).mp (removeTrailingNewline_subset _ hmem)
          exact hline hhash (List.mem_of_mem_drop hdrop)
        · exact hmark.1 (by simp [markBytes, hmem])
        · exact hmark.2.2.2 hmem

end Pieces

/-! ## Lines -/

section Lines

variable {line s t : List UInt8} {ps : List (List UInt8)} {parts : List Part} {c : UInt8}

/-- No mark reaches over a newline. -/
theorem Renders.concat_newline {out : List UInt8} (h : Renders line out) :
    Renders (line ++ [newline]) (out ++ [newline]) := by
  induction h with
  | nil => exact Renders.copy (by decide) Renders.nil
  | mark hmark h ih =>
      rw [List.append_assoc, List.append_assoc]
      exact Renders.mark hmark ih
  | copy hnone h ih =>
      apply Renders.copy _ ih
      intro p hp hprefix
      rw [← List.cons_append] at hprefix
      rcases List.prefix_concat_iff.mp hprefix with heq | hprefix
      · have hmarks : ∀ p ∈ marks, newline ∉ p.1 := by decide
        exact hmarks p hp (heq ▸ List.mem_append_right _ List.mem_cons_self)
      · exact hnone p hp hprefix

theorem formatFrom_concat_newline (s : List UInt8) :
    formatFrom (s ++ [newline]) = formatFrom s ++ [newline] :=
  (renders_formatFrom s).concat_newline.eq.symm

theorem mem_removeTrailingNewline (hc : c ≠ newline) : c ∈ removeTrailingNewline s ↔ c ∈ s := by
  rw [removeTrailingNewline]
  split
  case isTrue hlast =>
    obtain ⟨front, rfl⟩ := List.getLast?_eq_some_iff.mp hlast
    simp [hc]
  case isFalse => rfl

theorem newline_notMem_removeTrailingNewline (hline : OneLine s) :
    newline ∉ removeTrailingNewline s := by
  rw [removeTrailingNewline]
  split
  case isTrue => exact hline.dropLast
  case isFalse hlast =>
    intro hmem
    obtain ⟨front, back, rfl⟩ := List.append_of_mem hmem
    obtain rfl := hline.of_append.2.1 rfl
    exact hlast (by simp)

/-- What stands in front of another text keeps its newline. -/
theorem removeTrailingNewline_append (hs : s.getLast? ≠ some newline) (t : List UInt8) :
    removeTrailingNewline (s ++ t) = s ++ removeTrailingNewline t := by
  cases t with
  | nil => rw [List.append_nil, removeTrailingNewline, if_neg hs]; exact (List.append_nil s).symm
  | cons b t =>
      rw [removeTrailingNewline, removeTrailingNewline, List.getLast?_append_cons]
      split
      · exact List.dropLast_append_of_ne_nil (List.cons_ne_nil b t)
      · rfl

theorem toUppercase_removeTrailingNewline (s : List UInt8) :
    removeTrailingNewline (toUppercase s) = toUppercase (removeTrailingNewline s) := by
  have hlast : (toUppercase s).getLast? = some newline ↔ s.getLast? = some newline := by
    rw [toUppercase, List.getLast?_map, Option.map_eq_some_iff]
    constructor
    · rintro ⟨b, hb, hupper⟩
      rw [hb, (toupper_eq_iff (by decide)).mp hupper]
    · exact fun h => ⟨newline, h, rfl⟩
  rw [removeTrailingNewline, removeTrailingNewline]
  by_cases h : s.getLast? = some newline
  · rw [if_pos (hlast.mpr h), if_pos h, toUppercase, toUppercase, List.map_dropLast]
  · rw [if_neg (mt hlast.mp h), if_neg h]

theorem le_length_removeTrailingNewline (s : List UInt8) :
    s.length ≤ (removeTrailingNewline s).length + 1 := by
  rw [removeTrailingNewline]
  split
  · rw [List.length_dropLast]
    omega
  · omega

/-- A comment is translated to nothing exactly when it is silent. -/
theorem writes_comment : Writes line [] ↔ Silent line := silent_iff

/-- A byte that is in the line is in its translation. -/
theorem mem_translate (hc : c = 35 ∨ c = 0) (hcomment : line.head? ≠ some 35) (h : c ∈ line) :
    c ∈ translate line := by
  have hmark : c ∉ markBytes ∧ c < 65 ∧ c ≠ newline ∧ c ∉ shStart := by
    rcases hc with rfl | rfl <;> decide
  rw [translate]
  split
  case isTrue hprefix =>
    obtain ⟨t, rfl⟩ := List.isPrefixOf_iff_prefix.mp hprefix
    have ht := (List.mem_append.mp h).resolve_left hmark.2.2.2
    have hdrop : (shStart ++ removeTrailingNewline t).drop 4 = removeTrailingNewline t := rfl
    have hupper := (mem_toUppercase hmark.2.1).mpr ((mem_removeTrailingNewline hmark.2.2.1).mpr ht)
    rw [removeTrailingNewline_append (by decide), hdrop, headingLine]
    simp [hupper]
  case isFalse =>
    rw [formatLine]
    have htext := (mem_formatFrom hmark.1).mpr ((mem_removeTrailingNewline hmark.2.2.1).mpr h)
    simp [htext]

theorem Writes.clean (h : Writes line (translate line)) (hcomment : line.head? ≠ some 35) :
    35 ∉ line ∧ 0 ∉ line := by
  obtain ⟨parts, hparts, hbytes⟩ := h
  have hnot : ∀ c : UInt8, c = 35 ∨ c = 0 → c ∉ line := fun c hc hmem =>
    notMem_bytes hc hparts (hbytes ▸ mem_translate hc hcomment hmem)
  exact ⟨hnot 35 (Or.inl rfl), hnot 0 (Or.inr rfl)⟩

theorem strstr_space_shStart (t : List UInt8) : strstr [space] (shStart ++ t) = some 3 :=
  @strstr_split space (ascii ['.', 'S', 'H']) t (by decide)

theorem shMark_infix_shStart (t : List UInt8) : shMark <:+: shStart ++ t :=
  ⟨[], space :: t, rfl⟩

theorem length_heading (sh : List UInt8) : (Part.heading sh).bytes.length = sh.length + 10 := by
  simp [Part.bytes, headingLine, bold, plain]

/-- A section header is translated when its name fits. -/
theorem writes_heading (hline : OneLine (shStart ++ t)) :
    Writes (shStart ++ t) (newline :: headingLine (toUppercase (removeTrailingNewline t))) ∧
        35 ∉ shStart ++ t ∧ 0 ∉ shStart ++ t ↔
      35 ∉ shStart ++ t ∧ 0 ∉ shStart ++ t ∧ (removeTrailingNewline t).length ≤ 501 := by
  have hne : shStart ++ t ≠ [] := List.cons_ne_nil _ _
  have hshort := le_length_removeTrailingNewline t
  constructor
  · rintro ⟨⟨parts, hparts, -⟩, hhash, hnul⟩
    refine ⟨hhash, hnul, ?_⟩
    have hpiece : (shStart ++ t).take 511 = shStart ++ t.take 507 := rfl
    rw [pieces_take (by decide) hline hne, hpiece] at hparts
    obtain ⟨first, later, hfirst, -, -⟩ := formatPieces_cons_ok.mp hparts
    have hsub : shStart ++ t.take 507 ⊆ shStart ++ t := hpiece ▸ List.take_subset 511 _
    rw [cstr_eq_self fun hmem => hnul (hsub hmem)] at hfirst
    rcases formatPiece_ok hfirst with ⟨hmem, -⟩ | ⟨-, hnot, -⟩ | ⟨-, -, i, hi, hfits, -⟩
    · exact absurd (hsub hmem) hhash
    · exact absurd (shMark_infix_shStart _) hnot
    · rw [strstr_space_shStart] at hi
      obtain rfl := Option.some.inj hi
      have hdrop : (shStart ++ t.take 507).drop (3 + 1) = t.take 507 := rfl
      rw [hdrop, length_heading, toUppercase_removeTrailingNewline, toUppercase,
        List.length_map] at hfits
      -- A name that is cut has 507 bytes, one more than fits.
      have hcut := le_length_removeTrailingNewline (t.take 507)
      rw [List.length_take] at hcut
      rw [List.take_of_length_le (by omega)] at hfits
      omega
  · rintro ⟨hhash, hnul, hlength⟩
    refine ⟨?_, hhash, hnul⟩
    have hsize : (shStart ++ t).length < 512 := by
      rw [List.length_append]
      have hfour : shStart.length = 4 := rfl
      omega
    have hpiece : formatPiece (shStart ++ t) =
        .ok [.heading (toUppercase (removeTrailingNewline t))] := by
      have hdrop : (shStart ++ t).drop (3 + 1) = t := rfl
      rw [formatPiece, if_neg (mt strstr_hash.mp hhash)]
      rw [if_pos (strstr_isSome.mpr (shMark_infix_shStart t)), strstr_space_shStart]
      dsimp only
      rw [hdrop, toUppercase_removeTrailingNewline, if_pos]
      rw [length_heading, toUppercase, List.length_map]
      omega
    refine ⟨[.heading (toUppercase (removeTrailingNewline t))], ?_, List.flatMap_singleton _ _⟩
    rw [pieces_short hline hne hsize]
    apply formatPieces_singleton
    rw [cstr_eq_self hnul, hpiece]

/-- Pieces without a `#` and a NUL are formatted one by one, or a section header with its two
newlines is among them. -/
theorem formatPieces_text (hclean : ∀ p ∈ ps, 35 ∉ p ∧ 0 ∉ p) (h : formatPieces ps = .ok parts) :
    (∀ p ∈ ps, ¬shMark <:+: p) ∧ parts.flatMap Part.bytes = ps.flatMap formatLine ∨
      2 ≤ (parts.flatMap Part.bytes).count newline := by
  induction ps generalizing parts with
  | nil =>
      cases h
      exact Or.inl ⟨nofun, rfl⟩
  | cons p ps ih =>
      obtain ⟨first, later, hfirst, hlater, rfl⟩ := formatPieces_cons_ok.mp h
      rw [List.forall_mem_cons] at hclean
      rw [cstr_eq_self hclean.1.2] at hfirst
      rw [List.flatMap_append, List.count_append]
      rcases formatPiece_ok hfirst with ⟨hmem, -⟩ | ⟨-, hsh, rfl⟩ | ⟨-, -, i, -, -, rfl⟩
      · exact absurd hmem hclean.1.1
      · refine (ih hclean.2 hlater).imp (fun hrest => ?_) fun hrest => by omega
        rw [List.forall_mem_cons, List.flatMap_singleton, hrest.2, List.flatMap_cons]
        exact ⟨⟨hsh, hrest.1⟩, rfl⟩
      · right
        rw [List.flatMap_singleton, Part.bytes, headingLine, List.count_cons_self, List.count_append,
          List.count_singleton_self]
        omega

theorem count_space_flatMap (ps : List (List UInt8)) :
    (ps.flatMap formatLine).count space = 7 * ps.length + ps.flatten.count space := by
  induction ps with
  | nil => rfl
  | cons p ps ih =>
      rw [List.flatMap_cons, List.flatten_cons, List.count_append, List.count_append, ih, formatLine,
        List.count_append, List.count_replicate_self, count_formatFrom (by decide), List.length_cons]
      omega

theorem count_removeTrailingNewline (hc : c ≠ newline) (s : List UInt8) :
    (removeTrailingNewline s).count c = s.count c := by
  rw [removeTrailingNewline]
  split
  case isTrue hlast =>
    obtain ⟨front, rfl⟩ := List.getLast?_eq_some_iff.mp hlast
    rw [List.dropLast_concat, List.count_append, List.count_singleton, if_neg, Nat.add_zero]
    simpa using hc.symm
  case isFalse => rfl

/-- A line of text is translated when it is one piece with a newline and without a mark. -/
theorem writes_text (hline : OneLine line) (hne : line ≠ []) :
    Writes line (formatLine (removeTrailingNewline line) ++ [newline]) ∧ 35 ∉ line ∧ 0 ∉ line ↔
      35 ∉ line ∧ 0 ∉ line ∧ ¬shMark <:+: line ∧ newline ∈ line ∧ line.length ≤ 511 := by
  constructor
  · rintro ⟨⟨parts, hparts, hbytes⟩, hhash, hnul⟩
    have hflatten := flatten_pieces (show 1 < 512 by decide) line
    have hclean : ∀ p ∈ pieces 512 line, 35 ∉ p ∧ 0 ∉ p := fun p hp => by
      have hsub : p ⊆ line := fun b hb => hflatten ▸ List.mem_flatten_of_mem hp hb
      exact ⟨fun hmem => hhash (hsub hmem), fun hmem => hnul (hsub hmem)⟩
    have hnewlines : (parts.flatMap Part.bytes).count newline = 1 := by
      rw [hbytes, formatLine, List.count_append, List.count_append, count_formatFrom (by decide)]
      rw [List.count_eq_zero_of_not_mem (newline_notMem_removeTrailingNewline hline)]
      decide
    obtain ⟨hsh, htext⟩ := (formatPieces_text hclean hparts).resolve_right (by omega)
    -- Every piece is indented, so the spaces show that there is one.
    have hspaces := congrArg (List.count space) (htext.symm.trans hbytes)
    rw [count_space_flatMap, hflatten, List.count_append, formatLine, List.count_append] at hspaces
    rw [count_formatFrom (by decide), count_removeTrailingNewline (by decide)] at hspaces
    have hone : (List.replicate 7 space).count space + ([newline] : List UInt8).count space = 7 := by
      decide
    obtain ⟨p, hp⟩ := List.length_eq_one_iff.mp (show (pieces 512 line).length = 1 by omega)
    obtain rfl : p = line := by rw [← hflatten, hp]; simp
    have htake := pieces_take (show 1 < 512 by decide) hline hne
    rw [hp] at htake hsh htext
    have hlength := congrArg List.length (List.cons.inj htake).1
    rw [List.length_take] at hlength
    refine ⟨hhash, hnul, hsh p List.mem_cons_self, ?_, by omega⟩
    have hnewline : newline ∈ formatLine p := by
      rw [← List.flatMap_singleton formatLine, ← htext, hbytes]
      simp
    have hfrom := (List.mem_append.mp hnewline).resolve_left (by decide)
    exact (mem_formatFrom (by decide)).mp hfrom
  · rintro ⟨hhash, hnul, hsh, hnewline, hlength⟩
    refine ⟨?_, hhash, hnul⟩
    obtain ⟨front, back, rfl⟩ := List.append_of_mem hnewline
    obtain rfl := hline.of_append.2.1 rfl
    refine ⟨[.text (formatLine (front ++ [newline]))], ?_, ?_⟩
    · rw [pieces_short hline hne (by omega)]
      apply formatPieces_singleton
      rw [cstr_eq_self hnul, formatPiece_text hhash hsh]
    · have hremove : removeTrailingNewline (front ++ [newline]) = front := by
        simp [removeTrailingNewline]
      rw [hremove, List.flatMap_singleton, Part.bytes, formatLine, formatLine,
        formatFrom_concat_newline, List.append_assoc]

/-- A line is translated exactly when it is of one of the kinds that are kept. -/
theorem writes_iff (hline : OneLine line) (hne : line ≠ []) :
    Writes line (translate line) ↔ Kept line := by
  by_cases hcomment : line.head? = some 35
  case pos =>
    have hprefix : ¬shStart.isPrefixOf line = true := by
      intro h
      obtain ⟨t, rfl⟩ := List.isPrefixOf_iff_prefix.mp h
      cases hcomment
    rw [translate, Kept, if_neg hprefix, if_neg hprefix, if_pos hcomment, if_pos hcomment]
    exact writes_comment
  case neg =>
    rw [← and_iff_left_of_imp fun h : Writes line (translate line) => h.clean hcomment]
    rw [translate, Kept]
    by_cases hprefix : shStart.isPrefixOf line = true
    case pos =>
      rw [if_pos hprefix, if_pos hprefix]
      obtain ⟨t, rfl⟩ := List.isPrefixOf_iff_prefix.mp hprefix
      rw [removeTrailingNewline_append (by decide)]
      exact writes_heading hline
    case neg =>
      rw [if_neg hprefix, if_neg hprefix, if_neg hcomment, if_neg hcomment]
      exact writes_text hline hne

end Lines

/-! ## Files -/

section Files

variable {input line rest path time : List UInt8} {first : List UInt8}
  {others : List (List UInt8)}

/-- What is read behind the first call of `fgets`: what the call has left of the first line,
and the other lines. -/
theorem pieces_rest (hread : fgets 100 input = some (line, rest))
    (hlines : lines input = first :: others) :
    pieces 512 rest = pieces 512 (first.drop 99) ++ others.flatMap (pieces 512) := by
  have hflatten := flatten_lines input
  rw [hlines, List.flatten_cons] at hflatten
  obtain ⟨hothers, hend⟩ := lines_cons hlines
  have hfirst : OneLine first := oneLine_of_mem_lines (hlines ▸ List.mem_cons_self)
  have hne : first ≠ [] := lines_ne_nil (hlines ▸ List.mem_cons_self)
  have hend' : Whole first ∨ others.flatten = [] :=
    hend.imp_right fun hnil => by rw [hnil, List.flatten_nil]
  have hrest : rest = first.drop 99 ++ others.flatten := by
    obtain ⟨b, first, rfl⟩ := List.exists_cons_of_ne_nil hne
    have htake := takeLine_append_line hfirst hne hend' 99
    rw [← hflatten] at hread
    exact (Prod.mk.inj ((Option.some.inj hread).symm.trans htake)).2
  have hdrop : OneLine (first.drop 99) := hfirst.of_part (List.drop_suffix _ _).isInfix
  have hdropEnd : Whole (first.drop 99) ∨ others.flatten = [] :=
    hend'.imp_left fun hwhole => Whole.of_append ((List.take_append_drop 99 first).symm ▸ hwhole)
  rw [hrest, pieces_append (by decide) hdrop hdropEnd, pieces_lines (by decide) others.flatten,
    hothers]

/-- The lines write one after the other. -/
theorem formatPieces_lines {f : List UInt8 → List UInt8} (h : ∀ line ∈ others, Writes line (f line)) :
    ∃ parts, formatPieces (others.flatMap (pieces 512)) = .ok parts ∧
      parts.flatMap Part.bytes = others.flatMap f := by
  induction others with
  | nil => exact ⟨[], rfl, rfl⟩
  | cons line others ih =>
      rw [List.forall_mem_cons] at h
      obtain ⟨first, hfirst, hbytes⟩ := h.1
      obtain ⟨later, hlater, hrest⟩ := ih h.2
      refine ⟨first ++ later, formatPieces_append_ok.mpr ⟨first, later, hfirst, hlater, rfl⟩, ?_⟩
      rw [List.flatMap_append, List.flatMap_cons, hbytes, hrest]

/-- Behind an accepted first line, `wgroff` translates line by line exactly when the page's name
fits, a file of this name can be created, nothing is written for what is left of a first line
of more than 99 bytes, and every other line is of a kind that is kept. -/
theorem line_by_line_iff (creates : List UInt8 → Bool)
    (hread : fgets 100 input = some (line, rest))
    (htitle : titleHeader (cstr line) = .ok (path, time)) :
    LineByLine creates input ↔ path.length ≤ 79 ∧ creates path = true ∧
      Silent (((lines input).headD []).drop 99) ∧ ∀ line ∈ (lines input).tail, Kept line := by
  have hne : lines input ≠ [] := by
    rw [Ne, lines_eq_nil, ← fgets_eq_none, hread]
    nofun
  obtain ⟨first, others, hlines⟩ := List.exists_cons_of_ne_nil hne
  have hpieces := pieces_rest hread hlines
  have hothers : (∀ line ∈ others, Writes line (translate line)) ↔ ∀ line ∈ others, Kept line := by
    refine forall₂_congr fun line hline => ?_
    have hmem : line ∈ lines input := hlines ▸ List.mem_cons_of_mem first hline
    exact writes_iff (oneLine_of_mem_lines hmem) (lines_ne_nil hmem)
  rw [LineByLine, hlines, List.tail_cons, List.headD_cons, ← hothers, Silent, ← silent_iff]
  constructor
  · rintro ⟨page, hpage, hwrites, hbytes⟩
    rw [wgroff, hread] at hpage
    dsimp only at hpage
    rw [htitle] at hpage
    dsimp only at hpage
    split at hpage
    · cases hpage
    case isFalse hpath =>
      rw [not_or, Bool.not_eq_false] at hpath
      split at hpage
      · cases hpage
      case h_2 parts hparts =>
        cases hpage
        rw [hpieces] at hparts
        obtain ⟨left, later, hleft, hlater, rfl⟩ := formatPieces_append_ok.mp hparts
        obtain ⟨later', hlater', hrest⟩ := formatPieces_lines hwrites
        obtain rfl := Except.ok.inj (hlater.symm.trans hlater')
        rw [List.flatMap_append, hrest, List.append_left_eq_self] at hbytes
        exact ⟨Nat.le_of_not_lt hpath.1, hpath.2, ⟨left, hleft, hbytes⟩, hwrites⟩
  · rintro ⟨hpath, hcreates, ⟨left, hleft, hsilent⟩, hwrites⟩
    obtain ⟨later, hlater, hrest⟩ := formatPieces_lines hwrites
    have hparts : formatPieces (pieces 512 rest) = .ok (left ++ later) := by
      rw [hpieces]
      exact formatPieces_append_ok.mpr ⟨left, later, hleft, hlater, rfl⟩
    refine ⟨⟨path, firstLine path, left ++ later, lastLine time⟩, ?_, hwrites, ?_⟩
    · rw [wgroff, hread]
      dsimp only
      rw [htitle]
      dsimp only
      rw [if_neg (not_or.mpr ⟨Nat.not_lt_of_le hpath, by simp [hcreates]⟩), hparts]
    · rw [List.flatMap_append, hsilent, hrest]
      rfl

end Files

/-- `.TH a 1 2023-08-14`. -/
def sampleTitle : List UInt8 :=
  ascii ['.', 'T', 'H', ' ', 'a', ' ', '1', ' ', '2', '0', '2', '3', '-', '0', '8', '-', '1', '4'] ++
    [newline]

/-- `a # b`. -/
def sampleText : List UInt8 := ascii ['a', ' ', '#', ' ', 'b'] ++ [newline]

/-- `a.1` and `2023-08-14`. -/
def samplePath : List UInt8 := ascii ['a', '.', '1']
def sampleTime : List UInt8 := ascii ['2', '0', '2', '3', '-', '0', '8', '-', '1', '4']

theorem titleHeader_sample : titleHeader (cstr sampleTitle) = .ok (samplePath, sampleTime) := by
  decide +kernel

/-- `.SH x`, a comment and `a b`. -/
def keptText : List UInt8 :=
  ascii ['.', 'S', 'H', ' ', 'x', '\n', '#', 'c', '\n', 'a', ' ', 'b', '\n']

theorem line_by_line_iff_sample : LineByLine (fun _ => true) (sampleTitle ++ keptText) := by
  have hread : fgets 100 (sampleTitle ++ keptText) = some (sampleTitle, keptText) := by
    decide +kernel
  exact (line_by_line_iff (fun _ => true) hread titleHeader_sample).mpr
    ⟨by decide, rfl, by decide +kernel, by decide +kernel⟩

/-- A line with a `#` behind its first character is dropped. -/
theorem text_dropped :
    ¬∀ creates input line rest path time, (∀ path, creates path = true) →
      fgets 100 input = some (line, rest) → titleHeader (cstr line) = .ok (path, time) →
        LineByLine creates input := by
  intro h
  have hread : fgets 100 (sampleTitle ++ sampleText) = some (sampleTitle, sampleText) := by
    decide +kernel
  obtain ⟨page, -, hwrites, -⟩ :=
    h (fun _ => true) _ _ _ _ _ (fun _ => rfl) hread titleHeader_sample
  have hclean := (hwrites sampleText (by decide +kernel)).clean (by decide)
  exact hclean.1 (by decide)

end OSProjects.Manual
