import Mathlib.Data.List.Infix
import OSProjects.Foundation.StringSearch

/-!
# Reading lines

A file from its position on is the list of its bytes. `fgets` with its bounded buffer, the
lines of a text, and the words that occur in them.
-/

namespace OSProjects.LineReading

open StringSearch

def newline : UInt8 := 10

/-! ## `fgets` -/

/-- The bytes through the first newline, at most `n` of them, and the rest of the file. -/
def takeLine : Nat → List UInt8 → List UInt8 × List UInt8
  | 0, file => ([], file)
  | _ + 1, [] => ([], [])
  | n + 1, b :: file =>
      if b = newline then ([b], file) else (b :: (takeLine n file).1, (takeLine n file).2)

/-- `fgets` with a buffer of `size` bytes, which keeps one of them for the NUL. -/
def fgets (size : Nat) : List UInt8 → Option (List UInt8 × List UInt8)
  | [] => none
  | b :: file => some (takeLine (size - 1) (b :: file))

/-- What `while (fgets(...) != NULL)` reads, for a file of at most `fuel` bytes. -/
def piecesFrom (size : Nat) : Nat → List UInt8 → List (List UInt8)
  | 0, _ => []
  | fuel + 1, file =>
      match fgets size file with
      | none => []
      | some (line, rest) => line :: piecesFrom size fuel rest

def pieces (size : Nat) (file : List UInt8) : List (List UInt8) :=
  piecesFrom size file.length file

/-- A newline stands at the end only. -/
def OneLine : List UInt8 → Prop
  | [] => True
  | b :: s => (b = newline → s = []) ∧ OneLine s

/-- A text that is empty or ends with a newline. -/
def Whole (s : List UInt8) : Prop := ∀ b ∈ s.getLast?, b = newline

section Reading

variable {n size : Nat} {s t file line rest : List UInt8}

theorem takeLine_append (n : Nat) (file : List UInt8) :
    (takeLine n file).1 ++ (takeLine n file).2 = file := by
  induction n generalizing file with
  | zero => rfl
  | succ n ih =>
      cases file with
      | nil => rfl
      | cons b file =>
          rw [takeLine]
          split
          · rfl
          · exact congrArg (b :: ·) (ih file)

theorem takeLine_ne_nil (hn : 0 < n) (b : UInt8) (file : List UInt8) :
    (takeLine n (b :: file)).1 ≠ [] := by
  cases n with
  | zero => exact absurd hn (Nat.lt_irrefl 0)
  | succ n =>
      rw [takeLine]
      split <;> exact List.cons_ne_nil _ _

theorem takeLine_oneLine (n : Nat) (file : List UInt8) : OneLine (takeLine n file).1 := by
  induction n generalizing file with
  | zero => trivial
  | succ n ih =>
      cases file with
      | nil => trivial
      | cons b file =>
          rw [takeLine]
          split
          case isTrue => exact ⟨fun _ => rfl, trivial⟩
          case isFalse hb => exact ⟨fun h => absurd h hb, ih file⟩

theorem fgets_append (h : fgets size file = some (line, rest)) : line ++ rest = file := by
  cases file with
  | nil => cases h
  | cons b file =>
      have hpair := Option.some.inj h
      rw [← takeLine_append (size - 1) (b :: file), hpair]

theorem fgets_ne_nil (hsize : 1 < size) (h : fgets size file = some (line, rest)) :
    line ≠ [] := by
  cases file with
  | nil => cases h
  | cons b file =>
      have hpair : (takeLine (size - 1) (b :: file)).1 = line :=
        congrArg Prod.fst (Option.some.inj h)
      rw [← hpair]
      exact takeLine_ne_nil (Nat.sub_pos_of_lt hsize) b file

theorem fgets_oneLine (h : fgets size file = some (line, rest)) : OneLine line := by
  cases file with
  | nil => cases h
  | cons b file =>
      have hpair : (takeLine (size - 1) (b :: file)).1 = line :=
        congrArg Prod.fst (Option.some.inj h)
      rw [← hpair]
      exact takeLine_oneLine _ _

theorem fgets_length (hsize : 1 < size) (h : fgets size file = some (line, rest)) :
    rest.length < file.length := by
  have hpos := List.length_pos_of_ne_nil (fgets_ne_nil hsize h)
  have hlength := congrArg List.length (fgets_append h)
  rw [List.length_append] at hlength
  omega

theorem fgets_eq_none : fgets size file = none ↔ file = [] := by
  cases file <;> simp [fgets]

theorem oneLine_of_mem_pieces (h : line ∈ pieces size file) : OneLine line := by
  have hfuel : ∀ fuel file, line ∈ piecesFrom size fuel file → OneLine line := by
    intro fuel
    induction fuel with
    | zero =>
        intro file hmem
        cases hmem
    | succ fuel ih =>
        intro file hmem
        rw [piecesFrom] at hmem
        split at hmem
        case h_1 => cases hmem
        case h_2 hsome =>
          rcases List.mem_cons.mp hmem with rfl | hmem
          · exact fgets_oneLine hsome
          · exact ih _ hmem
  exact hfuel file.length file h

theorem OneLine.of_append (h : OneLine (s ++ t)) : OneLine s ∧ OneLine t := by
  induction s with
  | nil => exact ⟨trivial, h⟩
  | cons b s ih =>
      obtain ⟨hb, hrest⟩ := h
      exact ⟨⟨fun heq => (List.append_eq_nil_iff.mp (hb heq)).1, (ih hrest).1⟩, (ih hrest).2⟩

theorem OneLine.of_part (h : OneLine t) (hin : s <:+: t) : OneLine s := by
  obtain ⟨before, after, rfl⟩ := hin
  exact h.of_append.1.of_append.2

theorem oneLine_append_newline (h : newline ∉ t) : OneLine (t ++ [newline]) := by
  induction t with
  | nil => exact ⟨fun _ => rfl, trivial⟩
  | cons b t ih =>
      rw [List.mem_cons, not_or] at h
      exact ⟨fun heq => absurd heq.symm h.1, ih h.2⟩

theorem OneLine.dropLast (h : OneLine s) : newline ∉ s.dropLast := by
  induction s with
  | nil => simp
  | cons b s ih =>
      obtain ⟨hb, hrest⟩ := h
      cases s with
      | nil => simp
      | cons c s =>
          rw [List.dropLast_cons_cons, List.mem_cons, not_or]
          exact ⟨fun heq => absurd (hb heq.symm) (List.cons_ne_nil c s), ih hrest⟩

theorem takeLine_line (hline : newline ∉ t) (hlength : t.length < n) (rest : List UInt8) :
    takeLine n (t ++ newline :: rest) = (t ++ [newline], rest) := by
  induction t generalizing n with
  | nil =>
      cases n with
      | zero => cases hlength
      | succ n => simp [takeLine]
  | cons b t ih =>
      cases n with
      | zero => cases hlength
      | succ n =>
          rw [List.mem_cons, not_or] at hline
          rw [List.cons_append, takeLine, if_neg (Ne.symm hline.1),
            ih hline.2 (Nat.lt_of_succ_lt_succ hlength)]
          rfl

/-- A line that fits into the buffer is read as it is. -/
theorem fgets_line (hline : OneLine line) (hwhole : Whole line) (hne : line ≠ [])
    (hlength : line.length < size) (rest : List UInt8) :
    fgets size (line ++ rest) = some (line, rest) := by
  obtain ⟨t, b, rfl⟩ := List.eq_nil_or_concat line |>.resolve_left hne
  obtain rfl : b = newline := hwhole b (by simp)
  have hinner : newline ∉ t := by simpa using hline.dropLast
  have hread : takeLine (size - 1) (t ++ newline :: rest) = (t ++ [newline], rest) := by
    apply takeLine_line hinner
    simp at hlength
    omega
  cases t with
  | nil => simpa [fgets] using hread
  | cons c t => simpa [fgets] using hread

theorem Whole.of_append (h : Whole (s ++ t)) : Whole t :=
  fun b hb => h b (List.mem_getLast?_append_of_mem_getLast? hb)

theorem Whole.append_of_ne_nil (ht : Whole t) (hne : t ≠ []) (s : List UInt8) :
    Whole (s ++ t) := by
  obtain ⟨b, t, rfl⟩ := List.exists_cons_of_ne_nil hne
  intro c hc
  rw [List.getLast?_append_cons] at hc
  exact ht c hc

theorem Whole.append (hs : Whole s) (ht : Whole t) : Whole (s ++ t) := by
  rcases eq_or_ne t [] with rfl | hne
  · rwa [List.append_nil]
  · exact ht.append_of_ne_nil hne s

theorem whole_append_newline (s : List UInt8) : Whole (s ++ [newline]) := by
  intro b hb
  rw [List.getLast?_concat] at hb
  exact (Option.some.inj hb).symm

theorem takeLine_append_right {n : Nat} (h : s ≠ [] ∧ Whole s ∨ (takeLine n s).2 ≠ [])
    (t : List UInt8) :
    takeLine n (s ++ t) = ((takeLine n s).1, (takeLine n s).2 ++ t) := by
  induction n generalizing s with
  | zero => rfl
  | succ n ih =>
      cases s with
      | nil => exact h.elim (fun hs => absurd rfl hs.1) (absurd rfl)
      | cons b s =>
          rw [takeLine] at h
          rw [List.cons_append, takeLine, takeLine]
          split
          case isTrue => rfl
          case isFalse hb =>
            rw [if_neg hb] at h
            rw [ih]
            refine h.imp_left fun ⟨_, hwhole⟩ => ⟨?_, Whole.of_append (s := [b]) hwhole⟩
            rintro rfl
            exact hb (hwhole b rfl)

/-- What `fgets` reads of a text does not depend on what comes behind it, when the text ends with
a newline or is not read to its end. -/
theorem fgets_append_right (h : fgets size s = some (line, rest)) (hend : Whole s ∨ rest ≠ [])
    (t : List UInt8) : fgets size (s ++ t) = some (line, rest ++ t) := by
  cases s with
  | nil => cases h
  | cons b s =>
      have hpair := Option.some.inj h
      have htake := @takeLine_append_right (b :: s) (size - 1)
        (hend.imp (fun hwhole => ⟨List.cons_ne_nil b s, hwhole⟩) fun hrest => by rwa [hpair]) t
      rw [hpair] at htake
      exact congrArg some htake

end Reading

/-! ## The lines of a text -/

/-- The lines with their newlines. -/
def lines : List UInt8 → List (List UInt8)
  | [] => []
  | b :: s =>
      if b = newline then [b] :: lines s
      else
        match lines s with
        | [] => [[b]]
        | line :: rest => (b :: line) :: rest

/-- The words that `strstr` can find occur in one of the lines. -/
def Occurs (word s : List UInt8) : Prop := ∃ line ∈ lines s, word <:+: line

section Lines

variable {word s t line : List UInt8}

theorem flatten_lines (s : List UInt8) : (lines s).flatten = s := by
  induction s with
  | nil => rfl
  | cons b s ih =>
      rw [lines]
      split
      · exact congrArg (b :: ·) ih
      · split
        case h_1 hnil =>
          rw [hnil] at ih
          exact congrArg (b :: ·) ih
        case h_2 hcons =>
          rw [hcons] at ih
          exact congrArg (b :: ·) ih

theorem lines_eq_nil : lines s = [] ↔ s = [] := by
  constructor
  · intro h
    rw [← flatten_lines s, h, List.flatten_nil]
  · rintro rfl
    rfl

theorem lines_ne_nil (h : line ∈ lines s) : line ≠ [] := by
  induction s generalizing line with
  | nil => cases h
  | cons b s ih =>
      rw [lines] at h
      split at h
      · rcases List.mem_cons.mp h with rfl | h
        · exact List.cons_ne_nil _ _
        · exact ih h
      · split at h
        case h_1 =>
          rw [List.mem_singleton.mp h]
          exact List.cons_ne_nil _ _
        case h_2 hcons =>
          rw [hcons] at ih
          rcases List.mem_cons.mp h with rfl | h
          · exact List.cons_ne_nil _ _
          · exact ih (List.mem_cons_of_mem _ h)

theorem oneLine_of_mem_lines (h : line ∈ lines s) : OneLine line := by
  induction s generalizing line with
  | nil => cases h
  | cons b s ih =>
      rw [lines] at h
      split at h
      · rcases List.mem_cons.mp h with rfl | h
        · exact ⟨fun _ => rfl, trivial⟩
        · exact ih h
      case isFalse hb =>
        split at h
        case h_1 =>
          rw [List.mem_singleton.mp h]
          exact ⟨fun heq => absurd heq hb, trivial⟩
        case h_2 hcons =>
          rw [hcons] at ih
          rcases List.mem_cons.mp h with rfl | h
          · exact ⟨fun heq => absurd heq hb, ih List.mem_cons_self⟩
          · exact ih (List.mem_cons_of_mem _ h)

theorem whole_of_mem_lines (hwhole : Whole s) (h : line ∈ lines s) : Whole line := by
  induction s generalizing line with
  | nil => cases h
  | cons b s ih =>
      have htail : Whole s := Whole.of_append (s := [b]) hwhole
      rw [lines] at h
      split at h
      case isTrue hb =>
        rcases List.mem_cons.mp h with rfl | h
        · intro c hc
          rw [← Option.some.inj hc]
          exact hb
        · exact ih htail h
      case isFalse hb =>
        split at h
        case h_1 hnil =>
          rw [lines_eq_nil.mp hnil] at hwhole
          exact absurd (hwhole b rfl) hb
        case h_2 first rest hcons =>
          have hmem : first ∈ lines s := hcons ▸ List.mem_cons_self
          rcases List.mem_cons.mp h with rfl | h
          · obtain ⟨c, first', rfl⟩ := List.exists_cons_of_ne_nil (lines_ne_nil hmem)
            intro d hd
            rw [List.getLast?_cons_cons] at hd
            exact ih htail hmem d hd
          · exact ih htail (hcons ▸ List.mem_cons_of_mem first h)

/-- A run without a newline at the front of a text is at the front of its first line. -/
theorem prefix_first_line (hword : newline ∉ word) (h : word <+: s) :
    word <+: (lines s).headD [] := by
  induction s generalizing word with
  | nil => exact h
  | cons b s ih =>
      cases word with
      | nil => exact List.nil_prefix
      | cons c word =>
          rw [List.mem_cons, not_or] at hword
          obtain ⟨rfl, hrest⟩ := List.cons_prefix_cons.mp h
          rw [lines, if_neg (Ne.symm hword.1)]
          have hfirst := ih hword.2 hrest
          split
          case h_1 hnil =>
            rw [hnil] at hfirst
            exact List.cons_prefix_cons.mpr ⟨rfl, hfirst⟩
          case h_2 hcons =>
            rw [hcons] at hfirst
            exact List.cons_prefix_cons.mpr ⟨rfl, hfirst⟩

/-- A word occurs in a line exactly when it occurs in the text. -/
theorem occurs_iff (hne : word ≠ []) (hword : newline ∉ word) : Occurs word s ↔ word <:+: s := by
  constructor
  · rintro ⟨line, hline, hin⟩
    have hmem := List.infix_of_mem_flatten hline
    rw [flatten_lines] at hmem
    exact hin.trans hmem
  · intro h
    induction s with
    | nil => exact absurd (List.infix_nil.mp h) hne
    | cons b s ih =>
        rcases List.infix_cons_iff.mp h with hprefix | hin
        · have hfirst := prefix_first_line hword hprefix
          cases hlines : lines (b :: s) with
          | nil => exact absurd (lines_eq_nil.mp hlines) (List.cons_ne_nil b s)
          | cons line rest =>
              rw [hlines] at hfirst
              exact ⟨line, hlines ▸ List.mem_cons_self, hfirst.isInfix⟩
        · obtain ⟨line, hline, hin⟩ := ih hin
          rw [Occurs, lines]
          split
          · exact ⟨line, List.mem_cons_of_mem _ hline, hin⟩
          · split
            case h_1 hnil =>
              rw [hnil] at hline
              cases hline
            case h_2 first rest hcons =>
              rw [hcons] at hline
              rcases List.mem_cons.mp hline with rfl | hline
              · exact ⟨b :: line, List.mem_cons_self, List.infix_cons hin⟩
              · exact ⟨line, List.mem_cons_of_mem _ hline, hin⟩

/-- A line in front of a text becomes part of the first line at most. -/
theorem lines_append (ht : OneLine t) (hne : t ≠ []) (s : List UInt8) :
    ∃ first rest, lines (t ++ s) = first :: rest ∧ t <+: first ∧ ∀ line ∈ rest, line ∈ lines s := by
  induction t with
  | nil => exact absurd rfl hne
  | cons b t ih =>
      rw [List.cons_append, lines]
      split
      case isTrue hb =>
        obtain rfl := ht.1 hb
        exact ⟨[b], lines s, rfl, List.prefix_rfl, fun _ => id⟩
      case isFalse hb =>
        have hsingle (line : List UInt8) : [b] <+: b :: line :=
          List.cons_prefix_cons.mpr ⟨rfl, List.nil_prefix⟩
        cases t with
        | nil =>
            rw [List.nil_append]
            split
            case h_1 => exact ⟨[b], [], rfl, hsingle [], nofun⟩
            case h_2 first rest hcons =>
              exact ⟨b :: first, rest, rfl, hsingle first,
                fun line hline => hcons ▸ List.mem_cons_of_mem first hline⟩
        | cons c t =>
            obtain ⟨first, rest, hlines, hprefix, hrest⟩ := ih ht.2 (List.cons_ne_nil c t)
            rw [hlines]
            exact ⟨b :: first, rest, rfl, List.cons_prefix_cons.mpr ⟨rfl, hprefix⟩, hrest⟩

/-- What has no `b` in it does not reach across a `b`. -/
theorem infix_append_cons {b : UInt8} (hword : b ∉ word) :
    word <:+: s ++ b :: t ↔ word <:+: s ∨ word <:+: b :: t := by
  constructor
  · intro h
    rcases List.infix_append_iff_ne_nil.mp h with h | h | ⟨w, w', -, hne, rfl, -, hprefix⟩
    · exact Or.inl h
    · exact Or.inr h
    · cases w' with
      | nil => exact absurd rfl hne
      | cons c w' =>
          obtain ⟨rfl, -⟩ := List.cons_prefix_cons.mp hprefix
          exact absurd (List.mem_append_right w List.mem_cons_self) hword
  · rintro (h | h)
    · exact List.infix_append_of_infix_left h
    · exact List.infix_append_of_infix_right h

end Lines

/-! ## Lines and pieces -/

section Pieces

variable {n size : Nat} {s t file line rest : List UInt8} {first : List UInt8}
  {others : List (List UInt8)}

theorem piecesFrom_of_le (hsize : 1 < size) {fuel : Nat} (h : file.length ≤ fuel) :
    piecesFrom size fuel file = pieces size file := by
  have hfuel : ∀ k file, List.length file ≤ k → ∀ fuel, List.length file ≤ fuel →
      piecesFrom size fuel file = piecesFrom size k file := by
    intro k
    induction k with
    | zero =>
        intro file hk fuel _
        rw [List.length_eq_zero_iff.mp (Nat.le_zero.mp hk)]
        cases fuel <;> rfl
    | succ k ih =>
        intro file hk fuel hle
        cases fuel with
        | zero =>
            rw [List.length_eq_zero_iff.mp (Nat.le_zero.mp hle)]
            rfl
        | succ fuel =>
            rw [piecesFrom, piecesFrom]
            split
            case h_1 => rfl
            case h_2 hsome =>
              have hshorter := fgets_length hsize hsome
              rw [ih _ (by omega) fuel (by omega)]
  exact hfuel file.length file le_rfl fuel h

/-- The loop reads one piece, and goes on behind it. -/
theorem pieces_cons (hsize : 1 < size) (h : fgets size file = some (line, rest)) :
    pieces size file = line :: pieces size rest := by
  have hshorter := fgets_length hsize h
  obtain ⟨k, hk⟩ := Nat.exists_eq_succ_of_ne_zero (Nat.ne_zero_of_lt hshorter)
  rw [pieces, hk, piecesFrom, h]
  exact congrArg _ (piecesFrom_of_le hsize (by omega))

/-- The loop reads the whole file. -/
theorem flatten_pieces (hsize : 1 < size) (file : List UInt8) :
    (pieces size file).flatten = file := by
  induction hlength : file.length using Nat.strong_induction_on generalizing file with
  | h k ih =>
      cases hread : fgets size file with
      | none =>
          rw [fgets_eq_none.mp hread]
          rfl
      | some p =>
          rw [pieces_cons hsize hread, List.flatten_cons,
            ih _ (hlength ▸ fgets_length hsize hread) p.2 rfl, fgets_append hread]

/-- What is read of a line ends with it. -/
theorem takeLine_append_line (hs : OneLine s) (hne : s ≠ []) (hend : Whole s ∨ t = []) (n : Nat) :
    takeLine n (s ++ t) = (s.take n, s.drop n ++ t) := by
  induction s generalizing n with
  | nil => exact absurd rfl hne
  | cons b s ih =>
      cases n with
      | zero => rfl
      | succ n =>
          rw [List.cons_append, takeLine]
          by_cases hb : b = newline
          case pos =>
            obtain rfl := hs.1 hb
            rw [if_pos hb]
            simp
          case neg =>
            rw [if_neg hb]
            cases s with
            | nil =>
                have ht : t = [] := hend.resolve_left fun hwhole => hb (hwhole b rfl)
                rw [ht]
                cases n <;> rfl
            | cons c s =>
                have htail : Whole (c :: s) ∨ t = [] :=
                  hend.imp_left fun hwhole => Whole.of_append (s := [b]) hwhole
                rw [ih hs.2 (List.cons_ne_nil c s) htail]
                rfl

/-- A line is read in pieces of its own. -/
theorem pieces_append (hsize : 1 < size) (hs : OneLine s) (hend : Whole s ∨ t = []) :
    pieces size (s ++ t) = pieces size s ++ pieces size t := by
  induction hlength : s.length using Nat.strong_induction_on generalizing s with
  | h k ih =>
      cases s with
      | nil => rfl
      | cons b s =>
          have hread : ∀ u, Whole (b :: s) ∨ u = [] → fgets size ((b :: s) ++ u) =
              some ((b :: s).take (size - 1), (b :: s).drop (size - 1) ++ u) := fun u hu =>
            congrArg some (takeLine_append_line hs (List.cons_ne_nil b s) hu (size - 1))
          have halone := hread [] (Or.inr rfl)
          rw [List.append_nil, List.append_nil] at halone
          have htake := List.take_append_drop (size - 1) (b :: s)
          have hdrop : OneLine ((b :: s).drop (size - 1)) :=
            hs.of_part (List.drop_suffix _ _).isInfix
          have hdropEnd : Whole ((b :: s).drop (size - 1)) ∨ t = [] :=
            hend.imp_left fun hwhole => Whole.of_append (htake.symm ▸ hwhole)
          rw [pieces_cons hsize (hread t hend), pieces_cons hsize halone, List.cons_append]
          have hshorter := fgets_length hsize halone
          rw [ih _ (hlength ▸ hshorter) hdrop hdropEnd rfl]

/-- The first line of a text, and the lines behind it. -/
theorem lines_cons (h : lines s = first :: others) :
    lines others.flatten = others ∧ (Whole first ∨ others = []) := by
  induction s generalizing first others with
  | nil => cases h
  | cons b s ih =>
      rw [lines] at h
      split at h
      case isTrue hb =>
        cases h
        rw [flatten_lines]
        refine ⟨rfl, Or.inl fun c hc => ?_⟩
        rw [← Option.some.inj hc]
        exact hb
      case isFalse =>
        split at h
        case h_1 =>
          cases h
          exact ⟨rfl, Or.inr rfl⟩
        case h_2 line rest hcons =>
          cases h
          obtain ⟨hflatten, hend⟩ := ih hcons
          refine ⟨hflatten, hend.imp_left fun hwhole => ?_⟩
          exact hwhole.append_of_ne_nil (lines_ne_nil (hcons ▸ List.mem_cons_self)) [b]

/-- The pieces of a text are those of its lines. -/
theorem pieces_lines (hsize : 1 < size) (file : List UInt8) :
    pieces size file = (lines file).flatMap (pieces size) := by
  induction hlines : lines file generalizing file with
  | nil =>
      rw [lines_eq_nil.mp hlines]
      rfl
  | cons first others ih =>
      have hfile := flatten_lines file
      rw [hlines, List.flatten_cons] at hfile
      obtain ⟨hothers, hend⟩ := lines_cons hlines
      have hfirst : OneLine first := oneLine_of_mem_lines (hlines ▸ List.mem_cons_self)
      have hrest : Whole first ∨ others.flatten = [] :=
        hend.imp_right fun hnil => by rw [hnil, List.flatten_nil]
      rw [← hfile, pieces_append hsize hfirst hrest, ih _ hothers, List.flatMap_cons]

/-- The first piece of a line is as long as it can be. -/
theorem pieces_take (hsize : 1 < size) (hs : OneLine s) (hne : s ≠ []) :
    pieces size s = s.take (size - 1) :: pieces size (s.drop (size - 1)) := by
  have hread := takeLine_append_line hs hne (Or.inr rfl) (size - 1)
  rw [List.append_nil, List.append_nil] at hread
  obtain ⟨b, s, rfl⟩ := List.exists_cons_of_ne_nil hne
  have hfgets : fgets size (b :: s) = some (_, _) := congrArg some hread
  exact pieces_cons hsize hfgets

/-- A line that is short enough is one piece. -/
theorem pieces_short (hs : OneLine s) (hne : s ≠ []) (hlength : s.length < size) :
    pieces size s = [s] := by
  have hpos := List.length_pos_of_ne_nil hne
  rw [pieces_take (by omega) hs hne, List.take_of_length_le (by omega)]
  rw [List.drop_eq_nil_of_le (by omega)]
  rfl

end Pieces

end OSProjects.LineReading
