import OSProjects.Foundation.CharBuffer
import OSProjects.Manual.Wgroff

/-!
# The first and the last line of a page

The loops of `wgroff` that fill `firstLine` and `last_len` with spaces. The bound of the first
one is an unsigned difference, so it wraps around for a long title.
-/

namespace OSProjects.Manual

open StringSearch LineReading CharBuffer

/-- `while (strlen(b) < limit) strcat(b, " ")`, with at most `fuel` tests. -/
def padLoop (limit : Nat) : Nat → Buffer → Option Buffer
  | 0, _ => none
  | fuel + 1, b =>
      match strlenAt b 0 with
      | none => none
      | some n =>
          if n < limit then (strcatAt b 0 [space]).bind (padLoop limit fuel) else some b

/-- `79 - strlen(path)`. -/
def sizeLeft (path : List UInt8) : UInt64 := 79 - UInt64.ofNat path.length

/-- `firstLine`, with what lies in the array before. -/
def buildFirstLine (fuel : Nat) (memory : Buffer) (path : List UInt8) : Option Buffer := do
  let b ← strcpyAt memory 0 path
  let b ← padLoop ((sizeLeft path).toNat + 1) fuel b
  let b ← strcatAt b 0 path
  strcatAt b 0 [newline]

/-- `last_len`. -/
def buildLastLine (fuel : Nat) (time : List UInt8) : Option Buffer := do
  let b ← padLoop ((80 - UInt64.ofNat time.length) / 2).toNat fuel (List.replicate 100 0)
  let b ← strcatAt b 0 time
  padLoop 80 fuel b

/-- Both loops end without a store outside their array. The first line has the title on both
sides and eighty bytes, or the titles alone when they do not fit, and the last line has eighty
bytes with the date in the middle. -/
structure PageLaw (path time : List UInt8) : Prop where
  first : ∀ memory : Buffer, memory.length = 500 → ∃ fuel b n,
    buildFirstLine fuel memory path = some b ∧
      cstr b = path ++ List.replicate n space ++ path ++ [newline] ∧
      (2 * path.length ≤ 80 → (path ++ List.replicate n space ++ path).length = 80) ∧
      (80 < 2 * path.length → n = 0)
  last : ∃ fuel b n, buildLastLine fuel time = some b ∧
    cstr b = List.replicate n space ++ time ++ List.replicate n space ∧ (cstr b).length = 80

section Loops

variable {s post path time : List UInt8} {limit fuel : Nat}

theorem notMem_append_space (hs : 0 ∉ s) (n : Nat) : 0 ∉ s ++ List.replicate n space := by
  rw [List.mem_append, not_or]
  exact ⟨hs, fun h => absurd (List.eq_of_mem_replicate h) (by decide)⟩

/-- A turn of the loop. -/
theorem padLoop_turn (hs : 0 ∉ s) (hshort : s.length < limit) (fuel : Nat) (b : UInt8)
    (post : List UInt8) :
    padLoop limit (fuel + 1) (s ++ 0 :: b :: post) =
      padLoop limit fuel (s ++ [space] ++ 0 :: post) := by
  rw [padLoop, strlenAt_start hs]
  dsimp only
  rw [if_pos hshort, strcatAt_start hs (by simp), Option.bind_some]
  rfl

/-- The loop ends when the array has room. -/
theorem padLoop_fits (hs : 0 ∉ s) (hfuel : limit - s.length < fuel)
    (hroom : limit - s.length ≤ post.length) :
    padLoop limit fuel (s ++ 0 :: post) =
      some (s ++ List.replicate (limit - s.length) space ++ 0 :: post.drop (limit - s.length)) := by
  induction fuel generalizing s post with
  | zero => omega
  | succ fuel ih =>
      by_cases hshort : s.length < limit
      case pos =>
        obtain ⟨n, hn⟩ := Nat.exists_eq_add_of_lt hshort
        obtain ⟨b, post, rfl⟩ := List.exists_cons_of_ne_nil
          (List.ne_nil_of_length_pos (show 0 < post.length by omega))
        have hleft : limit - s.length = n + 1 := by omega
        have hnext : limit - (s ++ [space]).length = n := by
          rw [List.length_append, List.length_singleton]
          omega
        have hnul : 0 ∉ s ++ [space] := notMem_append_space hs 1
        rw [List.length_cons] at hroom
        rw [padLoop_turn hs hshort, ih hnul (by omega) (by omega)]
        rw [hnext, hleft, List.drop_succ_cons, List.replicate_succ, List.append_assoc s]
        rfl
      case neg =>
        rw [padLoop, strlenAt_start hs]
        dsimp only
        rw [if_neg hshort, Nat.sub_eq_zero_of_le (Nat.le_of_not_lt hshort), List.drop_zero]
        rw [List.replicate_zero, List.append_nil]

/-- The loop leaves the array when it has too little room. -/
theorem padLoop_leaves (hs : 0 ∉ s) (hroom : post.length < limit - s.length) (fuel : Nat) :
    padLoop limit fuel (s ++ 0 :: post) = none := by
  induction fuel generalizing s post with
  | zero => rfl
  | succ fuel ih =>
      cases post with
      | nil =>
          rw [padLoop, strlenAt_start hs]
          dsimp only
          rw [if_pos (by omega), strcatAt_start_eq_none hs (by simp)]
          rfl
      | cons b post =>
          rw [List.length_cons] at hroom
          have hnul : 0 ∉ s ++ [space] := notMem_append_space hs 1
          rw [padLoop_turn hs (by omega)]
          apply ih hnul
          rw [List.length_append, List.length_singleton]
          omega

/-- The bound is a difference up to 79 bytes, and above it is greater than every array. -/
theorem sizeLeft_of_le (h : path.length ≤ 79) : (sizeLeft path).toNat = 79 - path.length := by
  have hsize : (UInt64.ofNat path.length).toNat = path.length :=
    UInt64.toNat_ofNat_of_lt' (Nat.lt_of_le_of_lt h (by decide))
  rw [sizeLeft, UInt64.toNat_sub_of_le, hsize]
  · rfl
  · rw [UInt64.le_iff_toNat_le, hsize]
    exact h

theorem lt_sizeLeft (h : 79 < path.length) (hshort : path.length < 500) :
    500 < (sizeLeft path).toNat := by
  have hsize : (UInt64.ofNat path.length).toNat = path.length :=
    UInt64.toNat_ofNat_of_lt' (Nat.lt_trans hshort (by decide))
  have h79 : (79 : UInt64).toNat = 79 := rfl
  rw [sizeLeft, UInt64.toNat_sub, hsize, h79]
  omega

/-- The first line of the page, in the array. -/
theorem buildFirstLine_eq {memory : Buffer} (hnul : 0 ∉ path) (hlength : path.length ≤ 79)
    (hmemory : memory.length = 500) :
    ∃ post, buildFirstLine 100 memory path = some (firstLine path ++ 0 :: post) := by
  have hpost : (memory.drop (path.length + 1)).length = 499 - path.length := by
    rw [List.length_drop, hmemory]
    omega
  have hlimit : (sizeLeft path).toNat + 1 = 80 - path.length := by
    rw [sizeLeft_of_le hlength]
    omega
  have hpadded := notMem_append_space hnul (80 - path.length - path.length)
  have htitles : 0 ∉ path ++ List.replicate (80 - path.length - path.length) space ++ path := by
    rw [List.mem_append, not_or]
    exact ⟨hpadded, hnul⟩
  have hcopy := strcpyAt_start (show path.length < memory.length by omega)
  have hloop := @padLoop_fits _ (memory.drop (path.length + 1)) (80 - path.length) 100 hnul
    (by omega) (by omega)
  have htitle := strcatAt_start hpadded (show path.length ≤ ((memory.drop (path.length + 1)).drop
    (80 - path.length - path.length)).length by rw [List.length_drop]; omega)
  have hbuild : buildFirstLine 100 memory path =
      strcatAt (path ++ List.replicate (80 - path.length - path.length) space ++ path ++
        0 :: ((memory.drop (path.length + 1)).drop (80 - path.length - path.length)).drop
          path.length) 0 [newline] := by
    rw [buildFirstLine, hcopy, Option.bind_eq_bind, Option.bind_some, hlimit, hloop]
    rw [Option.bind_some, htitle]
    rfl
  refine ⟨_, hbuild.trans (strcatAt_start htitles ?_)⟩
  rw [List.length_drop, List.length_drop, List.length_singleton]
  omega

/-- A longer title never gets out of the loop. -/
theorem buildFirstLine_leaves {memory : Buffer} (hnul : 0 ∉ path) (hlength : 79 < path.length)
    (hmemory : memory.length = 500) (fuel : Nat) : buildFirstLine fuel memory path = none := by
  rw [buildFirstLine]
  by_cases hshort : path.length < 500
  case pos =>
    have hsize := lt_sizeLeft hlength hshort
    rw [strcpyAt_start (by omega), Option.bind_eq_bind, Option.bind_some, padLoop_leaves hnul]
    · rfl
    · rw [List.length_drop]
      omega
  case neg =>
    rw [strcpyAt_start_eq_none (by omega)]
    rfl

/-- The last line of the page, in the array. -/
theorem buildLastLine_eq (hnul : 0 ∉ time) (hlength : time.length = 10) :
    ∃ post, buildLastLine 100 time =
      some (List.replicate 35 space ++ time ++ List.replicate 35 space ++ 0 :: post) := by
  have hlimit : ((80 - UInt64.ofNat time.length) / 2).toNat = 35 := by
    rw [hlength]
    rfl
  have hzeros : List.replicate 100 (0 : UInt8) = [] ++ 0 :: List.replicate 99 0 := rfl
  have hspaces : 0 ∉ List.replicate 35 space := notMem_append_space List.not_mem_nil 35
  have hdate : 0 ∉ List.replicate 35 space ++ time := by
    rw [List.mem_append, not_or]
    exact ⟨hspaces, hnul⟩
  have hleft : 80 - (List.replicate 35 space ++ time).length = 35 := by
    rw [List.length_append, List.length_replicate, hlength]
  have hloop := @padLoop_fits [] (List.replicate 99 0) 35 100 List.not_mem_nil (by decide)
    (by decide)
  have htime := strcatAt_start hspaces (show time.length ≤ (List.replicate 64 (0 : UInt8)).length by
    rw [hlength]; decide)
  have hbuild : buildLastLine 100 time = padLoop 80 100
      (List.replicate 35 space ++ time ++ 0 :: (List.replicate 64 0).drop time.length) := by
    rw [buildLastLine, hlimit, hzeros, hloop, Option.bind_eq_bind, Option.bind_some]
    exact congrArg (fun b => Option.bind b (padLoop 80 100)) htime
  have hend := @padLoop_fits _ ((List.replicate 64 0).drop time.length) 80 100 hdate (by omega)
    (by rw [hleft, hlength]; decide)
  rw [hleft] at hend
  exact ⟨_, hbuild.trans hend⟩

end Loops

section Titles

variable {input line rest path time : List UInt8}

/-- For an accepted title line, the first and the last line of the page are as they should be
exactly when the title has at most 79 bytes. -/
theorem page_lines_iff (hread : fgets 100 input = some (line, rest))
    (htitle : titleHeader (cstr line) = .ok (path, time)) :
    PageLaw path time ↔ path.length ≤ 79 := by
  have hone : OneLine (cstr line) := (fgets_oneLine hread).of_part (cstr_front line).isInfix
  obtain ⟨hpath, htime, -, hdate⟩ := titleHeader_ok hone (zero_notMem_cstr line) htitle
  constructor
  · intro law
    by_contra hlong
    obtain ⟨fuel, b, n, hbuild, -⟩ := law.first (List.replicate 500 0) List.length_replicate
    rw [buildFirstLine_leaves hpath (Nat.lt_of_not_le hlong) List.length_replicate] at hbuild
    cases hbuild
  · intro hlength
    constructor
    case first =>
      intro memory hmemory
      obtain ⟨post, hbuild⟩ := buildFirstLine_eq hpath hlength hmemory
      refine ⟨100, _, 80 - path.length - path.length, hbuild, ?_, fun hfits => ?_, fun hlong => ?_⟩
      · apply cstr_terminated
        rw [firstLine, List.mem_append, List.mem_append, not_or, not_or]
        exact ⟨⟨notMem_append_space hpath _, hpath⟩, by decide⟩
      · rw [List.length_append, List.length_append, List.length_replicate]
        omega
      · omega
    case last =>
      obtain ⟨post, hbuild⟩ := buildLastLine_eq htime hdate
      have hcstr := cstr_terminated (notMem_append_space (s := List.replicate 35 space ++ time) (by
        rw [List.mem_append, not_or]
        exact ⟨by decide, htime⟩) 35) post
      refine ⟨100, _, 35, hbuild, hcstr, ?_⟩
      rw [hcstr, List.length_append, List.length_append, List.length_replicate, hdate]

end Titles

/-- A title line with a command of so many bytes. -/
def titleOf (n : Nat) : List UInt8 :=
  thMark ++ space :: List.replicate n 97 ++
    ascii [' ', '1', ' ', '2', '0', '2', '3', '-', '0', '8', '-', '1', '4'] ++ [newline]

/-- The title and the date of that line. -/
def pathOf (n : Nat) : List UInt8 := List.replicate n 97 ++ ascii ['.', '1']
def sampleDate : List UInt8 := ascii ['2', '0', '2', '3', '-', '0', '8', '-', '1', '4']

theorem fgets_titleOf : ∀ n ∈ [1, 78], fgets 100 (titleOf n) = some (titleOf n, []) := by
  decide +kernel

theorem titleHeader_titleOf :
    ∀ n ∈ [1, 78], titleHeader (cstr (titleOf n)) = .ok (pathOf n, sampleDate) := by
  decide +kernel

theorem page_lines_iff_short : PageLaw (pathOf 1) sampleDate ↔ (pathOf 1).length ≤ 79 :=
  page_lines_iff (fgets_titleOf 1 (by decide)) (titleHeader_titleOf 1 (by decide))

/-- With a command of 78 bytes, the loop of the first line leaves its array. -/
theorem first_line_overflows :
    ¬∀ input line rest path time, fgets 100 input = some (line, rest) →
      titleHeader (cstr line) = .ok (path, time) → PageLaw path time := by
  intro h
  have law := h _ _ _ _ _ (fgets_titleOf 78 (by decide)) (titleHeader_titleOf 78 (by decide))
  obtain ⟨fuel, b, n, hbuild, -⟩ := law.first (List.replicate 500 0) List.length_replicate
  rw [buildFirstLine_leaves (by decide) (by decide) List.length_replicate] at hbuild
  cases hbuild

end OSProjects.Manual
