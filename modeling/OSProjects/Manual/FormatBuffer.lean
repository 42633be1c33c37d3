import OSProjects.Foundation.CharBuffer
import OSProjects.Manual.Wgroff

/-!
# The buffer of `format_line`

`format_line` fills a static buffer through a pointer. Marks are appended with `strcat`, other
bytes are stored without a NUL behind them, as the rest of the buffer is zero.
-/

namespace OSProjects.Manual

open StringSearch LineReading CharBuffer

/-! ## The loop -/

/-- `strcat(fl_ptr, t)`, and the pointer moves behind the text. -/
def appendText (s : Buffer × Nat) (t : List UInt8) : Option (Buffer × Nat) :=
  (strcatAt s.1 s.2 t).map fun fl => (fl, s.2 + t.length)

/-- `*fl_ptr = b`, and the pointer moves on. -/
def appendByte (s : Buffer × Nat) (b : UInt8) : Option (Buffer × Nat) :=
  (storeAt s.1 s.2 [b]).map fun fl => (fl, s.2 + 1)

/-- The loop of `format_line`, on the buffer and `fl_ptr`. -/
def formatLoop : List UInt8 → Buffer × Nat → Option (Buffer × Nat)
  | [], s => some s
  | 47 :: 102 :: 66 :: line, s => (appendText s bold).bind (formatLoop line)
  | 47 :: 102 :: 73 :: line, s => (appendText s italic).bind (formatLoop line)
  | 47 :: 102 :: 85 :: line, s => (appendText s underline).bind (formatLoop line)
  | 47 :: 102 :: 80 :: line, s => (appendText s plain).bind (formatLoop line)
  | 47 :: 47 :: line, s => (appendText s [47]).bind (formatLoop line)
  | b :: line, s => (appendByte s b).bind (formatLoop line)

/-- `format_line`, by the buffer that it returns. -/
def formatLineIn (line : List UInt8) : Option Buffer := do
  let fl ← strcpyAt (List.replicate 1024 0) 0 (List.replicate 7 space)
  let indent ← strlenAt fl 0
  let s ← formatLoop line (fl, indent)
  return s.1

/-! ## The translation -/

/-- The marks and what stands for them. -/
def marks : List (List UInt8 × List UInt8) :=
  [([47, 102, 66], bold), ([47, 102, 73], italic), ([47, 102, 85], underline),
    ([47, 102, 80], plain), ([47, 47], [47])]

/-- The translation from left to right: a mark at the front is replaced, and a byte with no
mark at the front is copied. -/
inductive Renders : List UInt8 → List UInt8 → Prop
  | nil : Renders [] []
  | mark {m t line out} (hmark : (m, t) ∈ marks) (h : Renders line out) :
      Renders (m ++ line) (t ++ out)
  | copy {b line out} (hnone : ∀ p ∈ marks, ¬p.1 <+: b :: line) (h : Renders line out) :
      Renders (b :: line) (b :: out)

/-- The loop's cases translate the line. -/
theorem renders_formatFrom (line : List UInt8) : Renders line (formatFrom line) := by
  induction line using formatFrom.induct with
  | case1 => exact Renders.nil
  | case2 line ih => exact @Renders.mark [47, 102, 66] bold _ _ (by decide) ih
  | case3 line ih => exact @Renders.mark [47, 102, 73] italic _ _ (by decide) ih
  | case4 line ih => exact @Renders.mark [47, 102, 85] underline _ _ (by decide) ih
  | case5 line ih => exact @Renders.mark [47, 102, 80] plain _ _ (by decide) ih
  | case6 line ih => exact @Renders.mark [47, 47] [47] _ _ (by decide) ih
  | case7 b line h1 h2 h3 h4 h5 ih =>
      rw [formatFrom]
      · apply Renders.copy _ ih
        intro p hp hprefix
        obtain ⟨rest, hrest⟩ := hprefix
        simp only [marks, List.mem_cons, List.not_mem_nil, or_false] at hp
        rcases hp with rfl | rfl | rfl | rfl | rfl
        · cases hrest
          exact h1 rest rfl rfl
        · cases hrest
          exact h2 rest rfl rfl
        · cases hrest
          exact h3 rest rfl rfl
        · cases hrest
          exact h4 rest rfl rfl
        · cases hrest
          exact h5 rest rfl rfl
      all_goals assumption

/-- A line has one translation. -/
theorem Renders.eq {line out : List UInt8} (h : Renders line out) : out = formatFrom line := by
  induction h with
  | nil => rfl
  | @mark m t line out hmark h ih =>
      simp only [marks, List.mem_cons, Prod.mk.injEq, List.not_mem_nil, or_false] at hmark
      rcases hmark with ⟨rfl, rfl⟩ | ⟨rfl, rfl⟩ | ⟨rfl, rfl⟩ | ⟨rfl, rfl⟩ | ⟨rfl, rfl⟩ <;>
        exact congrArg _ ih
  | @copy b line out hnone h ih =>
      have hno : ∀ m ∈ marks.map Prod.fst, ∀ rest, b :: line = m ++ rest → False := by
        intro m hm rest heq
        obtain ⟨p, hp, rfl⟩ := List.mem_map.mp hm
        exact hnone p hp ⟨rest, heq.symm⟩
      rw [ih, formatFrom]
      · rintro rest rfl rfl
        exact hno [47, 102, 66] (by decide) rest rfl
      · rintro rest rfl rfl
        exact hno [47, 102, 73] (by decide) rest rfl
      · rintro rest rfl rfl
        exact hno [47, 102, 85] (by decide) rest rfl
      · rintro rest rfl rfl
        exact hno [47, 102, 80] (by decide) rest rfl
      · rintro rest rfl rfl
        exact hno [47, 47] (by decide) rest rfl

/-! ## The buffer -/

/-- The buffer with some output and `n` zeros behind it, and the pointer between them. -/
def written (out : List UInt8) (n : Nat) : Buffer × Nat :=
  (out ++ List.replicate n 0, out.length)

/-- A mark is appended in front of zeros. -/
theorem appendText_written (out t : List UInt8) (n : Nat) :
    appendText (written out (t.length + 1 + n)) t = some (written (out ++ t) (n + 1)) := by
  have hzeros : List.replicate (t.length + 1 + n) (0 : UInt8) =
      [] ++ 0 :: (List.replicate t.length 0 ++ List.replicate n 0) := by
    rw [Nat.add_right_comm, List.replicate_succ, List.replicate_add]
    rfl
  rw [appendText, written, hzeros, strcatAt_append List.not_mem_nil List.length_replicate]
  rw [Option.map_some, List.nil_append, written, List.replicate_succ, List.append_assoc,
    List.length_append]

/-- A byte is stored on a zero. -/
theorem appendByte_written (out : List UInt8) (b : UInt8) (n : Nat) :
    appendByte (written out (n + 1)) b = some (written (out ++ [b]) n) := by
  have hstore : storeAt (out ++ ([0] ++ List.replicate n 0)) out.length [b] =
      some (out ++ ([b] ++ List.replicate n 0)) := storeAt_append rfl
  rw [appendByte, written, List.replicate_succ, written, List.append_assoc, List.length_append]
  exact congrArg (Option.map _) hstore

/-- A mark in front of a line that the loop writes. -/
theorem appendText_formatLoop {line : List UInt8} {n : Nat} (t : List UInt8)
    (h : ∀ out, formatLoop line (written out ((formatFrom line).length + 1 + n)) =
      some (written (out ++ formatFrom line) (n + 1))) (out : List UInt8) :
    (appendText (written out ((t ++ formatFrom line).length + 1 + n)) t).bind (formatLoop line) =
      some (written (out ++ (t ++ formatFrom line)) (n + 1)) := by
  have hroom : (t ++ formatFrom line).length + 1 + n =
      t.length + 1 + ((formatFrom line).length + n) := by
    rw [List.length_append]
    omega
  rw [hroom, appendText_written, Option.bind_some, Nat.add_right_comm _ n 1, h, List.append_assoc]

/-- The bytes behind the pointer stay zero, so the loop writes the translated line. -/
theorem formatLoop_written (line out : List UInt8) (n : Nat) :
    formatLoop line (written out ((formatFrom line).length + 1 + n)) =
      some (written (out ++ formatFrom line) (n + 1)) := by
  induction line using formatFrom.induct generalizing out with
  | case1 =>
      rw [formatLoop, formatFrom, List.append_nil, List.length_nil, Nat.zero_add, Nat.add_comm]
  | case2 line ih => exact appendText_formatLoop bold ih out
  | case3 line ih => exact appendText_formatLoop italic ih out
  | case4 line ih => exact appendText_formatLoop underline ih out
  | case5 line ih => exact appendText_formatLoop plain ih out
  | case6 line ih => exact appendText_formatLoop [47] ih out
  | case7 b line h1 h2 h3 h4 h5 ih =>
      have hroom : (b :: formatFrom line).length + 1 + n =
          (formatFrom line).length + 1 + n + 1 := by
        rw [List.length_cons]
        omega
      rw [formatLoop, formatFrom, hroom, appendByte_written, Option.bind_some, ih]
      · rw [List.append_assoc]
        rfl
      all_goals assumption

/-- The buffer holds the formatted line, and zeros behind it. -/
theorem formatLineIn_eq {line : List UInt8} (hlength : line.length ≤ 511) :
    ∃ n, (formatLine line).length + n + 1 = 1024 ∧
      formatLineIn line = some (formatLine line ++ List.replicate (n + 1) 0) := by
  have hshort := length_formatFrom_le line
  obtain ⟨n, hn⟩ := Nat.exists_eq_add_of_le
    (show (formatFrom line).length + 1 ≤ 1017 by omega)
  have hindent : strcpyAt (List.replicate 1024 0) 0 (List.replicate 7 space) =
      some (List.replicate 7 space ++ List.replicate 1017 0) := by decide +kernel
  have hseven : strlenAt (List.replicate 7 space ++ List.replicate 1017 0) 0 = some 7 := by
    decide +kernel
  refine ⟨n, ?_, ?_⟩
  · rw [formatLine, List.length_append, List.length_replicate]
    omega
  · have hloop := formatLoop_written line (List.replicate 7 space) n
    rw [← hn, written, List.length_replicate] at hloop
    rw [formatLineIn, hindent, Option.bind_eq_bind, Option.bind_some, hseven, Option.bind_eq_bind,
      Option.bind_some, hloop]
    rfl

/-- For a line of at most 511 bytes, every store of `format_line` stays in the buffer, and the
string in it is an indent of seven spaces and the translation of the line. -/
theorem format_line_renders {line : List UInt8} (hnul : 0 ∉ line) (hlength : line.length ≤ 511) :
    ∃ fl out rest, formatLineIn line = some fl ∧ fl.length = 1024 ∧ Renders line out ∧
      (∀ other, Renders line other → other = out) ∧
      fl = List.replicate 7 space ++ out ++ 0 :: rest ∧
      cstr fl = List.replicate 7 space ++ out := by
  obtain ⟨n, hn, heq⟩ := formatLineIn_eq hlength
  have hzero : 0 ∉ List.replicate 7 space ++ formatFrom line := by
    rw [List.mem_append, not_or]
    exact ⟨by decide, zero_notMem_formatFrom hnul⟩
  refine ⟨_, formatFrom line, List.replicate n 0, heq, ?_, renders_formatFrom line,
    fun other h => h.eq, rfl, cstr_terminated hzero _⟩
  rw [List.length_append, List.length_replicate, ← Nat.add_assoc, hn]

theorem format_line_renders_slash :
    (0 ∉ ([47, 47, 102, 66] : List UInt8) ∧ ([47, 47, 102, 66] : List UInt8).length ≤ 511) ∧
      ∃ fl out rest, formatLineIn [47, 47, 102, 66] = some fl ∧ fl.length = 1024 ∧
        Renders [47, 47, 102, 66] out ∧ (∀ other, Renders [47, 47, 102, 66] other → other = out) ∧
        fl = List.replicate 7 space ++ out ++ 0 :: rest ∧
        cstr fl = List.replicate 7 space ++ out :=
  ⟨by decide, format_line_renders (by decide) (by decide)⟩

end OSProjects.Manual
