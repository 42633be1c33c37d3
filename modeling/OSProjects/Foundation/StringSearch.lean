import Mathlib.Algebra.Group.Int.Defs
import Mathlib.Data.List.TakeWhile
import Mathlib.Order.MinMax
import OSProjects.Foundation.CString

/-!
# Strings in memory

A pointer into memory is the list of bytes from there on, and the string at it ends in
front of the first NUL. The functions of `string.h` that search and cut such strings.
-/

namespace OSProjects.StringSearch

/-- The string at a pointer. -/
def cstr (memory : List UInt8) : List UInt8 := memory.takeWhile (· ≠ 0)

def ascii (text : List Char) : List UInt8 := text.map fun c => UInt8.ofNat c.toNat

/-- The index of the first occurrence of a string. -/
def strstr (needle : List UInt8) : List UInt8 → Option Nat
  | [] => if needle = [] then some 0 else none
  | b :: s =>
      if needle.isPrefixOf (b :: s) then some 0 else (strstr needle s).map (· + 1)

/-- Without its last argument, where a difference of pointers has wrapped around, `strndup`
copies the string. -/
def strndup (s : List UInt8) : Option Nat → List UInt8
  | some size => s.take size
  | none => s

/-- `strncmp(a, b, size) == 0`. -/
def strncmpZero (a b : List UInt8) (size : Option Nat) : Bool :=
  strndup a size == strndup b size

def isSpace (b : UInt8) : Bool := b == 32 || (9 ≤ b && b ≤ 13)

def isDigit (b : UInt8) : Bool := 48 ≤ b && b ≤ 57

/-- The value of the digits at the front of a string. -/
def digits (s : List UInt8) : Nat :=
  (s.takeWhile isDigit).foldl (fun n b => 10 * n + (b.toNat - 48)) 0

/-- `atoi`, which converts the clamped result of `strtol` to an `int`. -/
def atoi (s : List UInt8) : Int :=
  let value : Int :=
    match s.dropWhile isSpace with
    | 45 :: s => -(digits s : Int)
    | 43 :: s => digits s
    | s => digits s
  (max (-2 ^ 63) (min value (2 ^ 63 - 1)) + 2 ^ 31) % 2 ^ 32 - 2 ^ 31

/-! ## Tokens -/

/-- What a call of `strtok` returns: the token, and the memory behind its NUL. -/
structure Token where
  text : List UInt8
  beyond : List UInt8

/-- The string that starts `i` bytes into the token. -/
def Token.from (t : Token) (i : Nat) : List UInt8 :=
  if i ≤ t.text.length then t.text.drop i else cstr (t.beyond.drop (i - t.text.length - 1))

/-- The tokens of a string, with the run read so far in `cur` and the memory behind the
string in `beyond`. A separator behind a token is overwritten with a NUL. -/
def tokensFrom (sep : UInt8 → Bool) (beyond : List UInt8) : List UInt8 → List UInt8 → List Token
  | [], cur => if cur = [] then [] else [⟨cur, beyond⟩]
  | b :: s, cur =>
      if sep b then
        if cur = [] then tokensFrom sep beyond s []
        else ⟨cur, s ++ 0 :: beyond⟩ :: tokensFrom sep beyond s []
      else tokensFrom sep beyond s (cur ++ [b])

/-- What repeated calls of `strtok` return for the string at a pointer. -/
def strtok (sep : UInt8 → Bool) (memory : List UInt8) : List Token :=
  tokensFrom sep (memory.drop ((cstr memory).length + 1)) (cstr memory) []

/-- One call of `strtok` for memory with a NUL: the token with the run read so far in front,
and the memory where the next call goes on. -/
def nextTokenFrom (sep : UInt8 → Bool) : List UInt8 → List UInt8 → Option Token × List UInt8
  | [], cur => (if cur = [] then none else some ⟨cur, []⟩, [])
  | b :: memory, cur =>
      if b = 0 then (if cur = [] then none else some ⟨cur, memory⟩, b :: memory)
      else if sep b then
        if cur = [] then nextTokenFrom sep memory [] else (some ⟨cur, memory⟩, memory)
      else nextTokenFrom sep memory (cur ++ [b])

/-- `strtok` at the place where it has been told to start or has stopped before. -/
def strtokNext (sep : UInt8 → Bool) (memory : List UInt8) : Option Token × List UInt8 :=
  nextTokenFrom sep memory []

section Calls

variable {sep : UInt8 → Bool} {memory rest : List UInt8}

theorem cstr_append_drop (h : 0 ∈ memory) :
    cstr memory ++ 0 :: memory.drop ((cstr memory).length + 1) = memory := by
  induction memory with
  | nil => cases h
  | cons b memory ih =>
      by_cases hb : b = 0
      · simp [cstr, hb]
      · have hmem : 0 ∈ memory := by simpa [Ne.symm hb] using h
        have hcons : cstr (b :: memory) = b :: cstr memory := by simp [cstr, hb]
        rw [hcons]
        exact congrArg (b :: ·) (ih hmem)

/-- A call stops in memory that still has a NUL. -/
theorem zero_mem_nextTokenFrom (sep : UInt8 → Bool) (h : 0 ∈ memory) (cur : List UInt8) :
    0 ∈ (nextTokenFrom sep memory cur).2 := by
  induction memory generalizing cur with
  | nil => cases h
  | cons b memory ih =>
      rw [nextTokenFrom]
      by_cases hb : b = 0
      · simp [hb]
      · have hmem : 0 ∈ memory := by simpa [Ne.symm hb] using h
        rw [if_neg hb]
        split
        · split
          · exact ih hmem []
          · exact hmem
        · exact ih hmem _

/-- The tokens of a string are the one of the first call and those of the later calls. -/
theorem tokensFrom_calls (sep : UInt8 → Bool) (h : 0 ∈ memory) (cur : List UInt8) :
    tokensFrom sep (memory.drop ((cstr memory).length + 1)) (cstr memory) cur =
      match nextTokenFrom sep memory cur with
      | (none, _) => []
      | (some t, rest) => t :: strtok sep rest := by
  induction memory generalizing cur with
  | nil => cases h
  | cons b memory ih =>
      rw [nextTokenFrom]
      by_cases hb : b = 0
      · subst hb
        have hend : strtok sep (0 :: memory) = [] := by simp [strtok, cstr, tokensFrom]
        by_cases hcur : cur = []
        · simp [cstr, tokensFrom, hcur]
        · simp [cstr, tokensFrom, hcur, hend]
      · have hmem : 0 ∈ memory := by simpa [Ne.symm hb] using h
        have hcons : cstr (b :: memory) = b :: cstr memory := by simp [cstr, hb]
        rw [if_neg hb, hcons, tokensFrom, List.length_cons, List.drop_succ_cons]
        split
        · split
          · exact ih hmem []
          · rw [cstr_append_drop hmem]
            rfl
        · exact ih hmem _

theorem strtok_eq_nil (h : 0 ∈ memory) (hcall : strtokNext sep memory = (none, rest)) :
    strtok sep memory = [] := by
  have hcalls := tokensFrom_calls sep h []
  rw [strtokNext] at hcall
  rwa [hcall] at hcalls

theorem strtok_eq_cons {t : Token} (h : 0 ∈ memory)
    (hcall : strtokNext sep memory = (some t, rest)) :
    strtok sep memory = t :: strtok sep rest := by
  have hcalls := tokensFrom_calls sep h []
  rw [strtokNext] at hcall
  rwa [hcall] at hcalls

theorem zero_mem_rest {token : Option Token} (h : 0 ∈ memory)
    (hcall : strtokNext sep memory = (token, rest)) : 0 ∈ rest := by
  have hmem := zero_mem_nextTokenFrom sep h []
  rw [strtokNext] at hcall
  rwa [hcall] at hmem

end Calls

/-! ## Searching for one character -/

theorem strstr_singleton_eq_none {c : UInt8} {s : List UInt8} : strstr [c] s = none ↔ c ∉ s := by
  induction s with
  | nil => simp [strstr]
  | cons b s ih =>
      rw [strstr]
      by_cases hb : c = b
      · simp [hb]
      · simp [hb, ih]

theorem strstr_singleton_eq_some {c : UInt8} {s : List UInt8} {i : Nat} :
    strstr [c] s = some i ↔ ∃ pre post, s = pre ++ c :: post ∧ c ∉ pre ∧ pre.length = i := by
  induction s generalizing i with
  | nil => simp [strstr]
  | cons b s ih =>
      rw [strstr]
      by_cases hb : c = b
      · subst hb
        have hprefix : [c].isPrefixOf (c :: s) = true := by simp
        rw [if_pos hprefix, Option.some.injEq]
        constructor
        · rintro rfl
          exact ⟨[], s, rfl, by simp, rfl⟩
        · rintro ⟨pre, post, hs, hpre, rfl⟩
          cases pre with
          | nil => rfl
          | cons d pre =>
              obtain ⟨rfl, -⟩ := List.cons.inj hs
              simp at hpre
      · have hprefix : ¬[c].isPrefixOf (b :: s) = true := by simp [hb]
        rw [if_neg hprefix, Option.map_eq_some_iff]
        constructor
        · rintro ⟨j, hj, rfl⟩
          obtain ⟨pre, post, rfl, hpre, rfl⟩ := ih.mp hj
          exact ⟨b :: pre, post, rfl, by simp [hb, hpre], rfl⟩
        · rintro ⟨pre, post, hs, hpre, rfl⟩
          cases pre with
          | nil => exact absurd (List.cons.inj hs).1.symm hb
          | cons d pre =>
              obtain ⟨rfl, rfl⟩ := List.cons.inj hs
              refine ⟨pre.length, ih.mpr ⟨pre, post, rfl, ?_, rfl⟩, rfl⟩
              exact fun h => hpre (List.mem_cons_of_mem _ h)

/-- A found character splits the string. -/
theorem strstr_split {c : UInt8} {pre post : List UInt8} (h : c ∉ pre) :
    strstr [c] (pre ++ c :: post) = some pre.length :=
  strstr_singleton_eq_some.mpr ⟨pre, post, rfl, h, rfl⟩

/-- `strstr` finds what occurs in the string. -/
theorem strstr_isSome {needle s : List UInt8} :
    (strstr needle s).isSome = true ↔ needle <:+: s := by
  induction s with
  | nil =>
      rw [strstr, List.infix_nil]
      split <;> simp_all
  | cons b s ih =>
      rw [strstr, List.infix_cons_iff]
      split
      case isTrue hprefix => simp [List.isPrefixOf_iff_prefix.mp hprefix]
      case isFalse hprefix =>
        rw [List.isPrefixOf_iff_prefix] at hprefix
        rw [Option.isSome_map, ih, or_iff_right hprefix]

/-- What occurs in a string consists of its bytes. -/
theorem mem_of_strstr {needle s : List UInt8} (h : (strstr needle s).isSome) {b : UInt8}
    (hb : b ∈ needle) : b ∈ s :=
  (strstr_isSome.mp h).subset hb

theorem cstr_eq_self {s : List UInt8} (h : 0 ∉ s) : cstr s = s := by
  rw [cstr, List.takeWhile_eq_self_iff]
  intro b hb
  exact decide_eq_true fun heq => h (heq ▸ hb)

/-- What lies behind a NUL does not belong to the string. -/
theorem cstr_append_zero (s memory : List UInt8) : cstr (s ++ 0 :: memory) = cstr s := by
  induction s with
  | nil => rfl
  | cons b s ih =>
      rw [cstr, cstr, List.cons_append, List.takeWhile_cons, List.takeWhile_cons]
      exact if_congr Iff.rfl (congrArg (b :: ·) ih) rfl

/-- A string ends at its NUL. -/
theorem cstr_terminated {s : List UInt8} (h : 0 ∉ s) (memory : List UInt8) :
    cstr (s ++ 0 :: memory) = s :=
  (cstr_append_zero s memory).trans (cstr_eq_self h)

/-- Memory in front of which a run without a NUL stands. -/
theorem cstr_append {s : List UInt8} (h : 0 ∉ s) (memory : List UInt8) :
    cstr (s ++ memory) = s ++ cstr memory := by
  rw [cstr, List.takeWhile_append_of_pos]
  · rfl
  · exact fun b hb => decide_eq_true fun hzero => h (hzero ▸ hb)

theorem cstr_front (memory : List UInt8) : cstr memory <+: memory :=
  List.takeWhile_prefix _

theorem zero_notMem_cstr (memory : List UInt8) : 0 ∉ cstr memory := by
  intro h
  have hne := List.mem_takeWhile_imp h
  exact of_decide_eq_true hne rfl

/-- A run without a separator belongs to one token. -/
theorem tokensFrom_run {sep : UInt8 → Bool} {n : List UInt8} (hn : ∀ b ∈ n, sep b = false)
    (beyond s cur : List UInt8) :
    tokensFrom sep beyond (n ++ s) cur = tokensFrom sep beyond s (cur ++ n) := by
  induction n generalizing cur with
  | nil => rw [List.nil_append, List.append_nil]
  | cons b n ih =>
      obtain ⟨hb, hn⟩ := List.forall_mem_cons.mp hn
      rw [List.cons_append, tokensFrom, if_neg (by rw [hb]; nofun), ih hn, List.append_assoc]
      rfl

/-- Tokens in front of a NUL, cut off with what lies behind it. -/
theorem strtok_append {sep : UInt8 → Bool} {s : List UInt8} (hs : 0 ∉ s) (memory : List UInt8) :
    strtok sep (s ++ memory) =
      tokensFrom sep (memory.drop ((cstr memory).length + 1)) (s ++ cstr memory) [] := by
  rw [strtok, cstr_append hs, List.length_append, Nat.add_assoc, ← List.drop_drop, List.drop_left]

/-- What lies behind a string changes the memory behind its tokens only. -/
theorem tokensFrom_text {sep : UInt8 → Bool} (beyond beyond' s cur : List UInt8) :
    (tokensFrom sep beyond s cur).map Token.text =
      (tokensFrom sep beyond' s cur).map Token.text := by
  induction s generalizing cur with
  | nil =>
      simp only [tokensFrom]
      split <;> rfl
  | cons b s ih =>
      simp only [tokensFrom]
      split
      · split
        · exact ih []
        · exact congrArg (cur :: ·) (ih [])
      · exact ih _

/-- The texts of the tokens are those of a string without memory behind it. -/
theorem text_tokensFrom (sep : UInt8) (beyond s cur : List UInt8) :
    (tokensFrom (· == sep) beyond s cur).map Token.text = CString.strtokFrom sep s cur := by
  induction s generalizing cur with
  | nil =>
      rw [tokensFrom, CString.strtokFrom]
      split <;> rfl
  | cons b s ih =>
      rw [tokensFrom, CString.strtokFrom]
      by_cases hb : b = sep
      case pos =>
        rw [if_pos (beq_iff_eq.mpr hb), if_pos hb]
        split
        · exact ih []
        · exact congrArg (cur :: ·) (ih [])
      case neg =>
        rw [if_neg (by simpa using hb), if_neg hb]
        exact ih _

/-- A token is a run of the string. -/
theorem infix_of_mem_tokensFrom {sep : UInt8 → Bool} {beyond s cur : List UInt8} {t : Token}
    (ht : t ∈ tokensFrom sep beyond s cur) : t.text <:+: cur ++ s := by
  induction s generalizing cur with
  | nil =>
      rw [tokensFrom] at ht
      split at ht
      · cases ht
      · rw [List.mem_singleton.mp ht]
        exact List.infix_append_left
  | cons b s ih =>
      have htail (h : t.text <:+: s) : t.text <:+: cur ++ b :: s :=
        List.infix_append_of_infix_right (List.infix_cons h)
      rw [tokensFrom] at ht
      split at ht
      · split at ht
        · exact htail (ih ht)
        · rcases List.mem_cons.mp ht with rfl | ht
          · exact List.infix_append_left
          · exact htail (ih ht)
      · simpa using ih ht

theorem strtok_within {sep : UInt8 → Bool} {memory : List UInt8} {t : Token}
    (ht : t ∈ strtok sep memory) : t.text <:+: cstr memory := by
  simpa using infix_of_mem_tokensFrom ht

end OSProjects.StringSearch
