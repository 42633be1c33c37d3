import OSProjects.Foundation.ByteMemory
import OSProjects.Foundation.StringSearch
import OSProjects.Foundation.Touching

/-!
# The file that `cat` has opened last

`sys_getlastcat` copies `last_cat_filename` to its caller. The places are the addresses that are
written, in the caller's memory or in the 512 bytes of `last_cat_filename`.
-/

namespace OSProjects.LastCat

open ByteMemory StringSearch Touching

/-! ## Strings of the kernel -/

/-- A computation on a memory, with the addresses that it writes. -/
abbrev OnMemory (β : Type) := Touching Memory Nat β

def storeByte (a : Nat) (b : UInt8) : OnMemory Unit := writeAt a fun m => Function.update m a b

/-- The loop of `safestrcpy`, by the address where it stops. -/
def copyLoop (t : Memory) : Nat → Nat → Nat → OnMemory Nat
  | 0, _, s => pure s
  | 1, _, s => pure s
  | n + 2, i, s => do
      storeByte s (t i)
      if t i ≠ 0 then copyLoop t (n + 1) (i + 1) (s + 1) else pure (s + 1)

/-- `safestrcpy`, from offset `i` of another memory. -/
def safestrcpy (s : Nat) (t : Memory) (i n : Nat) : OnMemory Unit :=
  if n = 0 then pure ()
  else do
    let s ← copyLoop t n i s
    storeByte s 0

/-- The second loop of `strncpy`. -/
def zeroLoop : Nat → Nat → OnMemory Unit
  | 0, _ => pure ()
  | n + 1, s => do
      storeByte s 0
      zeroLoop n (s + 1)

/-- `strncpy`, from offset `i` of another memory. -/
def strncpy (t : Memory) : Nat → Nat → Nat → OnMemory Unit
  | 0, _, _ => pure ()
  | n + 1, i, s => do
      storeByte s (t i)
      if t i ≠ 0 then strncpy t n (i + 1) (s + 1) else zeroLoop n (s + 1)

/-- `kernel_strcmp`. -/
def kernelStrcmp : List UInt8 → List UInt8 → Int
  | a :: s, b :: t => if a = b then kernelStrcmp s t else a.toNat - b.toNat
  | a :: _, [] => a.toNat
  | [], b :: _ => -b.toNat
  | [], [] => 0

/-- A literal in memory. -/
def literal (text : List UInt8) : Memory := fun i => text.getD i 0

/-! ## Arguments -/

def kernBase : Nat := 0x80000000

/-- The calling process. -/
structure Proc where
  name : List UInt8
  sz : Nat
  esp : Nat
  mem : Memory
  below : sz < kernBase

namespace Proc

variable (p : Proc)

/-- `fetchint`. -/
def fetchint (addr : Nat) : Option Nat :=
  if p.sz ≤ addr ∨ p.sz < (addr + 4) % 2 ^ 32 then none else some (readWord p.mem 4 addr)

/-- The string at an address, as far as the memory of the process goes. -/
def text (addr : Nat) : List UInt8 := readBytes p.mem addr (p.sz - addr)

/-- `fetchstr`: the length of the string. -/
def fetchstr (addr : Nat) : Option Nat :=
  if p.sz ≤ addr then none else (p.text addr).findIdx? (· = 0)

/-- `argint`. -/
def argint (n : Nat) : Option Nat := p.fetchint ((p.esp + 4 + 4 * n) % 2 ^ 32)

/-- `argstr`, by the pointer that it sets. -/
def argstr (n : Nat) : Option Nat :=
  match p.argint n with
  | none => none
  | some addr => (p.fetchstr addr).map fun _ => addr

/-- The loop of `sys_exec` over the arguments, with so many elements of `argv` left. -/
def fetchArgv (uargv : Nat) : Nat → Nat → Option (List Nat)
  | 0, _ => none
  | left + 1, i =>
      match p.fetchint ((uargv + 4 * i) % 2 ^ 32) with
      | none => none
      | some 0 => some []
      | some uarg =>
          match p.fetchstr uarg with
          | none => none
          | some _ => (fetchArgv uargv left (i + 1)).map (uarg :: ·)

end Proc

/-! ## The calls -/

def cat : List UInt8 := ascii ['c', 'a', 't']

def notYetCalled : List UInt8 := ascii "Cat has not yet been called".toList

def invalidFilename : List UInt8 := ascii "Invalid filename".toList

def noArgs : List UInt8 := ascii "No args were passed".toList

def nameSize : Nat := 512

def oCreate : Nat := 0x200

/-- What the file system answers to `sys_open`. -/
structure Answers where
  create : Bool
  /-- Whether `namei` finds a directory. -/
  namei : Option Bool
  filealloc : Bool
  fdalloc : Int

/-- `sys_open` with an inode. -/
def openInode (p : Proc) (path : Nat) (fs : Answers) : OnMemory Int :=
  if fs.filealloc = false ∨ fs.fdalloc < 0 then pure (-1)
  else if fs.fdalloc < 0 ∧ kernelStrcmp p.name cat = 0 then do
    safestrcpy 0 (literal invalidFilename) 0 nameSize
    pure fs.fdalloc
  else if kernelStrcmp p.name cat = 0 then
    if kernelStrcmp p.name [] = 0 then do
      safestrcpy 0 (literal (noArgs ++ [10])) 0 nameSize
      pure fs.fdalloc
    else do
      safestrcpy 0 p.mem path nameSize
      pure fs.fdalloc
  else pure fs.fdalloc

/-- `sys_open`, on `last_cat_filename`. -/
def sysOpen (p : Proc) (fs : Answers) : OnMemory Int :=
  match p.argstr 0, p.argint 1 with
  | some path, some omode =>
      if omode &&& oCreate ≠ 0 then
        if fs.create then openInode p path fs else pure (-1)
      else
        match fs.namei with
        | none =>
            if kernelStrcmp p.name cat = 0 then do
              safestrcpy 0 (literal invalidFilename) 0 256
              pure (-1)
            else pure (-1)
        | some isDir => if isDir ∧ omode ≠ 0 then pure (-1) else openInode p path fs
  | _, _ => pure (-1)

/-- `sys_exec`, on `last_cat_filename`, with what `exec` returns. -/
def sysExec (p : Proc) (result : Int) : OnMemory Int :=
  match p.argstr 0, p.argint 1 with
  | some path, some uargv =>
      match p.fetchArgv uargv 32 0 with
      | none => pure (-1)
      | some argv =>
          if kernelStrcmp (cstr (p.text path)) cat = 0 ∧ argv[1]? = none then do
            strncpy (literal noArgs) nameSize 0 0
            pure result
          else pure result
  | _, _ => pure (-1)

/-- `sys_getlastcat`, on the memory of the caller. -/
def sysGetlastcat (p : Proc) (last : Memory) : OnMemory Int :=
  match p.argstr 0 with
  | none => pure (-1)
  | some buf =>
      if buf = 0 then pure (-1)
      else do
        safestrcpy buf last 0 nameSize
        pure 0

/-- What `last_cat_filename` holds after some calls. -/
inductive Reached : Memory → Prop
  | start : Reached (literal notYetCalled)
  | opened {last} (p : Proc) (fs : Answers) (h : Reached last) :
      Reached ((sysOpen p fs).run last).state
  | executed {last} (p : Proc) (result : Int) (h : Reached last) :
      Reached ((sysExec p result).run last).state

/-- The string in `last_cat_filename`. -/
def stored (last : Memory) : List UInt8 := cstr (readBytes last 0 nameSize)

/-- The call writes the string with its NUL to the memory of its caller, or nothing. -/
structure StaysInside (p : Proc) (last : Memory) : Prop where
  inside : Within (· < p.sz) (sysGetlastcat p last) p.mem
  exactly : (((sysGetlastcat p last).run p.mem).value = -1 ∧
      ((sysGetlastcat p last).run p.mem).touched = []) ∨
    ∃ buf, p.argstr 0 = some buf ∧
      ((sysGetlastcat p last).run p.mem).touched =
        List.range' buf ((stored last).length + 1) ∧
      readBytes ((sysGetlastcat p last).run p.mem).state buf ((stored last).length + 1) =
        stored last ++ [0]

/-! ## Copies -/

section Copies

variable {t m : Memory}

theorem update_eq_apply (m : Memory) (a : Nat) (b : UInt8) :
    Function.update m a b = Store.apply ⟨a, [b]⟩ m := by
  funext y
  rcases Nat.lt_trichotomy y a with hlt | rfl | hgt
  · rw [Function.update_of_ne (Nat.ne_of_lt hlt), Store.apply_of_lt _ m hlt]
  · rw [Function.update_self]
    exact (@Store.apply_at ⟨y, [b]⟩ m 0 Nat.one_pos).symm
  · rw [Function.update_of_ne (Nat.ne_of_gt hgt), Store.apply_of_stop_le _ m hgt]

/-- The loop writes the string with its NUL, as far as it fits. -/
theorem copyLoop_eq (n i s : Nat) (m : Memory) :
    (copyLoop t (n + 1) i s).run m =
      ⟨s + ((cstr (readBytes t i n) ++ [0]).take n).length,
        Store.apply ⟨s, (cstr (readBytes t i n) ++ [0]).take n⟩ m,
        List.range' s ((cstr (readBytes t i n) ++ [0]).take n).length⟩ := by
  induction n generalizing i s m with
  | zero =>
      rw [List.take_zero, Store.apply_nil]
      rfl
  | succ n ih =>
      rw [copyLoop, storeByte, run_writeAt_bind, update_eq_apply, run_ite, readBytes]
      by_cases hb : t i = 0
      case pos =>
        have hfront : cstr (t i :: readBytes t (i + 1) n) = [] :=
          List.takeWhile_cons_of_neg (by simpa using hb)
        rw [if_neg (not_not.mpr hb), hfront, List.nil_append, List.take_of_length_le (by simp), hb]
        rfl
      case neg =>
        have hfront : cstr (t i :: readBytes t (i + 1) n) = t i :: cstr (readBytes t (i + 1) n) :=
          List.takeWhile_cons_of_pos (by simpa using hb)
        have hstore := Store.apply_append s [t i] ((cstr (readBytes t (i + 1) n) ++ [0]).take n) m
        rw [List.length_singleton, List.singleton_append] at hstore
        rw [if_pos hb, ih, hstore, hfront, List.cons_append, List.take_succ_cons]
        rw [List.length_cons, List.range'_succ, Nat.add_assoc, Nat.add_comm 1]

/-- `safestrcpy` adds a NUL behind what its loop has written. -/
theorem safestrcpy_eq (s i n : Nat) (m : Memory) :
    (safestrcpy s t i (n + 1)).run m =
      ⟨(), Store.apply ⟨s, (cstr (readBytes t i n) ++ [0]).take n ++ [0]⟩ m,
        List.range' s (((cstr (readBytes t i n) ++ [0]).take n).length + 1)⟩ := by
  have hloop := @copyLoop_eq t n i s m
  have hstore := Store.apply_append s ((cstr (readBytes t i n) ++ [0]).take n) [0] m
  rw [safestrcpy, if_neg (Nat.succ_ne_zero n), run_bind, hloop]
  dsimp only
  rw [storeByte, run_writeAt, update_eq_apply, hstore, List.range'_concat, Nat.one_mul]

theorem zero_mem_readBytes {off n k : Nat} (hk : k < n) (hzero : m (off + k) = 0) :
    0 ∈ readBytes m off n := by
  have hget : (readBytes m off n)[k]? = some (m (off + k)) := getElem?_readBytes m hk
  rw [hzero] at hget
  exact List.mem_of_getElem? hget

/-- What `safestrcpy` has written is terminated. -/
theorem safestrcpy_terminates {i n size : Nat} (hn : n < size) (last : Memory) :
    0 ∈ readBytes ((safestrcpy 0 t i (n + 1)).run last).state 0 size := by
  have hlength : ((cstr (readBytes t i n) ++ [0]).take n).length ≤ n := List.length_take_le _ _
  rw [safestrcpy_eq]
  refine zero_mem_readBytes (Nat.lt_of_le_of_lt hlength hn) ?_
  refine (Store.apply_at ⟨0, _⟩ last (by rw [List.length_append]; exact Nat.lt_succ_self _)).trans ?_
  exact List.getElem_concat_length rfl _

theorem zeroLoop_below (n s : Nat) {a : Nat} (ha : a < s) (m : Memory) :
    ((zeroLoop n s).run m).state a = m a := by
  induction n generalizing s m with
  | zero => rfl
  | succ n ih =>
      rw [zeroLoop, storeByte, run_writeAt_bind]
      exact (ih (s + 1) (by omega) _).trans (Function.update_of_ne (Nat.ne_of_lt ha) _ _)

/-- So is what `strncpy` has written, when it reaches the end of the string. -/
theorem strncpy_terminates {n k : Nat} (hk : k < n) (i s : Nat) (hzero : t (i + k) = 0)
    (m : Memory) : ∃ j < n, ((strncpy t n i s).run m).state (s + j) = 0 := by
  induction n generalizing i s k m with
  | zero => cases hk
  | succ n ih =>
      rw [strncpy, storeByte, run_writeAt_bind, run_ite]
      by_cases hb : t i = 0
      · rw [if_neg (not_not.mpr hb)]
        refine ⟨0, Nat.succ_pos n, (zeroLoop_below n (s + 1) (Nat.lt_succ_self s) _).trans ?_⟩
        rw [Function.update_self, hb]
      · obtain ⟨k, rfl⟩ : ∃ j, k = j + 1 := Nat.exists_eq_succ_of_ne_zero (by
          rintro rfl
          exact hb hzero)
        obtain ⟨j, hj, hstate⟩ := ih (Nat.lt_of_succ_lt_succ hk) (i + 1) (s + 1)
          (by rwa [Nat.add_assoc, Nat.add_comm 1 k]) (Function.update m s (t i))
        rw [if_pos hb]
        exact ⟨j + 1, Nat.succ_lt_succ hj, by rwa [← Nat.add_assoc, Nat.add_right_comm]⟩

end Copies

/-! ## The stored string -/

section Stored

variable {last : Memory} {p : Proc}

theorem state_openInode (p : Proc) (path : Nat) (fs : Answers) (last : Memory) :
    ((openInode p path fs).run last).state = last ∨
      ∃ t i, ((openInode p path fs).run last).state =
        ((safestrcpy 0 t i nameSize).run last).state := by
  unfold openInode
  split
  · exact Or.inl rfl
  · split
    · exact Or.inr ⟨_, _, rfl⟩
    · split
      · split
        · exact Or.inr ⟨_, _, rfl⟩
        · exact Or.inr ⟨_, _, rfl⟩
      · exact Or.inl rfl

/-- `last_cat_filename` is always terminated. -/
theorem Reached.terminated (h : Reached last) : 0 ∈ readBytes last 0 nameSize := by
  induction h with
  | start => exact zero_mem_readBytes (k := 27) (by decide) (by decide)
  | @opened last p fs _ ih =>
      have hinode : ∀ path, 0 ∈ readBytes ((openInode p path fs).run last).state 0 nameSize := by
        intro path
        rcases state_openInode p path fs last with hsame | ⟨t, i, hcopy⟩
        · rw [hsame]
          exact ih
        · rw [hcopy]
          exact safestrcpy_terminates (Nat.lt_succ_self 511) last
      unfold sysOpen
      split
      · split
        · split
          · exact hinode _
          · exact ih
        · split
          · split
            · exact safestrcpy_terminates (by decide) last
            · exact ih
          · split
            · exact ih
            · exact hinode _
      · exact ih
  | @executed last p result _ ih =>
      unfold sysExec
      split
      · split
        · exact ih
        · split
          · obtain ⟨j, hj, hzero⟩ := @strncpy_terminates (literal noArgs) nameSize 19 (by decide) 0 0
              (by decide +kernel) last
            simpa only [state_bind, run_pure] using zero_mem_readBytes hj hzero
          · exact ih
      · exact ih

/-- The string ends inside the 512 bytes, and the copy meets its end. -/
theorem Reached.stored_eq (h : Reached last) :
    (stored last).length ≤ 511 ∧ cstr (readBytes last 0 511) = stored last := by
  have hterminated := h.terminated
  have hsplit : readBytes last 0 nameSize = readBytes last 0 511 ++ [last 511] :=
    readBytes_add last 0 511 1
  have heq : cstr (readBytes last 0 511) = stored last := by
    rw [stored, hsplit]
    by_cases hzero : 0 ∈ readBytes last 0 511
    · obtain ⟨front, rest, hcut⟩ := List.append_of_mem hzero
      rw [hcut, List.append_assoc, List.cons_append, cstr_append_zero, cstr_append_zero]
    · rw [hsplit, List.mem_append, or_iff_right hzero, List.mem_singleton] at hterminated
      rw [← hterminated, cstr_terminated hzero, cstr_eq_self hzero]
  refine ⟨?_, heq⟩
  rw [← heq]
  exact (cstr_front _).length_le.trans (by rw [length_readBytes])

/-- What a call with a string at its pointer does. -/
theorem Reached.run_sysGetlastcat (h : Reached last) {buf : Nat} (hbuf : p.argstr 0 = some buf)
    (hne : buf ≠ 0) : (sysGetlastcat p last).run p.mem =
      ⟨0, Store.apply ⟨buf, (stored last ++ [0]).take 511 ++ [0]⟩ p.mem,
        List.range' buf (min ((stored last).length + 2) nameSize)⟩ := by
  obtain ⟨hlength, heq⟩ := h.stored_eq
  have hcopy := @safestrcpy_eq last buf 0 511 p.mem
  rw [heq] at hcopy
  have hcount : ((stored last ++ [0]).take 511).length + 1 =
      min ((stored last).length + 2) nameSize := by
    rw [List.length_take, List.length_append, List.length_singleton, nameSize]
    omega
  rw [sysGetlastcat, hbuf]
  dsimp only
  rw [if_neg hne, run_bind, nameSize, hcopy, hcount]
  exact congrArg (Touched.mk _ _) (List.append_nil _)

/-- Without such a string nothing is written. -/
theorem run_sysGetlastcat_refused (hrefused : ∀ buf, p.argstr 0 = some buf → buf = 0)
    (last : Memory) : (sysGetlastcat p last).run p.mem = ⟨-1, p.mem, []⟩ := by
  rw [sysGetlastcat]
  cases hbuf : p.argstr 0 with
  | none => rfl
  | some buf =>
      dsimp only
      rw [if_pos (hrefused buf hbuf)]
      rfl

end Stored

/-- The pointer is one that the call writes to. -/
def Proc.Asks (p : Proc) (buf : Nat) : Prop := p.argstr 0 = some buf ∧ buf ≠ 0

theorem forall_range'_lt {buf n sz : Nat} (hn : 0 < n) :
    (∀ a ∈ List.range' buf n, a < sz) ↔ buf + n ≤ sz := by
  constructor
  · intro h
    have hlast := h (buf + (n - 1)) (List.mem_range'_1.mpr (by omega))
    omega
  · intro h a ha
    rw [List.mem_range'_1] at ha
    omega

section Law

variable {last : Memory} {p : Proc} {buf : Nat}

theorem exists_asks_or (p : Proc) :
    (∃ buf, p.Asks buf) ∨ ∀ buf, p.argstr 0 = some buf → buf = 0 := by
  by_cases h : ∃ buf, p.Asks buf
  · exact Or.inl h
  · exact Or.inr fun buf hbuf => by_contra fun hne => h ⟨buf, hbuf, hne⟩

theorem Proc.Asks.unique {buf' : Nat} (h : p.Asks buf) (h' : p.Asks buf') : buf' = buf :=
  Option.some.inj (h'.1.symm.trans h.1)

/-- The copy is inside the memory of the caller exactly when it fits in front of its end. -/
theorem within_sysGetlastcat (h : Reached last) (p : Proc) :
    Within (· < p.sz) (sysGetlastcat p last) p.mem ↔
      ∀ buf, p.Asks buf → buf + min ((stored last).length + 2) nameSize ≤ p.sz := by
  rw [Within]
  rcases exists_asks_or p with ⟨buf, hasks⟩ | hrefused
  · have hpos : 0 < min ((stored last).length + 2) nameSize := by rw [nameSize]; omega
    rw [h.run_sysGetlastcat hasks.1 hasks.2, forall_range'_lt hpos]
    exact ⟨fun hle buf' h' => hasks.unique h' ▸ hle, fun hall => hall buf hasks⟩
  · rw [run_sysGetlastcat_refused hrefused]
    exact iff_of_true nofun fun buf hasks => absurd (hrefused buf hasks.1) hasks.2

end Law

/-- After every sequence of calls, and for every caller: the call stays in the memory of its
caller and writes no more than the string exactly when it is refused, or when the string fills
its 512 bytes and they fit in front of the end. It stays in the memory of its caller whenever
the string fits there with a NUL and, where it does not fill the 512 bytes, another one. -/
theorem getlastcat_iff {last : Memory} (h : Reached last) (p : Proc) :
    (StaysInside p last ↔
        ∀ buf, p.Asks buf → (stored last).length = 511 ∧ buf + nameSize ≤ p.sz) ∧
      (Within (· < p.sz) (sysGetlastcat p last) p.mem ↔
        ∀ buf, p.Asks buf → buf + min ((stored last).length + 2) nameSize ≤ p.sz) := by
  refine ⟨?_, within_sysGetlastcat h p⟩
  obtain ⟨hlength, -⟩ := h.stored_eq
  constructor
  · intro law buf hasks
    have hroom := (within_sysGetlastcat h p).mp law.inside buf hasks
    have hexactly := law.exactly
    rw [h.run_sysGetlastcat hasks.1 hasks.2] at hexactly
    rcases hexactly with ⟨hvalue, -⟩ | ⟨buf', -, htouched, -⟩
    · cases hvalue
    · have hcount := congrArg List.length htouched
      rw [List.length_range', List.length_range', nameSize] at hcount
      rw [nameSize] at hroom ⊢
      omega
  · intro hroom
    refine ⟨(within_sysGetlastcat h p).mpr fun buf hasks => ?_, ?_⟩
    · obtain ⟨hfull, hfits⟩ := hroom buf hasks
      rw [hfull]
      exact hfits
    · rcases exists_asks_or p with ⟨buf, hasks⟩ | hrefused
      · obtain ⟨hfull, -⟩ := hroom buf hasks
        have hbytes : (stored last ++ [0]).take 511 = stored last := by
          rw [List.take_append_of_le_length (Nat.le_of_eq hfull.symm), List.take_of_length_le hlength]
        rw [h.run_sysGetlastcat hasks.1 hasks.2, hbytes]
        refine Or.inr ⟨buf, hasks.1, by rw [hfull]; rfl, ?_⟩
        have hback := Store.readBytes_apply_self buf (stored last ++ [0]) p.mem
        rwa [List.length_append, List.length_singleton] at hback
      · rw [run_sysGetlastcat_refused hrefused]
        exact Or.inl ⟨rfl, rfl⟩

/-- `cat`, with a name of 600 letters in the middle of its page. -/
def longName : Proc where
  name := cat
  sz := 4096
  esp := 0
  mem := fun a => if a = 5 then 8 else if 2048 ≤ a ∧ a < 2648 then 97 else 0
  below := by decide

/-- The name is that of a file. -/
def opens : Answers := ⟨false, some false, true, 3⟩

theorem argstr_longName : longName.argstr 0 = some 2048 := by decide +kernel

/-- 511 of its letters are kept. -/
theorem length_stored_longName (last : Memory) :
    (stored ((sysOpen longName opens).run last).state).length = 511 := by
  have homode : longName.argint 1 = some 0 := by decide +kernel
  have hcat : kernelStrcmp longName.name cat = 0 := by decide
  have hname : kernelStrcmp longName.name [] ≠ 0 := by decide
  have hopen : ((sysOpen longName opens).run last).state =
      ((safestrcpy 0 longName.mem 2048 (511 + 1)).run last).state := by
    rw [sysOpen, argstr_longName, homode]
    dsimp only [opens]
    rw [if_neg (by decide), if_neg (by decide), openInode, if_neg (by decide), if_neg (by decide),
      if_pos hcat, if_neg hname, state_bind, run_pure, nameSize]
  obtain ⟨text, htext⟩ : ∃ text, cstr (readBytes longName.mem 2048 511) = text := ⟨_, rfl⟩
  have hlength : (cstr (readBytes longName.mem 2048 511)).length = 511 := by decide +kernel
  have hzero : (0 : UInt8) ∉ cstr (readBytes longName.mem 2048 511) := by decide +kernel
  rw [htext] at hlength hzero
  have hback := Store.readBytes_apply_self 0 (text ++ [0]) last
  rw [List.length_append, hlength, List.length_singleton] at hback
  rw [hopen, safestrcpy_eq, htext, List.take_append_of_le_length hlength.ge,
    List.take_of_length_le hlength.le, stored, nameSize, hback, cstr_terminated hzero, hlength]

/-- A string that fills its 512 bytes is written as it should be. -/
theorem getlastcat_iff_longName : ∃ last, Reached last ∧ longName.Asks 2048 ∧
    StaysInside longName last ∧
    Within (· < longName.sz) (sysGetlastcat longName last) longName.mem := by
  have hreached := Reached.start.opened longName opens
  have hasks : longName.Asks 2048 := ⟨argstr_longName, by decide⟩
  have hiff := getlastcat_iff hreached longName
  have hfull := length_stored_longName (literal notYetCalled)
  refine ⟨_, hreached, hasks, hiff.1.mpr fun buf hbuf => ?_, hiff.2.mpr fun buf hbuf => ?_⟩
  · rw [hasks.unique hbuf]
    exact ⟨hfull, by decide⟩
  · rw [hasks.unique hbuf, hfull]
    decide
/-- A process of one page that passes the address of its last six bytes. -/
def nearEnd : Proc where
  name := ascii ['s', 'h']
  sz := 4096
  esp := 0
  mem := fun a => if a = 4 then 250 else if a = 5 then 15 else 0
  below := by decide

theorem argstr_nearEnd : nearEnd.argstr 0 = some 4090 := by decide +kernel

theorem length_stored_start : (stored (literal notYetCalled)).length = 27 := by decide +kernel

/-- The 29 bytes go over the end of the page. -/
theorem copy_past_end : ¬∀ p last, Reached last → StaysInside p last := by
  intro h
  have hroom := (within_sysGetlastcat Reached.start nearEnd).mp (h _ _ Reached.start).inside 4090
    ⟨argstr_nearEnd, by decide⟩
  rw [length_stored_start] at hroom
  exact absurd hroom (by decide)

end OSProjects.LastCat
