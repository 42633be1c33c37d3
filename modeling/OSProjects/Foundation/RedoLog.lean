import Mathlib.Logic.Function.Basic

/-!
# Redo logs on a disk whose block writes are atomic

A disk with a redo log stands for the disk that recovery would leave. Every single block write
of the logging discipline either does not change what the disk stands for or, when the header
is written, installs the whole transaction at once. The last section is the store that such a
disk implements: what is durable, what is in memory, and how many operations are open.
-/

namespace OSProjects.RedoLog

variable {α : Type*}

/-- The contents of a disk, by block number. -/
abbrev Disk (α : Type*) := Nat → α

/-- One block write. -/
structure Write (α : Type*) where
  block : Nat
  data : α

/-- Execute one write. -/
def Write.apply (w : Write α) (d : Disk α) : Disk α := Function.update d w.block w.data

/-- Execute writes in order. -/
def applyAll (ws : List (Write α)) (d : Disk α) : Disk α :=
  ws.foldl (fun d w => w.apply d) d

section Writes

variable {ws vs : List (Write α)} {w : Write α} {d e : Disk α} {b x : Nat}

@[simp] theorem applyAll_nil (d : Disk α) : applyAll [] d = d := rfl

@[simp] theorem applyAll_cons (w : Write α) (ws : List (Write α)) (d : Disk α) :
    applyAll (w :: ws) d = applyAll ws (w.apply d) := rfl

theorem Write.apply_of_ne (h : x ≠ w.block) : w.apply d x = d x := by
  rw [Write.apply, Function.update_of_ne h]

@[simp] theorem Write.apply_block (w : Write α) (d : Disk α) : w.apply d w.block = w.data := by
  rw [Write.apply, Function.update_self]

/-- The contents of a block after some writes depend on its old contents only when no write
names it. -/
theorem applyAll_congr (h : (∀ w ∈ ws, x ≠ w.block) → d x = e x) :
    applyAll ws d x = applyAll ws e x := by
  induction ws generalizing d e with
  | nil => exact h fun w hw => by cases hw
  | cons w ws ih =>
      refine ih fun hws => ?_
      change w.apply d x = w.apply e x
      rcases eq_or_ne x w.block with rfl | hx
      · rw [Write.apply_block, Write.apply_block]
      · rw [Write.apply_of_ne hx, Write.apply_of_ne hx]
        exact h (by simpa using ⟨hx, hws⟩)

end Writes

/-- Where the log of a disk lies, and how its header names the blocks of a transaction. The
log is the header block and the `capacity` blocks behind it. -/
structure Format (α : Type*) where
  start : Nat
  capacity : Nat
  names : α → List Nat

namespace Format

variable (F : Format α)

/-- A block of the file system proper. -/
def Home (b : Nat) : Prop := b < F.start ∨ F.start + F.capacity < b

instance (b : Nat) : Decidable (F.Home b) := inferInstanceAs (Decidable (_ ∨ _))

/-- The writes that the copies behind the header stand for, where the header names `bs`. -/
def copies (d : Disk α) (bs : List Nat) : List (Write α) :=
  bs.mapIdx fun i b => ⟨b, d (F.start + i + 1)⟩

/-- The transaction that the header of a disk names. -/
def logged (d : Disk α) : List (Write α) := F.copies d (F.names (d F.start))

/-- What a disk stands for: its blocks with the named transaction installed. -/
def contents (d : Disk α) : Disk α := applyAll (F.logged d) d

/-- A header names no more blocks than there is room for, and only blocks outside the log. -/
structure Fits (bs : List Nat) : Prop where
  length_le : bs.length ≤ F.capacity
  home : ∀ b ∈ bs, F.Home b

/-- Two disks with the same blocks outside the log. -/
def Agree (d e : Disk α) : Prop := ∀ b, F.Home b → d b = e b

variable {F} {d e : Disk α} {bs : List Nat} {b x k : Nat} {v : α}

theorem Home.ne_start (h : F.Home b) : b ≠ F.start := by
  unfold Home at h
  omega

theorem Home.ne_copy (h : F.Home b) (hk : k < F.capacity) : b ≠ F.start + k + 1 := by
  unfold Home at h
  omega

theorem not_home_copy (hk : k < F.capacity) : ¬ F.Home (F.start + k + 1) := by
  unfold Home
  omega

theorem not_home_start : ¬ F.Home F.start := by
  unfold Home
  omega

theorem Fits.nil : F.Fits [] := ⟨Nat.zero_le _, fun b hb => by cases hb⟩

theorem Fits.concat (h : F.Fits bs) (hroom : bs.length < F.capacity) (hb : F.Home b) :
    F.Fits (bs ++ [b]) := by
  refine ⟨?_, fun c hc => ?_⟩
  · rw [List.length_append, List.length_singleton]
    omega
  · rcases List.mem_append.mp hc with hc | hc
    · exact h.home c hc
    · obtain rfl : c = b := by simpa using hc
      exact hb

theorem Agree.refl (d : Disk α) : F.Agree d d := fun _ _ => rfl

theorem Agree.symm (h : F.Agree d e) : F.Agree e d := fun b hb => (h b hb).symm

theorem Agree.trans {f : Disk α} (h : F.Agree d e) (h' : F.Agree e f) : F.Agree d f :=
  fun b hb => (h b hb).trans (h' b hb)

@[simp] theorem length_copies : (F.copies d bs).length = bs.length := by
  simp [copies]

theorem getElem_copies (hk : k < bs.length) :
    (F.copies d bs)[k]? = some ⟨bs[k], d (F.start + k + 1)⟩ := by
  simp [copies, hk]

theorem exists_copy_of_mem (h : b ∈ bs) : ∃ w ∈ F.copies d bs, b = w.block := by
  obtain ⟨k, hk, rfl⟩ := List.getElem_of_mem h
  exact ⟨_, List.mem_of_getElem? (getElem_copies hk), rfl⟩

/-- Disks with the same log hold the same copies. -/
theorem copies_congr (h : ∀ k, k < bs.length → d (F.start + k + 1) = e (F.start + k + 1)) :
    F.copies d bs = F.copies e bs := by
  refine List.ext_getElem? fun k => ?_
  rcases Nat.lt_or_ge k bs.length with hk | hk
  · rw [getElem_copies hk, getElem_copies hk, h k hk]
  · rw [List.getElem?_eq_none (by simpa using hk), List.getElem?_eq_none (by simpa using hk)]

/-- The copies of a disk are the writes of a list when each is the data of its write. -/
theorem copies_eq {c : Nat → α}
    (h : ∀ k, (hk : k < bs.length) → d (F.start + k + 1) = c bs[k]) :
    F.copies d bs = bs.map fun b => ⟨b, c b⟩ := by
  refine List.ext_getElem? fun k => ?_
  rcases Nat.lt_or_ge k bs.length with hk | hk
  · rw [getElem_copies hk, h k hk, List.getElem?_map, List.getElem?_eq_getElem hk, Option.map_some]
  · rw [List.getElem?_eq_none (by simpa using hk), List.getElem?_eq_none (by simpa using hk)]

/-- Writes that give every named block the contents of `c` turn a disk that agrees with `c`
elsewhere into `c`. -/
theorem applyAll_map_eq {c : Disk α} (h : x ∉ bs → d x = c x) :
    applyAll (bs.map fun b => (⟨b, c b⟩ : Write α)) d x = c x := by
  induction bs generalizing d with
  | nil => exact h (by simp)
  | cons b bs ih =>
      refine ih fun hx => ?_
      change (⟨b, c b⟩ : Write α).apply d x = c x
      rcases eq_or_ne x b with rfl | hne
      · exact Write.apply_block _ d
      · rw [Write.apply_of_ne (show x ≠ (⟨b, c b⟩ : Write α).block from hne)]
        exact h (by simpa using ⟨hne, hx⟩)

/-! ## What each kind of block write does to what the disk stands for -/

/-- A disk with a clear header stands for itself. -/
theorem contents_of_clear (h : F.names (d F.start) = []) : F.contents d = d := by
  rw [contents, logged, h]
  rfl

/-- While the header is clear, a write to a copy is invisible. -/
theorem contents_write_copy (h : F.names (d F.start) = []) (hk : k < F.capacity) :
    F.Agree (F.contents ((⟨F.start + k + 1, v⟩ : Write α).apply d)) (F.contents d) := by
  have hstart : (⟨F.start + k + 1, v⟩ : Write α).apply d F.start = d F.start :=
    Write.apply_of_ne (show F.start ≠ F.start + k + 1 by omega)
  intro x hx
  rw [contents_of_clear h, contents_of_clear (by rw [hstart]; exact h)]
  exact Write.apply_of_ne (hx.ne_copy hk)

/-- The write of a header installs all the blocks it names at once. -/
theorem contents_write_header (h : F.names (d F.start) = []) {c : Disk α}
    (hcopies : ∀ k, (hk : k < (F.names v).length) → d (F.start + k + 1) = c (F.names v)[k])
    (hrest : ∀ b, F.Home b → b ∉ F.names v → F.contents d b = c b) :
    F.Agree (F.contents ((⟨F.start, v⟩ : Write α).apply d)) c := by
  intro x hx
  have hlog : F.logged ((⟨F.start, v⟩ : Write α).apply d) =
      (F.names v).map fun b => (⟨b, c b⟩ : Write α) := by
    rw [logged, Write.apply_block (⟨F.start, v⟩ : Write α)]
    refine copies_eq fun k hk => ?_
    rw [Write.apply_of_ne (show F.start + k + 1 ≠ F.start by omega)]
    exact hcopies k hk
  rw [contents, hlog]
  refine applyAll_map_eq fun hnot => ?_
  rw [Write.apply_of_ne hx.ne_start, ← hrest x hx hnot, contents_of_clear h]

/-- A write to a block that the header names leaves the log alone. -/
theorem logged_write_named (hfits : F.Fits (F.names (d F.start)))
    (hb : b ∈ F.names (d F.start)) :
    F.logged ((⟨b, v⟩ : Write α).apply d) = F.logged d := by
  have hhome := hfits.home b hb
  rw [logged, Write.apply_of_ne (show F.start ≠ b from hhome.ne_start.symm)]
  refine copies_congr fun k hk => Write.apply_of_ne ?_
  exact (hhome.ne_copy (Nat.lt_of_lt_of_le hk hfits.length_le)).symm

/-- Any write to a block that the header names is invisible: recovery overwrites it. -/
theorem contents_write_named (hfits : F.Fits (F.names (d F.start)))
    (hb : b ∈ F.names (d F.start)) :
    F.Agree (F.contents ((⟨b, v⟩ : Write α).apply d)) (F.contents d) := by
  intro x _
  rw [contents, logged_write_named hfits hb, contents]
  refine applyAll_congr fun hx => ?_
  obtain ⟨w, hw, hbw⟩ := exists_copy_of_mem (F := F) (d := d) hb
  refine Write.apply_of_ne fun heq => hx w hw ?_
  rw [heq]
  exact hbw

/-- Once every named block holds what the disk stands for, the header can be cleared. -/
theorem contents_clear_header (hv : F.names v = []) (h : F.Agree d (F.contents d)) :
    F.Agree (F.contents ((⟨F.start, v⟩ : Write α).apply d)) (F.contents d) := by
  intro x hx
  rw [contents_of_clear (by rw [Write.apply_block (⟨F.start, v⟩ : Write α)]; exact hv)]
  rw [Write.apply_of_ne hx.ne_start]
  exact h x hx

/-- The first `k` writes of the named transaction have been repeated in place. -/
def Installed (F : Format α) (k : Nat) (d : Disk α) : Prop :=
  F.Agree (applyAll ((F.logged d).drop k) d) (F.contents d)

theorem installed_zero (d : Disk α) : F.Installed 0 d := Agree.refl _

/-- The next write of the transaction, executed in place. -/
theorem Installed.succ (h : F.Installed k d) (hfits : F.Fits (F.names (d F.start)))
    (hk : k < (F.names (d F.start)).length) :
    F.Installed (k + 1)
      ((⟨(F.names (d F.start))[k], d (F.start + k + 1)⟩ : Write α).apply d) := by
  have hmem : (F.names (d F.start))[k] ∈ F.names (d F.start) := List.getElem_mem hk
  have hget : (F.logged d)[k]? =
      some ⟨(F.names (d F.start))[k], d (F.start + k + 1)⟩ := getElem_copies hk
  have hdrop : (F.logged d).drop k =
      ⟨(F.names (d F.start))[k], d (F.start + k + 1)⟩ :: (F.logged d).drop (k + 1) := by
    obtain ⟨hlt, hval⟩ := List.getElem?_eq_some_iff.mp hget
    rw [← hval, List.drop_eq_getElem_cons hlt]
  unfold Installed at h ⊢
  rw [logged_write_named hfits hmem]
  rw [hdrop, applyAll_cons] at h
  exact h.trans (contents_write_named hfits hmem).symm

/-- After the last write the disk is what it stands for. -/
theorem Installed.agree (h : F.Installed k d) (hk : (F.names (d F.start)).length ≤ k) :
    F.Agree d (F.contents d) := by
  have hdrop : (F.logged d).drop k = [] := by
    rw [List.drop_eq_nil_iff, logged, length_copies]
    exact hk
  unfold Installed at h
  rwa [hdrop] at h

end Format

/-! ## The store that a logged disk implements -/

/-- What survives a crash, what the running system sees, and how many operations are open. -/
structure Store (α : Type*) where
  durable : Disk α
  current : Disk α
  opened : Nat

/-- What can happen to the store. -/
inductive Event (α : Type*)
  | begin
  | write (b : Nat) (v : α)
  | finish
  | commit
  | crash

def Event.isCommit : Event α → Bool
  | .commit => true
  | _ => false

/-- A commit makes durable what the system sees, and only when no operation is open. -/
inductive Store.Step : Store α → Event α → Store α → Prop
  | begin (s : Store α) : Step s .begin { s with opened := s.opened + 1 }
  | write (s : Store α) (b : Nat) (v : α) (hopen : 0 < s.opened) :
      Step s (.write b v) { s with current := Function.update s.current b v }
  | finish (s : Store α) (hopen : 0 < s.opened) :
      Step s .finish { s with opened := s.opened - 1 }
  | commit (s : Store α) (hidle : s.opened = 0) : Step s .commit { s with durable := s.current }
  | crash (s : Store α) : Step s .crash { s with current := s.durable, opened := 0 }

end OSProjects.RedoLog
