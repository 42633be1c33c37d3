import OSProjects.Foundation.VersionedLog
import OSProjects.Wfs.Mount

/-!
# The log as a list of entries

`LogFrom` says which list of entries the bytes between two offsets hold. On an
image with such a list every lookup of the server is a lookup in the list, and
its loops end within their fuel.
-/

namespace OSProjects.Wfs

open ByteMemory VersionedLog WfsM

/-- An entry of the log: where it lies, its inode and the data behind it. -/
structure LogEntry where
  offset : Nat
  inode : Inode
  data : List UInt8

namespace LogEntry

def number (e : LogEntry) : Nat := e.inode .inodeNumber

def live (e : LogEntry) : Bool := e.inode .deleted == 0

def isDir (e : LogEntry) : Bool := isDirMode (e.inode .mode)

def isReg (e : LogEntry) : Bool := isRegMode (e.inode .mode)

/-- The offset of the next entry. -/
def stop (e : LogEntry) : Nat := e.offset + (sizeofInode + e.inode .size)

/-- The test of `get_log_entry`. -/
def isVersion (n : Nat) (e : LogEntry) : Bool := e.number == n && e.live

theorem isVersion_iff {n : Nat} {e : LogEntry} :
    e.isVersion n = true ↔ e.number = n ∧ e.live = true := by
  simp [isVersion]

end LogEntry

/-- The entry that the bytes at `off` describe. -/
def entryAt (m : Memory) (off : Nat) : LogEntry :=
  ⟨off, inodeAt m off, readBytes m (off + sizeofInode) (inodeAt m off .size)⟩

@[simp] theorem entryAt_offset (m : Memory) (off : Nat) : (entryAt m off).offset = off := rfl

theorem length_data_entryAt (m : Memory) (off : Nat) :
    (entryAt m off).data.length = (entryAt m off).inode .size := by
  simp [entryAt]

/-- The bytes from `off` to `stop` are exactly the entries of the list. -/
def LogFrom (m : Memory) : Nat → List LogEntry → Nat → Prop
  | off, [], stop => off = stop
  | off, e :: es, stop => e = entryAt m off ∧ LogFrom m e.stop es stop

theorem LogFrom.le {m : Memory} {off stop : Nat} {es : List LogEntry}
    (h : LogFrom m off es stop) : off ≤ stop := by
  induction es generalizing off with
  | nil => exact Nat.le_of_eq h
  | cons e es ih =>
      obtain ⟨rfl, hrest⟩ := h
      have := ih hrest
      simp only [LogEntry.stop, entryAt_offset] at this
      omega

theorem LogFrom.append {m : Memory} {a b c : Nat} {es fs : List LogEntry}
    (h : LogFrom m a es b) (h' : LogFrom m b fs c) : LogFrom m a (es ++ fs) c := by
  induction es generalizing a with
  | nil =>
      cases h
      exact h'
  | cons e es ih => exact ⟨h.1, ih h.2⟩

/-- Every entry of a stored log lies complete inside its range. -/
theorem LogFrom.mem_bounds {m : Memory} {off stop : Nat} {es : List LogEntry}
    (h : LogFrom m off es stop) {e : LogEntry} (he : e ∈ es) :
    e = entryAt m e.offset ∧ off ≤ e.offset ∧ e.stop ≤ stop := by
  induction es generalizing off with
  | nil => cases he
  | cons a es ih =>
      obtain ⟨ha, hrest⟩ := h
      have hoff : a.offset = off := by rw [ha]; rfl
      rcases List.mem_cons.mp he with rfl | he
      · refine ⟨?_, Nat.le_of_eq hoff.symm, hrest.le⟩
        rw [hoff]
        exact ha
      · obtain ⟨h1, h2, h3⟩ := ih hrest he
        refine ⟨h1, ?_, h3⟩
        simp only [LogEntry.stop] at h2
        omega

theorem LogFrom.length_data {m : Memory} {off stop : Nat} {es : List LogEntry}
    (h : LogFrom m off es stop) {e : LogEntry} (he : e ∈ es) :
    e.data.length = e.inode .size := by
  rw [(h.mem_bounds he).1]
  exact length_data_entryAt m _

/-- Entries at different places do not overlap: a later one starts behind the end. -/
theorem LogFrom.disjoint {m : Memory} {off stop : Nat} {es : List LogEntry}
    (h : LogFrom m off es stop) {a b : LogEntry} (ha : a ∈ es) (hb : b ∈ es) :
    a = b ∨ a.stop ≤ b.offset ∨ b.stop ≤ a.offset := by
  induction es generalizing off with
  | nil => cases ha
  | cons e es ih =>
      obtain ⟨_, hrest⟩ := h
      rcases List.mem_cons.mp ha with rfl | ha' <;> rcases List.mem_cons.mp hb with rfl | hb'
      · exact Or.inl rfl
      · exact Or.inr (Or.inl (hrest.mem_bounds hb').2.1)
      · exact Or.inr (Or.inr (hrest.mem_bounds ha').2.1)
      · exact ih hrest ha' hb'

theorem entryAt_congr {m m' : Memory} {off : Nat}
    (h : ∀ i, off ≤ i → i < (entryAt m off).stop → m i = m' i) :
    entryAt m off = entryAt m' off := by
  have hin : inodeAt m off = inodeAt m' off := by
    funext f
    apply readWord_congr
    intro i hi hi'
    have := f.offset_le
    exact h i (by omega) (by simp only [LogEntry.stop, entryAt_offset]; omega)
  have hdata : readBytes m (off + sizeofInode) (inodeAt m off .size) =
      readBytes m' (off + sizeofInode) (inodeAt m off .size) := by
    apply readBytes_congr
    intro i hi hi'
    exact h i (by omega) (by
      simp only [LogEntry.stop, entryAt_offset]
      simp only [entryAt]
      omega)
  simp only [entryAt, ← hin, hdata]

/-- A memory that agrees on the range holds the same log. -/
theorem LogFrom.congr {m m' : Memory} {off stop : Nat} {es : List LogEntry}
    (h : LogFrom m off es stop) (hm : ∀ i, off ≤ i → i < stop → m i = m' i) :
    LogFrom m' off es stop := by
  induction es generalizing off with
  | nil => exact h
  | cons e es ih =>
      obtain ⟨rfl, hrest⟩ := h
      have hstop : off ≤ (entryAt m off).stop := by
        simp only [LogEntry.stop, entryAt_offset]
        omega
      refine ⟨entryAt_congr fun i hi hi' => hm i hi (Nat.lt_of_lt_of_le hi' hrest.le), ?_⟩
      exact ih hrest fun i hi hi' => hm i (by omega) hi'

/-- The list of entries is determined by the bytes. -/
theorem LogFrom.unique {m : Memory} {off stop : Nat} {es fs : List LogEntry}
    (h : LogFrom m off es stop) (h' : LogFrom m off fs stop) : es = fs := by
  induction es generalizing off fs with
  | nil =>
      cases fs with
      | nil => rfl
      | cons f fs =>
          have hle := h'.2.le
          have hoff : f.offset = off := by rw [h'.1]; rfl
          have hstop : off = stop := h
          simp only [LogEntry.stop, sizeofInode] at hle
          omega
  | cons e es ih =>
      cases fs with
      | nil =>
          have hle := h.2.le
          have hoff : e.offset = off := by rw [h.1]; rfl
          have hstop : off = stop := h'
          simp only [LogEntry.stop, sizeofInode] at hle
          omega
      | cons f fs =>
          have hef : e = f := h.1.trans h'.1.symm
          subst hef
          rw [ih h.2 h'.2]

/-- The image holds the log `es` between the superblock and `sb->head`. -/
structure LogView (img : Image) (es : List LogEntry) : Prop where
  entries : LogFrom img.byte sizeofSb es img.head
  inside : img.head ≤ img.size

namespace LogView

variable {img : Image} {es : List LogEntry}

theorem sb_le (h : LogView img es) : sizeofSb ≤ img.size :=
  Nat.le_trans h.entries.le h.inside

theorem bounds (h : LogView img es) {e : LogEntry} (he : e ∈ es) :
    e = entryAt img.byte e.offset ∧ sizeofSb ≤ e.offset ∧ e.stop ≤ img.head :=
  h.entries.mem_bounds he

theorem exec_loadHead (h : LogView img es) : exec loadHead img = some (img.head, img) :=
  exec_load (by have := h.sb_le; simp only [sizeofSb] at this; omega)

/-- Reading a member of a listed entry. -/
theorem exec_loadField (h : LogView img es) {e : LogEntry} (he : e ∈ es) (f : InodeField) :
    exec (loadField e.offset f) img = some (e.inode f, img) := by
  obtain ⟨heq, _, hstop⟩ := h.bounds he
  have hf := f.offset_le
  have hin := h.inside
  have hread : exec (loadField e.offset f) img =
      some (readWord img.byte 4 (e.offset + f.offset), img) :=
    exec_load (by simp only [LogEntry.stop] at hstop; omega)
  rw [hread]
  conv => rhs; rw [heq]
  rfl

end LogView

/-! ## The scans of the log -/

theorem exec_loadField_of_le {img : Image} {log : Nat} (h : log + sizeofInode ≤ img.size)
    (f : InodeField) : exec (loadField log f) img = some (inodeAt img.byte log f, img) :=
  exec_load (by have := f.offset_le; omega)

/-- What a turn of a scan reads at the first of the entries that are left. -/
theorem LogFrom.turn {img : Image} {e : LogEntry} {es : List LogEntry} {off head : Nat}
    (h : LogFrom img.byte off (e :: es) head) (hin : head ≤ img.size) :
    e.offset = off ∧ off < e.stop ∧ e.stop ≤ head ∧ off + (sizeofInode + e.inode .size) = e.stop ∧
      ∀ f, exec (loadField off f) img = some (e.inode f, img) := by
  obtain ⟨he, hrest⟩ := h
  have hoff : e.offset = off := by rw [he]; rfl
  have hstop : off + (sizeofInode + e.inode .size) = e.stop := by
    rw [← hoff]
    rfl
  have hle := hrest.le
  have hlt : off < e.stop := by
    rw [← hstop, sizeofInode]
    omega
  refine ⟨hoff, hlt, hle, hstop, fun f => ?_⟩
  rw [exec_loadField_of_le (by omega), he]
  rfl

/-- The scan of `get_log_entry` is the fold that keeps the last version. -/
theorem exec_getLogEntryLoop {img : Image} {es : List LogEntry} {off head fuel ino : Nat}
    {res : Option Nat} (h : LogFrom img.byte off es head) (hin : head ≤ img.size)
    (hfuel : head < off + fuel) :
    exec (getLogEntryLoop ino head fuel off res) img =
      some (es.foldl (fun res e => if e.isVersion ino then some e.offset else res) res, img) := by
  induction es generalizing off fuel res with
  | nil =>
      obtain rfl : off = head := h
      cases fuel with
      | zero => omega
      | succ fuel => simp [getLogEntryLoop]
  | cons e es ih =>
      obtain ⟨hoff, hlt, hle, hstep, hfield⟩ := h.turn hin
      cases fuel with
      | zero => omega
      | succ fuel =>
          have hver : (e.inode .inodeNumber = ino ∧ e.inode .deleted = 0) ↔
              e.isVersion ino = true := by
            simp [LogEntry.isVersion, LogEntry.number, LogEntry.live]
          rw [getLogEntryLoop, if_pos (by omega)]
          simp only [exec_bind, hfield, Option.bind_some, hstep]
          rw [ih h.2 (by omega), List.foldl_cons, hoff]
          simp only [hver]

theorem foldl_version_offset (n : Nat) (es : List LogEntry) (r : Option LogEntry) :
    es.foldl (fun res e => if e.isVersion n then some e.offset else res) (r.map (·.offset)) =
      (es.foldl (fun res e => if e.isVersion n then some e else res) r).map (·.offset) := by
  induction es generalizing r with
  | nil => rfl
  | cons e es ih =>
      rw [List.foldl_cons, List.foldl_cons, ← ih]
      cases e.isVersion n <;> rfl

/-- `get_log_entry` finds the newest live version of an inode. -/
theorem LogView.exec_getLogEntry {img : Image} {es : List LogEntry} (h : LogView img es)
    (n : Nat) :
    exec (getLogEntry n) img =
      some ((newest (LogEntry.isVersion n) es).map (·.offset), img) := by
  have hfold := foldl_version_offset n es none
  rw [foldl_newest, Option.or_none] at hfold
  simp only [getLogEntry, exec_bind, h.exec_loadHead, Option.bind_some]
  rw [exec_getLogEntryLoop h.entries h.inside (by simp only [sizeofSb]; omega), ← hfold]
  rfl

/-- The scan of `Max_InodeNum` is the fold that raises the greatest live number. -/
theorem exec_maxInodeNumLoop {img : Image} {es : List LogEntry} {off head fuel acc : Nat}
    (h : LogFrom img.byte off es head) (hin : head ≤ img.size) (hfuel : head < off + fuel) :
    exec (maxInodeNumLoop head fuel off acc) img =
      some (es.foldl (raise LogEntry.number LogEntry.live) acc, img) := by
  induction es generalizing off fuel acc with
  | nil =>
      obtain rfl : off = head := h
      cases fuel with
      | zero => omega
      | succ fuel => simp [maxInodeNumLoop]
  | cons e es ih =>
      obtain ⟨hoff, hlt, hle, hstep, hfield⟩ := h.turn hin
      cases fuel with
      | zero => omega
      | succ fuel =>
          rw [maxInodeNumLoop, if_pos (by omega)]
          simp only [exec_bind, hfield, Option.bind_some, hstep]
          rw [ih h.2 (by omega), List.foldl_cons]
          simp [raise, LogEntry.number, LogEntry.live]

/-- `Max_InodeNum` on a list of entries. -/
def maxNumber (es : List LogEntry) : Nat := largest LogEntry.number LogEntry.live es

theorem LogView.exec_maxInodeNum {img : Image} {es : List LogEntry} (h : LogView img es) :
    exec maxInodeNum img = some (maxNumber es, img) := by
  simp only [maxInodeNum, exec_bind, h.exec_loadHead, Option.bind_some]
  rw [exec_maxInodeNumLoop h.entries h.inside (by simp only [sizeofSb]; omega)]
  rfl

end OSProjects.Wfs
