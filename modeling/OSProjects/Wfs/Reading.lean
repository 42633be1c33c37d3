import OSProjects.Wfs.Execution
import OSProjects.Wfs.Namespace

/-!
# What `my_read` returns

The handler copies as many bytes as it is asked for. On every reachable image, for which
sizes and offsets these are bytes of the file.
-/

namespace OSProjects.Wfs

open ByteMemory VersionedLog CString WfsM StepSystem

/-! ## Entries that a path leads to -/

/-- A lookup through current entries ends at a current entry, whatever the tokens are. -/
theorem LogView.entry_of_pathLoop {img img' : Image} {es : List LogEntry} (h : LogView img es)
    {tokens : List (List UInt8)} {cur : Option Nat} {log : Nat}
    (hcur : ∀ c, cur = some c → ∃ e, Current es e ∧ e.offset = c)
    (hexec : exec (pathLoop tokens cur) img = some (some log, img')) :
    img' = img ∧ ∃ e, Current es e ∧ e.offset = log := by
  induction tokens generalizing cur with
  | nil =>
      obtain ⟨rfl, rfl⟩ := Prod.mk.inj (Option.some.inj hexec)
      exact ⟨rfl, hcur log rfl⟩
  | cons token tokens ih =>
      cases cur with
      | none => simp [pathLoop] at hexec
      | some c =>
          rw [pathLoop, exec_bind] at hexec
          obtain ⟨⟨number, img1⟩, hnumber, hrest⟩ := Option.bind_eq_some_iff.mp hexec
          have hsame := (readOnly_getInodeNumber token (some c)).exec_eq
            (congrArg (Option.map Prod.fst) hnumber)
          obtain ⟨-, rfl⟩ := Prod.mk.inj (Option.some.inj (hsame.symm.trans hnumber))
          dsimp only at hrest
          split at hrest
          · simp at hrest
          · rw [exec_bind, h.exec_getLogEntry, Option.bind_some] at hrest
            refine ih (fun c hc => ?_) hrest
            obtain ⟨e, he, rfl⟩ := Option.map_eq_some_iff.mp hc
            exact ⟨e, current_of_newest he, rfl⟩

/-- A path that resolves leads to a current entry of the log. -/
theorem LogView.entry_of_path {img img' : Image} {es : List LogEntry} (h : LogView img es)
    {path : List UInt8} {log : Nat}
    (hexec : exec (pathToLogEntry path) img = some (some log, img')) :
    img' = img ∧ ∃ e, Current es e ∧ e.offset = log := by
  rw [pathToLogEntry, exec_bind, h.exec_getLogEntry, Option.bind_some] at hexec
  refine h.entry_of_pathLoop (fun c hc => ?_) hexec
  obtain ⟨e, he, rfl⟩ := Option.map_eq_some_iff.mp hc
  exact ⟨e, current_of_newest he, rfl⟩

/-! ## Reading -/

/-- The data of the file whose entry is at `log`. -/
def fileData (img : Image) (log : Nat) : List UInt8 := (entryAt img.byte log).data

/-- A read delivers the bytes of the file between the offset and the end of the range, as
many as there are, and says how many. -/
def ReadsFile (img : Image) (path : List UInt8) (log size offset : Nat) : Prop :=
  exec (myRead path size offset) img =
    some ((((min size ((fileData img log).length - offset) : Nat) : Int),
      ((fileData img log).drop offset).take size), img)

section Read

variable {img : Image} {path : List UInt8} {log size offset : Nat}

theorem toInt_eq_self {n m : Nat} (hm : m < 2 ^ 32) : toInt n = m ↔ n % 2 ^ 32 = m ∧ m < 2 ^ 31 := by
  rw [toInt]
  split <;> omega

/-- A read behind the end of the file. -/
theorem exec_myRead_behind (hpath : exec (pathToLogEntry path) img = some (some log, img))
    (hin : log + sizeofInode ≤ img.size) (hend : (fileData img log).length ≤ offset) :
    exec (myRead path size offset) img = some ((0, []), img) := by
  rw [fileData, length_data_entryAt] at hend
  have hnot : ¬((offset : Int) < (inodeAt img.byte log .size : Nat)) := by
    exact_mod_cast Nat.not_lt.mpr hend
  simp only [myRead, exec_bind, hpath, Option.bind_some, exec_loadField_of_le hin]
  rw [if_neg hnot]
  rfl

/-- A read that starts inside the file. -/
theorem exec_myRead_inside (hpath : exec (pathToLogEntry path) img = some (some log, img))
    (hin : log + sizeofInode ≤ img.size) (hlt : offset < (fileData img log).length) :
    exec (myRead path size offset) img =
      if log + sizeofInode + offset + size ≤ img.size then
        some ((toInt size, readBytes img.byte (log + sizeofInode + offset) size), img)
      else none := by
  rw [fileData, length_data_entryAt] at hlt
  have hlt' : (offset : Int) < (inodeAt img.byte log .size : Nat) := by exact_mod_cast hlt
  have hpos : ¬((log + sizeofInode : Nat) + (offset : Int) < 0) := by omega
  have hplace : ((log + sizeofInode : Nat) + (offset : Int)).toNat = log + sizeofInode + offset := by
    omega
  have hload : exec (loadBytes (log + sizeofInode + offset) size) img =
      if log + sizeofInode + offset + size ≤ img.size then
        some (readBytes img.byte (log + sizeofInode + offset) size, img) else none := by
    rw [exec, loadBytes]
    split <;> rfl
  simp only [myRead, exec_bind, hpath, Option.bind_some, exec_loadField_of_le hin]
  rw [if_pos hlt', if_neg hpos, hplace, exec_bind, hload]
  split <;> rfl

/-- The bytes of a file are those behind its inode. -/
theorem fileData_drop_take (hfit : offset + size ≤ (fileData img log).length) :
    ((fileData img log).drop offset).take size =
      readBytes img.byte (log + sizeofInode + offset) size := by
  rw [fileData, length_data_entryAt] at hfit
  exact (readBytes_sub img.byte (log + sizeofInode) hfit).symm

end Read

/-- On every reachable image, a read returns bytes of the file and no others exactly when
it starts behind the end of the file or asks for no more than is left, and for a count
that an `int` holds. -/
theorem readsFile_iff {img0 img : Image} {evs : List Event} (h0 : Fresh img0)
    (hrun : Run Step img0 evs img) {path : List UInt8} {log : Nat}
    (hpath : exec (pathToLogEntry path) img = some (some log, img)) (size offset : Nat) :
    ReadsFile img path log size offset ↔
      (fileData img log).length ≤ offset ∨
        offset + size ≤ (fileData img log).length ∧ size < 2 ^ 31 := by
  obtain ⟨es, hwf⟩ := Run.wellFormed hrun h0
  obtain ⟨-, e, hcur, rfl⟩ := hwf.toLogView.entry_of_path hpath
  have he := hcur.mem
  obtain ⟨heq, -, hstop⟩ := hwf.bounds he
  have hlen : (fileData img e.offset).length = e.inode .size := by
    rw [fileData, ← heq]
    exact hwf.entries.length_data he
  have hend : e.offset + sizeofInode + (fileData img e.offset).length ≤ img.size := by
    have hin := hwf.inside
    rw [LogEntry.stop] at hstop
    omega
  have hword : (fileData img e.offset).length < 2 ^ 32 := by
    rw [fileData, length_data_entryAt]
    exact readWord_lt img.byte 4 _
  rw [ReadsFile]
  by_cases hbehind : (fileData img e.offset).length ≤ offset
  · refine iff_of_true ?_ (Or.inl hbehind)
    rw [exec_myRead_behind hpath (by omega) hbehind, Nat.sub_eq_zero_of_le hbehind,
      List.drop_eq_nil_of_le hbehind]
    simp
  · rw [exec_myRead_inside hpath (by omega) (by omega), or_iff_right hbehind]
    constructor
    · intro h
      split at h
      case isFalse => cases h
      case isTrue =>
        obtain ⟨hcount, hbytes⟩ := Prod.mk.inj (Prod.mk.inj (Option.some.inj h)).1
        have hall := congrArg List.length hbytes
        rw [length_readBytes, List.length_take, List.length_drop] at hall
        rw [toInt_eq_self (by omega)] at hcount
        omega
    · rintro ⟨hfit, hint⟩
      have hmin : min size ((fileData img e.offset).length - offset) = size := by omega
      have hcount : toInt size = size := (toInt_eq_self (by omega)).mpr (by omega)
      rw [if_pos (by omega), hmin, hcount, fileData_drop_take hfit]

/-- A file of three bytes, read from its second byte to its end. -/
theorem readsFile_iff_run : ∃ img0 evs img log, Fresh img0 ∧ Run Step img0 evs img ∧
    evs.length = 2 ∧ ReadsFile img (render [nameA]) log 2 1 := by
  obtain ⟨img0, evs, img, hfresh, hrun, hP⟩ := @exists_run_of_eval (zeroDisk 400)
    [.create .file [] nameA 0o644 0 0, .write [nameA] [1, 2, 3] 0 0]
    (fun res => res.1.length == 2 && (lookupPath res.2 [nameA]).any fun log =>
      inodeAt res.2.byte log .size == 3)
    (by decide +kernel)
  obtain ⟨hlen, hany⟩ := Bool.and_eq_true_iff.mp hP
  obtain ⟨log, hlog, hsize⟩ := (Option.any_eq_true _ _).mp hany
  have hthree : (fileData img log).length = 3 := by
    rw [fileData, length_data_entryAt]
    exact beq_iff_eq.mp hsize
  exact ⟨img0, evs, img, log, hfresh, hrun, beq_iff_eq.mp hlen,
    (readsFile_iff hfresh hrun (resolves_iff_lookupPath.mpr hlog) 2 1).mpr
      (Or.inr (by rw [hthree]; decide))⟩

/-- Two bytes asked of a file with one byte, with another file behind it in the log. -/
theorem read_passes_the_end :
    ¬∀ img0 evs img path log size offset, Fresh img0 → Run Step img0 evs img →
      exec (pathToLogEntry path) img = some (some log, img) →
        isRegMode (inodeAt img.byte log .mode) = true →
          ReadsFile img path log size offset := by
  intro hlaw
  obtain ⟨img0, evs, img, hfresh, hrun, hP⟩ := @exists_run_of_eval (zeroDisk 400)
    [.create .file [] nameA 0o644 0 0, .write [nameA] [1] 0 0,
      .create .file [] nameB 0o644 0 0]
    (fun res => (lookupPath res.2 [nameA]).any fun log =>
      isRegMode (inodeAt res.2.byte log .mode) && inodeAt res.2.byte log .size == 1)
    (by decide +kernel)
  obtain ⟨log, hlog, hcond⟩ := (Option.any_eq_true _ _).mp hP
  obtain ⟨hreg, hsize⟩ := Bool.and_eq_true_iff.mp hcond
  have hpath := resolves_iff_lookupPath.mpr hlog
  obtain ⟨es, hwf⟩ := Run.wellFormed hrun hfresh
  obtain ⟨-, e, hcur, rfl⟩ := hwf.toLogView.entry_of_path hpath
  have he := hcur.mem
  have hone : (fileData img e.offset).length = 1 := by
    rw [fileData, length_data_entryAt]
    exact beq_iff_eq.mp hsize
  have hin : e.offset + sizeofInode ≤ img.size := by
    have hstop := Nat.le_trans (hwf.bounds he).2.2 hwf.inside
    rw [LogEntry.stop] at hstop
    omega
  have hread := hlaw img0 evs img _ e.offset 2 0 hfresh hrun hpath hreg
  rw [ReadsFile, exec_myRead_inside hpath hin (by rw [hone]; exact Nat.zero_lt_one)] at hread
  split at hread
  case isFalse => cases hread
  case isTrue =>
    have hcount := (Prod.mk.inj (Prod.mk.inj (Option.some.inj hread)).1).1
    rw [hone] at hcount
    exact absurd hcount (by decide)

end OSProjects.Wfs
