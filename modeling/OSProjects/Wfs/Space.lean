import OSProjects.Wfs.Stores

/-!
# When an append has room on the disk

`README.md` asks for `-ENOSPC` when there is no space for an entry. No handler checks
for space.
-/

namespace OSProjects.Wfs

open ByteMemory VersionedLog CString WfsM StepSystem

/-- `-ENOSPC`. -/
def eNOSPC : Int := -28

namespace Call

/-- The path has a parent directory, and the name fits its record. -/
def HasParent (img : Image) : Call → Prop
  | .create _ dir name _ _ _ =>
      PrefixDirs img (dir ++ [name]) ∧ name.bytes.length < maxFileNameLen
  | .write path _ _ _ => PrefixDirs img path
  | .unlink path => PrefixDirs img path

/-- The call copies the entry at `log`: no error applies to it. -/
def Copies (img : Image) (log : Nat) : Call → Prop
  | .create _ dir name _ _ _ =>
      exec (findParentLogPath (render (dir ++ [name]))) img = some (some log, img) ∧
        exec (getInodeNumber name.bytes (some log)) img = some (notFound, img)
  | .write path _ writeOffset _ => Resolves img path log ∧ 0 ≤ writeOffset
  | .unlink _ => False

/-- The size of the data of the copy. -/
def newSize (img : Image) (log : Nat) : Call → Nat
  | .create _ _ _ _ _ _ => inodeAt img.byte log .size + sizeofDentry
  | .write _ buffer writeOffset _ =>
      writtenSize (inodeAt img.byte log .size) writeOffset.toNat buffer.length
  | .unlink _ => 0

/-- The length of the entries that the call appends. -/
def appended (img : Image) (log : Nat) (c : Call) : Nat :=
  match c with
  | .create _ _ _ _ _ _ => sizeofInode + c.newSize img log + sizeofInode
  | .write _ _ _ _ => sizeofInode + c.newSize img log
  | .unlink _ => 0

/-- The value that a successful call returns. -/
def success : Call → Int
  | .create _ _ _ _ _ _ => 0
  | .write _ buffer _ _ => toInt buffer.length
  | .unlink _ => 0

end Call

/-- The call succeeds with all its stores inside the disk, and neither `sb->head` nor the
size of the copy wraps around. -/
structure Completed (img : Image) (c : Call) (log : Nat) (stores : List Store) : Prop where
  run : c.run img = some (c.success, stores)
  inside : ∀ s ∈ stores, s.stop ≤ img.size
  head : (img.apply stores).head = img.head + c.appended img log
  headInside : (img.apply stores).head ≤ img.size
  size : inodeAt (img.apply stores).byte img.head .size = c.newSize img log

/-- The call returns `-ENOSPC` and stores nothing. -/
def Refused (img : Image) (c : Call) : Prop := c.run img = some (eNOSPC, [])

/-- A creation that has room. -/
theorem WellFormed.completed_create {img : Image} {es : List LogEntry} (h : WellFormed img es)
    {dir : Path} {name : Name} {newMode uid t log : Nat} {fields : Nat → List (InodeField × Nat)}
    (hfields : ∀ num i, assign (fields num) i = freshInode num newMode uid t)
    (hdirs : PrefixDirs img (dir ++ [name])) (hlen : name.bytes.length < maxFileNameLen)
    (hlog : exec (findParentLogPath (render (dir ++ [name]))) img = some (some log, img))
    (hnumber : exec (getInodeNumber name.bytes (some log)) img = some (notFound, img))
    (hroom : img.Room (sizeofInode + (inodeAt img.byte log .size + sizeofDentry) + sizeofInode)) :
    ∃ stores, createEntry (render (dir ++ [name])) fields img = some (0, stores) ∧
      (∀ s ∈ stores, s.stop ≤ img.size) ∧
      (img.apply stores).head =
        img.head + (sizeofInode + (inodeAt img.byte log .size + sizeofDentry) + sizeofInode) ∧
      (img.apply stores).head ≤ img.size ∧
      inodeAt (img.apply stores).byte img.head .size =
        inodeAt img.byte log .size + sizeofDentry := by
  obtain ⟨q, d, -, -, hd, hdir, hfind⟩ := h.exists_parent (h.dirsTo hdirs)
  have hmem := mem_of_resolve hd
  obtain rfl : d.offset = log := by
    rw [hfind] at hlog
    simpa using hlog
  have hlookup := h.toLogView.exec_getInodeNumber hmem (h.dirs d hmem hdir) name.no_nul
  rw [hnumber, Option.some.injEq, Prod.mk.injEq] at hlookup
  rw [(h.toLogView.reads hmem).1] at hroom ⊢
  obtain ⟨img1, img2, newP, newF, -, -, hexec, hfile, htwo⟩ :=
    h.exec_createEntry_new hfields hmem hdir hfind hlookup.1.symm hlen hroom
  obtain ⟨stores, hrun, rfl⟩ := run_eq_of_exec hexec
  have hsize : newP.inode .size = d.inode .size + sizeofDentry := by
    rw [htwo.inode, Function.update_self]
  have hhead : (img.apply stores).head =
      img.head + (sizeofInode + (d.inode .size + sizeofDentry) + sizeofInode) := by
    calc
      _ = newF.stop := htwo.fileStop.symm
      _ = newP.stop + sizeofInode := by rw [hfile]; rfl
      _ = _ := by rw [LogEntry.stop, htwo.offset, hsize, Nat.add_assoc, Nat.add_assoc]
  refine ⟨stores, hrun, ?_, hhead, htwo.second.inside, ?_⟩
  · intro s hs
    obtain hr | ⟨_, _, first, second, -, -, -, -, -, hr, hpub1, hpub2⟩ := stores_createEntry hrun
    · cases hr
    · obtain rfl : stores = first ++ second := (Prod.mk.inj hr).2
      rcases List.mem_append.mp hs with hs | hs
      · exact hpub1.inside s hs
      · exact hpub2.inside s hs
  · have hreads := (htwo.second.toLogView.reads (e := newP) (by simp)).1
    rw [htwo.offset] at hreads
    rw [hreads, hsize]

/-- A call that has room completes. -/
theorem WellFormed.completed {img : Image} {es : List LogEntry} (h : WellFormed img es) {c : Call}
    {log : Nat} (hparent : c.HasParent img) (hcopies : c.Copies img log)
    (hroom : img.Room (c.appended img log)) : ∃ stores, Completed img c log stores := by
  cases c with
  | create kind dir name mode uid t =>
      obtain ⟨hdirs, hlen⟩ := hparent
      obtain ⟨hlog, hnumber⟩ := hcopies
      cases kind with
      | file =>
          obtain ⟨stores, hrun, hin, hhead, hheadIn, hsize⟩ := h.completed_create
            (assign_mknodFields mode uid t) hdirs hlen hlog hnumber hroom
          exact ⟨stores, hrun, hin, hhead, hheadIn, hsize⟩
      | directory =>
          obtain ⟨stores, hrun, hin, hhead, hheadIn, hsize⟩ := h.completed_create
            (assign_mkdirFields mode uid t) hdirs hlen hlog hnumber hroom
          exact ⟨stores, hrun, hin, hhead, hheadIn, hsize⟩
  | write path buffer writeOffset t =>
      obtain ⟨hlog, hpos⟩ := hcopies
      have hdirs := h.dirsTo hparent
      obtain ⟨e, he, rfl⟩ := (h.resolves_iff hdirs).mp hlog
      have hmem := mem_of_resolve he
      have hinode := (h.toLogView.reads hmem).1
      obtain ⟨hin, hword⟩ := hroom
      simp only [Call.appended, Call.newSize, hinode] at hin hword
      obtain ⟨img', hexec, hsize, hhead, -, hentry⟩ :=
        h.toLogView.exec_appendVersion hmem buffer writeOffset.toNat t hin hword
      have hexecWrite : exec (myWrite (render path) buffer writeOffset t) img =
          some (toInt buffer.length, img') := by
        simp [myWrite, not_lt.mpr hpos, h.exec_pathToLogEntry hdirs, he, hexec]
      obtain ⟨stores, hrun, rfl⟩ := run_eq_of_exec hexecWrite
      refine ⟨stores, hrun, fun s hs => ?_, ?_, ?_, ?_⟩
      · obtain hr | hr | ⟨-, hpub, -⟩ := stores_myWrite hrun
        · rw [(Prod.mk.inj hr).2] at hs
          cases hs
        · rw [(Prod.mk.inj hr).2] at hs
          cases hs
        · exact hpub.inside s hs
      · simp only [Call.appended, Call.newSize, hinode]
        exact hhead
      · omega
      · have hnew := congrArg LogEntry.inode hentry
        simp only [entryAt] at hnew
        rw [hnew]
        simp [versionInode, Call.newSize, hinode, Function.update]
  | unlink path => exact hcopies.elim

/-- No handler returns `-ENOSPC` without a store. -/
theorem not_refused (img : Image) (c : Call) : ¬ Refused img c := by
  intro h
  have hcreate : ∀ {path fields}, createEntry path fields img ≠ some (eNOSPC, []) := by
    intro path fields hrun
    obtain hr | ⟨_, _, first, second, -, -, -, -, -, hr, -⟩ := stores_createEntry hrun
    · exact absurd (Prod.mk.inj hr).1 (by decide)
    · exact absurd (Prod.mk.inj hr).1 (by decide)
  cases c with
  | create kind dir name mode uid t =>
      cases kind with
      | file => exact hcreate h
      | directory => exact hcreate h
  | write path buffer writeOffset t =>
      obtain hr | hr | ⟨-, hpub, -⟩ := stores_myWrite h
      · exact absurd (Prod.mk.inj hr).1 (by decide)
      · exact absurd (Prod.mk.inj hr).1 (by decide)
      · exact hpub.ne_nil rfl
  | unlink path =>
      obtain hr | hr | ⟨log, -, hr⟩ := stores_wfsUnlink h
      · exact absurd (Prod.mk.inj hr).1 (by decide)
      · exact absurd (Prod.mk.inj hr).1 (by decide)
      · cases hr

/-- In every run of calls that have room, the next creation or write completes inside the
disk or is refused exactly when it has room, too. -/
theorem out_of_space_iff {img0 img : Image} {evs : List Event} (h0 : Fresh img0)
    (hrun : Run Step img0 evs img) {c : Call} {log : Nat} (hparent : c.HasParent img)
    (hcopies : c.Copies img log) :
    ((∃ stores, Completed img c log stores) ∨ Refused img c) ↔
      img.Room (c.appended img log) := by
  obtain ⟨es, h⟩ := Run.wellFormed hrun h0
  constructor
  · rintro (⟨stores, hdone⟩ | hrefused)
    · refine ⟨?_, ?_⟩
      · rw [← hdone.head]
        exact hdone.headInside
      · rw [← hdone.head]
        exact (img.apply stores).head_lt
    · exact absurd hrefused (not_refused img c)
  · intro hroom
    exact Or.inl (h.completed hparent hcopies hroom)

/-- Decides that the call has a parent and copies the entry at `log`. -/
def copiesCheck (img : Image) (log : Nat) : Call → Bool
  | .create _ dir name _ _ _ =>
      prefixDirsCheck img (dir ++ [name]) && decide (name.bytes.length < maxFileNameLen) &&
        ((exec (findParentLogPath (render (dir ++ [name]))) img).map Prod.fst == some (some log)) &&
        ((exec (getInodeNumber name.bytes (some log)) img).map Prod.fst == some notFound)
  | .write path _ writeOffset _ =>
      prefixDirsCheck img path && lookupPath img path == some log && decide (0 ≤ writeOffset)
  | .unlink _ => false

theorem copies_of_check {img : Image} {log : Nat} {c : Call} (h : copiesCheck img log c = true) :
    c.HasParent img ∧ c.Copies img log := by
  cases c with
  | create kind dir name mode uid t =>
      simp only [copiesCheck, Bool.and_eq_true, decide_eq_true_eq, beq_iff_eq] at h
      obtain ⟨⟨⟨hdirs, hlen⟩, hfind⟩, hnumber⟩ := h
      refine ⟨⟨prefixDirs_of_check hdirs, hlen⟩, ?_, ?_⟩
      · exact (readOnly_findParentLogPath _).exec_eq hfind
      · exact (readOnly_getInodeNumber _ _).exec_eq hnumber
  | write path buffer writeOffset t =>
      simp only [copiesCheck, Bool.and_eq_true, decide_eq_true_eq, beq_iff_eq] at h
      obtain ⟨⟨hdirs, hlog⟩, hpos⟩ := h
      exact ⟨prefixDirs_of_check hdirs, resolves_iff_lookupPath.mpr hlog, hpos⟩
  | unlink path => cases h

/-- A creation on a disk of 300 bytes. -/
theorem out_of_space_iff_run :
    ∃ img0 evs img stores, Fresh img0 ∧ Run Step img0 evs img ∧
      Completed img (.create .file [] nameA 0o644 0 0) 8 stores := by
  obtain ⟨img0, evs, img, hfresh, hrun, hP⟩ := @exists_run_of_eval (zeroDisk 300) []
    (fun res => copiesCheck res.2 8 (.create .file [] nameA 0o644 0 0) &&
      decide (res.2.Room (Call.appended res.2 8 (.create .file [] nameA 0o644 0 0))))
    (by decide +kernel)
  obtain ⟨hcopies, hroom⟩ := Bool.and_eq_true_iff.mp hP
  obtain ⟨hparent, hcopies⟩ := copies_of_check hcopies
  obtain ⟨stores, hdone⟩ | hrefused :=
    (out_of_space_iff hfresh hrun hparent hcopies).mpr (of_decide_eq_true hroom)
  · exact ⟨img0, evs, img, stores, hfresh, hrun, hdone⟩
  · exact absurd hrefused (not_refused _ _)

/-- `mknod` on a disk of 100 bytes stores past its end. -/
theorem no_enospc_on_small_disk :
    ¬ ∀ img0 evs img c log, Fresh img0 → Run Step img0 evs img → img.head ≤ img.size →
      c.HasParent img → c.Copies img log →
      (∃ stores, Completed img c log stores) ∨ Refused img c := by
  intro hclaim
  obtain ⟨img0, evs, img, hfresh, hrun, hP⟩ := @exists_run_of_eval (zeroDisk 100) []
    (fun res => copiesCheck res.2 8 (.create .file [] nameA 0o644 0 0) &&
      decide (res.2.head ≤ res.2.size) &&
      ((Call.create .file [] nameA 0o644 0 0).run res.2).isNone)
    (by decide +kernel)
  simp only [Bool.and_eq_true, decide_eq_true_eq, Option.isNone_iff_eq_none] at hP
  obtain ⟨⟨hcopies, hhead⟩, hnone⟩ := hP
  obtain ⟨hparent, hcopies⟩ := copies_of_check hcopies
  obtain ⟨stores, hdone⟩ | hrefused := hclaim img0 evs img _ 8 hfresh hrun hhead hparent hcopies
  · rw [hdone.run] at hnone
    cases hnone
  · rw [Refused, hnone] at hrefused
    cases hrefused

end OSProjects.Wfs
