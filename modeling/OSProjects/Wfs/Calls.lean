import OSProjects.Foundation.StepSystem
import OSProjects.Wfs.Tools
import OSProjects.Wfs.Versions

/-!
# What each call does to the log

`Effect` has one constructor for each outcome of a call. The results about runs
are case analyses of it and never unfold a handler.
-/

namespace OSProjects.Wfs

open ByteMemory VersionedLog CString WfsM StepSystem

/-- The two handlers that create an entry. -/
inductive Kind
  | file | directory
  deriving DecidableEq

/-- The mode stored for a new entry. -/
def Kind.newMode : Kind → Nat → Nat
  | .file, mode => mode ||| sIFREG
  | .directory, mode => sIFDIR ||| mode

/-- A request of the kernel that may change the disk. -/
inductive Call
  | create (kind : Kind) (dir : Path) (name : Name) (mode uid t : Nat)
  | write (path : Path) (buffer : List UInt8) (writeOffset : Int) (t : Nat)
  | unlink (path : Path)

/-- The handler that serves a request. -/
def Call.run : Call → WfsM Int
  | .create .file dir name mode uid t => myMknod (some (render (dir ++ [name]))) mode uid t
  | .create .directory dir name mode uid t => myMkdir (some (render (dir ++ [name]))) mode uid t
  | .write path buffer writeOffset t => myWrite (render path) buffer writeOffset t
  | .unlink path => wfsUnlink (render path)

/-- `path_to_log_entry` finds the entry at `log`. -/
def Resolves (img : Image) (p : Path) (log : Nat) : Prop :=
  exec (pathToLogEntry (render p)) img = some (some log, img)

/-- Every proper prefix of the path resolves to a directory, as the kernel has checked by
its own lookups before it passes the path on. -/
def PrefixDirs (img : Image) (p : Path) : Prop :=
  ∀ q, q <+: p → q ≠ p → ∃ log, Resolves img q log ∧ isDirMode (inodeAt img.byte log .mode) = true

/-- The requests that the kernel sends. -/
def Call.Issued (img : Image) : Call → Prop
  | .create _ dir name _ _ _ =>
      PrefixDirs img (dir ++ [name]) ∧ name.bytes.length < maxFileNameLen
  | .write path _ _ _ =>
      PrefixDirs img path ∧
        ∀ log, Resolves img path log → isRegMode (inodeAt img.byte log .mode) = true
  | .unlink path => PrefixDirs img path

/-- The disk has room for `n` more bytes behind the head, and the head stays a word. -/
def Image.Room (img : Image) (n : Nat) : Prop := img.head + n ≤ img.size ∧ img.head + n < 2 ^ 32

/-- The entries that a request appends fit on the disk. -/
def Call.Fits (img : Image) : Call → Prop
  | .create _ dir name _ _ _ =>
      ∀ log, exec (findParentLogPath (render (dir ++ [name]))) img = some (some log, img) →
        exec (getInodeNumber name.bytes (some log)) img = some (notFound, img) →
        img.Room (sizeofInode + (inodeAt img.byte log .size + sizeofDentry) + sizeofInode)
  | .write path buffer writeOffset _ =>
      ∀ log, Resolves img path log → 0 ≤ writeOffset →
        img.Room (sizeofInode +
          writtenSize (inodeAt img.byte log .size) writeOffset.toNat buffer.length)
  | .unlink _ => True

/-- The path that a request names. -/
def Call.path : Call → Path
  | .create _ dir name _ _ _ => dir ++ [name]
  | .write path _ _ _ => path
  | .unlink path => path

/-- A request together with the value that its handler returns. -/
abbrev Event := Call × Int

/-- One request served, on a disk with room for it. -/
def Step (img : Image) (ev : Event) (img' : Image) : Prop :=
  ev.1.Issued img ∧ ev.1.Fits img ∧ exec ev.1.run img = some (ev.2, img')

/-- A step before which the request and the image satisfy a condition. -/
def StepIf (cond : Image → Call → Prop) (img : Image) (ev : Event) (img' : Image) : Prop :=
  Step img ev img' ∧ cond img ev.1

/-- A disk file of any contents that `mkfs.wfs` has just initialised. -/
def Fresh (img : Image) : Prop :=
  ∃ disk t, sizeofSb + sizeofInode ≤ disk.size ∧ exec (initWfs t) disk = some ((), img)

/-- The outcomes of a call on an image that holds the log `es`. -/
inductive Effect (img : Image) (es : List LogEntry) :
    Call → Int → Image → List LogEntry → Prop
  | createExists {kind dir name mode uid t q d} (hq : q <+: dir)
      (hparent : ParentFits dir → q = dir) (hd : resolve es q = some d) (hdir : d.isDir = true)
      (hold : lookupNumber (dentries d.data) name.bytes ≠ notFound) :
      Effect img es (.create kind dir name mode uid t) eEXIST img es
  | created {kind dir name mode uid t q d img' newP newF} (hq : q <+: dir)
      (hparent : ParentFits dir → q = dir) (hd : resolve es q = some d) (hdir : d.isDir = true)
      (hnew : lookupNumber (dentries d.data) name.bytes = notFound)
      (hoffset : newP.offset = img.head)
      (hinode : newP.inode = Function.update d.inode .size (d.inode .size + sizeofDentry))
      (hdata : DirData newP.data)
      (hdentries : dentries newP.data =
        dentries d.data ++ [⟨name.bytes, (maxNumber es + 1) % 2 ^ 32⟩])
      (hfile : newF =
        ⟨newP.stop, freshInode ((maxNumber es + 1) % 2 ^ 32) (kind.newMode mode) uid t, []⟩)
      (hframe : SameOutside img.byte img'.byte img.head img'.head) :
      Effect img es (.create kind dir name mode uid t) 0 img' (es ++ [newP, newF])
  | writeNegative {path buffer writeOffset t} (hneg : writeOffset < 0) :
      Effect img es (.write path buffer writeOffset t) 0 img es
  | writeMissing {path buffer writeOffset t} (hpos : 0 ≤ writeOffset)
      (hnone : resolve es path = none) :
      Effect img es (.write path buffer writeOffset t) eNOENT img es
  | written {path buffer writeOffset t e img' new} (hpos : 0 ≤ writeOffset)
      (he : resolve es path = some e) (hreg : e.isReg = true)
      (hnew : new = ⟨img.head,
        versionInode e.inode (writtenSize (e.inode .size) writeOffset.toNat buffer.length) t,
        overlay (fun i => img.byte (img.head + sizeofInode + i)) e.data writeOffset.toNat buffer⟩)
      (hframe : SameOutside img.byte img'.byte img.head img'.head) :
      Effect img es (.write path buffer writeOffset t) (toInt buffer.length) img' (es ++ [new])
  | unlinkMissing {path} (hnone : resolve es path = none) :
      Effect img es (.unlink path) eNOENT img es
  | unlinkDir {path e} (he : resolve es path = some e) (hdir : e.isDir = true) :
      Effect img es (.unlink path) eISDIR img es
  | unlinked {path e img'} (he : resolve es path = some e) (hdir : e.isDir = false)
      (hinode : inodeAt img'.byte e.offset = Function.update e.inode .deleted 1)
      (hframe : ∀ i, i < e.offset + 4 ∨ e.offset + 8 ≤ i → img'.byte i = img.byte i) :
      Effect img es (.unlink path) 0 img' (markDeleted e.offset es)

/-! ## Appending to a well-formed log -/

theorem LogView.concat {img img' : Image} {es : List LogEntry} (h : LogView img es)
    {e : LogEntry} (hframe : SameOutside img.byte img'.byte img.head img'.head)
    (he : e = entryAt img'.byte img.head) (hstop : e.stop = img'.head)
    (hin : img'.head ≤ img'.size) : LogView img' (es ++ [e]) := by
  refine ⟨?_, hin⟩
  have hold : LogFrom img'.byte sizeofSb es img.head :=
    h.entries.congr fun i hi hi' => (hframe i (Or.inr hi) (Or.inl hi')).symm
  exact hold.append ⟨he, hstop⟩

theorem WellFormed.concat {img img' : Image} {es : List LogEntry} (h : WellFormed img es)
    {e : LogEntry} (hframe : SameOutside img.byte img'.byte img.head img'.head)
    (he : e = entryAt img'.byte img.head) (hstop : e.stop = img'.head)
    (hin : img'.head ≤ img'.size) (hdata : e.isDir = true → DirData e.data) :
    WellFormed img' (es ++ [e]) := by
  refine ⟨h.toLogView.concat hframe he hstop hin, fun f hf hdir => ?_⟩
  rcases List.mem_append.mp hf with hf | hf
  · exact h.dirs f hf hdir
  · obtain rfl : f = e := by simpa using hf
    exact hdata hdir

/-- What the kernel has checked is `DirsTo` on the list. -/
theorem WellFormed.dirsTo {img : Image} {es : List LogEntry} (h : WellFormed img es) {p : Path}
    (hp : PrefixDirs img p) : DirsTo es p := by
  induction p using List.reverseRecOn with
  | nil => exact DirsTo.nil es
  | append_singleton p a ih =>
      have hp' : DirsTo es p := ih fun q hq hne => hp q (hq.trans (List.prefix_append p [a])) (by
        rintro rfl
        have := hq.length_le
        simp at this)
      obtain ⟨log, hlog, hdir⟩ := hp p (List.prefix_append p [a]) (by simp)
      rw [Resolves, h.exec_pathToLogEntry hp', Option.some.injEq, Prod.mk.injEq] at hlog
      obtain ⟨e, he, rfl⟩ := Option.map_eq_some_iff.mp hlog.1
      rw [(h.toLogView.reads (mem_of_resolve he)).1] at hdir
      exact hp'.concat he hdir

theorem WellFormed.resolves_iff {img : Image} {es : List LogEntry} (h : WellFormed img es)
    {p : Path} (hp : DirsTo es p) {log : Nat} :
    Resolves img p log ↔ ∃ e, resolve es p = some e ∧ e.offset = log := by
  rw [Resolves, h.exec_pathToLogEntry hp, Option.some.injEq, Prod.mk.injEq,
    Option.map_eq_some_iff]
  exact and_iff_left rfl

theorem WellFormed.prefixDirs_iff {img : Image} {es : List LogEntry} (h : WellFormed img es)
    {p : Path} : PrefixDirs img p ↔ DirsTo es p := by
  refine ⟨h.dirsTo, fun hp q hq hne => ?_⟩
  obtain ⟨e, he, hdir⟩ := hp q hq hne
  refine ⟨e.offset, (h.resolves_iff (hp.of_prefix hq)).mpr ⟨e, he, rfl⟩, ?_⟩
  rw [(h.toLogView.reads (mem_of_resolve he)).1]
  exact hdir

/-! ## Every issued call that fits returns, with one of the effects -/

/-- The outcome of a call: it returns, and what it leaves is a well-formed log again. -/
def Served (img : Image) (es : List LogEntry) (c : Call) (p : WfsM Int) : Prop :=
  ∃ r img' es', exec p img = some (r, img') ∧ Effect img es c r img' es' ∧
    WellFormed img' es' ∧ img'.size = img.size

/-- A name that the directory holds is refused. -/
theorem WellFormed.exec_createEntry_exists {img : Image} {es : List LogEntry}
    (h : WellFormed img es) {path : List UInt8} {d : LogEntry} (hmem : d ∈ es)
    (hdir : d.isDir = true)
    (hfind : exec (findParentLogPath path) img = some (some d.offset, img))
    (hnul : 0 ∉ fileName path) (hold : lookupNumber (dentries d.data) (fileName path) ≠ notFound)
    (fields : Nat → List (InodeField × Nat)) :
    exec (createEntry path fields) img = some (eEXIST, img) := by
  have hnumber := h.toLogView.exec_getInodeNumber hmem (h.dirs d hmem hdir) hnul
  simp only [createEntry, exec_bind, hfind, Option.bind_some, h.toLogView.exec_maxInodeNum,
    hnumber, exec_ite, if_pos hold, exec_pure]

/-- The images that the two appends of a creation leave, and their entries. -/
structure TwoAppends (img img1 img2 : Image) (es : List LogEntry) (d newP newF : LogEntry)
    (x : Dentry) : Prop where
  first : WellFormed img1 (es ++ [newP])
  second : WellFormed img2 (es ++ [newP, newF])
  offset : newP.offset = img.head
  inode : newP.inode = Function.update d.inode .size (d.inode .size + sizeofDentry)
  data : DirData newP.data
  records : dentries newP.data = dentries d.data ++ [x]
  stop : newP.stop = img1.head
  fileStop : newF.stop = img2.head
  frame : SameOutside img.byte img2.byte img.head img2.head
  size1 : img1.size = img.size
  size : img2.size = img.size

/-- Both creating handlers on a new name: `fields` are their assignments to the new inode. -/
theorem WellFormed.exec_createEntry_new {img : Image} {es : List LogEntry} (h : WellFormed img es)
    {dir : Path} {name : Name} {newMode uid t : Nat} {fields : Nat → List (InodeField × Nat)}
    (hfields : ∀ num i, assign (fields num) i = freshInode num newMode uid t)
    {d : LogEntry} (hmem : d ∈ es) (hdir : d.isDir = true)
    (hfind : exec (findParentLogPath (render (dir ++ [name]))) img = some (some d.offset, img))
    (hnew : lookupNumber (dentries d.data) name.bytes = notFound)
    (hlen : name.bytes.length < maxFileNameLen)
    (hroom : img.Room (sizeofInode + (d.inode .size + sizeofDentry) + sizeofInode)) :
    ∃ img1 img2 newP newF,
      exec (appendParent d.offset ((maxNumber es + 1) % 2 ^ 32) name.bytes) img =
        some ((), img1) ∧
      exec (appendInode (fields ((maxNumber es + 1) % 2 ^ 32))) img1 = some ((), img2) ∧
      exec (createEntry (render (dir ++ [name])) fields) img = some (0, img2) ∧
      newF = ⟨newP.stop, freshInode ((maxNumber es + 1) % 2 ^ 32) newMode uid t, []⟩ ∧
      TwoAppends img img1 img2 es d newP newF ⟨name.bytes, (maxNumber es + 1) % 2 ^ 32⟩ := by
  obtain ⟨hsize, hword⟩ := hroom
  simp only [sizeofInode, sizeofDentry] at hsize hword
  have hnumber := h.toLogView.exec_getInodeNumber hmem (h.dirs d hmem hdir) name.no_nul
  rw [hnew] at hnumber
  -- The new version of the directory, then the new inode.
  obtain ⟨img1, block, hexec1, hsize1, hhead1, hframe1, hblen, hnul, hdecode, hentry1⟩ :=
    h.toLogView.exec_appendParent hmem name.no_nul hlen
      (show (maxNumber es + 1) % 2 ^ 32 < 2 ^ 64 by omega)
      (by simp only [sizeofInode, sizeofDentry]; omega)
      (by simp only [sizeofInode, sizeofDentry]; omega)
  generalize hP : LogEntry.mk img.head _ _ = newP at hentry1
  have hPstop : newP.stop = img1.head := by
    rw [hhead1, ← hP]
    simp [LogEntry.stop]
  have hPdata : DirData newP.data := by
    rw [← hP]
    exact (h.dirs d hmem hdir).append (DirData.single hblen hnul)
  have hwf1 : WellFormed img1 (es ++ [newP]) := by
    apply h.concat hframe1 hentry1.symm hPstop _ (fun _ => hPdata)
    simp only [sizeofInode, sizeofDentry] at hhead1
    omega
  simp only [sizeofInode, sizeofDentry] at hhead1
  obtain ⟨img2, hexec2, hsize2, hhead2, hframe2, hinode2⟩ :=
    exec_appendInode (fields ((maxNumber es + 1) % 2 ^ 32)) hwf1.entries.le
      (by simp only [sizeofInode]; omega) (by simp only [sizeofInode]; omega)
  rw [hfields] at hinode2
  have hentry2 := entryAt_of_freshInode hinode2
  have hFstop : (entryAt img2.byte img1.head).stop = img2.head := by
    rw [hentry2, hhead2]
    simp [LogEntry.stop, freshInode]
  have hwf2 : WellFormed img2 ((es ++ [newP]) ++ [entryAt img2.byte img1.head]) := by
    apply hwf1.concat hframe2 rfl hFstop
    · simp only [sizeofInode] at hhead2
      omega
    · intro _
      rw [hentry2]
      exact DirData.nil
  rw [List.append_assoc, List.singleton_append] at hwf2
  refine ⟨img1, img2, newP, entryAt img2.byte img1.head, hexec1, hexec2, ?_, ?_,
    ⟨hwf1, hwf2, ?_, ?_, hPdata, ?_, hPstop, hFstop, ?_, hsize1, hsize2.trans hsize1⟩⟩
  · simp only [createEntry, exec_bind, hfind, Option.bind_some, h.toLogView.exec_maxInodeNum,
      fileName_render, hnumber, exec_ite, ne_eq, not_true_eq_false, if_false, hexec1, hexec2,
      exec_pure]
  · rw [hentry2, hPstop]
  · rw [← hP]
  · rw [← hP]
  · rw [← hP, (h.dirs d hmem hdir).dentries_append, dentries_single hblen, hdecode]
  · exact hframe1.trans hframe2 (by omega) (by omega)

/-- The parent that a creation finds: the directory of a prefix of its path. -/
theorem WellFormed.exists_parent {img : Image} {es : List LogEntry} (h : WellFormed img es)
    {dir : Path} {name : Name} (hp : DirsTo es (dir ++ [name])) :
    ∃ q d, q <+: dir ∧ (ParentFits dir → q = dir) ∧ resolve es q = some d ∧ d.isDir = true ∧
      exec (findParentLogPath (render (dir ++ [name]))) img = some (some d.offset, img) := by
  obtain ⟨q, hq, hparent, hfind⟩ := h.exec_findParentLogPath hp
  obtain ⟨d, hd, hdir⟩ := hp q (hq.trans (List.prefix_append dir [name])) (by
    rintro rfl
    have := hq.length_le
    simp at this)
  rw [hd, Option.map_some] at hfind
  exact ⟨q, d, hq, hparent, hd, hdir, hfind⟩

/-- Both creating handlers: `fields` are their assignments to the new inode. -/
theorem WellFormed.served_createEntry {img : Image} {es : List LogEntry} (h : WellFormed img es)
    {kind : Kind} {dir : Path} {name : Name} {mode uid t : Nat}
    {fields : Nat → List (InodeField × Nat)}
    (hfields : ∀ num i, assign (fields num) i = freshInode num (kind.newMode mode) uid t)
    (hp : DirsTo es (dir ++ [name])) (hlen : name.bytes.length < maxFileNameLen)
    (hfits : Call.Fits img (.create kind dir name mode uid t)) :
    Served img es (.create kind dir name mode uid t)
      (createEntry (render (dir ++ [name])) fields) := by
  obtain ⟨q, d, hq, hparent, hd, hdir, hfind⟩ := h.exists_parent hp
  have hmem := mem_of_resolve hd
  have hnumber := h.toLogView.exec_getInodeNumber hmem (h.dirs d hmem hdir) name.no_nul
  by_cases hold : lookupNumber (dentries d.data) name.bytes = notFound
  case neg =>
    refine ⟨eEXIST, img, es, ?_, .createExists hq hparent hd hdir hold, h, rfl⟩
    exact h.exec_createEntry_exists hmem hdir hfind (by rw [fileName_render]; exact name.no_nul)
      (by rw [fileName_render]; exact hold) fields
  case pos =>
    have hroom := hfits d.offset hfind (by rw [hnumber, hold])
    rw [(h.toLogView.reads hmem).1] at hroom
    obtain ⟨img1, img2, newP, newF, -, -, hexec, hfile, htwo⟩ :=
      h.exec_createEntry_new hfields hmem hdir hfind hold hlen hroom
    refine ⟨0, img2, es ++ [newP, newF], hexec, ?_, htwo.second, htwo.size⟩
    exact .created hq hparent hd hdir hold htwo.offset htwo.inode htwo.data htwo.records hfile
      htwo.frame

/-- `my_write`. -/
theorem WellFormed.served_write {img : Image} {es : List LogEntry} (h : WellFormed img es)
    {path : Path} {buffer : List UInt8} {writeOffset : Int} {t : Nat} (hp : DirsTo es path)
    (hreg : ∀ e, resolve es path = some e → e.isReg = true)
    (hfits : Call.Fits img (.write path buffer writeOffset t)) :
    Served img es (.write path buffer writeOffset t)
      (myWrite (render path) buffer writeOffset t) := by
  by_cases hneg : writeOffset < 0
  · exact ⟨0, img, es, by rw [myWrite, if_pos hneg]; rfl, .writeNegative hneg, h, rfl⟩
  have hpos : 0 ≤ writeOffset := by omega
  cases he : resolve es path with
  | none =>
      refine ⟨eNOENT, img, es, ?_, .writeMissing hpos he, h, rfl⟩
      simp [myWrite, hneg, h.exec_pathToLogEntry hp, he]
  | some e =>
      have hmem := mem_of_resolve he
      obtain ⟨hroom, hword⟩ := hfits e.offset ((h.resolves_iff hp).mpr ⟨e, he, rfl⟩) hpos
      rw [(h.toLogView.reads hmem).1] at hroom hword
      obtain ⟨img', hexec, hsize, hhead, hframe, hentry⟩ :=
        h.toLogView.exec_appendVersion hmem buffer writeOffset.toNat t hroom hword
      have hnotDir : e.isDir = false := by
        have hr := hreg e he
        simp only [LogEntry.isReg, isRegMode, beq_iff_eq] at hr
        simp [LogEntry.isDir, isDirMode, hr, sIFREG, sIFDIR]
      refine ⟨toInt buffer.length, img', es ++ [entryAt img'.byte img.head], ?_,
        .written hpos he (hreg e he) hentry hframe, ?_, hsize⟩
      · simp [myWrite, hneg, h.exec_pathToLogEntry hp, he, hexec]
      · apply h.concat hframe rfl
        · rw [hentry, hhead]
          rfl
        · omega
        · intro hdir
          rw [hentry] at hdir
          exact absurd (hnotDir.symm.trans hdir) (by decide)

/-- `wfs_unlink`. -/
theorem WellFormed.served_unlink {img : Image} {es : List LogEntry} (h : WellFormed img es)
    {path : Path} (hp : DirsTo es path) :
    Served img es (.unlink path) (wfsUnlink (render path)) := by
  cases he : resolve es path with
  | none =>
      refine ⟨eNOENT, img, es, ?_, .unlinkMissing he, h, rfl⟩
      simp [wfsUnlink, h.exec_pathToLogEntry hp, he]
  | some e =>
      have hmem := mem_of_resolve he
      by_cases hdir : e.isDir = true
      · refine ⟨eISDIR, img, es, ?_, .unlinkDir he hdir, h, rfl⟩
        have hmode : isDirMode (e.inode .mode) = true := hdir
        simp [wfsUnlink, h.exec_pathToLogEntry hp, he, h.toLogView.exec_loadField hmem, hmode,
          exec_ite]
      · obtain ⟨img', hexec, hsize, _, hinode, hframe, hview⟩ := h.toLogView.exec_kill hmem
        have hfile : e.isDir = false := by simpa using hdir
        refine ⟨0, img', markDeleted e.offset es, ?_, .unlinked he hfile hinode hframe,
          ⟨hview, ?_⟩, hsize⟩
        · have hmode : isDirMode (e.inode .mode) = false := hfile
          simp [wfsUnlink, h.exec_pathToLogEntry hp, he, h.toLogView.exec_loadField hmem, hmode,
            exec_ite, hexec]
        · intro f hf hfdir
          obtain ⟨g, hg, rfl⟩ := List.mem_map.mp hf
          by_cases hoff : g.offset = e.offset
          · rw [if_pos hoff] at hfdir ⊢
            exact h.dirs g hg hfdir
          · rw [if_neg hoff] at hfdir ⊢
            exact h.dirs g hg hfdir

/-- Every issued call that fits on the disk returns with one of the effects. -/
theorem WellFormed.served {img : Image} {es : List LogEntry} (h : WellFormed img es) {c : Call}
    (hissued : c.Issued img) (hfits : c.Fits img) : Served img es c c.run := by
  cases c with
  | create kind dir name mode uid t =>
      obtain ⟨hdirs, hlen⟩ := hissued
      cases kind with
      | file =>
          exact h.served_createEntry (assign_mknodFields mode uid t) (h.dirsTo hdirs) hlen hfits
      | directory =>
          exact h.served_createEntry (assign_mkdirFields mode uid t) (h.dirsTo hdirs) hlen hfits
  | write path buffer writeOffset t =>
      obtain ⟨hdirs, hreg⟩ := hissued
      refine h.served_write (h.dirsTo hdirs) (fun e he => ?_) hfits
      have hmode := hreg e.offset ((h.resolves_iff (h.dirsTo hdirs)).mpr ⟨e, he, rfl⟩)
      rwa [(h.toLogView.reads (mem_of_resolve he)).1] at hmode
  | unlink path => exact h.served_unlink (h.dirsTo hissued)

theorem Call.Issued.dirsTo {img : Image} {es : List LogEntry} {c : Call} (hc : c.Issued img)
    (h : WellFormed img es) : DirsTo es c.path := by
  cases c with
  | create => exact h.dirsTo hc.1
  | write => exact h.dirsTo hc.1
  | unlink => exact h.dirsTo hc

/-- The inversion of a step: the log it leaves, and how that came about. -/
theorem Step.effect {img img' : Image} {ev : Event} (hstep : Step img ev img')
    {es : List LogEntry} (h : WellFormed img es) :
    ∃ es', Effect img es ev.1 ev.2 img' es' ∧ WellFormed img' es' := by
  obtain ⟨hissued, hfits, hexec⟩ := hstep
  obtain ⟨r, img1, es', hexec', heffect, hwf, _⟩ := h.served hissued hfits
  rw [hexec, Option.some.injEq, Prod.mk.injEq] at hexec'
  obtain ⟨hr, rfl⟩ := hexec'
  exact ⟨es', hr ▸ heffect, hwf⟩

end OSProjects.Wfs
