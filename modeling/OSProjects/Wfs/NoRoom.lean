import OSProjects.Wfs.Atomicity

/-!
# Calls without room

No handler looks for space. A call without room runs into the end of the mapping, and the
server dies inside it. What it has stored until then is what it stores on a longer disk, up to
the end of this one.
-/

namespace OSProjects.Wfs

open ByteMemory VersionedLog CString WfsM StepSystem

/-- The same bytes in a mapping of another length. -/
def Image.resized (img : Image) (n : Nat) : Image := { img with size := n }

/-- The server dies inside the call with these stores executed. They are the first ones of those
that the call executes where it has room, and they lie inside the mapping. -/
structure Dies (img : Image) (c : Call) (kept : List Store) : Prop where
  cut : ∃ n r stores, img.size ≤ n ∧ c.Fits (img.resized n) ∧
    c.run (img.resized n) = some (r, stores) ∧ Cut img.head stores kept
  inside : ∀ s ∈ kept, s.stop ≤ img.size

/-- The directory's new version has room. -/
def Call.DirectoryFits (img : Image) : Call → Prop
  | .create _ dir name _ _ _ => ∃ log,
      exec (findParentLogPath (render (dir ++ [name]))) img = some (some log, img) ∧
        exec (getInodeNumber name.bytes (some log)) img = some (notFound, img) ∧
        img.Room (sizeofInode + (inodeAt img.byte log .size + sizeofDentry))
  | _ => False

/-! ## How far an append stores -/

/-- A longer mapping changes nothing for a computation that returns. -/
def Grows {α : Type} (p : WfsM α) : Prop :=
  ∀ img n r, img.size ≤ n → p img = some r → p (img.resized n) = some r

namespace Grows

variable {α β : Type}

theorem bind {p : WfsM α} {f : α → WfsM β} (hp : Grows p) (hf : ∀ a, Grows (f a)) :
    Grows (p >>= f) := by
  intro img n r hn h
  obtain ⟨a, done, b, more, ha, hb, rfl⟩ := of_bind_eq_some h
  have hfirst := hp img n _ hn ha
  have hsecond : f a ((img.resized n).apply done) = some (b, more) :=
    hf a (img.apply done) n _ hn hb
  simp [Bind.bind, hfirst, hsecond]

theorem load (w off : Nat) : Grows (WfsM.load w off) := by
  intro img n r hn h
  unfold WfsM.load at h ⊢
  split at h
  · next hin => exact (if_pos (le_trans hin hn)).trans h
  · cases h

theorem store (off : Nat) (bytes : List UInt8) : Grows (WfsM.store off bytes) := by
  intro img n r hn h
  unfold WfsM.store at h ⊢
  split at h
  · next hin => exact (if_pos (le_trans hin hn)).trans h
  · cases h

theorem memcpy (dst src len : Nat) : Grows (WfsM.memcpy dst src len) := by
  intro img n r hn h
  unfold WfsM.memcpy at h ⊢
  split at h
  · next hin => exact (if_pos ⟨le_trans hin.1 hn, le_trans hin.2 hn⟩).trans h
  · cases h

theorem appendParent (parentLog num : Nat) (name : List UInt8) :
    Grows (appendParent parentLog num name) := by
  refine (load _ _).bind fun _ => (load _ _).bind fun _ => (memcpy _ _ _).bind fun _ => ?_
  refine (load _ _).bind fun _ => (store _ _).bind fun _ => (store _ _).bind fun _ => ?_
  refine (load _ _).bind fun _ => (store _ _).bind fun _ => (load _ _).bind fun _ => ?_
  exact (load _ _).bind fun _ => store _ _

end Grows

section Reach

variable {img : Image} {es : List LogEntry} {e : LogEntry} {stores : List Store}

/-- The number of the new record is stored up to the end of the directory's new version. -/
theorem LogView.reaches_appendParent (h : LogView img es) (he : e ∈ es) {num : Nat}
    {name : List UInt8} (hfits : img.head + (sizeofInode + e.inode .size) ≤ img.size)
    (hrun : appendParent e.offset num name img = some ((), stores)) :
    ∃ s ∈ stores, s.stop = img.head + (sizeofInode + (e.inode .size + sizeofDentry)) := by
  obtain ⟨img1, hcopy, hsize1, hinode1, -, -⟩ := h.exec_copyEntry he hfits
  have hcopied := (readOnly_loadField _ _).of_bind (h.exec_loadField he .size)
    (readOnly_loadHead.of_bind h.exec_loadHead hrun)
  obtain ⟨_, done, _, more, hdone, hrest, hstores⟩ := of_bind_eq_some hcopied
  have hexec := exec_of_run hdone
  rw [hcopy, Option.some.injEq, Prod.mk.injEq] at hexec
  obtain rfl : img1 = img.apply done := hexec.2
  have hsize : exec (loadField img.head .size) (img.apply done) =
      some (e.inode .size, img.apply done) := by
    rw [exec_loadField_of_le (by rw [hsize1]; omega), hinode1]
  obtain ⟨_, number, _, rest, hnumber, -, hmore⟩ :=
    of_bind_eq_some ((readOnly_loadField _ _).of_bind hsize hrest)
  unfold storeWord store at hnumber
  split at hnumber
  · cases hnumber
    obtain rfl := (Prod.mk.inj hstores).2
    obtain rfl := (Prod.mk.inj hmore).2
    refine ⟨_, List.mem_append_right done (List.mem_append_left rest List.mem_cons_self), ?_⟩
    simp only [Store.stop, length_wordBytes, maxFileNameLen, sizeofDentry]
    omega
  · cases hnumber

/-- The inode and the data are copied, and the buffer is stored. -/
theorem LogView.reaches_appendVersion (h : LogView img es) (he : e ∈ es) {buffer : List UInt8}
    {writeOffset t : Nat}
    (hrun : appendVersion e.offset buffer writeOffset t img = some ((), stores)) :
    ∃ s ∈ stores, s.stop = img.head +
      (sizeofInode + writtenSize (e.inode .size) writeOffset buffer.length) := by
  have hcopied := (readOnly_loadField _ _).of_bind (h.exec_loadField he .size)
    (readOnly_loadHead.of_bind h.exec_loadHead hrun)
  obtain ⟨_, done, _, more, hdone, hrest, hstores⟩ := of_bind_eq_some hcopied
  obtain ⟨_, -, hrest⟩ := (readOnly_loadField _ _).eq_of_bind hrest
  obtain ⟨_, grown, _, stored, -, hrest, hmore⟩ := of_bind_eq_some hrest
  obtain ⟨_, data, _, rest, hdata, -, hstored⟩ := of_bind_eq_some hrest
  obtain rfl := (Prod.mk.inj hstores).2
  obtain rfl := (Prod.mk.inj hmore).2
  obtain rfl := (Prod.mk.inj hstored).2
  rcases Nat.le_total (e.inode .size) (writeOffset + buffer.length) with hle | hle
  · unfold store at hdata
    split at hdata
    · cases hdata
      refine ⟨⟨img.head + sizeofInode + writeOffset, buffer⟩, by simp, ?_⟩
      simp only [Store.stop, writtenSize]
      omega
    · cases hdata
  · unfold memcpy at hdone
    split at hdone
    · cases hdone
      refine ⟨_, List.mem_append_left _ List.mem_cons_self, ?_⟩
      simp only [Store.stop, length_readBytes, writtenSize]
      omega
    · cases hdone

/-- The link count is the last member of the inode. -/
theorem reaches_appendInode {fields : List (InodeField × Nat)} {v : Nat}
    (hlinks : (.links, v) ∈ fields) (hsb : sizeofSb ≤ img.size)
    (hrun : appendInode fields img = some ((), stores)) :
    ∃ s ∈ stores, s.stop = img.head + sizeofInode := by
  have hhead : exec loadHead img = some (img.head, img) := exec_loadHead_of_le hsb
  obtain ⟨_, done, _, more, hdone, -, hstores⟩ :=
    of_bind_eq_some (readOnly_loadHead.of_bind hhead hrun)
  obtain rfl := (Prod.mk.inj hstores).2
  suffices hmem : ∃ s ∈ done, s.stop = img.head + sizeofInode from
    hmem.imp fun s hs => ⟨List.mem_append_left more hs.1, hs.2⟩
  clear hrun hstores hhead
  generalize img.head = log at *
  induction fields generalizing img done with
  | nil => cases hlinks
  | cons field fields ih =>
      obtain ⟨_, word, _, rest, hword, hrest, hdone⟩ := of_bind_eq_some hdone
      obtain rfl := (Prod.mk.inj hdone).2
      rcases List.mem_cons.mp hlinks with rfl | hlinks
      · unfold storeField storeWord store at hword
        split at hword
        · cases hword
          exact ⟨_, List.mem_cons_self, by
            simp only [Store.stop, length_wordBytes, InodeField.offset, sizeofInode]⟩
        · cases hword
      · obtain ⟨s, hs, hstop⟩ := ih hlinks (show sizeofSb ≤ (img.apply word).size from hsb) _ hrest
        exact ⟨s, List.mem_append_right word hs, hstop⟩

end Reach

/-! ## What a dying server leaves -/

section

variable {img : Image} {es : List LogEntry} {kept : List Store}

theorem WellFormed.resized (h : WellFormed img es) {n : Nat} (hn : img.head ≤ n) :
    WellFormed (img.resized n) es := ⟨⟨h.entries, hn⟩, h.dirs⟩

/-- The lookups of a creation find the same on a longer disk. -/
theorem WellFormed.lookups_resized (h : WellFormed img es) {n : Nat} (hn : img.head ≤ n)
    {dir : Path} {name : Name} (hdirs : DirsTo es (dir ++ [name])) {log : Nat} :
    (exec (findParentLogPath (render (dir ++ [name]))) (img.resized n) =
        some (some log, img.resized n) ↔
      exec (findParentLogPath (render (dir ++ [name]))) img = some (some log, img)) ∧
    (exec (findParentLogPath (render (dir ++ [name]))) img = some (some log, img) →
      (exec (getInodeNumber name.bytes (some log)) (img.resized n) =
          some (notFound, img.resized n) ↔
        exec (getInodeNumber name.bytes (some log)) img = some (notFound, img))) := by
  obtain ⟨q, hq, -, hfound⟩ := exists_parentFound dir name
  obtain ⟨d, hd, hdir⟩ := hdirs q (hq.trans (List.prefix_append dir [name])) (by
    rintro rfl
    have hlength := hq.length_le
    simp at hlength)
  have hsame : ∀ {log}, some (Option.map (fun e : LogEntry => e.offset) (resolve es q), img) =
      some (some log, img) ↔ d.offset = log := by
    intro log
    rw [hd, Option.some.injEq, Prod.mk.injEq, Option.map_some, Option.some.injEq]
    exact and_iff_left rfl
  have hlong := h.resized hn
  refine ⟨?_, fun hlog => ?_⟩
  · rw [hfound _ es hlong hdirs, hfound _ es h hdirs, hsame]
    rw [hd, Option.some.injEq, Prod.mk.injEq, Option.map_some, Option.some.injEq]
    exact and_iff_left rfl
  · rw [hfound _ es h hdirs, hsame] at hlog
    subst hlog
    have hmem := mem_of_resolve hd
    rw [h.toLogView.exec_getInodeNumber hmem (h.dirs d hmem hdir) name.no_nul,
      hlong.toLogView.exec_getInodeNumber hmem (h.dirs d hmem hdir) name.no_nul,
      Option.some.injEq, Option.some.injEq, Prod.mk.injEq, Prod.mk.injEq]
    exact ⟨fun hfree => ⟨hfree.1, rfl⟩, fun hfree => ⟨hfree.1, rfl⟩⟩

section Creation

variable {n : Nat} {kind : Kind} {dir : Path} {name : Name} {mode uid t : Nat}
  {fields : Nat → List (InodeField × Nat)} {q : Path} {d newP newF : LogEntry}
  {first second : List Store}

/-- When all of the first append lies inside the mapping, the directory's new version has had
room. -/
theorem PublishesBoth.parent_fits (h : WellFormed img es) (hn : img.size ≤ n)
    (hdirs : DirsTo es (dir ++ [name]))
    (hboth : PublishesBoth (img.resized n) es dir name fields q d newP newF first second)
    (hinside : ∀ s ∈ first, s.stop ≤ img.size) :
    WellFormed (img.apply first) (es ++ [newP]) ∧
      Call.DirectoryFits img (.create kind dir name mode uid t) := by
  have hlookup := @WellFormed.lookups_resized img es h n (h.inside.trans hn) dir name hdirs
  have hlong := h.resized (h.inside.trans hn)
  have hmem := mem_of_resolve hboth.creates.parent
  have hfound := hlookup.1.mp hboth.found
  have habsent := (hlookup.2 hfound).mp hboth.absent
  have hhead : (img.apply first).head =
    img.head + (sizeofInode + (d.inode .size + sizeofDentry)) := hboth.head
  obtain ⟨num, hparent⟩ := hboth.parent
  obtain ⟨s, hs, hstop⟩ := hlong.toLogView.reaches_appendParent hmem (by
    have hin := hboth.wellFormed.inside
    rw [hboth.head] at hin
    exact le_trans (by omega) hin) hparent
  have hin : (img.apply first).head ≤ img.size := by
    rw [hhead]
    exact hstop ▸ hinside s hs
  refine ⟨hboth.wellFormed.resized hin, d.offset, hfound, habsent, ?_⟩
  rw [(h.toLogView.reads hmem).1, Image.Room, ← hhead]
  exact ⟨hin, (img.apply first).head_lt⟩

/-- When all of the second append does, the call has had room. -/
theorem PublishesBoth.fits (h : WellFormed img es) (hn : img.size ≤ n)
    (hdirs : DirsTo es (dir ++ [name]))
    (hboth : PublishesBoth (img.resized n) es dir name fields q d newP newF first second)
    (hlinks : ∀ num, ∃ v, (.links, v) ∈ fields num)
    (hfits : Call.Fits (img.resized n) (.create kind dir name mode uid t))
    (hinside : ∀ s ∈ second, s.stop ≤ img.size) :
    Call.Fits img (.create kind dir name mode uid t) := by
  intro log hlog _
  have hlookup := @WellFormed.lookups_resized img es h n (h.inside.trans hn) dir name hdirs
  rw [hlookup.1.mp hboth.found, Option.some.injEq, Prod.mk.injEq, Option.some.injEq] at hlog
  obtain ⟨rfl, -⟩ := hlog
  have hinode := (h.toLogView.reads (mem_of_resolve hboth.creates.parent)).1
  have hsame : inodeAt (img.resized n).byte d.offset = d.inode := hinode
  have hword := (hfits d.offset hboth.found hboth.absent).2
  obtain ⟨num, hrun⟩ := hboth.inode
  obtain ⟨v, hv⟩ := hlinks num
  obtain ⟨s, hs, hstop⟩ := reaches_appendInode hv
    (hboth.wellFormed.entries.le.trans hboth.wellFormed.inside) hrun
  have hlast := hinside s hs
  rw [hstop, hboth.head] at hlast
  rw [hsame] at hword
  rw [hinode]
  exact ⟨le_trans (by simp only [Image.head, Image.resized]; omega) hlast, hword⟩

end Creation

/-- A creation without room. -/
theorem WellFormed.dies_create (h : WellFormed img es) (hrec : Recorded es) {kind : Kind}
    {dir : Path} {name : Name} {mode uid t : Nat} {fields : Nat → List (InodeField × Nat)}
    (hfields : ∀ num i, assign (fields num) i = freshInode num (kind.newMode mode) uid t)
    (hlinks : ∀ num, ∃ v, (.links, v) ∈ fields num)
    (hrunDef : Call.run (.create kind dir name mode uid t) =
      createEntry (render (dir ++ [name])) fields)
    (hissued : Call.Issued img (.create kind dir name mode uid t))
    (hno : ¬ Call.Fits img (.create kind dir name mode uid t))
    (hdies : Dies img (.create kind dir name mode uid t) kept) :
    SameView img (img.apply kept) ∧
      (DentriesFound img → ¬ Call.DirectoryFits img (.create kind dir name mode uid t) →
        DentriesFound (img.apply kept)) := by
  obtain ⟨⟨n, r, stores, hn, hfits, hrun, hcut⟩, hinside⟩ := hdies
  have hdirs := h.dirsTo hissued.1
  rw [hrunDef] at hrun
  obtain ⟨rfl, -⟩ | ⟨q, d, newP, newF, first, second, rfl, hboth⟩ :=
    (h.resized (h.inside.trans hn)).creation hrec hfields hdirs hissued.2 hfits hrun
  · rw [hcut.nil, Image.apply_nil]
    exact ⟨SameView.refl img, fun hfound _ => hfound⟩
  · obtain hcut1 | ⟨rest, rfl, hcut2⟩ := hcut.append
    · obtain hbehind | rfl := hcut1.publishes h.entries.le hboth.publishes
      · obtain ⟨hview, hleft⟩ := h.atomic_of_behind hbehind
        exact ⟨hview, fun hfound _ => hleft hfound⟩
      · obtain ⟨hwf, hroom⟩ := hboth.parent_fits h hn hdirs hinside
        exact ⟨h.sameView_parent hrec hboth.creates hwf, fun _ hnone => absurd hroom hnone⟩
    · obtain ⟨hwf, hroom⟩ := hboth.parent_fits h hn hdirs fun s hs =>
        hinside s (List.mem_append_left rest hs)
      rw [Image.apply_append]
      obtain hbehind | rfl := hcut2.publishes h.entries.le hboth.publishesInode
      · exact ⟨h.sameView_parent hrec hboth.creates (hwf.apply_behind hbehind),
          fun _ hnone => absurd hroom hnone⟩
      · -- The whole call has been executed, so it has had room.
        exact absurd (hboth.fits h hn hdirs hlinks hfits fun s hs =>
          hinside s (List.mem_append_right first hs)) hno

/-- With room for the directory's new version alone, the name is published without its inode. -/
theorem WellFormed.dies_dangling (h : WellFormed img es) (hrec : Recorded es) {kind : Kind}
    {dir : Path} {name : Name} {mode uid t : Nat} {fields : Nat → List (InodeField × Nat)}
    (hfields : ∀ num i, assign (fields num) i = freshInode num (kind.newMode mode) uid t)
    (hrunDef : Call.run (.create kind dir name mode uid t) =
      createEntry (render (dir ++ [name])) fields)
    (hissued : Call.Issued img (.create kind dir name mode uid t)) {n : Nat} (hn : img.size ≤ n)
    (hfits : Call.Fits (img.resized n) (.create kind dir name mode uid t))
    (hroom : Call.DirectoryFits img (.create kind dir name mode uid t)) :
    ∃ kept, Dies img (.create kind dir name mode uid t) kept ∧
      ¬ DentriesFound (img.apply kept) := by
  have hdirs := h.dirsTo hissued.1
  have hlookup := @WellFormed.lookups_resized img es h n (h.inside.trans hn) dir name hdirs
  have hlong := h.resized (h.inside.trans hn)
  obtain ⟨r, img', es', hexec, -, -, -⟩ :=
    hlong.served (c := .create kind dir name mode uid t)
      ⟨hlong.prefixDirs_iff.mpr hdirs, hissued.2⟩ hfits
  obtain ⟨stores, hrun, -⟩ := run_eq_of_exec hexec
  have hcreate := hrun
  rw [hrunDef] at hcreate
  obtain ⟨log, hlog, habsent, hin, hword⟩ := hroom
  obtain ⟨-, hnot⟩ | ⟨q, d, newP, newF, first, second, rfl, hboth⟩ :=
    hlong.creation hrec hfields hdirs hissued.2 hfits hcreate
  · exact absurd ⟨log, hlookup.1.mpr hlog, (hlookup.2 hlog).mpr habsent⟩ hnot
  · have hmem := mem_of_resolve hboth.creates.parent
    have hfound := hlookup.1.mp hboth.found
    rw [hlog, Option.some.injEq, Prod.mk.injEq, Option.some.injEq] at hfound
    obtain ⟨rfl, -⟩ := hfound
    rw [(h.toLogView.reads hmem).1] at hin hword
    obtain ⟨num, hparent⟩ := hboth.parent
    -- This mapping is long enough for the first append.
    obtain ⟨img1, hexec1, -⟩ := h.toLogView.exec_appendRecord hmem name.bytes num hin (by
      have hlen := hissued.2
      simp only [maxFileNameLen, sizeofDentry] at hlen hin
      omega) hword
    obtain ⟨stores1, hrun1, -⟩ := run_eq_of_exec hexec1
    have hsame := Grows.appendParent _ _ _ img n _ hn hrun1
    rw [hparent, Option.some.injEq, Prod.mk.injEq] at hsame
    obtain rfl : first = stores1 := hsame.2
    have hhead : (img.apply first).head ≤ img.size := le_trans (le_of_eq hboth.head) hin
    have hwf : WellFormed (img.apply first) (es ++ [newP]) := hboth.wellFormed.resized hhead
    refine ⟨first, ⟨⟨n, r, _, hn, hfits, hrun, Cut.before first second⟩,
      (publishes_appendParent hrun1).inside⟩, fun hleft => ?_⟩
    exact hboth.creates.not_backed (hwf.dentriesFound_iff.mp hleft)

theorem WellFormed.dies_create_iff (h : WellFormed img es) (hrec : Recorded es) {kind : Kind}
    {dir : Path} {name : Name} {mode uid t : Nat} {fields : Nat → List (InodeField × Nat)}
    (hfields : ∀ num i, assign (fields num) i = freshInode num (kind.newMode mode) uid t)
    (hlinks : ∀ num, ∃ v, (.links, v) ∈ fields num)
    (hrunDef : Call.run (.create kind dir name mode uid t) =
      createEntry (render (dir ++ [name])) fields)
    (hissued : Call.Issued img (.create kind dir name mode uid t))
    (hno : ¬ Call.Fits img (.create kind dir name mode uid t)) {n : Nat} (hn : img.size ≤ n)
    (hfits : Call.Fits (img.resized n) (.create kind dir name mode uid t)) :
    (∀ kept, Dies img (.create kind dir name mode uid t) kept → SameView img (img.apply kept)) ∧
      ((∀ kept, Dies img (.create kind dir name mode uid t) kept →
          DentriesFound img → DentriesFound (img.apply kept)) ↔
        (DentriesFound img → ¬ Call.DirectoryFits img (.create kind dir name mode uid t))) := by
  refine ⟨fun kept hdies => (h.dies_create hrec hfields hlinks hrunDef hissued hno hdies).1,
    fun hleft hfound hroom => ?_, fun hcond kept hdies hfound => ?_⟩
  · obtain ⟨kept, hdies, hlost⟩ := h.dies_dangling hrec hfields hrunDef hissued hn hfits hroom
    exact hlost (hleft kept hdies hfound)
  · exact (h.dies_create hrec hfields hlinks hrunDef hissued hno hdies).2 hfound (hcond hfound)

/-- A write without room. -/
theorem WellFormed.dies_write (h : WellFormed img es) {path : Path} {buffer : List UInt8}
    {writeOffset : Int} {t : Nat} (hissued : Call.Issued img (.write path buffer writeOffset t))
    (hno : ¬ Call.Fits img (.write path buffer writeOffset t))
    (hdies : Dies img (.write path buffer writeOffset t) kept) :
    SameView img (img.apply kept) ∧ (DentriesFound img → DentriesFound (img.apply kept)) := by
  obtain ⟨⟨n, r, stores, hn, hfits, hrun, hcut⟩, hinside⟩ := hdies
  have hdirs := h.dirsTo hissued.1
  have hlong := h.resized (h.inside.trans hn)
  obtain hr | hr | ⟨-, hpub, cur, hcur, hpos, happend⟩ := stores_myWrite hrun
  · obtain rfl := (Prod.mk.inj hr).2
    rw [hcut.nil, Image.apply_nil]
    exact ⟨SameView.refl img, id⟩
  · obtain rfl := (Prod.mk.inj hr).2
    rw [hcut.nil, Image.apply_nil]
    exact ⟨SameView.refl img, id⟩
  · obtain hbehind | rfl := hcut.publishes h.entries.le hpub
    · exact h.atomic_of_behind hbehind
    · refine absurd ?_ hno
      intro log hlog _
      obtain ⟨e, he, rfl⟩ := (hlong.resolves_iff hdirs).mp hcur
      obtain ⟨e', he', rfl⟩ := (h.resolves_iff hdirs).mp hlog
      obtain rfl : e = e' := Option.some.inj (he.symm.trans he')
      have hmem := mem_of_resolve he
      obtain ⟨s, hs, hstop⟩ := hlong.toLogView.reaches_appendVersion hmem happend
      have hinode := (h.toLogView.reads hmem).1
      have hword := (hfits e.offset hcur hpos).2
      have hsame : inodeAt (img.resized n).byte e.offset = e.inode := hinode
      rw [hsame] at hword
      rw [hinode]
      exact ⟨hstop ▸ hinside s hs, hword⟩

end

/-- After every run from a fresh disk, a call without room leaves what the paths resolve to as
it was, wherever the server dies in it. No record is left dangling that was not dangling before
exactly when the directory's new version has no room either. -/
theorem dies_iff {img0 img : Image} {evs : List Event} (h0 : Fresh img0)
    (hrun : Run Step img0 evs img) {c : Call} (hissued : c.Issued img) (hno : ¬ c.Fits img)
    {n : Nat} (hn : img.size ≤ n) (hfits : c.Fits (img.resized n)) :
    (∀ kept, Dies img c kept → SameView img (img.apply kept)) ∧
      ((∀ kept, Dies img c kept → DentriesFound img → DentriesFound (img.apply kept)) ↔
        (DentriesFound img → ¬ c.DirectoryFits img)) := by
  obtain ⟨es, h, hrec⟩ := Run.recorded hrun h0
  cases c with
  | create kind dir name mode uid t =>
      cases kind with
      | file =>
          exact h.dies_create_iff hrec (assign_mknodFields mode uid t)
            (fun num => ⟨1, by simp [mknodFields]⟩) rfl hissued hno hn hfits
      | directory =>
          exact h.dies_create_iff hrec (assign_mkdirFields mode uid t)
            (fun num => ⟨1, by simp [mkdirFields]⟩) rfl hissued hno hn hfits
  | write path buffer writeOffset t =>
      have hsafe := fun kept hdies => @WellFormed.dies_write img es kept h _ _ _ _ hissued hno hdies
      exact ⟨fun kept hdies => (hsafe kept hdies).1, fun _ _ hnone => hnone,
        fun _ kept hdies => (hsafe kept hdies).2⟩
  | unlink path => exact absurd trivial hno

end OSProjects.Wfs
