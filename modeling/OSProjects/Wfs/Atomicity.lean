import OSProjects.Wfs.Space
import OSProjects.Wfs.Uniqueness

/-!
# What a killed server leaves

The image is a shared mapping of the disk file. A server that is killed leaves the stores
that it has executed, and the next server reads them.
-/

namespace OSProjects.Wfs

open ByteMemory VersionedLog CString WfsM StepSystem

/-! ## The stores executed so far -/

/-- The stores executed by a server that is killed. Of a copy behind the head only a part
may be there; a word is stored at once. -/
inductive Cut (hd : Nat) : List Store → List Store → Prop
  | none {stores} : Cut hd stores []
  | part {s rest} (n : Nat) (h : hd ≤ s.offset) :
      Cut hd (s :: rest) [⟨s.offset, s.bytes.take n⟩]
  | next {s rest kept} (h : Cut hd rest kept) : Cut hd (s :: rest) (s :: kept)

namespace Cut

variable {hd : Nat} {a b stores kept : List Store}

theorem before (a b : List Store) : Cut hd (a ++ b) a := by
  induction a with
  | nil => exact none
  | cons s a ih => exact ih.next

theorem all (stores : List Store) : Cut hd stores stores := by
  have h : Cut hd (stores ++ []) stores := before stores []
  rwa [List.append_nil] at h

theorem append (h : Cut hd (a ++ b) kept) :
    Cut hd a kept ∨ ∃ rest, kept = a ++ rest ∧ Cut hd b rest := by
  induction a generalizing kept with
  | nil => exact Or.inr ⟨kept, rfl, h⟩
  | cons s a ih =>
      cases h with
      | none => exact Or.inl none
      | part n h => exact Or.inl (part n h)
      | next h =>
          obtain hcut | ⟨rest, rfl, hcut⟩ := ih h
          · exact Or.inl hcut.next
          · exact Or.inr ⟨rest, rfl, hcut⟩

theorem behind {low : Nat} (h : Cut hd stores kept) (hlow : ∀ s ∈ stores, low ≤ s.offset) :
    ∀ s ∈ kept, low ≤ s.offset := by
  induction h with
  | none => simp
  | part n h => simpa using hlow _ List.mem_cons_self
  | @next s rest kept h ih =>
      intro t ht
      rcases List.mem_cons.mp ht with rfl | ht
      · exact hlow t List.mem_cons_self
      · exact ih (fun u hu => hlow u (List.mem_cons_of_mem s hu)) t ht

theorem nil (h : Cut hd [] kept) : kept = [] := by
  cases h
  rfl

/-- A word before the head is stored or not. -/
theorem word {s : Store} (h : Cut hd [s] kept) (hs : s.offset < hd) : kept = [] ∨ kept = [s] := by
  cases h with
  | none => exact Or.inl rfl
  | part n h => omega
  | next h => exact Or.inr (by rw [h.nil])

/-- Until the head is assigned, every store lies behind it. -/
theorem publishes {low size : Nat} (h : Cut hd stores kept) (hhd : sizeofSb ≤ hd)
    (hpub : Publishes low size stores) : (∀ s ∈ kept, low ≤ s.offset) ∨ kept = stores := by
  obtain ⟨body, v, rfl, -, hbody⟩ := hpub
  have hlow : ∀ s ∈ body, low ≤ s.offset := fun s hs => (hbody s hs).1
  obtain hcut | ⟨rest, rfl, hcut⟩ := h.append
  · exact Or.inl (hcut.behind hlow)
  · simp only [sizeofSb] at hhd
    obtain rfl | rfl := hcut.word (show 4 < hd by omega)
    · exact Or.inl (by simpa using hlow)
    · exact Or.inr rfl

end Cut

/-- Stores behind the head change nothing that the server reads. -/
theorem WellFormed.apply_behind {img : Image} {es : List LogEntry} (h : WellFormed img es)
    {kept : List Store} (hkept : ∀ s ∈ kept, img.head ≤ s.offset) :
    WellFormed (img.apply kept) es := by
  have hle := h.entries.le
  have hbyte : ∀ i, i < img.head → (img.apply kept).byte i = img.byte i := fun i hi =>
    applyAll_of_lt (fun s hs => Nat.lt_of_lt_of_le hi (hkept s hs)) img.byte
  have hhead : (img.apply kept).head = img.head := by
    refine head_congr fun i _ hi => hbyte i ?_
    simp only [sizeofSb] at hle
    omega
  refine ⟨⟨?_, ?_⟩, h.dirs⟩
  · rw [hhead]
    exact h.entries.congr fun i _ hi => (hbyte i hi).symm
  · rw [hhead]
    exact h.inside

/-! ## What the server shows -/

/-- The kind of an entry, and the contents of a file. -/
def LogEntry.face (e : LogEntry) : Nat × List UInt8 :=
  (e.inode .mode &&& sIFMT, if e.isDir then [] else e.data)

/-- What the server finds at a path. -/
def shown (img : Image) (p : Path) : Option (Option (Nat × List UInt8)) :=
  (exec (pathToLogEntry (render p)) img).map fun r =>
    r.1.map fun log => (entryAt img.byte log).face

/-- The same paths resolve, to the same kinds and the same contents. -/
def SameView (img img' : Image) : Prop :=
  ∀ p, (PrefixDirs img p ↔ PrefixDirs img' p) ∧ (PrefixDirs img p → shown img p = shown img' p)

theorem SameView.refl (img : Image) : SameView img img := fun _ => ⟨Iff.rfl, fun _ => rfl⟩

/-- Every record of a current directory names an inode that `get_log_entry` finds. -/
def DentriesFound (img : Image) : Prop :=
  ∀ n log, exec (getLogEntry n) img = some (some log, img) →
    isDirMode (inodeAt img.byte log .mode) = true →
    ∀ x ∈ dentries (entryAt img.byte log).data,
      ∃ found, exec (getLogEntry (x.inodeNumber % 2 ^ 32)) img = some (some found, img)

/-- `DentriesFound` of a list. -/
def Backed (es : List LogEntry) : Prop :=
  ∀ d, Current es d → d.isDir = true → ∀ x ∈ dentries d.data,
    newest (LogEntry.isVersion (x.inodeNumber % 2 ^ 32)) es ≠ none

section

variable {img img' : Image} {es es' : List LogEntry}

theorem LogView.entryAt_eq (h : LogView img es) {e : LogEntry} (he : e ∈ es) :
    entryAt img.byte e.offset = e :=
  (h.bounds he).1.symm

theorem WellFormed.shown_eq (h : WellFormed img es) {p : Path} (hp : DirsTo es p) :
    shown img p = some ((resolve es p).map LogEntry.face) := by
  rw [shown, h.exec_pathToLogEntry hp]
  cases he : resolve es p with
  | none => rfl
  | some e => simp [h.toLogView.entryAt_eq (mem_of_resolve he)]

theorem WellFormed.sameView (h : WellFormed img es) (h' : WellFormed img' es')
    (hdirs : ∀ p, DirsTo es p ↔ DirsTo es' p)
    (hface : ∀ p, DirsTo es p →
      (resolve es p).map LogEntry.face = (resolve es' p).map LogEntry.face) :
    SameView img img' := by
  intro p
  refine ⟨?_, fun hp => ?_⟩
  · rw [h.prefixDirs_iff, h'.prefixDirs_iff]
    exact hdirs p
  · have hes := h.dirsTo hp
    rw [h.shown_eq hes, h'.shown_eq ((hdirs p).mp hes), hface p hes]

theorem WellFormed.sameView_of_same (h : WellFormed img es) (h' : WellFormed img' es) :
    SameView img img' :=
  h.sameView h' (fun _ => Iff.rfl) fun _ _ => rfl

theorem WellFormed.dentriesFound_iff (h : WellFormed img es) : DentriesFound img ↔ Backed es := by
  have hfind := h.toLogView.exec_getLogEntry
  constructor
  · intro hfound d hd hdir x hx
    have hmem := hd.mem
    have hlog : exec (getLogEntry d.number) img = some (some d.offset, img) := by
      rw [hfind, hd]
      rfl
    rw [← h.toLogView.entryAt_eq hmem] at hx
    obtain ⟨found, hfound⟩ := hfound d.number d.offset hlog
      (by rw [(h.toLogView.reads hmem).1]; exact hdir) x hx
    rw [hfind, Option.some.injEq, Prod.mk.injEq] at hfound
    intro hnone
    rw [hnone] at hfound
    cases hfound.1
  · intro hbacked n log hlog hdir x hx
    rw [hfind, Option.some.injEq, Prod.mk.injEq] at hlog
    obtain ⟨d, hd, rfl⟩ := Option.map_eq_some_iff.mp hlog.1
    have hcur := current_of_newest hd
    rw [(h.toLogView.reads hcur.mem).1] at hdir
    rw [h.toLogView.entryAt_eq hcur.mem] at hx
    obtain ⟨f, hf⟩ := Option.ne_none_iff_exists'.mp (hbacked d hcur hdir x hx)
    exact ⟨f.offset, by rw [hfind, hf]; rfl⟩

end

/-! ## Reachable logs -/

/-- The records of directories hold words, the greatest live number is small, and the number
of the root is a directory's. -/
structure Recorded (es : List LogEntry) : Prop where
  word : ∀ e ∈ es, e.isDir = true → ∀ x ∈ dentries e.data, x.inodeNumber < 2 ^ 32
  bound : maxNumber es < es.length
  kinds : OneKind es
  root : ∀ e ∈ es, e.number = 0 → e.isDir = true

theorem recorded_rootEntry (t : Nat) : Recorded [rootEntry t] := by
  have hfresh := freshNumbers_rootEntry t
  refine ⟨fun e he _ x hx => ?_, hfresh.bound, hfresh.kinds, fun e he _ => ?_⟩
  · obtain rfl : e = rootEntry t := by simpa using he
    simp [rootEntry] at hx
  · obtain rfl : e = rootEntry t := by simpa using he
    exact (by decide : isDirMode (sIFDIR % 2 ^ 32) = true)

theorem Creates.recorded {es : List LogEntry} {q : Path} {name : Name} {d newP newF : LogEntry}
    (hc : Creates es q name d newP newF) (h : Recorded es) :
    Recorded (es ++ [newP] ++ [newF]) := by
  have hd := mem_of_resolve hc.parent
  refine ⟨fun e he hdir x hx => ?_, ?_, hc.oneKind h.kinds, fun e he hn => ?_⟩
  · simp only [List.append_assoc, List.mem_append, List.mem_singleton] at he
    obtain he | rfl | rfl := he
    · exact h.word e he hdir x hx
    · rw [hc.records] at hx
      obtain hx | hx := List.mem_append.mp hx
      · exact h.word d hd hc.isDir x hx
      · obtain rfl := List.mem_singleton.mp hx
        exact hc.word
    · rw [hc.empty] at hx
      cases hx
  · have hbound := h.bound
    rw [hc.maxNumber_both]
    simp only [List.length_append, List.length_singleton]
    omega
  · simp only [List.append_assoc, List.mem_append, List.mem_singleton] at he
    obtain he | rfl | rfl := he
    · exact h.root e he hn
    · exact hc.parent_isDir.trans hc.isDir
    · rw [hc.number] at hn
      omega

theorem Rewrites.recorded {es : List LogEntry} {p : Path} {e new : LogEntry}
    (hr : Rewrites es p e new) (h : Recorded es) : Recorded (es ++ [new]) := by
  refine ⟨fun f hf hdir x hx => ?_, ?_, hr.oneKind h.kinds, fun f hf hn => ?_⟩
  · obtain hf | hf := List.mem_append.mp hf
    · exact h.word f hf hdir x hx
    · obtain rfl := List.mem_singleton.mp hf
      rw [hr.kind, hr.file] at hdir
      cases hdir
  · rw [hr.maxNumber_new, List.length_append]
    exact Nat.lt_add_right _ h.bound
  · obtain hf | hf := List.mem_append.mp hf
    · exact h.root f hf hn
    · obtain rfl := List.mem_singleton.mp hf
      rw [hr.kind]
      exact h.root e (mem_of_resolve hr.resolves) (hr.number.symm.trans hn)

theorem Removes.recorded {es : List LogEntry} {p : Path} {e : LogEntry} (hr : Removes es p e)
    (h : Recorded es) : Recorded (markDeleted e.offset es) := by
  -- A deleted entry keeps its number, kind and data.
  have hmem : ∀ f ∈ markDeleted e.offset es, ∃ g ∈ es, f.number = g.number ∧
      f.isDir = g.isDir ∧ f.data = g.data := by
    intro f hf
    obtain ⟨g, hg, rfl⟩ := List.mem_map.mp hf
    refine ⟨g, hg, ?_⟩
    split
    · exact ⟨rfl, rfl, rfl⟩
    · exact ⟨rfl, rfl, rfl⟩
  refine ⟨fun f hf hdir x hx => ?_, ?_, hr.oneKind h.kinds, fun f hf hn => ?_⟩
  · obtain ⟨g, hg, -, hkind, hdata⟩ := hmem f hf
    exact h.word g hg (hkind ▸ hdir) x (hdata ▸ hx)
  · rw [markDeleted, List.length_map]
    exact Nat.lt_of_le_of_lt hr.maxNumber_le h.bound
  · obtain ⟨g, hg, hnumber, hkind, -⟩ := hmem f hf
    exact hkind.trans (h.root g hg (hnumber.symm.trans hn))

theorem Recorded.effect {img img' : Image} {es es' : List LogEntry} {c : Call} {r : Int}
    (h : Recorded es) (hwf : WellFormed img es) (hdirs : DirsTo es c.path)
    (heffect : Effect img es c r img' es') : Recorded es' := by
  rcases heffect.log_cases hwf h.bound hdirs with
    rfl | ⟨q, name, d, newP, newF, hc, rfl⟩ | ⟨p, e, new, hw, rfl⟩ | ⟨p, e, -, hr, rfl⟩
  · exact h
  · exact hc.recorded h
  · exact hw.recorded h
  · exact hr.recorded h

theorem Run.recorded {img0 img : Image} {evs : List Event} (hrun : Run Step img0 evs img)
    (h0 : Fresh img0) : ∃ es, WellFormed img es ∧ Recorded es := by
  have hif : Run (StepIf fun _ _ => True) img0 evs img :=
    hrun.mono fun _ _ _ hs => ⟨hs, trivial⟩
  exact Run.log_invariant (P := fun _ _ es => Recorded es) hif h0
    (fun t _ => recorded_rootEntry t)
    fun _ _ _ _ _ _ _ hwf h _ hdirs heffect _ => h.effect hwf hdirs heffect

/-! ## Each call, killed anywhere -/

/-- Wherever the server is killed, the image shows the state before the call or the state
after it, and the records of directories stay found. -/
def Atomic (img : Image) (c : Call) : Prop :=
  ∀ r stores kept, c.run img = some (r, stores) → Cut img.head stores kept →
    (SameView img (img.apply kept) ∨ SameView (img.apply stores) (img.apply kept)) ∧
      (DentriesFound img → DentriesFound (img.apply kept))

/-- The call publishes a name before its inode, or takes the last version of an inode away. -/
def Call.Dangles (img : Image) : Call → Prop
  | .create _ dir name _ _ _ => ∃ log,
      exec (findParentLogPath (render (dir ++ [name]))) img = some (some log, img) ∧
        exec (getInodeNumber name.bytes (some log)) img = some (notFound, img)
  | .write _ _ _ _ => False
  | .unlink path => ∃ log es, Resolves img path log ∧
      isDirMode (inodeAt img.byte log .mode) = false ∧
      LogFrom img.byte sizeofSb es img.head ∧
      ∀ f ∈ es, f.live = true → f.number = inodeAt img.byte log .inodeNumber → f.offset = log

section

variable {img : Image} {es : List LogEntry}

/-- A call without stores. -/
theorem WellFormed.atomic_of_nil (h : WellFormed img es) {kept : List Store}
    (hcut : Cut img.head [] kept) :
    (SameView img (img.apply kept) ∨ SameView (img.apply []) (img.apply kept)) ∧
      (DentriesFound img → DentriesFound (img.apply kept)) := by
  rw [hcut.nil, Image.apply_nil]
  exact ⟨Or.inl (h.sameView_of_same h), id⟩

/-- A call killed before it assigns the head. -/
theorem WellFormed.atomic_of_behind (h : WellFormed img es) {kept : List Store}
    (hkept : ∀ s ∈ kept, img.head ≤ s.offset) :
    SameView img (img.apply kept) ∧ (DentriesFound img → DentriesFound (img.apply kept)) := by
  have h' := h.apply_behind hkept
  refine ⟨h.sameView_of_same h', fun hfound => ?_⟩
  exact h'.dentriesFound_iff.mpr (h.dentriesFound_iff.mp hfound)

/-- The directory's new version shows the same until the inode is there. -/
theorem Creates.face_parent {q : Path} {name : Name} {d newP newF : LogEntry}
    (h : Creates es q name d newP newF) (hnum : Numbered d) {p : Path} (hp : DirsTo es p) :
    (resolve es p).map LogEntry.face = (resolve (es ++ [newP]) p).map LogEntry.face := by
  rw [h.resolve_parent hnum hp, Option.map_map]
  cases hx : resolve es p with
  | none => rfl
  | some x =>
      have hface : x.face = (bump newP x).face := by
        unfold bump
        split
        · next hn =>
          have hxd : x = d := (current_of_resolve hx).unique (current_of_resolve h.parent)
            (hn.trans h.parent_number)
          have hmode : newP.inode .mode = d.inode .mode := by
            rw [h.inode]
            rfl
          simp [LogEntry.face, hxd, h.parent_isDir, h.isDir, hmode]
        · rfl
      exact congrArg some hface

theorem WellFormed.sameView_parent (h : WellFormed img es) (hrec : Recorded es) {q : Path}
    {name : Name} {d newP newF : LogEntry} (hcr : Creates es q name d newP newF) {img' : Image}
    (h' : WellFormed img' (es ++ [newP])) : SameView img img' := by
  have hnum : Numbered d := by
    intro x hx
    have hword := hrec.word d (mem_of_resolve hcr.parent) hcr.isDir x hx
    simp only [notFound]
    omega
  exact h.sameView h' (fun p => (hcr.dirsTo_parent hnum).symm) fun p hp => hcr.face_parent hnum hp

/-- The name is there and the inode is not. -/
theorem Creates.not_backed {q : Path} {name : Name} {d newP newF : LogEntry}
    (h : Creates es q name d newP newF) : ¬ Backed (es ++ [newP]) := by
  intro hbacked
  have hcur : Current (es ++ [newP]) newP := by
    rw [Current, newest_concat, if_pos (LogEntry.isVersion_iff.mpr ⟨rfl, h.parent_live⟩)]
  refine hbacked newP hcur (h.parent_isDir.trans h.isDir) ⟨name.bytes, maxNumber es + 1⟩ ?_ ?_
  · rw [h.records]
    simp
  · rw [Nat.mod_eq_of_lt h.word, ← h.number]
    exact h.unused

/-- A write takes no inode away. -/
theorem Rewrites.backed {p : Path} {e new : LogEntry} (h : Rewrites es p e new)
    (hbacked : Backed es) : Backed (es ++ [new]) := by
  intro d hd hdir x hx
  obtain rfl | hd := current_concat hd
  · rw [h.kind, h.file] at hdir
    cases hdir
  · rw [newest_concat_version h.newest_old h.live]
    simpa using hbacked d hd hdir x hx

/-- The record of a removed file still finds an inode exactly when another version of it is
live. -/
theorem Removes.backed_iff {p : Path} {e : LogEntry} (h : Removes es p e) (hrec : Recorded es)
    (hdirs : DirsTo es p) (hbacked : Backed es) :
    Backed (markDeleted e.offset es) ↔ ∃ f ∈ es, f.live = true ∧ f.number = e.number ∧ f ≠ e := by
  constructor
  · intro hleft
    cases p using List.reverseRecOn with
    | nil =>
        have hzero := (LogEntry.isVersion_iff.mp (newest_sat h.resolves)).1
        have hdir := hrec.root e (mem_of_resolve h.resolves) hzero
        rw [h.file] at hdir
        cases hdir
    | append_singleton q a =>
        obtain ⟨d, hd, hdir⟩ := hdirs.parent
        have hchild := h.resolves
        rw [resolve_concat, hd, Option.bind_some] at hchild
        have hlook : lookupNumber (dentries d.data) a.bytes ≠ notFound := by
          intro hnone
          rw [child_of_notFound hnone] at hchild
          cases hchild
        obtain ⟨x, hx, -, hnum⟩ := exists_of_lookupNumber hlook
        have hnewest := newest_of_child hchild
        rw [← hnum] at hnewest
        have hn := (LogEntry.isVersion_iff.mp (newest_sat hnewest)).1
        have hcur : Current (markDeleted e.offset es) d := h.current_dir (current_of_resolve hd) hdir
        obtain ⟨f, hf⟩ := Option.ne_none_iff_exists'.mp (hleft d hcur hdir x hx)
        obtain ⟨hfn, hlive⟩ := LogEntry.isVersion_iff.mp (newest_sat hf)
        obtain ⟨hmem, hne⟩ := h.mem_of_live (mem_of_newest hf) hlive
        exact ⟨f, hmem, hlive, hfn.trans hn.symm, hne⟩
  · rintro ⟨f, hf, hlive, hfn, hne⟩ d hd hdir x hx
    have hold := hbacked d (h.current_of_left hrec.kinds hd hdir) hdir x hx
    by_cases hn : x.inodeNumber % 2 ^ 32 = e.number
    · intro hnone
      have hver := newest_eq_none.mp hnone f (h.mem_of_ne hf hne)
      rw [LogEntry.isVersion_iff.mpr ⟨hfn.trans hn.symm, hlive⟩] at hver
      cases hver
    · rwa [h.newest_of_ne hn]

/-- A creation that publishes the directory's new version, then the inode. -/
structure PublishesBoth (img : Image) (es : List LogEntry) (dir : Path) (name : Name)
    (fields : Nat → List (InodeField × Nat)) (q : Path) (d newP newF : LogEntry)
    (first second : List Store) : Prop where
  creates : Creates es q name d newP newF
  found : exec (findParentLogPath (render (dir ++ [name]))) img = some (some d.offset, img)
  absent : exec (getInodeNumber name.bytes (some d.offset)) img = some (notFound, img)
  parent : ∃ num, appendParent d.offset num name.bytes img = some ((), first)
  inode : ∃ num, appendInode (fields num) (img.apply first) = some ((), second)
  wellFormed : WellFormed (img.apply first) (es ++ [newP])
  head : (img.apply first).head = img.head + (sizeofInode + (d.inode .size + sizeofDentry))
  publishes : Publishes img.head img.size first
  publishesInode : Publishes (img.apply first).head img.size second

/-- A creation that returns: the name exists and nothing is stored, or the directory and
then the inode is published. -/
theorem WellFormed.creation (h : WellFormed img es) (hrec : Recorded es) {kind : Kind}
    {dir : Path} {name : Name} {mode uid t : Nat} {fields : Nat → List (InodeField × Nat)}
    (hfields : ∀ num i, assign (fields num) i = freshInode num (kind.newMode mode) uid t)
    (hdirs : DirsTo es (dir ++ [name])) (hlen : name.bytes.length < maxFileNameLen)
    (hfits : Call.Fits img (.create kind dir name mode uid t)) {r : Int} {stores : List Store}
    (hrun : createEntry (render (dir ++ [name])) fields img = some (r, stores)) :
    (stores = [] ∧ ¬ Call.Dangles img (.create kind dir name mode uid t)) ∨
      ∃ q d newP newF first second, stores = first ++ second ∧
        PublishesBoth img es dir name fields q d newP newF first second := by
  obtain ⟨q, d, hq, -, hd, hdir, hfind⟩ := h.exists_parent hdirs
  have hmem := mem_of_resolve hd
  have hnumber := h.toLogView.exec_getInodeNumber hmem (h.dirs d hmem hdir) name.no_nul
  have hexec := exec_of_run hrun
  by_cases hnew : lookupNumber (dentries d.data) name.bytes = notFound
  case neg =>
    left
    have hexists := h.exec_createEntry_exists hmem hdir hfind
      (by rw [fileName_render]; exact name.no_nul) (by rw [fileName_render]; exact hnew) fields
    rw [hexec, Option.some.injEq, Prod.mk.injEq] at hexists
    constructor
    · obtain hr | ⟨_, _, first, second, -, -, -, -, -, hr, -⟩ := stores_createEntry hrun
      · exact (Prod.mk.inj hr).2
      · exact absurd ((Prod.mk.inj hr).1.symm.trans hexists.1) (by decide)
    · rintro ⟨log, hlog, hnone⟩
      rw [hfind, Option.some.injEq, Prod.mk.injEq, Option.some.injEq] at hlog
      rw [← hlog.1, hnumber, Option.some.injEq, Prod.mk.injEq] at hnone
      exact hnew hnone.1
  case pos =>
    right
    rw [hnew] at hnumber
    have hroom := hfits d.offset hfind hnumber
    rw [(h.toLogView.reads hmem).1] at hroom
    obtain ⟨img1, img2, newP, newF, hexec1, -, hexec2, hfile, htwo⟩ :=
      h.exec_createEntry_new hfields hmem hdir hfind hnew hlen hroom
    rw [hexec, Option.some.injEq, Prod.mk.injEq] at hexec2
    obtain hr | ⟨parentLog, n, first, second, hparent, hmax, -, hfirst, hsecond, hr, hpub1,
        hpub2⟩ :=
      stores_createEntry hrun
    · exact absurd ((Prod.mk.inj hr).1.symm.trans hexec2.1) (by decide)
    · rw [hfind, Option.some.injEq, Prod.mk.injEq, Option.some.injEq] at hparent
      rw [h.toLogView.exec_maxInodeNum, Option.some.injEq, Prod.mk.injEq] at hmax
      rw [← hparent.1, ← hmax.1, fileName_render] at hfirst
      have hexecFirst := exec_of_run hfirst
      rw [hexec1, Option.some.injEq, Prod.mk.injEq] at hexecFirst
      obtain rfl : img1 = img.apply first := hexecFirst.2
      have hcreates :=
        Creates.of_created h hrec.bound hdirs hq hd hdir hnew htwo.inode htwo.records hfile
      have hhead : (img.apply first).head =
          img.head + (sizeofInode + (d.inode .size + sizeofDentry)) := by
        rw [← htwo.stop, LogEntry.stop, htwo.offset, htwo.inode, Function.update_self]
      exact ⟨q, d, newP, newF, first, second, (Prod.mk.inj hr).2, hcreates, hfind, hnumber,
        ⟨_, hfirst⟩, ⟨_, hsecond⟩, htwo.first, hhead, hpub1, hpub2⟩

/-- A creation is atomic unless it publishes a name before its inode. -/
theorem WellFormed.atomic_create (h : WellFormed img es) (hrec : Recorded es) {kind : Kind}
    {dir : Path} {name : Name} {mode uid t : Nat} {fields : Nat → List (InodeField × Nat)}
    (hfields : ∀ num i, assign (fields num) i = freshInode num (kind.newMode mode) uid t)
    (hrunDef : Call.run (.create kind dir name mode uid t) =
      createEntry (render (dir ++ [name])) fields)
    (hissued : Call.Issued img (.create kind dir name mode uid t))
    (hfits : Call.Fits img (.create kind dir name mode uid t)) :
    Atomic img (.create kind dir name mode uid t) ↔
      (DentriesFound img → ¬ Call.Dangles img (.create kind dir name mode uid t)) := by
  have hdirs := h.dirsTo hissued.1
  constructor
  · intro hatomic hfound hdangles
    obtain ⟨r, img', es', hexec, -, -, -⟩ := h.served hissued hfits
    obtain ⟨stores, hrun, -⟩ := run_eq_of_exec hexec
    have hcreate := hrun
    rw [hrunDef] at hcreate
    obtain ⟨-, hnot⟩ | ⟨q, d, newP, newF, first, second, rfl, hboth⟩ :=
      h.creation hrec hfields hdirs hissued.2 hfits hcreate
    · exact hnot hdangles
    · -- Killed between the two assignments of the head.
      have hkilled := (hatomic r _ first hrun (Cut.before first second)).2 hfound
      exact hboth.creates.not_backed (hboth.wellFormed.dentriesFound_iff.mp hkilled)
  · intro hcond r stores kept hrun hcut
    rw [hrunDef] at hrun
    obtain ⟨rfl, -⟩ | ⟨q, d, newP, newF, first, second, rfl, hboth⟩ :=
      h.creation hrec hfields hdirs hissued.2 hfits hrun
    · exact h.atomic_of_nil hcut
    · have hlost : ¬ DentriesFound img := fun hfound =>
        hcond hfound ⟨d.offset, hboth.found, hboth.absent⟩
      refine ⟨?_, fun hfound => absurd hfound hlost⟩
      have hmiddle : ∀ {img' : Image}, WellFormed img' (es ++ [newP]) → SameView img img' :=
        fun hwf' => h.sameView_parent hrec hboth.creates hwf'
      obtain hcut1 | ⟨rest, rfl, hcut2⟩ := hcut.append
      · obtain hbehind | rfl := hcut1.publishes h.entries.le hboth.publishes
        · exact Or.inl (h.sameView_of_same (h.apply_behind hbehind))
        · exact Or.inl (hmiddle hboth.wellFormed)
      · rw [Image.apply_append]
        obtain hbehind | rfl := hcut2.publishes h.entries.le hboth.publishesInode
        · exact Or.inl (hmiddle (hboth.wellFormed.apply_behind hbehind))
        · rw [Image.apply_append]
          exact Or.inr (SameView.refl _)

/-- The log that a call leaves. -/
theorem WellFormed.effect_of_run (h : WellFormed img es) {c : Call} (hissued : c.Issued img)
    (hfits : c.Fits img) {r : Int} {stores : List Store} (hrun : c.run img = some (r, stores)) :
    ∃ es', Effect img es c r (img.apply stores) es' ∧ WellFormed (img.apply stores) es' := by
  obtain ⟨r', img', es', hexec, heffect, hwf, -⟩ := h.served hissued hfits
  rw [exec_of_run hrun, Option.some.injEq, Prod.mk.injEq] at hexec
  obtain ⟨rfl, rfl⟩ := hexec
  exact ⟨es', heffect, hwf⟩

/-- A write is atomic: it publishes once. -/
theorem WellFormed.atomic_write (h : WellFormed img es) {path : Path} {buffer : List UInt8}
    {writeOffset : Int} {t : Nat} (hissued : Call.Issued img (.write path buffer writeOffset t))
    (hfits : Call.Fits img (.write path buffer writeOffset t)) :
    Atomic img (.write path buffer writeOffset t) := by
  intro r stores kept hrun hcut
  obtain ⟨es', heffect, hwf⟩ := h.effect_of_run hissued hfits hrun
  obtain hr | hr | ⟨-, hpub, -⟩ := stores_myWrite hrun
  · obtain rfl := (Prod.mk.inj hr).2
    exact h.atomic_of_nil hcut
  · obtain rfl := (Prod.mk.inj hr).2
    exact h.atomic_of_nil hcut
  · obtain hbehind | rfl := hcut.publishes h.entries.le hpub
    · obtain ⟨hview, hfound⟩ := h.atomic_of_behind hbehind
      exact ⟨Or.inl hview, hfound⟩
    · refine ⟨Or.inr (SameView.refl _), fun hfound => hwf.dentriesFound_iff.mpr ?_⟩
      have hbacked := h.dentriesFound_iff.mp hfound
      generalize img.apply kept = img' at heffect
      cases heffect with
      | writeNegative => exact hbacked
      | writeMissing => exact hbacked
      | written _ he hreg hnew _ => exact (Rewrites.of_written he hreg hnew).backed hbacked

/-- A deletion is atomic unless it takes the last version of an inode away. -/
theorem WellFormed.atomic_unlink (h : WellFormed img es) (hrec : Recorded es) {path : Path}
    (hissued : Call.Issued img (.unlink path)) :
    Atomic img (.unlink path) ↔ (DentriesFound img → ¬ Call.Dangles img (.unlink path)) := by
  have hdirs := h.dirsTo hissued
  constructor
  · rintro hatomic hfound ⟨log, fs, hlog, hfile, hfs, honly⟩
    obtain rfl := hfs.unique h.entries
    obtain ⟨e, he, rfl⟩ := (h.resolves_iff hdirs).mp hlog
    rw [(h.toLogView.reads (mem_of_resolve he)).1] at hfile honly
    have hr := Removes.of_unlinked h he hfile
    obtain ⟨r, img', es', hexec, -, -, -⟩ := h.served hissued (c := .unlink path) trivial
    obtain ⟨stores, hrun, -⟩ := run_eq_of_exec hexec
    obtain ⟨es'', heffect, hwf⟩ := h.effect_of_run hissued (c := .unlink path) trivial hrun
    have hleft := hwf.dentriesFound_iff.mp ((hatomic r stores stores hrun (Cut.all _)).2 hfound)
    generalize img.apply stores = after at heffect
    cases heffect with
    | unlinkMissing hnone =>
        rw [he] at hnone
        cases hnone
    | unlinkDir he' hdir =>
        rw [he] at he'
        obtain rfl := Option.some.inj he'
        rw [LogEntry.isDir, hfile] at hdir
        cases hdir
    | unlinked he' hdir hinode hframe =>
        rw [he] at he'
        obtain rfl := Option.some.inj he'
        obtain ⟨f, hf, hlive, hn, hne⟩ :=
          (hr.backed_iff hrec hdirs (h.dentriesFound_iff.mp hfound)).mp hleft
        exact hne (hr.offset f hf (honly f hf hlive hn))
  · intro hcond r stores kept hrun hcut
    obtain ⟨es', heffect, hwf⟩ := h.effect_of_run hissued (c := .unlink path) trivial hrun
    obtain hr | hr | ⟨log, hlog, hr⟩ := stores_wfsUnlink hrun
    · obtain rfl := (Prod.mk.inj hr).2
      exact h.atomic_of_nil hcut
    · obtain rfl := (Prod.mk.inj hr).2
      exact h.atomic_of_nil hcut
    · obtain ⟨rfl, rfl⟩ := Prod.mk.inj hr
      obtain ⟨e, he, rfl⟩ := (h.resolves_iff hdirs).mp hlog
      obtain ⟨-, hsb, hstop⟩ := h.bounds (mem_of_resolve he)
      simp only [LogEntry.stop, sizeofInode] at hstop
      obtain rfl | rfl := hcut.word
        (show e.offset + InodeField.offset .deleted < img.head by simp only [InodeField.offset]; omega)
      · exact ⟨Or.inl (SameView.refl img), id⟩
      · refine ⟨Or.inr (SameView.refl _), fun hfound => hwf.dentriesFound_iff.mpr ?_⟩
        have hbacked := h.dentriesFound_iff.mp hfound
        generalize (0 : Int) = r, img.apply _ = after at heffect
        cases heffect with
        | unlinkMissing => exact hbacked
        | unlinkDir => exact hbacked
        | unlinked he' hdir hinode hframe =>
            rw [he] at he'
            obtain rfl := Option.some.inj he'
            have hrem := Removes.of_unlinked h he hdir
            refine (hrem.backed_iff hrec hdirs hbacked).mpr ?_
            by_contra hnone
            refine hcond hfound ⟨e.offset, es, hlog, ?_, h.entries, fun f hf hlive hn => ?_⟩
            · rw [(h.toLogView.reads (mem_of_resolve he)).1]
              exact hdir
            · rw [(h.toLogView.reads (mem_of_resolve he)).1] at hn
              by_contra hoff
              exact hnone ⟨f, hf, hlive, hn, fun hfe => hoff (by rw [hfe])⟩

end

/-- After every run from a fresh disk, a call with room is atomic under kills exactly when
it leaves no record dangling that was not dangling before. -/
theorem atomic_iff {img0 img : Image} {evs : List Event} (h0 : Fresh img0)
    (hrun : Run Step img0 evs img) {c : Call} (hissued : c.Issued img) (hfits : c.Fits img) :
    Atomic img c ↔ (DentriesFound img → ¬ c.Dangles img) := by
  obtain ⟨es, h, hrec⟩ := Run.recorded hrun h0
  cases c with
  | create kind dir name mode uid t =>
      cases kind with
      | file => exact h.atomic_create hrec (assign_mknodFields mode uid t) rfl hissued hfits
      | directory => exact h.atomic_create hrec (assign_mkdirFields mode uid t) rfl hissued hfits
  | write path buffer writeOffset t =>
      exact ⟨fun _ _ hdangles => hdangles, fun _ => h.atomic_write hissued hfits⟩
  | unlink path => exact h.atomic_unlink hrec hissued

/-- A write to a file that was created before. -/
theorem atomic_iff_run :
    ∃ img0 evs img, Fresh img0 ∧ Run Step img0 evs img ∧ evs.length = 1 ∧
      Atomic img (.write [nameA] [1, 2, 3] 0 0) := by
  obtain ⟨img0, evs, img, hfresh, hrun, hP⟩ := @exists_run_of_eval (zeroDisk 400)
    [.create .file [] nameA 0o644 0 0]
    (fun res => res.1.length == 1 && Call.issuedCheck res.2 (.write [nameA] [1, 2, 3] 0 0) &&
      Call.fitsCheck res.2 (.write [nameA] [1, 2, 3] 0 0)) (by decide +kernel)
  simp only [Bool.and_eq_true, beq_iff_eq] at hP
  obtain ⟨⟨hlength, hissued⟩, hfits⟩ := hP
  refine ⟨img0, evs, img, hfresh, hrun, hlength, ?_⟩
  exact (atomic_iff hfresh hrun (Call.issued_of_check hissued) (Call.fits_of_check hfits)).mpr
    fun _ hdangles => hdangles

/-- `mknod` killed between its two assignments of the head leaves a name without an inode. -/
theorem mknod_publishes_the_name_first :
    ¬ ∀ img0 evs img c, Fresh img0 → Run Step img0 evs img → c.Issued img → c.Fits img →
      Atomic img c := by
  intro hclaim
  obtain ⟨img0, evs, img, hfresh, hrun, hP⟩ := @exists_run_of_eval (zeroDisk 300) []
    (fun res => res.1.isEmpty && copiesCheck res.2 8 (.create .file [] nameA 0o644 0 0) &&
      Call.fitsCheck res.2 (.create .file [] nameA 0o644 0 0)) (by decide +kernel)
  simp only [Bool.and_eq_true, List.isEmpty_iff] at hP
  obtain ⟨⟨rfl, hcopies⟩, hfits⟩ := hP
  obtain rfl := hrun.eq_of_nil
  obtain ⟨hissued, hcopies⟩ := copies_of_check hcopies
  obtain ⟨t, h, -⟩ := hfresh.wellFormed
  have hatomic := hclaim img [] img (.create .file [] nameA 0o644 0 0) hfresh hrun hissued
    (Call.fits_of_check hfits)
  refine (h.atomic_create (recorded_rootEntry t) (assign_mknodFields 0o644 0 0) rfl hissued
    (Call.fits_of_check hfits)).mp hatomic ?_ ⟨8, hcopies⟩
  refine h.dentriesFound_iff.mpr fun d hd _ x hx => ?_
  obtain rfl : d = rootEntry t := by simpa using hd.mem
  simp [rootEntry] at hx

end OSProjects.Wfs
