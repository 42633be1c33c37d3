import OSProjects.Wfs.Namespace
import OSProjects.Wfs.Runs

/-!
# Inode numbers are not reused while the greatest one stays live

`Max_InodeNum` looks at entries that are not deleted, while the directories keep
the numbers of deleted files. The two agree as long as no `wfs_unlink` removes the
last entry with the greatest number.
-/

namespace OSProjects.Wfs

open ByteMemory VersionedLog CString WfsM StepSystem

/-- The invariant of the numbers: live versions of an inode are of one kind, directories
name no number above the greatest live one, and distinct paths have distinct inodes. -/
structure FreshNumbers (es : List LogEntry) : Prop where
  kinds : ∀ e ∈ es, ∀ f ∈ es, e.live = true → f.live = true → e.number = f.number →
    e.isDir = f.isDir
  named : ∀ e, Current es e → e.isDir = true → ∀ x ∈ dentries e.data, x.inodeNumber ≤ maxNumber es
  injective : ∀ p q e f, DirsTo es p → DirsTo es q → resolve es p = some e →
    resolve es q = some f → e.number = f.number → p = q
  bound : maxNumber es < es.length

theorem FreshNumbers.lookup_le {es : List LogEntry} (h : FreshNumbers es) {q : Path}
    {d : LogEntry} (hd : resolve es q = some d) (hdir : d.isDir = true) {a : List UInt8}
    (ha : lookupNumber (dentries d.data) a ≠ notFound) :
    lookupNumber (dentries d.data) a ≤ maxNumber es := by
  obtain ⟨x, hx, _, hnum⟩ := exists_of_lookupNumber ha
  rw [← hnum]
  exact h.named d (current_of_resolve hd) hdir x hx

theorem current_concat {es : List LogEntry} {v e : LogEntry} (h : Current (es ++ [v]) e) :
    e = v ∨ Current es e := by
  rw [Current, newest_concat] at h
  split at h
  · exact Or.inl (Option.some.inj h).symm
  · exact Or.inr h

/-- The entries fill the log, so their number is a word. -/
theorem LogFrom.length_le {m : Memory} {off stop : Nat} {es : List LogEntry}
    (h : LogFrom m off es stop) : off + sizeofInode * es.length ≤ stop := by
  induction es generalizing off with
  | nil =>
      obtain rfl : off = stop := h
      simp
  | cons e es ih =>
      have hrest := ih h.2
      have hoff : e.offset = off := by rw [h.1]; rfl
      simp only [LogEntry.stop, sizeofInode, List.length_cons] at hrest ⊢
      omega

/-- The next number does not wrap around. -/
theorem LogView.maxNumber_lt {img : Image} {es : List LogEntry} (h : LogView img es)
    (hbound : maxNumber es < es.length) : maxNumber es + 1 < 2 ^ 32 := by
  have hlen := h.entries.length_le
  have hhead := img.head_lt
  simp only [sizeofSb, sizeofInode] at hlen
  omega

/-! ## Creation -/

/-- No record of the directory has the number that stands for a missing name. -/
def Numbered (d : LogEntry) : Prop := ∀ x ∈ dentries d.data, x.inodeNumber ≠ notFound

/-- What `created` says of the list alone, with the new number not wrapped around. -/
structure Creates (es : List LogEntry) (q : Path) (name : Name) (d newP newF : LogEntry) :
    Prop where
  dirs : DirsTo es q
  parent : resolve es q = some d
  isDir : d.isDir = true
  absent : lookupNumber (dentries d.data) name.bytes = notFound
  inode : newP.inode = Function.update d.inode .size (d.inode .size + sizeofDentry)
  records : dentries newP.data = dentries d.data ++ [⟨name.bytes, maxNumber es + 1⟩]
  word : maxNumber es + 1 < 2 ^ 32
  number : newF.number = maxNumber es + 1
  live : newF.live = true
  empty : newF.data = []

namespace Creates

variable {es : List LogEntry} {q : Path} {name : Name} {d newP newF : LogEntry}

theorem parent_number (h : Creates es q name d newP newF) : newP.number = d.number := by
  rw [LogEntry.number, h.inode]
  rfl

theorem parent_isDir (h : Creates es q name d newP newF) : newP.isDir = d.isDir := by
  rw [LogEntry.isDir, h.inode]
  rfl

theorem parent_live (h : Creates es q name d newP newF) : newP.live = true := by
  rw [← (current_of_resolve h.parent).live, LogEntry.live, h.inode]
  rfl

theorem newest_parent (h : Creates es q name d newP newF) :
    newest (LogEntry.isVersion newP.number) es = some d := by
  rw [h.parent_number]
  exact current_of_resolve h.parent

theorem parent_number_le (h : Creates es q name d newP newF) : newP.number ≤ maxNumber es := by
  rw [h.parent_number]
  exact number_le_maxNumber (mem_of_resolve h.parent) (current_of_resolve h.parent).live

theorem maxNumber_parent (h : Creates es q name d newP newF) :
    maxNumber (es ++ [newP]) = maxNumber es := by
  rw [maxNumber_concat es h.parent_live, Nat.max_eq_left h.parent_number_le]

theorem maxNumber_both (h : Creates es q name d newP newF) :
    maxNumber (es ++ [newP] ++ [newF]) = maxNumber es + 1 := by
  rw [maxNumber_concat _ h.live, h.maxNumber_parent, h.number, Nat.max_eq_right (by omega)]

theorem unused (h : Creates es q name d newP newF) :
    newest (LogEntry.isVersion newF.number) (es ++ [newP]) = none := by
  apply newest_eq_none_of_maxNumber_lt
  rw [h.maxNumber_parent, h.number]
  omega

theorem numbers (h : Creates es q name d newP newF) (hes : FreshNumbers es) : Numbered d := by
  intro x hx
  have hle := hes.named d (current_of_resolve h.parent) h.isDir x hx
  have hword := h.word
  simp only [notFound]
  omega

theorem lookup_parent (h : Creates es q name d newP newF) (hnum : Numbered d)
    (a : List UInt8) :
    lookupNumber (dentries newP.data) a =
      if lookupNumber (dentries d.data) a = notFound then
        (if name.bytes = a then maxNumber es + 1 else notFound)
      else lookupNumber (dentries d.data) a := by
  rw [h.records]
  exact lookupNumber_concat hnum _ a

/-- Before the new inode is there, its record in the directory leads nowhere. -/
theorem child_parent (h : Creates es q name d newP newF) (hnum : Numbered d) (a : Name) :
    child (es ++ [newP]) newP a = child (es ++ [newP]) d a := by
  have hlook := h.lookup_parent hnum a.bytes
  have hword := h.word
  by_cases hold : lookupNumber (dentries d.data) a.bytes = notFound
  · rw [if_pos hold] at hlook
    rw [child_of_notFound hold]
    by_cases hname : name.bytes = a.bytes
    · rw [if_pos hname] at hlook
      rw [child_of_found (by rw [hlook, notFound]; omega), hlook, Nat.mod_eq_of_lt hword,
        ← h.number, h.unused]
    · rw [if_neg hname] at hlook
      exact child_of_notFound hlook
  · rw [if_neg hold] at hlook
    rw [child_of_found hold, child_of_found (by rwa [hlook]), hlook]

theorem dirsTo_parent (h : Creates es q name d newP newF) (hnum : Numbered d) {p : Path} :
    DirsTo (es ++ [newP]) p ↔ DirsTo es p :=
  dirsTo_concat_version h.newest_parent h.parent_live h.parent_isDir
    fun _ a => h.child_parent hnum a

theorem resolve_parent (h : Creates es q name d newP newF) (hnum : Numbered d) {p : Path}
    (hp : DirsTo es p) : resolve (es ++ [newP]) p = (resolve es p).map (bump newP) :=
  resolve_concat_version h.newest_parent h.parent_live (fun _ a => h.child_parent hnum a) hp

/-- The new inode appears at the path of the record. -/
theorem appears (h : Creates es q name d newP newF) (hes : FreshNumbers es) :
    Appears (es ++ [newP]) newF q name := by
  have hword := h.word
  have hlast := h.lookup_parent (h.numbers hes) name.bytes
  rw [if_pos h.absent, if_pos rfl] at hlast
  have hparent : resolve (es ++ [newP]) q = some newP := by
    rw [h.resolve_parent (h.numbers hes) h.dirs, h.parent, Option.map_some, bump, if_pos h.parent_number.symm]
  refine ⟨h.unused, h.live, h.empty, by rw [h.number]; omega, ?_, ?_, ?_⟩
  · exact (h.dirsTo_parent (h.numbers hes)).mpr (h.dirs.concat h.parent h.isDir)
  · intro q' d' b hq' hd' hdir hfound
    rw [h.dirsTo_parent (h.numbers hes)] at hq'
    rw [h.resolve_parent (h.numbers hes) hq'] at hd'
    obtain ⟨d'', hd'', rfl⟩ := Option.map_eq_some_iff.mp hd'
    rw [h.number]
    by_cases hn : d''.number = newP.number
    · -- The new version itself: only its last record has the new number.
      have hqq : q' = q := hes.injective q' q d'' d hq' h.dirs hd'' h.parent
        (hn.trans h.parent_number)
      subst hqq
      rw [bump, if_pos hn, h.lookup_parent (h.numbers hes)] at hfound ⊢
      by_cases hold : lookupNumber (dentries d.data) b.bytes = notFound
      · rw [if_pos hold] at hfound ⊢
        by_cases hname : name.bytes = b.bytes
        · rw [if_pos hname, Nat.mod_eq_of_lt hword, Name.ext hname]
          simp
        · rw [if_neg hname] at hfound
          exact absurd rfl hfound
      · have hle := hes.lookup_le h.parent h.isDir hold
        rw [if_neg hold, Nat.mod_eq_of_lt (by omega)]
        constructor
        · intro heq
          omega
        · intro heq
          have hb : b = name := by simpa using heq
          exact absurd (hb ▸ h.absent) hold
    · rw [bump, if_neg hn] at hfound hdir ⊢
      have hle := hes.lookup_le hd'' hdir hfound
      rw [Nat.mod_eq_of_lt (by omega)]
      constructor
      · intro heq
        omega
      · intro heq
        obtain ⟨rfl, _⟩ := List.append_inj' heq rfl
        rw [h.parent] at hd''
        obtain rfl := Option.some.inj hd''
        exact absurd h.parent_number.symm hn
  · intro d' hd'
    rw [hparent] at hd'
    obtain rfl := Option.some.inj hd'
    rw [hlast, notFound]
    omega

/-- Resolution after a creation. -/
theorem resolve_both (h : Creates es q name d newP newF) (hes : FreshNumbers es) {p : Path}
    (hp : DirsTo (es ++ [newP] ++ [newF]) p) :
    resolve (es ++ [newP] ++ [newF]) p =
      if p = q ++ [name] then some newF else (resolve es p).map (bump newP) := by
  have happ := h.appears hes
  obtain ⟨hres, hside⟩ := happ.resolve hp
  rw [hres]
  by_cases hpq : p = q ++ [name]
  · rw [if_pos hpq, if_pos hpq]
  · rw [if_neg hpq, if_neg hpq]
    rcases hside with hdirs | ⟨hnone, b, rfl⟩
    · exact h.resolve_parent (h.numbers hes) ((h.dirsTo_parent (h.numbers hes)).mp hdirs)
    · have hold : resolve es (q ++ [name]) = none := by
        rw [resolve_concat, h.parent, Option.bind_some, child_of_notFound h.absent]
      rw [hnone, resolve_concat, hold]
      rfl

/-- Paths through directories after a creation: the old ones and those just below the
new inode. -/
theorem dirsTo_of_both (h : Creates es q name d newP newF) (hes : FreshNumbers es) {p : Path}
    (hp : DirsTo (es ++ [newP] ++ [newF]) p) :
    DirsTo es p ∨ resolve es p = none ∧ ∃ b, p = (q ++ [name]) ++ [b] := by
  rcases ((h.appears hes).resolve hp).2 with hdirs | ⟨_, b, rfl⟩
  · exact Or.inl ((h.dirsTo_parent (h.numbers hes)).mp hdirs)
  · refine Or.inr ⟨?_, b, rfl⟩
    rw [resolve_concat, resolve_concat, h.parent, Option.bind_some, child_of_notFound h.absent]
    rfl

theorem dirsTo_both (h : Creates es q name d newP newF) (hes : FreshNumbers es) {p : Path}
    (hp : DirsTo es p) : DirsTo (es ++ [newP] ++ [newF]) p :=
  (h.appears hes).dirsTo ((h.dirsTo_parent (h.numbers hes)).mpr hp)

end Creates

end OSProjects.Wfs
