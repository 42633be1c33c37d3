import OSProjects.Wfs.InodeNumbers

/-!
# The invariant of the inode numbers under each effect

Creations and writes always keep it. `wfs_unlink` keeps it when the greatest live
number is the same before and after.
-/

namespace OSProjects.Wfs

open ByteMemory VersionedLog CString WfsM StepSystem

/-! ## Creations and writes -/

/-- Live versions of an inode are of one kind. -/
def OneKind (es : List LogEntry) : Prop :=
  ∀ e ∈ es, ∀ f ∈ es, e.live = true → f.live = true → e.number = f.number → e.isDir = f.isDir

theorem Creates.oneKind {es : List LogEntry} {q : Path} {name : Name} {d newP newF : LogEntry}
    (h : Creates es q name d newP newF) (hes : OneKind es) :
    OneKind (es ++ [newP] ++ [newF]) := by
  have hd := current_of_resolve h.parent
  have hmem : ∀ e ∈ es ++ [newP] ++ [newF], e ∈ es ∨ e = newP ∨ e = newF := by
    intro e he
    simpa [or_assoc] using he
  have hparent : ∀ e ∈ es, e.live = true → e.number = newP.number → e.isDir = newP.isDir := by
    intro e he hlive hn
    rw [h.parent_isDir]
    exact hes e he d hd.mem hlive hd.live (hn.trans h.parent_number)
  -- An older live entry has a number below the new one.
  have hfresh : ∀ e ∈ es ++ [newP], e.live = true → e.number ≠ newF.number := by
    intro e he hlive
    have hle := number_le_maxNumber he hlive
    rw [h.maxNumber_parent] at hle
    rw [h.number]
    omega
  intro e he f hf helive hflive hn
  rcases hmem e he with he' | rfl | rfl <;> rcases hmem f hf with hf' | rfl | rfl
  · exact hes e he' f hf' helive hflive hn
  · exact hparent e he' helive hn
  · exact absurd hn (hfresh e (by simp [he']) helive)
  · exact (hparent f hf' hflive hn.symm).symm
  · rfl
  · exact absurd hn (hfresh e (by simp) helive)
  · exact absurd hn.symm (hfresh f (by simp [hf']) hflive)
  · exact absurd hn.symm (hfresh f (by simp) hflive)
  · rfl

theorem Creates.freshNumbers {es : List LogEntry} {q : Path} {name : Name}
    {d newP newF : LogEntry} (h : Creates es q name d newP newF) (hes : FreshNumbers es) :
    FreshNumbers (es ++ [newP] ++ [newF]) := by
  have hd := current_of_resolve h.parent
  refine ⟨h.oneKind hes.kinds, ?_, ?_, ?_⟩
  · intro e he hdir x hx
    rw [h.maxNumber_both]
    rcases current_concat he with rfl | he
    · rw [h.empty] at hx
      cases hx
    rcases current_concat he with rfl | he
    · rw [h.records] at hx
      rcases List.mem_append.mp hx with hx | hx
      · exact Nat.le_succ_of_le (hes.named d hd h.isDir x hx)
      · obtain rfl : x = ⟨name.bytes, maxNumber es + 1⟩ := by simpa using hx
        exact Nat.le_refl _
    · exact Nat.le_succ_of_le (hes.named e he hdir x hx)
  · -- A path either led to an inode with the same number before, or it is the new one.
    have hpath : ∀ p e, DirsTo (es ++ [newP] ++ [newF]) p →
        resolve (es ++ [newP] ++ [newF]) p = some e →
        p = q ++ [name] ∧ e.number = maxNumber es + 1 ∨
          ∃ x, DirsTo es p ∧ resolve es p = some x ∧ x.number = e.number := by
      intro p e hp he
      have hres := h.resolve_both hes hp
      rw [he] at hres
      by_cases hpq : p = q ++ [name]
      · rw [if_pos hpq] at hres
        obtain rfl := Option.some.inj hres
        exact Or.inl ⟨hpq, h.number⟩
      · rw [if_neg hpq] at hres
        obtain ⟨x, hx, rfl⟩ := Option.map_eq_some_iff.mp hres.symm
        rcases h.dirsTo_of_both hes hp with hdirs | ⟨hnone, _⟩
        · exact Or.inr ⟨x, hdirs, hx, (bump_number newP x).symm⟩
        · rw [hnone] at hx
          cases hx
    intro p p' e f hp hp' he hf hn
    rcases hpath p e hp he with ⟨rfl, hne⟩ | ⟨x, hpx, hx, hnx⟩ <;>
      rcases hpath p' f hp' hf with ⟨rfl, hnf⟩ | ⟨y, hpy, hy, hny⟩
    · rfl
    · have := number_le_maxNumber (mem_of_resolve hy) (current_of_resolve hy).live
      omega
    · have := number_le_maxNumber (mem_of_resolve hx) (current_of_resolve hx).live
      omega
    · exact hes.injective p p' x y hpx hpy hx hy (by omega)
  · rw [h.maxNumber_both]
    have := hes.bound
    simp only [List.length_append, List.length_singleton]
    omega

/-- What `written` says of the list alone. -/
structure Rewrites (es : List LogEntry) (p : Path) (e new : LogEntry) : Prop where
  resolves : resolve es p = some e
  file : e.isDir = false
  number : new.number = e.number
  live : new.live = true
  kind : new.isDir = e.isDir

namespace Rewrites

variable {es : List LogEntry} {p : Path} {e new : LogEntry}

theorem newest_old (h : Rewrites es p e new) :
    newest (LogEntry.isVersion new.number) es = some e := by
  rw [h.number]
  exact current_of_resolve h.resolves

theorem no_child (h : Rewrites es p e new) :
    e.isDir = true → ∀ a, child (es ++ [new]) new a = child (es ++ [new]) e a := by
  intro hdir
  rw [h.file] at hdir
  cases hdir

theorem resolve_new (h : Rewrites es p e new) {q : Path} (hq : DirsTo es q) :
    resolve (es ++ [new]) q = (resolve es q).map (bump new) :=
  resolve_concat_version h.newest_old h.live h.no_child hq

theorem dirsTo_new (h : Rewrites es p e new) {q : Path} :
    DirsTo (es ++ [new]) q ↔ DirsTo es q :=
  dirsTo_concat_version h.newest_old h.live h.kind h.no_child

theorem maxNumber_new (h : Rewrites es p e new) : maxNumber (es ++ [new]) = maxNumber es := by
  have hcur := current_of_resolve h.resolves
  have := number_le_maxNumber hcur.mem hcur.live
  rw [maxNumber_concat es h.live, h.number, Nat.max_eq_left this]

theorem oneKind (h : Rewrites es p e new) (hes : OneKind es) : OneKind (es ++ [new]) := by
  have hcur := current_of_resolve h.resolves
  have hnew : ∀ f ∈ es, f.live = true → f.number = new.number → f.isDir = new.isDir := by
    intro f hf hlive hn
    rw [h.kind]
    exact hes f hf e hcur.mem hlive hcur.live (hn.trans h.number)
  intro x hx y hy hxlive hylive hn
  rcases List.mem_append.mp hx with hx' | hx' <;> rcases List.mem_append.mp hy with hy' | hy'
  · exact hes x hx' y hy' hxlive hylive hn
  · obtain rfl : y = new := by simpa using hy'
    exact hnew x hx' hxlive hn
  · obtain rfl : x = new := by simpa using hx'
    exact (hnew y hy' hylive hn.symm).symm
  · obtain rfl : x = new := by simpa using hx'
    obtain rfl : y = x := by simpa using hy'
    rfl

theorem freshNumbers (h : Rewrites es p e new) (hes : FreshNumbers es) :
    FreshNumbers (es ++ [new]) := by
  refine ⟨h.oneKind hes.kinds, ?_, ?_, ?_⟩
  · intro f hf hdir x hx
    rw [h.maxNumber_new]
    rcases current_concat hf with rfl | hf
    · rw [h.kind, h.file] at hdir
      cases hdir
    · exact hes.named f hf hdir x hx
  · intro p1 p2 x y hp1 hp2 hx hy hn
    rw [h.dirsTo_new] at hp1 hp2
    rw [h.resolve_new hp1] at hx
    rw [h.resolve_new hp2] at hy
    obtain ⟨x', hx', rfl⟩ := Option.map_eq_some_iff.mp hx
    obtain ⟨y', hy', rfl⟩ := Option.map_eq_some_iff.mp hy
    rw [bump_number, bump_number] at hn
    exact hes.injective p1 p2 x' y' hp1 hp2 hx' hy' hn
  · rw [h.maxNumber_new]
    have := hes.bound
    simp only [List.length_append, List.length_singleton]
    omega

end Rewrites

/-! ## Deletions -/

/-- What `unlinked` says of the list alone; offsets identify entries. -/
structure Removes (es : List LogEntry) (p : Path) (e : LogEntry) : Prop where
  resolves : resolve es p = some e
  file : e.isDir = false
  offset : ∀ f ∈ es, f.offset = e.offset → f = e

namespace Removes

variable {es : List LogEntry} {p : Path} {e : LogEntry}

/-- A live entry that is left was there before, and is not the deleted one. -/
theorem mem_of_live (h : Removes es p e) {f : LogEntry} (hf : f ∈ markDeleted e.offset es)
    (hlive : f.live = true) : f ∈ es ∧ f ≠ e := by
  obtain ⟨g, hg, rfl⟩ := List.mem_map.mp hf
  by_cases hoff : g.offset = e.offset
  · rw [if_pos hoff] at hlive
    cases hlive
  · rw [if_neg hoff]
    refine ⟨hg, ?_⟩
    rintro rfl
    exact hoff rfl

theorem mem_of_ne (h : Removes es p e) {f : LogEntry} (hf : f ∈ es) (hne : f ≠ e) :
    f ∈ markDeleted e.offset es :=
  List.mem_map.mpr ⟨f, hf, if_neg fun hoff => hne (h.offset f hf hoff)⟩

/-- The versions of every other inode are untouched. -/
theorem newest_of_ne (h : Removes es p e) {n : Nat} (hn : n ≠ e.number) :
    newest (LogEntry.isVersion n) (markDeleted e.offset es) =
      newest (LogEntry.isVersion n) es := by
  apply newest_map_of_fixed
  intro f hf
  by_cases hoff : f.offset = e.offset
  · obtain rfl := h.offset f hf hoff
    have hfalse : LogEntry.isVersion n f = false := by
      rw [Bool.eq_false_iff]
      exact fun hv => hn (LogEntry.isVersion_iff.mp hv).1.symm
    rw [if_pos rfl, hfalse]
    exact ⟨by simp [LogEntry.isVersion], fun hc => absurd hc (by decide)⟩
  · rw [if_neg hoff]
    exact ⟨rfl, fun _ => rfl⟩

/-- A lookup finds what is left of the inode that it found before. -/
theorem newest_left (h : Removes es p e) (n : Nat) :
    newest (LogEntry.isVersion n) (markDeleted e.offset es) =
      (newest (LogEntry.isVersion n) es).bind fun x =>
        newest (LogEntry.isVersion x.number) (markDeleted e.offset es) := by
  by_cases hn : n = e.number
  · subst hn
    have hcur : newest (LogEntry.isVersion e.number) es = some e := current_of_resolve h.resolves
    rw [hcur, Option.bind_some]
  · rw [h.newest_of_ne hn]
    cases hx : newest (LogEntry.isVersion n) es with
    | none => rfl
    | some x =>
        have hxn := (LogEntry.isVersion_iff.mp (newest_sat hx)).1
        rw [Option.bind_some, hxn, h.newest_of_ne hn, hx]

theorem child_left (h : Removes es p e) (d : LogEntry) (a : Name) :
    child (markDeleted e.offset es) d a =
      (child es d a).bind fun x =>
        newest (LogEntry.isVersion x.number) (markDeleted e.offset es) := by
  unfold child
  split
  · rfl
  · exact h.newest_left _

/-- A directory is not an earlier version of the removed file. -/
theorem current_dir (h : Removes es p e) {d : LogEntry} (hd : Current es d)
    (hdir : d.isDir = true) :
    newest (LogEntry.isVersion d.number) (markDeleted e.offset es) = some d := by
  rw [h.newest_of_ne fun hn => ?_]
  · exact hd
  · have hde := hd.unique (current_of_resolve h.resolves) hn
    rw [hde, h.file] at hdir
    cases hdir

theorem resolve_left (h : Removes es p e) {q : Path} (hq : DirsTo es q) :
    resolve (markDeleted e.offset es) q =
      (resolve es q).bind fun x =>
        newest (LogEntry.isVersion x.number) (markDeleted e.offset es) := by
  induction q using List.reverseRecOn with
  | nil => exact h.newest_left 0
  | append_singleton q a ih =>
      obtain ⟨d, hd, hdir⟩ := hq.parent
      rw [resolve_concat, ih (hq.of_prefix (List.prefix_append q [a])), resolve_concat, hd,
        Option.bind_some, Option.bind_some, h.current_dir (current_of_resolve hd) hdir,
        Option.bind_some, h.child_left]

/-- Directories resolve as before. -/
theorem resolve_dir (h : Removes es p e) {q : Path} (hq : DirsTo es q) {d : LogEntry}
    (hd : resolve es q = some d) (hdir : d.isDir = true) :
    resolve (markDeleted e.offset es) q = some d := by
  rw [h.resolve_left hq, hd, Option.bind_some, h.current_dir (current_of_resolve hd) hdir]

theorem dirsTo_left (h : Removes es p e) {q : Path} (hq : DirsTo es q) :
    DirsTo (markDeleted e.offset es) q := by
  intro r hr hne
  obtain ⟨d, hd, hdir⟩ := hq r hr hne
  exact ⟨d, h.resolve_dir (hq.of_prefix hr) hd hdir, hdir⟩

theorem dirsTo_of_left (h : Removes es p e) (hes : FreshNumbers es) {q : Path}
    (hq : DirsTo (markDeleted e.offset es) q) : DirsTo es q := by
  induction q using List.reverseRecOn with
  | nil => exact DirsTo.nil es
  | append_singleton q a ih =>
      have hq' := ih (hq.of_prefix (List.prefix_append q [a]))
      obtain ⟨d', hd', hdir'⟩ := hq.parent
      rw [h.resolve_left hq'] at hd'
      obtain ⟨d, hd, hleft⟩ := Option.bind_eq_some_iff.mp hd'
      have hcur := current_of_resolve hd
      have hlive' := (LogEntry.isVersion_iff.mp (newest_sat hleft)).2
      have hmem' := (h.mem_of_live (mem_of_newest hleft) hlive').1
      have hkind := hes.kinds d' hmem' d hcur.mem hlive' hcur.live
        (LogEntry.isVersion_iff.mp (newest_sat hleft)).1
      exact hq'.concat hd (hkind ▸ hdir')

theorem maxNumber_le (h : Removes es p e) : maxNumber (markDeleted e.offset es) ≤ maxNumber es := by
  apply largest_le
  intro f hf hlive
  exact number_le_maxNumber (h.mem_of_live hf hlive).1 hlive

/-- The greatest number stays when another live entry has a number as great as the file's. -/
theorem maxNumber_eq (h : Removes es p e) {f : LogEntry} (hf : f ∈ es) (hne : f ≠ e)
    (hlive : f.live = true) (hnum : e.number ≤ f.number) :
    maxNumber (markDeleted e.offset es) = maxNumber es := by
  refine Nat.le_antisymm h.maxNumber_le (largest_le fun g hg hglive => ?_)
  by_cases hge : g = e
  · subst hge
    exact Nat.le_trans hnum (number_le_maxNumber (h.mem_of_ne hf hne) hlive)
  · exact number_le_maxNumber (h.mem_of_ne hg hge) hglive

theorem oneKind (h : Removes es p e) (hes : OneKind es) : OneKind (markDeleted e.offset es) := by
  intro x hx y hy hxlive hylive hn
  exact hes x (h.mem_of_live hx hxlive).1 y (h.mem_of_live hy hylive).1 hxlive hylive hn

/-- A directory that is current after the deletion was current before. -/
theorem current_of_left (h : Removes es p e) (hes : OneKind es) {d : LogEntry}
    (hd : Current (markDeleted e.offset es) d) (hdir : d.isDir = true) : Current es d := by
  obtain ⟨hmem, _⟩ := h.mem_of_live hd.mem hd.live
  have hcur := current_of_resolve h.resolves
  -- A directory is never a version of the removed file.
  have hn : d.number ≠ e.number := fun hn => by
    have hkind := hes d hmem e hcur.mem hd.live hcur.live hn
    rw [hdir, h.file] at hkind
    cases hkind
  rw [Current, ← h.newest_of_ne hn]
  exact hd

theorem freshNumbers (h : Removes es p e) (hes : FreshNumbers es)
    (hmax : maxNumber (markDeleted e.offset es) = maxNumber es) :
    FreshNumbers (markDeleted e.offset es) := by
  refine ⟨h.oneKind hes.kinds, ?_, ?_, ?_⟩
  · intro d hd hdir x hx
    rw [hmax]
    exact hes.named d (h.current_of_left hes.kinds hd hdir) hdir x hx
  · intro q1 q2 x y hq1 hq2 hx hy hn
    have hq1' := h.dirsTo_of_left hes hq1
    have hq2' := h.dirsTo_of_left hes hq2
    rw [h.resolve_left hq1'] at hx
    rw [h.resolve_left hq2'] at hy
    obtain ⟨x', hx', hxv⟩ := Option.bind_eq_some_iff.mp hx
    obtain ⟨y', hy', hyv⟩ := Option.bind_eq_some_iff.mp hy
    have hxn := (LogEntry.isVersion_iff.mp (newest_sat hxv)).1
    have hyn := (LogEntry.isVersion_iff.mp (newest_sat hyv)).1
    exact hes.injective q1 q2 x' y' hq1' hq2' hx' hy' (by omega)
  · rw [hmax, markDeleted, List.length_map]
    exact hes.bound

end Removes

end OSProjects.Wfs
