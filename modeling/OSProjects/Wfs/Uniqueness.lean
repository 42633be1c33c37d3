import OSProjects.Wfs.Execution
import OSProjects.Wfs.NumberInvariant

/-!
# When inode numbers are unique

The invariant of the numbers is carried through the effects of calls to whole runs.
It needs every `wfs_unlink` to leave an entry with a number as great as the one it
deletes; without that, the next creation hands out a number that a directory still
names.
-/

namespace OSProjects.Wfs

open ByteMemory VersionedLog CString WfsM StepSystem

/-! ## The fresh disk -/

theorem resolve_rootEntry {t : Nat} {p : Path} {e : LogEntry}
    (h : resolve [rootEntry t] p = some e) : p = [] ∧ e = rootEntry t := by
  induction p using List.reverseRecOn generalizing e with
  | nil =>
      have hroot : resolve [rootEntry t] [] = some (rootEntry t) := rfl
      rw [hroot] at h
      exact ⟨rfl, (Option.some.inj h).symm⟩
  | append_singleton p a ih =>
      rw [resolve_concat] at h
      obtain ⟨d, hd, hchild⟩ := Option.bind_eq_some_iff.mp h
      obtain ⟨_, rfl⟩ := ih hd
      rw [child_of_data_nil rfl] at hchild
      cases hchild

theorem freshNumbers_rootEntry (t : Nat) : FreshNumbers [rootEntry t] := by
  refine ⟨?_, ?_, ?_, Nat.zero_lt_one⟩
  · intro e he f hf _ _ _
    obtain rfl : e = rootEntry t := by simpa using he
    obtain rfl : f = rootEntry t := by simpa using hf
    rfl
  · intro e he _ x hx
    obtain rfl : e = rootEntry t := by simpa using he.mem
    simp [rootEntry] at hx
  · intro p q e f _ _ he hf _
    rw [(resolve_rootEntry he).1, (resolve_rootEntry hf).1]

/-! ## From effects to the list -/

section

variable {img : Image} {es : List LogEntry}

theorem Creates.of_created (hwf : WellFormed img es) (hbound : maxNumber es < es.length) {dir q : Path}
    {name : Name} {kind : Kind} {mode uid t : Nat} {d newP newF : LogEntry}
    (hdirs : DirsTo es (dir ++ [name])) (hq : q <+: dir) (hd : resolve es q = some d)
    (hdir : d.isDir = true) (hnew : lookupNumber (dentries d.data) name.bytes = notFound)
    (hinode : newP.inode = Function.update d.inode .size (d.inode .size + sizeofDentry))
    (hdentries : dentries newP.data =
      dentries d.data ++ [⟨name.bytes, (maxNumber es + 1) % 2 ^ 32⟩])
    (hfile : newF =
      ⟨newP.stop, freshInode ((maxNumber es + 1) % 2 ^ 32) (kind.newMode mode) uid t, []⟩) :
    Creates es q name d newP newF := by
  have hword := hwf.toLogView.maxNumber_lt hbound
  rw [Nat.mod_eq_of_lt hword] at hdentries hfile
  refine ⟨hdirs.of_prefix (hq.trans (List.prefix_append dir [name])), hd, hdir, hnew, hinode,
    hdentries, hword, ?_, ?_, ?_⟩
  · rw [hfile]
    exact Nat.mod_eq_of_lt hword
  · rw [hfile]
    rfl
  · rw [hfile]

theorem Rewrites.of_written {p : Path} {e new : LogEntry} {off size t : Nat}
    {data : List UInt8} (he : resolve es p = some e) (hreg : e.isReg = true)
    (hnew : new = ⟨off, versionInode e.inode size t, data⟩) : Rewrites es p e new := by
  refine ⟨he, ?_, ?_, ?_, ?_⟩
  · simp only [LogEntry.isReg, isRegMode, beq_iff_eq] at hreg
    simp [LogEntry.isDir, isDirMode, hreg, sIFREG, sIFDIR]
  · rw [hnew]
    rfl
  · rw [← live_of_resolve he, hnew]
    rfl
  · rw [hnew]
    rfl

theorem Removes.of_unlinked (hwf : WellFormed img es) {p : Path} {e : LogEntry}
    (he : resolve es p = some e) (hdir : e.isDir = false) : Removes es p e := by
  refine ⟨he, hdir, fun f hf hoff => ?_⟩
  rw [(hwf.bounds hf).1, hoff, ← (hwf.bounds (mem_of_resolve he)).1]

/-- What an effect does to the log: nothing, or one of three changes. -/
theorem Effect.log_cases (hwf : WellFormed img es) (hbound : maxNumber es < es.length) {c : Call}
    {r : Int} {img' : Image} {es' : List LogEntry} (hdirs : DirsTo es c.path)
    (heffect : Effect img es c r img' es') :
    es' = es ∨
      (∃ q name d newP newF, Creates es q name d newP newF ∧ es' = es ++ [newP] ++ [newF]) ∨
      (∃ p e new, Rewrites es p e new ∧ es' = es ++ [new]) ∨
      ∃ p e, c = .unlink p ∧ Removes es p e ∧ es' = markDeleted e.offset es := by
  cases heffect with
  | createExists => exact Or.inl rfl
  | created hq _ hd hdir hnew _ hinode _ hdentries hfile _ =>
      have hc := Creates.of_created hwf hbound hdirs hq hd hdir hnew hinode hdentries hfile
      exact Or.inr (Or.inl ⟨_, _, _, _, _, hc, by simp⟩)
  | writeNegative => exact Or.inl rfl
  | writeMissing => exact Or.inl rfl
  | written _ he hreg hnew _ =>
      exact Or.inr (Or.inr (Or.inl ⟨_, _, _, Rewrites.of_written he hreg hnew, rfl⟩))
  | unlinkMissing => exact Or.inl rfl
  | unlinkDir => exact Or.inl rfl
  | unlinked he hdir _ _ =>
      exact Or.inr (Or.inr (Or.inr ⟨_, _, rfl, Removes.of_unlinked hwf he hdir, rfl⟩))

/-- Every effect keeps the invariant, an `unlink` on the condition on the greatest number. -/
theorem FreshNumbers.effect (hes : FreshNumbers es) (hwf : WellFormed img es) {c : Call}
    {r : Int} {img' : Image} {es' : List LogEntry} (hdirs : DirsTo es c.path)
    (heffect : Effect img es c r img' es')
    (hmax : ∀ p e, c = .unlink p → Removes es p e →
      maxNumber (markDeleted e.offset es) = maxNumber es) : FreshNumbers es' := by
  rcases heffect.log_cases hwf hes.bound hdirs with
    rfl | ⟨q, name, d, newP, newF, hc, rfl⟩ | ⟨p, e, new, hw, rfl⟩ | ⟨p, e, hcall, hr, rfl⟩
  · exact hes
  · exact hc.freshNumbers hes
  · exact hw.freshNumbers hes
  · exact hr.freshNumbers hes (hmax p e hcall hr)

end

/-! ## Runs -/

/-- The condition on a step: a created path has its last slash within the buffer of
`find_parent_log_path`, and `wfs_unlink` leaves an entry that is not deleted and whose
number is at least that of the file. -/
def KeepsMaxNumber (img : Image) : Call → Prop
  | .create _ dir _ _ _ _ => ParentFits dir
  | .write _ _ _ _ => True
  | .unlink path => ∀ log, Resolves img path log →
      isDirMode (inodeAt img.byte log .mode) = false →
      ∃ es e, LogFrom img.byte sizeofSb es img.head ∧ e ∈ es ∧ e.offset ≠ log ∧ e.live = true ∧
        inodeAt img.byte log .inodeNumber ≤ e.number

theorem KeepsMaxNumber.maxNumber_eq {img : Image} {es : List LogEntry} (hwf : WellFormed img es)
    {p : Path} (hc : KeepsMaxNumber img (.unlink p)) (hdirs : DirsTo es p) {e : LogEntry}
    (hr : Removes es p e) : maxNumber (markDeleted e.offset es) = maxNumber es := by
  have hmem := mem_of_resolve hr.resolves
  have hinode := (hwf.toLogView.reads hmem).1
  obtain ⟨es1, f, hlog, hf, hoff, hlive, hnum⟩ :=
    hc e.offset ((hwf.resolves_iff hdirs).mpr ⟨e, hr.resolves, rfl⟩) (by rw [hinode]; exact hr.file)
  obtain rfl := hlog.unique hwf.entries
  rw [hinode] at hnum
  refine hr.maxNumber_eq hf ?_ hlive hnum
  rintro rfl
  exact hoff rfl

theorem Run.freshNumbers {img0 img : Image} {evs : List Event}
    (hrun : Run (StepIf KeepsMaxNumber) img0 evs img) (h0 : Fresh img0) :
    ∃ es, WellFormed img es ∧ FreshNumbers es := by
  refine Run.log_invariant (P := fun _ _ es => FreshNumbers es) hrun h0
    (fun t _ => freshNumbers_rootEntry t) ?_
  intro _ img es c r img' es' hwf hes hc hdirs heffect _
  refine hes.effect hwf hdirs heffect ?_
  rintro p e rfl hr
  exact hc.maxNumber_eq hwf hdirs hr

/-- The uniqueness of inode numbers in one image: the number that the next creation hands
out is in no current directory, distinct paths have distinct inodes, and a creation makes
only its own path resolve. `cond` restricts the creations considered. -/
structure UniqueInodes (cond : Image → Call → Prop) (img : Image) : Prop where
  unnamed : ∃ num, exec maxInodeNum img = some (num, img) ∧ num + 1 < 2 ^ 32 ∧
    ∀ n log, exec (getLogEntry n) img = some (some log, img) →
      isDirMode (inodeAt img.byte log .mode) = true →
      ∀ x ∈ dentries (readBytes img.byte (log + sizeofInode) (inodeAt img.byte log .size)),
        x.inodeNumber ≠ num + 1
  distinct : ∀ p q lp lq, PrefixDirs img p → PrefixDirs img q → Resolves img p lp →
    Resolves img q lq → p ≠ q →
    inodeAt img.byte lp .inodeNumber ≠ inodeAt img.byte lq .inodeNumber
  only : ∀ kind dir name mode uid t r img',
    StepIf cond img (.create kind dir name mode uid t, r) img' →
    ∀ p log, PrefixDirs img' p → Resolves img' p log → p ≠ dir ++ [name] →
      ∃ log0, Resolves img p log0

/-- A creation in the right directory makes no other path resolve. -/
theorem FreshNumbers.only {img : Image} {es : List LogEntry} (hes : FreshNumbers es)
    (hwf : WellFormed img es) {kind : Kind} {dir : Path} {name : Name} {mode uid t : Nat}
    {r : Int} {img' : Image} (hstep : Step img (.create kind dir name mode uid t, r) img')
    (hfits : ParentFits dir) {p : Path} {log : Nat} (hp : PrefixDirs img' p)
    (hlog : Resolves img' p log) (hne : p ≠ dir ++ [name]) : ∃ log0, Resolves img p log0 := by
  obtain ⟨es', heffect, hwf'⟩ := hstep.effect hwf
  have hdirs := hstep.1.dirsTo hwf
  have hp' := hwf'.dirsTo hp
  obtain ⟨e', he', rfl⟩ := (hwf'.resolves_iff hp').mp hlog
  cases heffect with
  | createExists => exact ⟨_, hlog⟩
  | created hq hparent hd hdir hnew _ hinode _ hdentries hfile _ =>
      obtain rfl := hparent hfits
      have hcr := Creates.of_created hwf hes.bound hdirs hq hd hdir hnew hinode hdentries hfile
      rw [← List.singleton_append, ← List.append_assoc] at he' hp'
      rw [hcr.resolve_both hes hp', if_neg hne] at he'
      obtain ⟨e, he, rfl⟩ := Option.map_eq_some_iff.mp he'
      rcases hcr.dirsTo_of_both hes hp' with hold | ⟨hnone, _⟩
      · exact ⟨e.offset, (hwf.resolves_iff hold).mpr ⟨e, he, rfl⟩⟩
      · rw [hnone] at he
        cases he

/-- In a run whose steps meet the condition, inode numbers are unique. -/
theorem inode_numbers_unique {img0 img : Image} {evs : List Event} (h0 : Fresh img0)
    (hrun : Run (StepIf KeepsMaxNumber) img0 evs img) : UniqueInodes KeepsMaxNumber img := by
  obtain ⟨es, hwf, hes⟩ := Run.freshNumbers hrun h0
  refine ⟨⟨maxNumber es, hwf.toLogView.exec_maxInodeNum, hwf.toLogView.maxNumber_lt hes.bound,
    ?_⟩, ?_, ?_⟩
  · intro n log hlog hdir x hx
    rw [hwf.toLogView.exec_getLogEntry, Option.some.injEq, Prod.mk.injEq] at hlog
    obtain ⟨e, he, rfl⟩ := Option.map_eq_some_iff.mp hlog.1
    have hcur := current_of_newest he
    obtain ⟨hinode, hdata⟩ := hwf.toLogView.reads hcur.mem
    rw [hinode] at hdir hx
    rw [hdata] at hx
    have := hes.named e hcur hdir x hx
    omega
  · intro p q lp lq hp hq hlp hlq hne heq
    have hp' := hwf.dirsTo hp
    have hq' := hwf.dirsTo hq
    obtain ⟨e, he, rfl⟩ := (hwf.resolves_iff hp').mp hlp
    obtain ⟨f, hf, rfl⟩ := (hwf.resolves_iff hq').mp hlq
    rw [(hwf.toLogView.reads (mem_of_resolve he)).1,
      (hwf.toLogView.reads (mem_of_resolve hf)).1] at heq
    exact hne (hes.injective p q e f hp' hq' he hf heq)
  · intro kind dir name mode uid t r img' hstep p log hp hlog hne
    exact hes.only hwf hstep.1 hstep.2 hp hlog hne

/-- Decides `KeepsMaxNumber`. -/
def keepsMaxNumberCheck (img : Image) : Call → Bool
  | .create _ dir _ _ _ _ => decide (ParentFits dir)
  | .write _ _ _ _ => true
  | .unlink path => (lookupPath img path).all fun log =>
      (logOf img).any fun es => es.any fun e => e.offset != log && e.live &&
        decide (inodeAt img.byte log .inodeNumber ≤ e.number)

theorem keepsMaxNumber_of_check {img : Image} {c : Call} (h : keepsMaxNumberCheck img c = true) :
    KeepsMaxNumber img c := by
  cases c with
  | create kind dir name mode uid t => exact (of_decide_eq_true h : ParentFits dir)
  | write path buffer writeOffset t => trivial
  | unlink path =>
      intro log hlog _
      have hall := (Option.all_eq_true _ _).mp h log (resolves_iff_lookupPath.mp hlog)
      obtain ⟨es, hes, hany⟩ := (Option.any_eq_true _ _).mp hall
      obtain ⟨e, he, hcond⟩ := List.any_eq_true.mp hany
      simp only [Bool.and_eq_true, bne_iff_ne, decide_eq_true_eq] at hcond
      exact ⟨es, e, logFrom_of_logOf hes, he, hcond.1.1, hcond.1.2, hcond.2⟩

/-- A run with a creation of each kind, a write and an `unlink` that meets the condition. -/
theorem inode_numbers_unique_run :
    ∃ img0 evs img, Fresh img0 ∧ Run (StepIf KeepsMaxNumber) img0 evs img ∧ evs.length = 4 ∧
      UniqueInodes KeepsMaxNumber img := by
  obtain ⟨img0, evs, img, hfresh, hrun, hP⟩ := @exists_run_of_check KeepsMaxNumber
    keepsMaxNumberCheck (fun _ _ _ => keepsMaxNumber_of_check) (zeroDisk 600)
    [.create .file [] nameA 0o644 0 0, .create .directory [] nameB 0o755 0 0,
      .write [nameA] [1, 2, 3] 0 0, .unlink [nameA]]
    (fun res => res.1.length == 4) (by decide +kernel)
  exact ⟨img0, evs, img, hfresh, hrun, beq_iff_eq.mp hP, inode_numbers_unique hfresh hrun⟩

/-- After `/a` is created, unlinked and `/b` created, both names lead to one inode. -/
theorem unlink_frees_a_named_number :
    ¬ ∀ img0 evs img, Fresh img0 → Run Step img0 evs img →
      UniqueInodes (fun _ _ => True) img := by
  intro h
  obtain ⟨img0, evs, img, hfresh, hrun, hP⟩ := @exists_run_of_eval (zeroDisk 400)
    [.create .file [] nameA 0o644 0 0, .unlink [nameA], .create .file [] nameB 0o644 0 0]
    (fun res => prefixDirsCheck res.2 [nameA] && prefixDirsCheck res.2 [nameB] &&
      (lookupPath res.2 [nameA]).isSome && lookupPath res.2 [nameA] == lookupPath res.2 [nameB])
    (by decide +kernel)
  simp only [Bool.and_eq_true, beq_iff_eq] at hP
  obtain ⟨⟨⟨hpa, hpb⟩, hsome⟩, heq⟩ := hP
  obtain ⟨log, hlog⟩ := Option.isSome_iff_exists.mp hsome
  exact (h img0 evs img hfresh hrun).distinct [nameA] [nameB] log log (prefixDirs_of_check hpa)
    (prefixDirs_of_check hpb) (resolves_iff_lookupPath.mpr hlog)
    (resolves_iff_lookupPath.mpr (heq ▸ hlog)) (by decide) rfl

end OSProjects.Wfs
