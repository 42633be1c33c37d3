import OSProjects.Wfs.Uniqueness

/-!
# The contents of files

A write past the end of a file keeps the bytes that the disk held in the gap. While
every gap holds zero bytes, a file is the result of its writes in order.
-/

namespace OSProjects.Wfs

open ByteMemory VersionedLog CString WfsM StepSystem

/-- One write applied to the bytes of a file, with zeros in a gap. -/
def applyWrite (data : List UInt8) (off : Nat) (buffer : List UInt8) : List UInt8 :=
  overlay (fun _ => 0) data off buffer

/-- What an event does to the bytes of the file at a path: a write through the path that
found the file. -/
def Event.writeTo (p : Path) (data : List UInt8) : Event → List UInt8
  | (.write path buffer writeOffset _, r) =>
      if path = p ∧ 0 ≤ writeOffset ∧ r ≠ eNOENT then applyWrite data writeOffset.toNat buffer
      else data
  | _ => data

/-- The writes to a path in order, applied to the empty string. -/
def writtenData (p : Path) (evs : List Event) : List UInt8 :=
  evs.foldl (fun data ev => ev.writeTo p data) []

@[simp] theorem writtenData_concat (p : Path) (evs : List Event) (ev : Event) :
    writtenData p (evs ++ [ev]) = ev.writeTo p (writtenData p evs) := by
  simp [writtenData]

/-- The condition on a step: a write starts inside the file or at its end, or the disk holds
zeros where the gap will be. Nothing is unlinked. -/
def ZeroGap (img : Image) : Call → Prop
  | .create _ _ _ _ _ _ => True
  | .write path _ writeOffset _ => ∀ log, Resolves img path log → ∀ i,
      inodeAt img.byte log .size ≤ i → i < writeOffset.toNat →
      img.byte (img.head + sizeofInode + i) = 0
  | .unlink _ => False

/-- Creations and writes only. -/
def NoUnlink (_ : Image) : Call → Prop
  | .unlink _ => False
  | _ => True

/-- Every regular file holds the result of its writes. -/
def ContentsAre (img : Image) (evs : List Event) : Prop :=
  ∀ p log, PrefixDirs img p → Resolves img p log →
    isRegMode (inodeAt img.byte log .mode) = true →
    readBytes img.byte (log + sizeofInode) (inodeAt img.byte log .size) = writtenData p evs

/-- The invariant: files hold their writes, and only paths that resolve were written to. -/
structure HoldsWrites (evs : List Event) (es : List LogEntry) : Prop extends FreshNumbers es where
  files : ∀ p e, DirsTo es p → resolve es p = some e → e.isReg = true → e.data = writtenData p evs
  known : ∀ p, writtenData p evs ≠ [] → DirsTo es p ∧ ∃ e, resolve es p = some e

namespace HoldsWrites

variable {evs : List Event} {es : List LogEntry}

theorem rootEntry (t : Nat) : HoldsWrites [] [rootEntry t] := by
  refine ⟨freshNumbers_rootEntry t, ?_, fun p hp => absurd rfl hp⟩
  intro p e _ he _
  obtain ⟨_, rfl⟩ := resolve_rootEntry he
  rfl

/-- An event that writes to no path keeps the invariant when the list stays. -/
theorem skip (h : HoldsWrites evs es) {ev : Event} (hev : ∀ p data, ev.writeTo p data = data) :
    HoldsWrites (evs ++ [ev]) es := by
  refine ⟨h.toFreshNumbers, ?_, ?_⟩
  · intro p e hp he hreg
    rw [writtenData_concat, hev]
    exact h.files p e hp he hreg
  · intro p hp
    rw [writtenData_concat, hev] at hp
    exact h.known p hp

theorem created (h : HoldsWrites evs es) {ev : Event} (hev : ∀ p data, ev.writeTo p data = data)
    {q : Path} {name : Name} {d newP newF : LogEntry} (hc : Creates es q name d newP newF) :
    HoldsWrites (evs ++ [ev]) (es ++ [newP] ++ [newF]) := by
  have hes := h.toFreshNumbers
  refine ⟨hc.freshNumbers hes, ?_, ?_⟩
  · intro p e hp he hreg
    rw [writtenData_concat, hev]
    rw [hc.resolve_both hes hp] at he
    by_cases hpq : p = q ++ [name]
    · rw [if_pos hpq] at he
      obtain rfl := Option.some.inj he
      rw [hc.empty]
      -- The new path did not resolve, so no write has reached it.
      by_contra hne
      obtain ⟨_, x, hx⟩ := h.known p fun h0 => hne h0.symm
      rw [hpq, resolve_concat, hc.parent, Option.bind_some, child_of_notFound hc.absent] at hx
      cases hx
    rw [if_neg hpq] at he
    obtain ⟨x, hx, rfl⟩ := Option.map_eq_some_iff.mp he
    rcases hc.dirsTo_of_both hes hp with hold | ⟨hnone, _⟩
    · by_cases hnum : x.number = newP.number
      · -- The only inode with a new version is a directory.
        have hdir := hc.isDir
        rw [← hc.parent_isDir] at hdir
        rw [bump, if_pos hnum] at hreg
        simp only [LogEntry.isReg, isRegMode, LogEntry.isDir, isDirMode, beq_iff_eq] at hreg hdir
        rw [hreg] at hdir
        exact absurd hdir (by decide)
      · rw [bump, if_neg hnum] at hreg ⊢
        exact h.files p x hold hx hreg
    · rw [hnone] at hx
      cases hx
  · intro p hp
    rw [writtenData_concat, hev] at hp
    obtain ⟨hdirs, x, hx⟩ := h.known p hp
    have hdirs' := hc.dirsTo_both hes hdirs
    refine ⟨hdirs', ?_⟩
    rw [hc.resolve_both hes hdirs', hx]
    split
    · exact ⟨newF, rfl⟩
    · exact ⟨_, rfl⟩

theorem written (h : HoldsWrites evs es) {p : Path} {buffer : List UInt8} {writeOffset : Int}
    {t : Nat} {r : Int} (hpos : 0 ≤ writeOffset) (hr : r ≠ eNOENT) {e new : LogEntry}
    (hw : Rewrites es p e new) (hp : DirsTo es p) (hreg : e.isReg = true)
    (hdata : new.data = applyWrite e.data writeOffset.toNat buffer) :
    HoldsWrites (evs ++ [(.write p buffer writeOffset t, r)]) (es ++ [new]) := by
  have hes := h.toFreshNumbers
  have hself : ∀ data, Event.writeTo p data (.write p buffer writeOffset t, r) =
      applyWrite data writeOffset.toNat buffer := fun data => if_pos ⟨rfl, hpos, hr⟩
  have hother : ∀ q data, q ≠ p → Event.writeTo q data (.write p buffer writeOffset t, r) = data :=
    fun q data hq => if_neg fun hc => hq hc.1.symm
  refine ⟨hw.freshNumbers hes, ?_, ?_⟩
  · intro q f hq hf hfreg
    rw [hw.dirsTo_new] at hq
    rw [hw.resolve_new hq] at hf
    obtain ⟨x, hx, rfl⟩ := Option.map_eq_some_iff.mp hf
    rw [writtenData_concat]
    by_cases hqp : q = p
    · subst hqp
      rw [hw.resolves] at hx
      obtain rfl := Option.some.inj hx
      rw [bump, if_pos hw.number.symm, hdata, hself, h.files q e hq hw.resolves hreg]
    · have hnum : x.number ≠ new.number := fun hnum =>
        hqp (hes.injective q p x e hq hp hx hw.resolves (hnum.trans hw.number))
      rw [bump, if_neg hnum] at hfreg ⊢
      rw [hother q _ hqp]
      exact h.files q x hq hx hfreg
  · intro q hq
    rw [writtenData_concat] at hq
    rw [hw.dirsTo_new]
    have hold : DirsTo es q ∧ ∃ x, resolve es q = some x := by
      by_cases hqp : q = p
      · exact hqp ▸ ⟨hp, e, hw.resolves⟩
      · rw [hother q _ hqp] at hq
        exact h.known q hq
    obtain ⟨hdirs, x, hx⟩ := hold
    refine ⟨hdirs, bump new x, ?_⟩
    rw [hw.resolve_new hdirs, hx]
    rfl

end HoldsWrites

/-- A write that fits the disk does not return an error number. -/
theorem toInt_ne_eNOENT {n : Nat} (h : n < 2 ^ 32 - 2) : toInt n ≠ eNOENT := by
  unfold toInt eNOENT
  rw [Nat.mod_eq_of_lt (by omega)]
  split <;> omega

theorem HoldsWrites.effect {img img' : Image} {evs : List Event} {es es' : List LogEntry}
    {c : Call} {r : Int} (h : HoldsWrites evs es) (hwf : WellFormed img es)
    (hwf' : WellFormed img' es') (hdirs : DirsTo es c.path) (hc : ZeroGap img c)
    (heffect : Effect img es c r img' es') : HoldsWrites (evs ++ [(c, r)]) es' := by
  cases heffect with
  | createExists => exact h.skip fun _ _ => rfl
  | created hq _ hd hdir hnew _ hinode _ hdentries hfile _ =>
      have hcr := Creates.of_created hwf h.bound hdirs hq hd hdir hnew hinode hdentries
        hfile
      rw [List.append_cons es]
      refine h.created (fun _ _ => ?_) hcr
      rfl
  | writeNegative hneg => exact h.skip fun _ _ => if_neg fun hw => by omega
  | writeMissing => exact h.skip fun _ _ => if_neg fun hw => hw.2.2 rfl
  | @written path buffer writeOffset t e _ new hpos he hreg hnew _ =>
      have hmem := mem_of_resolve he
      refine h.written hpos ?_ (Rewrites.of_written he hreg hnew) hdirs hreg ?_
      · -- The new entry lies below a head that is a word.
        apply toInt_ne_eNOENT
        have hstop := (hwf'.bounds (show new ∈ es ++ [new] by simp)).2
        have hword := img'.head_lt
        have hsize : new.inode .size =
            max (e.inode .size) (writeOffset.toNat + buffer.length) := by
          rw [hnew]
          rfl
        simp only [LogEntry.stop, sizeofInode, sizeofSb] at hstop
        omega
      · rw [hnew]
        apply overlay_congr
        intro i hi hlt
        rw [hwf.entries.length_data hmem] at hi
        refine hc e.offset ((hwf.resolves_iff hdirs).mpr ⟨e, he, rfl⟩) i ?_ hlt
        rwa [(hwf.toLogView.reads hmem).1]
  | unlinkMissing => exact hc.elim
  | unlinkDir => exact hc.elim
  | unlinked => exact hc.elim

/-- In a run of creations and writes whose gaps are zero on the disk, every file holds the
result of its writes. -/
theorem contents_of_zero_gaps {img0 img : Image} {evs : List Event} (h0 : Fresh img0)
    (hrun : Run (StepIf ZeroGap) img0 evs img) : ContentsAre img evs := by
  obtain ⟨es, hwf, h⟩ := Run.log_invariant (P := fun evs _ es => HoldsWrites evs es) hrun h0
    (fun t _ => HoldsWrites.rootEntry t)
    fun evs img es c r img' es' hwf h hc hdirs heffect hwf' =>
      h.effect hwf hwf' hdirs hc heffect
  intro p log hp hlog hreg
  have hdirs := hwf.dirsTo hp
  obtain ⟨e, he, rfl⟩ := (hwf.resolves_iff hdirs).mp hlog
  obtain ⟨hinode, hdata⟩ := hwf.toLogView.reads (mem_of_resolve he)
  rw [hinode] at hreg ⊢
  rw [hdata]
  exact h.files p e hdirs he hreg

/-- Decides `ZeroGap`. -/
def zeroGapCheck (img : Image) : Call → Bool
  | .create _ _ _ _ _ _ => true
  | .write path _ writeOffset _ => (lookupPath img path).all fun log =>
      (List.range writeOffset.toNat).all fun i =>
        decide (i < inodeAt img.byte log .size) || img.byte (img.head + sizeofInode + i) == 0
  | .unlink _ => false

theorem zeroGap_of_check {img : Image} {c : Call} (h : zeroGapCheck img c = true) :
    ZeroGap img c := by
  cases c with
  | create kind dir name mode uid t => trivial
  | write path buffer writeOffset t =>
      intro log hlog i hi hlt
      have hall := (Option.all_eq_true _ _).mp h log (resolves_iff_lookupPath.mp hlog)
      have hone := List.all_eq_true.mp hall i (List.mem_range.mpr hlt)
      simpa [Nat.not_lt.mpr hi] using hone
  | unlink path => cases h

/-- A run with an overlapping write and a write behind the end on a zero disk. -/
theorem contents_of_zero_gaps_run :
    ∃ img0 evs img, Fresh img0 ∧ Run (StepIf ZeroGap) img0 evs img ∧ evs.length = 3 ∧
      ContentsAre img evs := by
  obtain ⟨img0, evs, img, hfresh, hrun, hP⟩ := @exists_run_of_check ZeroGap
    zeroGapCheck (fun _ _ _ => zeroGap_of_check) (zeroDisk 400)
    [.create .file [] nameA 0o644 0 0, .write [nameA] [1, 2, 3] 2 0, .write [nameA] [9] 1 0]
    (fun res => res.1.length == 3) (by decide +kernel)
  exact ⟨img0, evs, img, hfresh, hrun, beq_iff_eq.mp hP, contents_of_zero_gaps hfresh hrun⟩

/-- One byte written at offset 2 of an empty file on a used disk: the file begins with two
bytes that nobody wrote. -/
theorem gap_keeps_stale_bytes :
    ¬ ∀ img0 evs img, Fresh img0 → Run (StepIf NoUnlink) img0 evs img → ContentsAre img evs := by
  intro h
  obtain ⟨img0, evs, img, hfresh, hrun, hP⟩ := @exists_run_of_check NoUnlink
    (fun _ c => match c with | .unlink _ => false | _ => true)
    (fun _ c _ hc => by cases c <;> trivial) (usedDisk 400)
    [.create .file [] nameA 0o644 0 0, .write [nameA] [1] 2 0]
    (fun res => prefixDirsCheck res.2 [nameA] && (lookupPath res.2 [nameA]).any fun log =>
      isRegMode (inodeAt res.2.byte log .mode) &&
        readBytes res.2.byte (log + sizeofInode) (inodeAt res.2.byte log .size) !=
          writtenData [nameA] res.1)
    (by decide +kernel)
  obtain ⟨hdirs, hany⟩ := Bool.and_eq_true_iff.mp hP
  obtain ⟨log, hlog, hcond⟩ := (Option.any_eq_true _ _).mp hany
  obtain ⟨hreg, hne⟩ := Bool.and_eq_true_iff.mp hcond
  exact bne_iff_ne.mp hne (h img0 evs img hfresh hrun [nameA] log (prefixDirs_of_check hdirs)
    (resolves_iff_lookupPath.mpr hlog) hreg)

end OSProjects.Wfs
