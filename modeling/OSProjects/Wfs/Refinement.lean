import OSProjects.Wfs.Tree

/-!
# The log refines the directory tree

In every run of creations and writes the lookups of the server agree with the tree
that the requests describe.
-/

namespace OSProjects.Wfs

open ByteMemory VersionedLog CString WfsM StepSystem

/-- The condition on a step: a created path has at most 127 characters, and nothing is
unlinked. -/
def ShortPaths (_ : Image) : Call → Prop
  | .create _ dir name _ _ _ => (render (dir ++ [name])).length ≤ 127
  | .write _ _ _ _ => True
  | .unlink _ => False

/-- Decides `ShortPaths`. -/
def shortPathsCheck (_ : Image) : Call → Bool
  | .create _ dir name _ _ _ => decide ((render (dir ++ [name])).length ≤ 127)
  | .write _ _ _ _ => true
  | .unlink _ => false

theorem shortPaths_of_check {img : Image} {c : Call} (h : shortPathsCheck img c = true) :
    ShortPaths img c := by
  cases c with
  | create kind dir name mode uid t =>
      exact (of_decide_eq_true h : (render (dir ++ [name])).length ≤ 127)
  | write path buffer writeOffset t => trivial
  | unlink path => cases h

/-- The parent of a path of at most 127 characters fits the buffer. -/
theorem parentFits_of_length {dir : Path} {name : Name}
    (h : (render (dir ++ [name])).length ≤ 127) : ParentFits dir := by
  have hname : 0 < name.bytes.length := List.length_pos_iff.mpr name.ne_nil
  rw [render_concat, List.length_append, List.length_cons] at h
  unfold ParentFits
  simp only [maxPathLength]
  omega

section

variable {img : Image} {es : List LogEntry} {T : Tree}

/-- A creation returns `-EEXIST` exactly when the tree has the path. -/
theorem Represents.lookup_iff (h : Represents es T) (hwf : WellFormed img es) {dir : Path}
    {name : Name} (hdirs : DirsTo es (dir ++ [name])) {d : LogEntry} (hd : resolve es dir = some d)
    (hdir : d.isDir = true) :
    lookupNumber (dentries d.data) name.bytes ≠ notFound ↔ ∃ n, T.node (dir ++ [name]) = some n := by
  have hword := hwf.toLogView.maxNumber_lt h.bound
  constructor
  · intro hfound
    obtain ⟨e, he⟩ := h.resolve_of_lookup hd hdir hfound (by omega)
    obtain ⟨n, hn, _⟩ := h.present _ e hdirs he
    exact ⟨n, hn⟩
  · rintro ⟨n, hn⟩ hnone
    have := h.absent _ hdirs (by rw [resolve_concat, hd, Option.bind_some, child_of_notFound hnone])
    rw [this] at hn
    cases hn

theorem Represents.effect (h : Represents es T) (hwf : WellFormed img es) {c : Call} {r : Int}
    {img' : Image} {es' : List LogEntry} (hdirs : DirsTo es c.path) (hc : ShortPaths img c)
    (heffect : Effect img es c r img' es') : Represents es' (T.step c) := by
  have hes := h.toFreshNumbers
  cases heffect with
  | @createExists kind dir name mode uid t q d hq hparent hd hdir hold =>
      obtain rfl := hparent (parentFits_of_length hc)
      obtain ⟨n, hn⟩ := (h.lookup_iff hwf hdirs hd hdir).mp hold
      simp only [Tree.step, hn]
      exact h
  | @created kind dir name mode uid t q d _ newP newF hq hparent hd hdir hnew _ hinode _
      hdentries hfile _ =>
      obtain rfl := hparent (parentFits_of_length hc)
      have hcr := Creates.of_created hwf hes.bound hdirs hq hd hdir hnew hinode hdentries hfile
      have hnone : T.node (q ++ [name]) = none := by
        cases hn : T.node (q ++ [name]) with
        | none => rfl
        | some n => exact absurd hnew ((h.lookup_iff hwf hdirs hd hdir).mpr ⟨n, hn⟩)
      simp only [Tree.step, hnone]
      have hmode : newF.inode .mode = kind.newMode mode % 2 ^ 32 := by
        rw [hfile]
        rfl
      simpa using h.created hcr hmode (by rw [hfile]; rfl)
  | writeNegative hneg =>
      simp only [Tree.step, if_pos hneg]
      split <;> exact h
  | @writeMissing path _ _ _ hpos hnone =>
      have hn : T.node path = none := h.absent path hdirs hnone
      simp only [Tree.step, hn]
      exact h
  | @written path buffer writeOffset t e _ new hpos he hreg hnew _ =>
      obtain ⟨n, hn, hshow⟩ := h.present path e hdirs he
      simp only [Tree.step, hn, if_neg (not_lt.mpr hpos)]
      have hr := Rewrites.of_written he hreg hnew
      refine h.written hr hdirs hn ?_ ?_
      · rw [hnew]
        rfl
      · rw [length_overlay, ← hshow.size hreg, hnew]
        rfl
  | unlinkMissing => exact hc.elim
  | unlinkDir => exact hc.elim
  | unlinked => exact hc.elim

end

theorem Run.represents {img0 img : Image} {evs : List Event}
    (hrun : Run (StepIf ShortPaths) img0 evs img) (h0 : Fresh img0) :
    ∃ es, WellFormed img es ∧ Represents es (Tree.after evs) := by
  refine Run.log_invariant (P := fun evs _ es => Represents es (Tree.after evs)) hrun h0
    (fun t _ => Represents.rootEntry t) ?_
  intro evs img es c r img' es' hwf h hc hdirs heffect _
  rw [Tree.after_concat]
  exact h.effect hwf hdirs hc heffect

/-- `my_getattr` reads the entry that the path leads to. -/
theorem WellFormed.exec_myGetattr {img : Image} {es : List LogEntry} (h : WellFormed img es)
    {p : Path} (hp : DirsTo es p) :
    exec (myGetattr (render p)) img = some (match resolve es p with
      | none => (eNOENT, ⟨0, 0, 0, 0, 0, 0⟩)
      | some e => (0, ⟨e.inode .size, e.inode .links, e.inode .mode, e.inode .mtime,
          e.inode .gid, e.inode .uid⟩), img) := by
  cases he : resolve es p with
  | none => simp [myGetattr, h.exec_pathToLogEntry hp, he]
  | some e =>
      have hfield := h.toLogView.exec_loadField (mem_of_resolve he)
      simp [myGetattr, h.exec_pathToLogEntry hp, he, hfield]

/-- The lookups in the image agree with the tree. -/
structure AgreesWith (img : Image) (T : Tree) : Prop where
  dirs : ∀ p, PrefixDirs img p ↔ T.DirsTo p
  absent : ∀ p, T.DirsTo p → T.node p = none →
    exec (pathToLogEntry (render p)) img = some (none, img) ∧
      ∃ st, exec (myGetattr (render p)) img = some ((eNOENT, st), img)
  present : ∀ p n, T.DirsTo p → T.node p = some n →
    ∃ es e st, LogFrom img.byte sizeofSb es img.head ∧
      newest (fun f => f.number == n.number) es = some e ∧ Resolves img p e.offset ∧
      e.inode .mode = n.mode ∧ (isRegMode n.mode = true → e.inode .size = n.data.length) ∧
      exec (myGetattr (render p)) img = some ((0, st), img) ∧ st.stMode = n.mode ∧
      (isRegMode n.mode = true → st.stSize = n.data.length)
  create : ∀ kind dir name mode uid t, Call.Issued img (.create kind dir name mode uid t) →
    Call.Fits img (.create kind dir name mode uid t) →
    (render (dir ++ [name])).length ≤ 127 →
    ∃ r img', exec (Call.run (.create kind dir name mode uid t)) img = some (r, img') ∧
      (r = eEXIST ↔ ∃ n, T.node (dir ++ [name]) = some n) ∧ (r = eEXIST → img' = img) ∧
      (r = eEXIST ∨ r = 0)

/-- After every run of creations and writes from a fresh disk, path lookup, attributes and
the answers to further creations are those of the tree. -/
theorem namespace_refinement {img0 img : Image} {evs : List Event} (h0 : Fresh img0)
    (hrun : Run (StepIf ShortPaths) img0 evs img) : AgreesWith img (Tree.after evs) := by
  obtain ⟨es, hwf, h⟩ := Run.represents hrun h0
  refine ⟨?_, ?_, ?_, ?_⟩
  · intro p
    exact hwf.prefixDirs_iff.trans h.dirsTo_iff.symm
  · intro p hp hnone
    have hdirs := h.dirsTo_iff.mp hp
    have he : resolve es p = none := by
      cases he : resolve es p with
      | none => rfl
      | some e =>
          obtain ⟨n, hn, _⟩ := h.present p e hdirs he
          rw [hnone] at hn
          cases hn
    refine ⟨by rw [hwf.exec_pathToLogEntry hdirs, he]; rfl, ⟨0, 0, 0, 0, 0, 0⟩, ?_⟩
    rw [hwf.exec_myGetattr hdirs, he]
  · intro p n hp hn
    have hdirs := h.dirsTo_iff.mp hp
    obtain ⟨e, he⟩ : ∃ e, resolve es p = some e := by
      cases he : resolve es p with
      | some e => exact ⟨e, rfl⟩
      | none =>
          rw [h.absent p hdirs he] at hn
          cases hn
    obtain ⟨n', hn', hshow⟩ := h.present p e hdirs he
    rw [hn] at hn'
    obtain rfl := Option.some.inj hn'
    have hsize : isRegMode n.mode = true → e.inode .size = n.data.length := by
      intro hreg
      exact hshow.size (by rwa [LogEntry.isReg, hshow.mode])
    refine ⟨es, e, _, hwf.entries, ?_, (hwf.resolves_iff hdirs).mpr ⟨e, he, rfl⟩, hshow.mode,
      hsize, by rw [hwf.exec_myGetattr hdirs, he], hshow.mode, hsize⟩
    -- With every entry live, the newest live version is the newest version.
    rw [← hshow.number, ← current_of_resolve he]
    apply newest_congr
    intro f hf
    rw [LogEntry.isVersion, h.live f hf, Bool.and_true]
  · intro kind dir name mode uid t hissued hfits hlen
    obtain ⟨r, img', es', hexec, heffect, _, _⟩ := hwf.served hissued hfits
    have hdirs := hissued.dirsTo hwf
    refine ⟨r, img', hexec, ?_⟩
    cases heffect with
    | createExists hq hparent hd hdir hold =>
        obtain rfl := hparent (parentFits_of_length hlen)
        have hn := (h.lookup_iff hwf hdirs hd hdir).mp hold
        exact ⟨⟨fun _ => hn, fun _ => rfl⟩, fun _ => rfl, Or.inl rfl⟩
    | created hq hparent hd hdir hnew =>
        obtain rfl := hparent (parentFits_of_length hlen)
        refine ⟨⟨fun h0 => absurd h0 (by decide), fun hn => ?_⟩, fun h0 => absurd h0 (by decide),
          Or.inr rfl⟩
        exact absurd hnew ((h.lookup_iff hwf hdirs hd hdir).mpr hn)

/-- A run with nested creations, a repeated one and two writes. -/
theorem namespace_refinement_run :
    ∃ img0 evs img, Fresh img0 ∧ Run (StepIf ShortPaths) img0 evs img ∧ evs.length = 5 ∧
      AgreesWith img (Tree.after evs) := by
  obtain ⟨img0, evs, img, hfresh, hrun, hP⟩ := @exists_run_of_check ShortPaths
    shortPathsCheck (fun _ _ _ => shortPaths_of_check) (zeroDisk 900)
    [.create .directory [] nameA 0o755 0 0, .create .file [nameA] nameB 0o644 0 0,
      .create .file [nameA] nameB 0o644 0 0, .write [nameA, nameB] [1, 2, 3] 4 0,
      .write [nameA, nameB] [9] 1 0]
    (fun res => res.1.length == 5) (by decide +kernel)
  exact ⟨img0, evs, img, hfresh, hrun, beq_iff_eq.mp hP, namespace_refinement hfresh hrun⟩

end OSProjects.Wfs
