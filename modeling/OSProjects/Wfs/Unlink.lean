import OSProjects.Wfs.Uniqueness

/-!
# What is left of a file after `wfs_unlink`

The handler sets the deleted word of the newest version. The record in the directory
stays, so the name cannot be created again, and an older version comes to light when
there is one.
-/

namespace OSProjects.Wfs

open ByteMemory VersionedLog CString WfsM StepSystem

/-- What the removal of the file `name` in the directory `dir` should mean. The last part
speaks of a creation that looks its parent up under the path of that directory. -/
structure UnlinkLaw (img : Image) (dir : Path) (name : Name) : Prop where
  gone : ∀ img', exec (wfsUnlink (render (dir ++ [name]))) img = some (0, img') →
    exec (pathToLogEntry (render (dir ++ [name]))) img' = some (none, img') ∧
    (∃ st, exec (myGetattr (render (dir ++ [name]))) img' = some ((eNOENT, st), img')) ∧
    (∀ size offset,
      exec (myRead (render (dir ++ [name])) size offset) img' = some ((eNOENT, []), img')) ∧
    ∀ buffer writeOffset t, 0 ≤ writeOffset →
      exec (myWrite (render (dir ++ [name])) buffer writeOffset t) img' = some (eNOENT, img')
  others : ∀ img', exec (wfsUnlink (render (dir ++ [name]))) img = some (0, img') →
    ∀ q log, q ≠ dir ++ [name] → PrefixDirs img q → (Resolves img' q log ↔ Resolves img q log)
  again : ∀ img', exec (wfsUnlink (render (dir ++ [name]))) img = some (0, img') →
    strtok slash (parentString (render (dir ++ [name]))) = components dir ∧
    ∀ mode uid t, Call.Fits img' (.create .file dir name mode uid t) →
      ∃ img'' log, exec (myMknod (some (render (dir ++ [name]))) mode uid t) img' =
          some (0, img'') ∧ Resolves img'' (dir ++ [name]) log ∧
        isRegMode (inodeAt img''.byte log .mode) = true ∧ inodeAt img''.byte log .size = 0

/-- The parent is looked up under its own path only when it fits the buffer. -/
theorem parentFits_of_parentString {dir : Path} {name : Name}
    (h : strtok slash (parentString (render (dir ++ [name]))) = components dir) :
    ParentFits dir := by
  obtain ⟨q, i, _, hi, hcut, _⟩ := exists_parentPath dir name
  rw [parentString, hi, Option.getD_some, hcut, strtok_joinWith_components] at h
  obtain rfl := components_injective h
  have hlen := congrArg List.length hcut
  obtain ⟨front, back, hsplit, hfront, _⟩ := strrchr_eq_some.mp hi
  have hbound := List.length_take_le (maxPathLength - 1) (render (q ++ [name]))
  rw [hsplit, List.length_append, List.length_cons] at hbound
  rw [hsplit, ← hfront, List.take_left] at hlen
  unfold ParentFits
  simp only [maxPathLength] at hbound ⊢
  omega

/-- Whatever has happened before, `my_mknod` refuses the name of a file that was just
unlinked, so the law holds nowhere. -/
theorem unlink_law_never {img0 img : Image} {evs : List Event} (h0 : Fresh img0)
    (hrun : Run Step img0 evs img) {dir : Path} {name : Name} {log : Nat}
    (hp : PrefixDirs img (dir ++ [name])) (hlog : Resolves img (dir ++ [name]) log)
    (hreg : isRegMode (inodeAt img.byte log .mode) = true) : ¬ UnlinkLaw img dir name := by
  intro hlaw
  obtain ⟨es, hwf⟩ := Run.wellFormed hrun h0
  have hdirs := hwf.dirsTo hp
  obtain ⟨e, he, rfl⟩ := (hwf.resolves_iff hdirs).mp hlog
  have hfile : e.isDir = false := by
    rw [(hwf.toLogView.reads (mem_of_resolve he)).1] at hreg
    simp only [isRegMode, beq_iff_eq] at hreg
    simp [LogEntry.isDir, isDirMode, hreg, sIFREG, sIFDIR]
  -- The call deletes the entry; the parent directory is the same entry as before.
  obtain ⟨r, img', es', hexec, heffect, hwf', _⟩ := hwf.served_unlink hdirs
  cases heffect with
  | unlinkMissing hnone =>
      rw [hnone] at he
      cases he
  | unlinkDir he' hdir =>
      rw [he] at he'
      obtain rfl := Option.some.inj he'
      rw [hfile] at hdir
      cases hdir
  | unlinked he' =>
      rw [he] at he'
      obtain rfl := Option.some.inj he'
      have hr := Removes.of_unlinked hwf he hfile
      obtain ⟨d, hd, hdir⟩ := hdirs.parent
      have hd' := hr.resolve_dir (hdirs.of_prefix (List.prefix_append dir [name])) hd hdir
      have hfound : lookupNumber (dentries d.data) name.bytes ≠ notFound := by
        intro hnf
        rw [resolve_concat, hd, Option.bind_some, child_of_notFound hnf] at he
        cases he
      -- So the name is still found in it.
      obtain ⟨hstring, hagain⟩ := hlaw.again img' hexec
      obtain ⟨q, _, hq, hfind⟩ := hwf'.exec_findParentLogPath (hr.dirsTo_left hdirs)
      rw [hq (parentFits_of_parentString hstring), hd', Option.map_some] at hfind
      have hmem' := mem_of_resolve hd'
      have hexists := hwf'.exec_createEntry_exists hmem' hdir hfind
        (by rw [fileName_render]; exact name.no_nul) (by rw [fileName_render]; exact hfound)
        (mknodFields 0 0 0)
      obtain ⟨img'', log', hmknod, _⟩ := hagain 0 0 0 (fun log hlog' hnf => by
        rw [hfind, Option.some.injEq, Prod.mk.injEq, Option.some.injEq] at hlog'
        rw [← hlog'.1, hwf'.toLogView.exec_getInodeNumber hmem' (hwf'.dirs d hmem' hdir)
          name.no_nul, Option.some.injEq, Prod.mk.injEq] at hnf
        exact absurd hnf.1 hfound)
      rw [myMknod, hexists, Option.some.injEq, Prod.mk.injEq] at hmknod
      exact absurd hmknod.1 (by decide)

/-- The law fails for a file that was written twice. -/
theorem unlink_law_never_run :
    ∃ img0 evs img, Fresh img0 ∧ Run Step img0 evs img ∧ evs.length = 3 ∧
      ¬ UnlinkLaw img [] nameA := by
  obtain ⟨img0, evs, img, hfresh, hrun, hP⟩ := @exists_run_of_eval (zeroDisk 400)
    [.create .file [] nameA 0o644 0 0, .write [nameA] [1] 0 0, .write [nameA] [2] 0 0]
    (fun res => res.1.length == 3 && prefixDirsCheck res.2 [nameA] &&
      (lookupPath res.2 [nameA]).any fun log => isRegMode (inodeAt res.2.byte log .mode))
    (by decide +kernel)
  simp only [Bool.and_eq_true, beq_iff_eq] at hP
  obtain ⟨⟨hlen, hdirs⟩, hany⟩ := hP
  obtain ⟨log, hlog, hreg⟩ := (Option.any_eq_true _ _).mp hany
  exact ⟨img0, evs, img, hfresh, hrun, hlen, unlink_law_never hfresh hrun
    (prefixDirs_of_check hdirs) (resolves_iff_lookupPath.mpr hlog) hreg⟩

/-- `/a` created, unlinked and created again: the second creation answers `-EEXIST`. -/
theorem unlink_keeps_the_name :
    ¬ ∀ img0 evs img dir name log, Fresh img0 → Run Step img0 evs img →
      PrefixDirs img (dir ++ [name]) → Resolves img (dir ++ [name]) log →
      isRegMode (inodeAt img.byte log .mode) = true → UnlinkLaw img dir name := by
  intro h
  obtain ⟨img0, evs, img, hfresh, hrun, hP⟩ := @exists_run_of_eval (zeroDisk 400)
    [.create .file [] nameA 0o644 0 0]
    (fun res => prefixDirsCheck res.2 [nameA] &&
      (lookupPath res.2 [nameA]).any (fun log => isRegMode (inodeAt res.2.byte log .mode)) &&
      (exec (wfsUnlink (render [nameA])) res.2).any fun un => un.1 == 0 &&
        Call.fitsCheck un.2 (.create .file [] nameA 0o644 0 0) &&
        (exec (myMknod (some (render [nameA])) 0o644 0 0) un.2).map Prod.fst == some eEXIST)
    (by decide +kernel)
  simp only [Bool.and_eq_true] at hP
  obtain ⟨⟨hdirs, hany⟩, hunlink⟩ := hP
  obtain ⟨log, hlog, hreg⟩ := (Option.any_eq_true _ _).mp hany
  obtain ⟨⟨r, img'⟩, hexec, hun⟩ := (Option.any_eq_true _ _).mp hunlink
  simp only [Bool.and_eq_true, beq_iff_eq] at hun
  obtain ⟨⟨rfl, hfits⟩, hmknod⟩ := hun
  have hlaw := h img0 evs img [] nameA log hfresh hrun (prefixDirs_of_check hdirs)
    (resolves_iff_lookupPath.mpr hlog) hreg
  obtain ⟨img'', log'', hagain, _⟩ := (hlaw.again img' hexec).2 0o644 0 0 (Call.fits_of_check hfits)
  rw [List.nil_append] at hagain
  rw [hagain, Option.map_some, Option.some.injEq] at hmknod
  exact absurd (show (0 : Int) = eEXIST from hmknod) (by decide)

end OSProjects.Wfs
