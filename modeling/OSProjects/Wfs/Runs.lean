import OSProjects.Wfs.Calls

/-!
# Runs from a fresh disk

`init_wfs` leaves the log that consists of the root entry. A property of the list
that the root entry has and every effect keeps holds after every run.
-/

namespace OSProjects.Wfs

open ByteMemory VersionedLog CString WfsM StepSystem

/-! ## The image that `init_wfs` writes -/

/-- The first entry of every log. -/
def rootEntry (t : Nat) : LogEntry := ⟨sizeofSb, freshInode 0 sIFDIR 0 t, []⟩

theorem assign_rootFields (t : Nat) (i : Inode) :
    assign (rootFields t) i = freshInode 0 sIFDIR 0 t := by
  funext f
  cases f <;> simp [assign, rootFields, freshInode, Function.update]

/-- `init_wfs` on a disk file of any contents leaves the root entry alone. -/
theorem exec_initWfs {disk : Image} (h : sizeofSb + sizeofInode ≤ disk.size) (t : Nat) :
    ∃ img, exec (initWfs t) disk = some ((), img) ∧ img.size = disk.size ∧
      img.head = sizeofSb + sizeofInode ∧ WellFormed img [rootEntry t] := by
  simp only [sizeofSb, sizeofInode] at h
  obtain ⟨img1, hexec1, hsize1, _, _⟩ :=
    exec_store_frame (show 0 + (wordBytes 4 wfsMagic).length ≤ disk.size by
      rw [length_wordBytes]; omega)
  obtain ⟨img2, hexec2, hsize2, hhead2, _⟩ :=
    exec_storeHead (show sizeofSb ≤ img1.size by simp only [sizeofSb]; omega) sizeofSb
  rw [Nat.mod_eq_of_lt (by decide)] at hhead2
  obtain ⟨img3, hexec3, hsize3, hinode3, hframe3⟩ :=
    exec_storeFields (rootFields t) (show sizeofSb + sizeofInode ≤ img2.size by
      simp only [sizeofSb, sizeofInode]; omega)
  have hhead3 : img3.head = sizeofSb := by
    rw [← hhead2]
    exact head_congr fun i _ hi' => hframe3 i (Or.inl hi')
  obtain ⟨img, hexec, hsize, hhead, hframe⟩ :=
    exec_storeHead (show sizeofSb ≤ img3.size by simp only [sizeofSb]; omega)
      (sizeofSb + sizeofInode)
  rw [Nat.mod_eq_of_lt (by decide)] at hhead
  have hinode : inodeAt img.byte sizeofSb = freshInode 0 sIFDIR 0 t := by
    rw [← assign_rootFields t (inodeAt img2.byte sizeofSb), ← hinode3]
    exact inodeAt_congr fun i hi _ => hframe i (Or.inr hi)
  have hentry : rootEntry t = entryAt img.byte sizeofSb := (entryAt_of_freshInode hinode).symm
  refine ⟨img, ?_, by omega, hhead, ⟨⟨⟨hentry, ?_⟩, ?_⟩, ?_⟩⟩
  · have hload2 : exec loadHead img2 = some (sizeofSb, img2) := by
      rw [exec_loadHead_of_le (by simp only [sizeofSb]; omega), hhead2]
    have hload3 : exec loadHead img3 = some (sizeofSb, img3) := by
      rw [exec_loadHead_of_le (by simp only [sizeofSb]; omega), hhead3]
    simp only [initWfs, storeWord, exec_bind, hexec1, Option.bind_some, hexec2, hload2, hexec3,
      hload3, hexec]
  · rw [hhead]
    rfl
  · rw [hhead]
    simp only [sizeofSb, sizeofInode]
    omega
  · intro e he _
    obtain rfl : e = rootEntry t := by simpa using he
    exact DirData.nil

theorem Fresh.wellFormed {img : Image} (h : Fresh img) :
    ∃ t, WellFormed img [rootEntry t] ∧ img.head = sizeofSb + sizeofInode := by
  obtain ⟨disk, t, hsize, hexec⟩ := h
  obtain ⟨img', hexec', _, hhead, hwf⟩ := exec_initWfs hsize t
  rw [hexec, Option.some.injEq, Prod.mk.injEq] at hexec'
  obtain ⟨_, rfl⟩ := hexec'
  exact ⟨t, hwf, hhead⟩

/-! ## Invariants of the list along a run -/

/-- A property of the events, the image and its list that the fresh disk has and every
effect keeps holds after every run. -/
theorem Run.log_invariant {cond : Image → Call → Prop}
    {P : List Event → Image → List LogEntry → Prop} {img0 img : Image} {evs : List Event}
    (hrun : Run (StepIf cond) img0 evs img) (h0 : Fresh img0)
    (hinit : ∀ t, img0.head = sizeofSb + sizeofInode → P [] img0 [rootEntry t])
    (hstep : ∀ evs img es c r img' es', WellFormed img es → P evs img es → cond img c →
      DirsTo es c.path → Effect img es c r img' es' → WellFormed img' es' →
      P (evs ++ [(c, r)]) img' es') :
    ∃ es, WellFormed img es ∧ P evs img es := by
  induction hrun with
  | nil =>
      obtain ⟨t, hwf, hhead⟩ := h0.wellFormed
      exact ⟨[rootEntry t], hwf, hinit t hhead⟩
  | @concat evs img ev img' _ hs ih =>
      obtain ⟨es, hwf, hP⟩ := ih
      obtain ⟨es', heffect, hwf'⟩ := hs.1.effect hwf
      exact ⟨es', hwf', hstep evs img es ev.1 ev.2 img' es' hwf hP hs.2 (hs.1.1.dirsTo hwf)
        heffect hwf'⟩

theorem Run.wellFormed {img0 img : Image} {evs : List Event} (hrun : Run Step img0 evs img)
    (h0 : Fresh img0) : ∃ es, WellFormed img es := by
  have hif : Run (StepIf fun _ _ => True) img0 evs img :=
    hrun.mono fun _ _ _ hs => ⟨hs, trivial⟩
  obtain ⟨es, hwf, _⟩ := Run.log_invariant (P := fun _ _ _ => True) hif h0
    (fun _ _ => trivial) fun _ _ _ _ _ _ _ _ _ _ _ _ _ => trivial
  exact ⟨es, hwf⟩

theorem live_of_resolve {es : List LogEntry} {p : Path} {e : LogEntry}
    (h : resolve es p = some e) : e.live = true := by
  induction p using List.reverseRecOn with
  | nil => exact (LogEntry.isVersion_iff.mp (newest_sat h)).2
  | append_singleton p a _ =>
      rw [resolve_concat] at h
      obtain ⟨d, _, hd⟩ := Option.bind_eq_some_iff.mp h
      unfold child at hd
      split at hd
      · cases hd
      · exact (LogEntry.isVersion_iff.mp (newest_sat hd)).2

end OSProjects.Wfs
