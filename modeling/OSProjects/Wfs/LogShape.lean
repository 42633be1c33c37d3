import OSProjects.Wfs.Execution

/-!
# The log is an append-only chain of complete entries

Every image that the server reaches from the output of `mkfs.wfs` holds a
well-formed log, and a call changes no byte below the old head except the deleted
word of the entry that `wfs_unlink` removes.
-/

namespace OSProjects.Wfs

open ByteMemory CString WfsM StepSystem

/-- The bytes of the entries are only appended to, except by an `unlink` that succeeds. -/
theorem Effect.frame {img img' : Image} {es es' : List LogEntry} {c : Call} {r : Int}
    (h : Effect img es c r img' es') (hc : ∀ path, c = .unlink path → r ≠ 0) {i : Nat}
    (h8 : sizeofSb ≤ i) (hi : i < img.head) : img'.byte i = img.byte i := by
  cases h with
  | createExists => rfl
  | created _ _ _ _ _ _ _ _ _ _ hframe => exact hframe i (Or.inr h8) (Or.inl hi)
  | writeNegative => rfl
  | writeMissing => rfl
  | written _ _ _ _ hframe => exact hframe i (Or.inr h8) (Or.inl hi)
  | unlinkMissing => rfl
  | unlinkDir => rfl
  | unlinked => exact absurd rfl (hc _ rfl)

/-- The image holds a chain of complete entries that ends at `sb->head`, its directories
hold whole records, and the next call returns and leaves the bytes of the chain alone; a
successful `wfs_unlink` sets the deleted word of one entry and changes nothing else. -/
def LogShape (img : Image) : Prop :=
  ∃ es, LogFrom img.byte sizeofSb es img.head ∧ img.head ≤ img.size ∧
    (∀ e ∈ es, e.isDir = true → sizeofDentry ∣ e.inode .size) ∧
    ∀ c : Call, c.Issued img → c.Fits img → ∃ r img', exec c.run img = some (r, img') ∧
      ((∀ path, c = .unlink path → r ≠ 0) →
        ∀ i, sizeofSb ≤ i → i < img.head → img'.byte i = img.byte i) ∧
      ∀ path, c = .unlink path → r = 0 → ∃ e ∈ es, Resolves img path e.offset ∧
        inodeAt img.byte e.offset .deleted = 0 ∧ inodeAt img'.byte e.offset .deleted = 1 ∧
        ∀ i, i < e.offset + 4 ∨ e.offset + 8 ≤ i → img'.byte i = img.byte i

theorem log_shape {img0 img : Image} {evs : List Event} (h0 : Fresh img0)
    (hrun : Run Step img0 evs img) : LogShape img := by
  obtain ⟨es, hwf⟩ := Run.wellFormed hrun h0
  refine ⟨es, hwf.entries, hwf.inside, fun e he hdir => ?_, fun c hissued hfits => ?_⟩
  · rw [← hwf.entries.length_data he]
    exact (hwf.dirs e he hdir).dvd_length
  · obtain ⟨r, img', es', hexec, heffect, _, _⟩ := hwf.served hissued hfits
    refine ⟨r, img', hexec, fun hc i h8 hi => heffect.frame hc h8 hi, ?_⟩
    rintro path rfl rfl
    cases heffect with
    | @unlinked _ e _ he hdir hinode hframe =>
        have hmem := mem_of_resolve he
        refine ⟨e, hmem, ?_, ?_, ?_, hframe⟩
        · exact (hwf.resolves_iff (hwf.dirsTo hissued)).mpr ⟨e, he, rfl⟩
        · rw [(hwf.toLogView.reads hmem).1]
          simpa [LogEntry.live] using live_of_resolve he
        · rw [hinode]
          rfl

/-- A run of four kinds of calls. -/
theorem log_shape_run : ∃ img0 evs img, Fresh img0 ∧ Run Step img0 evs img ∧ evs.length = 4 ∧
    LogShape img := by
  obtain ⟨img0, evs, img, hfresh, hrun, hP⟩ := @exists_run_of_eval (zeroDisk 600)
    [.create .directory [] nameA 0o755 0 0, .create .file [nameA] nameB 0o644 0 0,
      .write [nameA, nameB] [1, 2, 3] 4 0, .unlink [nameA, nameB]]
    (fun res => res.1.length == 4) (by decide +kernel)
  exact ⟨img0, evs, img, hfresh, hrun, beq_iff_eq.mp hP, log_shape hfresh hrun⟩

end OSProjects.Wfs
