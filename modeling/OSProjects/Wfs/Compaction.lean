import Mathlib.Data.Nat.ModEq
import OSProjects.Wfs.CompactLoop
import OSProjects.Wfs.Uniqueness

/-!
# When compaction preserves the file system

The first two entries of every used log are versions of the root directory, and the
loop leaves both where they are. So nothing may have been created, and then every
further stride has to count as deleted.
-/

namespace OSProjects.Wfs

open ByteMemory VersionedLog CString WfsM StepSystem

/-! ## The root directory in the log -/

/-- Entries of inode 0 are directories, the log begins with the entry of `init_wfs`, and in a
used log a second version of the root follows, whose newest version has data. -/
structure Rooted (es : List LogEntry) : Prop where
  shape : ∃ t rest, es = rootEntry t :: rest ∧
    ∀ e more, rest = e :: more → e.number = 0 ∧ e.live = true
  rootDirs : ∀ e ∈ es, e.number = 0 → e.isDir = true
  used : es.length ≠ 1 → ∀ e, newest (LogEntry.isVersion 0) es = some e → e.data ≠ []
  bound : maxNumber es < es.length

theorem rootEntry_isDir (t : Nat) : (rootEntry t).isDir = true := by
  have hmode : isDirMode (sIFDIR % 2 ^ 32) = true := by decide
  exact hmode

theorem rooted_rootEntry (t : Nat) : Rooted [rootEntry t] := by
  refine ⟨⟨t, [], rfl, fun e more h => by cases h⟩, ?_, fun h => absurd rfl h, Nat.zero_lt_one⟩
  intro e he _
  obtain rfl : e = rootEntry t := by simpa using he
  exact rootEntry_isDir t

/-- An entry of another inode behind a log that has its second root version. -/
theorem Rooted.concat {es : List LogEntry} {e : LogEntry} (h : Rooted es)
    (hlen : es.length ≠ 1) (hroot : e.number = 0 → e.isDir = true ∧ e.data ≠ [])
    (hlive : e.live = true) (hbound : e.number ≤ maxNumber es + 1) : Rooted (es ++ [e]) := by
  obtain ⟨t, rest, rfl, hrest⟩ := h.shape
  refine ⟨⟨t, rest ++ [e], rfl, fun f more hf => ?_⟩, ?_, ?_, ?_⟩
  · cases rest with
    | nil => exact absurd rfl hlen
    | cons g gs =>
        simp only [List.cons_append, List.cons.injEq] at hf
        obtain ⟨rfl, _⟩ := hf
        exact hrest g gs rfl
  · intro f hf hnum
    rcases List.mem_append.mp hf with hf | hf
    · exact h.rootDirs f hf hnum
    · obtain rfl : f = e := by simpa using hf
      exact (hroot hnum).1
  · intro _ f hf
    rw [newest_concat] at hf
    split at hf
    · next hv =>
      obtain rfl := Option.some.inj hf
      exact (hroot (LogEntry.isVersion_iff.mp hv).1).2
    · exact h.used hlen f hf
  · rw [maxNumber_concat _ hlive]
    have := h.bound
    simp only [List.length_append, List.length_cons, List.length_nil] at this ⊢
    omega

/-- A new version of a directory with data. -/
theorem Rooted.parentVersion {es : List LogEntry} {d new : LogEntry} (h : Rooted es)
    (hmem : d ∈ es) (hdlive : d.live = true) (hnum : new.number = d.number)
    (hdir : new.isDir = true) (hlive : new.live = true) (hdata : new.data ≠ []) :
    Rooted (es ++ [new]) := by
  have hle := number_le_maxNumber hmem hdlive
  by_cases hlen : es.length = 1
  case neg =>
    exact h.concat hlen (fun _ => ⟨hdir, hdata⟩) hlive (hnum ▸ Nat.le_succ_of_le hle)
  case pos =>
    -- The first creation: its parent can only be the root.
    obtain ⟨t0, rest, rfl, _⟩ := h.shape
    have hnil : rest = [] := by simpa using hlen
    subst hnil
    obtain rfl : d = rootEntry t0 := by simpa using hmem
    refine ⟨⟨t0, [new], rfl, fun e more he => ?_⟩, ?_, ?_, ?_⟩
    · simp only [List.cons.injEq] at he
      obtain ⟨rfl, _⟩ := he
      exact ⟨hnum, hlive⟩
    · intro e he hzero
      rcases List.mem_append.mp he with he | he
      · exact h.rootDirs e he hzero
      · obtain rfl : e = new := by simpa using he
        exact hdir
    · intro _ e he
      have hversion : LogEntry.isVersion 0 new = true := LogEntry.isVersion_iff.mpr ⟨hnum, hlive⟩
      rw [newest_concat, if_pos hversion] at he
      obtain rfl := Option.some.inj he
      exact hdata
    · rw [maxNumber_concat _ hlive, hnum, Nat.max_eq_left hle]
      exact Nat.lt_succ_of_lt h.bound

/-- A root directory is no file. -/
theorem Rooted.number_ne_zero {es : List LogEntry} {e : LogEntry} (h : Rooted es) (hmem : e ∈ es)
    (hfile : e.isDir = false) : e.number ≠ 0 := by
  intro h0
  have hroot := h.rootDirs e hmem h0
  rw [hfile] at hroot
  cases hroot

/-- A new version of a file. -/
theorem Rooted.written {es : List LogEntry} {path : Path} {e new : LogEntry} (h : Rooted es)
    (hr : Rewrites es path e new) : Rooted (es ++ [new]) := by
  have hmem := mem_of_resolve hr.resolves
  have hne := h.number_ne_zero hmem hr.file
  refine h.concat ?_ (fun h0 => absurd (hr.number ▸ h0) hne) hr.live ?_
  · intro hlen
    obtain ⟨t0, rest, rfl, _⟩ := h.shape
    have hnil : rest = [] := by simpa using hlen
    subst hnil
    rw [List.mem_singleton] at hmem
    exact hne (hmem ▸ rfl)
  · rw [hr.number]
    exact Nat.le_succ_of_le (number_le_maxNumber hmem (live_of_resolve hr.resolves))

/-- A deleted file: the entries of the root directory are others. -/
theorem Rooted.unlinked {es : List LogEntry} {path : Path} {e : LogEntry} (h : Rooted es)
    (hr : Removes es path e) : Rooted (markDeleted e.offset es) := by
  have hne := h.number_ne_zero (mem_of_resolve hr.resolves) hr.file
  have hkeep : ∀ f ∈ es, f.number = 0 → (if f.offset = e.offset then f.kill else f) = f := by
    intro f hf hnum
    rw [if_neg]
    intro hoff
    rw [hr.offset f hf hoff] at hnum
    exact hne hnum
  refine ⟨?_, ?_, ?_, ?_⟩
  · obtain ⟨t, rest, rfl, hrest⟩ := h.shape
    refine ⟨t, markDeleted e.offset rest, ?_, fun f more hf => ?_⟩
    · rw [markDeleted, List.map_cons, hkeep _ (by simp) rfl]
      rfl
    · cases rest with
      | nil => cases hf
      | cons g gs =>
          obtain ⟨hnum, hlive⟩ := hrest g gs rfl
          rw [markDeleted, List.map_cons, hkeep g (by simp) hnum, List.cons.injEq] at hf
          rw [← hf.1]
          exact ⟨hnum, hlive⟩
  · intro f hf hnum
    obtain ⟨g, hg, rfl⟩ := List.mem_map.mp hf
    have hgnum : g.number = 0 := by
      by_cases hoff : g.offset = e.offset
      · rwa [if_pos hoff] at hnum
      · rwa [if_neg hoff] at hnum
    rw [hkeep g hg hgnum]
    exact h.rootDirs g hg hgnum
  · intro hlen f hf
    rw [markDeleted, List.length_map] at hlen
    rw [hr.newest_of_ne hne.symm] at hf
    exact h.used hlen f hf
  · rw [markDeleted, List.length_map]
    exact Nat.lt_of_le_of_lt hr.maxNumber_le h.bound

theorem Rooted.effect {img img' : Image} {es es' : List LogEntry} {c : Call} {r : Int}
    (h : Rooted es) (hwf : WellFormed img es) (heffect : Effect img es c r img' es') :
    Rooted es' := by
  cases heffect with
  | createExists => exact h
  | @created kind dir name mode uid t q d _ newP newF hq _ hd hdir _ _ hinode _ hdentries hfile _ =>
      have hmem := mem_of_resolve hd
      have hdlive := live_of_resolve hd
      have hPnum : newP.number = d.number := by
        rw [LogEntry.number, hinode]
        rfl
      have hPdir : newP.isDir = true := by
        rw [← hdir, LogEntry.isDir, hinode]
        rfl
      have hPlive : newP.live = true := by
        rw [← hdlive, LogEntry.live, hinode]
        rfl
      have hPdata : newP.data ≠ [] := by
        intro h0
        rw [h0] at hdentries
        simp at hdentries
      have hFnum : newF.number = maxNumber es + 1 := by
        have hword := hwf.toLogView.maxNumber_lt h.bound
        rw [hfile]
        simp only [LogEntry.number, freshInode]
        omega
      have hFlive : newF.live = true := by
        rw [hfile]
        rfl
      have hmax : maxNumber (es ++ [newP]) = maxNumber es := by
        rw [maxNumber_concat es hPlive, hPnum,
          Nat.max_eq_left (number_le_maxNumber hmem hdlive)]
      have hP := h.parentVersion hmem hdlive hPnum hPdir hPlive hPdata
      rw [List.append_cons es]
      refine hP.concat ?_ (fun h0 => ?_) hFlive (by rw [hFnum, hmax])
      · obtain ⟨t0, rest, rfl, _⟩ := h.shape
        simp
      · rw [hFnum] at h0
        cases h0
  | writeNegative => exact h
  | writeMissing => exact h
  | written _ he hreg hnew _ => exact h.written (Rewrites.of_written he hreg hnew)
  | unlinkMissing => exact h
  | unlinkDir => exact h
  | unlinked he hdir _ _ => exact h.unlinked (Removes.of_unlinked hwf he hdir)

theorem Run.rooted {img0 img : Image} {evs : List Event} (hrun : Run Step img0 evs img)
    (h0 : Fresh img0) : ∃ es, WellFormed img es ∧ Rooted es := by
  have hif : Run (StepIf fun _ _ => True) img0 evs img :=
    hrun.mono fun _ _ _ hs => ⟨hs, trivial⟩
  exact Run.log_invariant (P := fun _ _ es => Rooted es) hif h0 (fun t _ => rooted_rootEntry t)
    fun _ _ _ _ _ _ _ hwf h _ _ heffect _ => h.effect hwf heffect

/-! ## The law of compaction and when it holds -/

/-- What compaction should leave: a complete log, no longer than before, with one entry for
each inode, and for every number the same inode and data as before. -/
structure Compacted (img img' : Image) : Prop where
  log : ∃ es, LogFrom img'.byte sizeofSb es img'.head ∧
    ∀ e ∈ es, ∀ f ∈ es, e.number = f.number → e = f
  shrinks : img'.head ≤ img.head
  found : ∀ n log, exec (getLogEntry n) img = some (some log, img) →
    ∃ log', exec (getLogEntry n) img' = some (some log', img') ∧
      inodeAt img'.byte log' = inodeAt img.byte log ∧
      readBytes img'.byte (log' + sizeofInode) (inodeAt img'.byte log' .size) =
        readBytes img.byte (log + sizeofInode) (inodeAt img.byte log .size)
  absent : ∀ n log', exec (getLogEntry n) img' = some (some log', img') →
    ∃ log, exec (getLogEntry n) img = some (some log, img)

/-- `compact_entries` on a mapping of the disk's size stays inside it and leaves a compacted
log. -/
def CompactionPreserves (img : Image) : Prop :=
  ∃ img', exec (compactEntries img.size) img = some ((), img') ∧ Compacted img img'

/-- Nothing was created, the strides of the loop lie inside the disk, and the root entry is
the only live one among them, counted modulo 2^30. -/
structure CompactionSafe (img : Image) : Prop where
  unused : img.head = sizeofSb + sizeofInode
  inside : StridesInside img.byte img.size sizeofSb sizeofSb
  live : liveStrides img.byte img.size sizeofSb (img.size + 1) % 2 ^ 30 = 1

section

variable {img : Image} {es : List LogEntry} {t : Nat}

/-- The first stride is the root entry, which the loop keeps. -/
theorem strideLive_rootEntry (h : LogFrom img.byte sizeofSb (rootEntry t :: es) img.head) :
    strideLive img.byte sizeofSb = true := by
  have hinode : inodeAt img.byte sizeofSb = freshInode 0 sIFDIR 0 t :=
    (congrArg LogEntry.inode h.1).symm
  rw [strideLive, hinode]
  rfl

/-- One run of `compact_entries`: the loop, then the assignment of the head. -/
theorem exec_compactEntries {img' : Image}
    (h : exec (compactEntries img.size) img = some ((), img')) (hsb : sizeofSb ≤ img.size) :
    ∃ w img1, exec (compactLoop img.size (img.size + 1) sizeofSb sizeofSb) img = some (w, img1) ∧
      img1.size = img.size ∧ w = sizeofSb +
        sizeofInode * liveStrides img.byte img.size sizeofSb (img.size + 1) ∧
      StridesInside img.byte img.size sizeofSb sizeofSb ∧ img'.size = img.size ∧
      img'.head = w % 2 ^ 32 ∧ ∀ i, i < 4 ∨ 8 ≤ i → img'.byte i = img1.byte i := by
  rw [compactEntries, exec_bind] at h
  obtain ⟨⟨w, img1⟩, hloop, hhead⟩ := Option.bind_eq_some_iff.mp h
  obtain ⟨hw, hsize1, _, hin⟩ := compactLoop_returns hloop (Nat.le_refl _)
  obtain ⟨img2, hstore, hsize2, hhead2, hframe2⟩ :=
    exec_storeHead (show sizeofSb ≤ img1.size by rw [hsize1]; exact hsb) w
  obtain rfl : img2 = img' := by
    rw [hstore, Option.some.injEq, Prod.mk.injEq] at hhead
    exact hhead.2
  exact ⟨w, img1, hloop, hsize1, hw, hin, hsize2.trans hsize1, hhead2, hframe2⟩

/-- The loop leaves the root entry where it is. -/
theorem LogView.compactLoop_root (h : LogView img (rootEntry t :: es)) {w : Nat} {img1 : Image}
    (hloop : exec (compactLoop img.size (img.size + 1) sizeofSb sizeofSb) img = some (w, img1)) :
    exec (compactLoop img.size img.size (sizeofSb + sizeofInode) (sizeofSb + sizeofInode)) img =
      some (w, img1) := by
  have hstop := (h.bounds (e := rootEntry t) (by simp)).2.2
  have hin := h.inside
  simp only [LogEntry.stop, rootEntry, sizeofSb, sizeofInode] at hstop
  rw [exec_compactLoop_keep (by simp only [sizeofSb]; omega) (strideLive_rootEntry h.entries)]
    at hloop
  exact hloop

/-- Without further entries the image holds the root entry and nothing else. -/
theorem LogView.of_frame (h : LogView img [rootEntry t]) {img' : Image}
    (hframe : ∀ i, sizeofSb ≤ i → i < sizeofSb + sizeofInode → img'.byte i = img.byte i)
    (hhead : img'.head = img.head) (hsize : img'.size = img.size) :
    LogView img' [rootEntry t] := by
  have hlast : img.head = sizeofSb + sizeofInode := h.entries.2.symm
  refine ⟨?_, by rw [hhead, hsize]; exact h.inside⟩
  rw [hhead]
  exact h.entries.congr fun i hi hi' => (hframe i hi (by omega)).symm

end

/-- A compacted log still has its root. -/
theorem Compacted.root {img img' : Image} (h : Compacted img img') {es : List LogEntry}
    (hwf : WellFormed img es) (hsize : img'.size = img.size) {t : Nat} {rest : List LogEntry}
    (hes : es = rootEntry t :: rest) :
    ∃ es' r e, LogView img' es' ∧ (∀ x ∈ es', ∀ y ∈ es', x.number = y.number → x = y) ∧
      newest (LogEntry.isVersion 0) es = some r ∧ newest (LogEntry.isVersion 0) es' = some e ∧
      e.inode = r.inode := by
  obtain ⟨es', hlog, huniq⟩ := h.log
  have hview : LogView img' es' :=
    ⟨hlog, Nat.le_trans h.shrinks (Nat.le_trans hwf.inside (Nat.le_of_eq hsize.symm))⟩
  obtain ⟨r, hr⟩ : ∃ r, newest (LogEntry.isVersion 0) es = some r := by
    cases hnew : newest (LogEntry.isVersion 0) es with
    | some r => exact ⟨r, rfl⟩
    | none =>
        have := newest_eq_none.mp hnew (rootEntry t) (by simp [hes])
        cases this
  obtain ⟨log', hlog', hinode, _⟩ := h.found 0 r.offset (by
    rw [hwf.toLogView.exec_getLogEntry, hr]
    rfl)
  rw [hview.exec_getLogEntry, Option.some.injEq, Prod.mk.injEq] at hlog'
  obtain ⟨e, he, rfl⟩ := Option.map_eq_some_iff.mp hlog'.1
  refine ⟨es', r, e, hview, huniq, hr, he, ?_⟩
  rw [← (hview.reads (mem_of_newest he)).1, hinode, (hwf.toLogView.reads (mem_of_newest hr)).1]

/-- On a used disk the loop keeps the first 96 bytes, in which two versions of the root lie,
so the result cannot be compacted. -/
theorem not_compacted_of_used {img : Image} {t : Nat} {e : LogEntry} {more : List LogEntry}
    (hwf : WellFormed img (rootEntry t :: e :: more)) (h : Rooted (rootEntry t :: e :: more)) :
    ¬ CompactionPreserves img := by
  rintro ⟨img', hexec, hC⟩
  obtain ⟨w, img1, hloop, hsize1, _, _, hsize, _, hframe⟩ :=
    exec_compactEntries hexec hwf.sb_le
  obtain ⟨henum, helive⟩ : e.number = 0 ∧ e.live = true := by
    obtain ⟨t0, rest, hes, hrest⟩ := h.shape
    simp only [List.cons.injEq] at hes
    exact hrest e more hes.2.symm
  -- The second entry lies right behind the first, and the loop keeps it as well.
  have hentry : e = entryAt img.byte (sizeofSb + sizeofInode) := hwf.entries.2.1
  have hstop := (hwf.bounds (e := e) (by simp)).2.2
  have hin := hwf.inside
  have heoff : e.offset = sizeofSb + sizeofInode := by
    rw [hentry]
    rfl
  simp only [LogEntry.stop, heoff, sizeofSb, sizeofInode] at hstop
  have hloop1 := hwf.toLogView.compactLoop_root hloop
  have hlive : strideLive img.byte (sizeofSb + sizeofInode) = true := by
    have hinode : inodeAt img.byte (sizeofSb + sizeofInode) = e.inode :=
      (congrArg LogEntry.inode hentry).symm
    rw [strideLive, hinode]
    exact helive
  obtain ⟨fuel, hfuel⟩ : ∃ fuel, img.size = fuel + 1 := ⟨img.size - 1, by omega⟩
  rw [show compactLoop img.size img.size = compactLoop img.size (fuel + 1) by rw [← hfuel],
    exec_compactLoop_keep (by simp only [sizeofSb, sizeofInode]; omega) hlive] at hloop1
  obtain ⟨_, _, hkeep, _⟩ := compactLoop_returns hloop1 (Nat.le_refl _)
  have hsame : ∀ i, 8 ≤ i → i < 96 → img'.byte i = img.byte i := by
    intro i hi hi'
    rw [hframe i (Or.inr hi), hkeep i (by simp only [sizeofSb, sizeofInode]; omega)]
  have hinode0 : inodeAt img'.byte sizeofSb = freshInode 0 sIFDIR 0 t := by
    have hroot : inodeAt img.byte sizeofSb = freshInode 0 sIFDIR 0 t :=
      (congrArg LogEntry.inode hwf.entries.1).symm
    rw [← hroot]
    refine inodeAt_congr fun i hi hi' => hsame i ?_ ?_
    all_goals
      simp only [sizeofSb, sizeofInode] at hi hi'
      omega
  have hnum1 : (entryAt img'.byte (sizeofSb + sizeofInode)).number = 0 := by
    rw [← henum, hentry]
    refine congrFun (inodeAt_congr fun i hi hi' => hsame i ?_ ?_) _
    all_goals
      simp only [sizeofSb, sizeofInode] at hi hi'
      omega
  obtain ⟨es', r, f, hview, huniq, hr, hf, hfr⟩ := hC.root hwf hsize rfl
  cases es' with
  | nil => cases hf
  | cons a as =>
      obtain ⟨ha, has⟩ := hview.entries
      have hainode : a.inode = freshInode 0 sIFDIR 0 t := by
        rw [ha]
        exact hinode0
      have haoff : a.offset = sizeofSb := by
        rw [ha]
        rfl
      have hastop : a.stop = sizeofSb + sizeofInode := by
        rw [LogEntry.stop, haoff, hainode]
        rfl
      cases as with
      | nil =>
          -- The only entry left is the first one, whose directory is empty.
          obtain rfl : f = a := by simpa using mem_of_newest hf
          have hrmem := mem_of_newest hr
          have hlen := hwf.entries.length_data hrmem
          have hrsize : r.inode .size = 0 := by
            rw [← hfr, hainode]
            rfl
          exact h.used (by simp) r hr (List.length_eq_zero_iff.mp (hlen.trans hrsize))
      | cons b bs =>
          have hb : b = entryAt img'.byte (sizeofSb + sizeofInode) := by
            rw [← hastop]
            exact has.1
          have hab := huniq a (by simp) b (by simp) (by
            rw [hb, hnum1, LogEntry.number, hainode]
            rfl)
          have hboff : b.offset = sizeofSb + sizeofInode := by
            rw [hb]
            rfl
          rw [← hab, haoff] at hboff
          simp only [sizeofSb, sizeofInode] at hboff
          omega

/-- Only one stride, up to a multiple of `2 ^ 30`, moves the head behind the root entry. -/
theorem strides_of_head {n : Nat} (h : (8 + 44 * n) % 2 ^ 32 = 52) : n % 2 ^ 30 = 1 := by
  have hmod : 8 + 44 * n ≡ 8 + 44 * 1 [MOD 2 ^ 32] := h
  exact (hmod.add_left_cancel' 8).cancel_left_div_gcd (by decide)

/-- Of the reachable images, compaction preserves those on which nothing was created and the
loop counts no stride but the root entry. -/
theorem compaction_preserves_iff {img0 img : Image} {evs : List Event} (h0 : Fresh img0)
    (hrun : Run Step img0 evs img) : CompactionPreserves img ↔ CompactionSafe img := by
  obtain ⟨es, hwf, h⟩ := Run.rooted hrun h0
  obtain ⟨t, rest, rfl, _⟩ := h.shape
  cases rest with
  | cons e more =>
      refine iff_of_false (not_compacted_of_used hwf h) fun hsafe => ?_
      have hlen := hwf.entries.length_le
      rw [hsafe.unused] at hlen
      simp only [sizeofSb, sizeofInode, List.length_cons] at hlen
      omega
  | nil =>
      have hhead : img.head = sizeofSb + sizeofInode := hwf.entries.2.symm
      constructor
      · rintro ⟨img', hexec, hC⟩
        obtain ⟨w, img1, hloop, _, hw, hin, hsize, hhead', hframe⟩ :=
          exec_compactEntries hexec hwf.sb_le
        obtain ⟨_, _, hkeep, _⟩ :=
          compactLoop_returns (hwf.toLogView.compactLoop_root hloop) (Nat.le_refl _)
        refine ⟨hhead, hin, ?_⟩
        obtain ⟨es', r, f, hview, _, _, hf, _⟩ := hC.root hwf hsize rfl
        -- The log that is left holds at least the root entry, so the head is where it was.
        have hshrinks := hC.shrinks
        cases es' with
        | nil => cases hf
        | cons a as =>
            have hstop := (hview.bounds (e := a) (by simp)).2
            generalize liveStrides img.byte img.size sizeofSb (img.size + 1) = n at hw ⊢
            simp only [LogEntry.stop, sizeofSb, sizeofInode] at hstop hhead hw
            have hsame : img'.head = 52 := by omega
            rw [hhead', hw] at hsame
            exact strides_of_head hsame
      · rintro ⟨_, hin, hlive⟩
        obtain ⟨⟨w, img1⟩, hloop⟩ := @compactLoop_total (img.size + 1) sizeofSb sizeofSb img
          (Nat.succ_pos _) (by omega) (Nat.le_refl _) hin
        obtain ⟨hw, hsize1, _, _⟩ := compactLoop_returns hloop (Nat.le_refl _)
        obtain ⟨_, _, hkeep, _⟩ :=
          compactLoop_returns (hwf.toLogView.compactLoop_root hloop) (Nat.le_refl _)
        obtain ⟨img', hstore, hsize', hhead', hframe⟩ :=
          exec_storeHead (show sizeofSb ≤ img1.size by rw [hsize1]; exact hwf.sb_le) w
        have hsame : ∀ i, sizeofSb ≤ i → i < sizeofSb + sizeofInode →
            img'.byte i = img.byte i := by
          intro i hi hi'
          rw [hframe i (Or.inr hi), hkeep i hi']
        have hkept : img'.head = img.head := by
          rw [hhead', hhead, hw]
          simp only [sizeofSb, sizeofInode] at hlive ⊢
          omega
        have hview := hwf.toLogView.of_frame hsame hkept (hsize'.trans hsize1)
        refine ⟨img', ?_, ⟨[rootEntry t], hview.entries, ?_⟩, Nat.le_of_eq hkept, ?_, ?_⟩
        · rw [compactEntries, exec_bind, hloop, Option.bind_some]
          exact hstore
        · intro e he f hf _
          rw [List.mem_singleton.mp he, List.mem_singleton.mp hf]
        · intro n log hlog
          rw [hwf.toLogView.exec_getLogEntry, Option.some.injEq, Prod.mk.injEq] at hlog
          obtain ⟨e, he, rfl⟩ := Option.map_eq_some_iff.mp hlog.1
          have hmem := mem_of_newest he
          obtain ⟨hinode, hdata⟩ := hwf.toLogView.reads hmem
          obtain ⟨hinode', hdata'⟩ := hview.reads hmem
          refine ⟨e.offset, ?_, hinode'.trans hinode.symm, ?_⟩
          · rw [hview.exec_getLogEntry, he]
            rfl
          · rw [hinode, hinode', hdata, hdata']
        · intro n log' hlog'
          rw [hview.exec_getLogEntry, Option.some.injEq, Prod.mk.injEq] at hlog'
          obtain ⟨e, he, rfl⟩ := Option.map_eq_some_iff.mp hlog'.1
          refine ⟨e.offset, ?_⟩
          rw [hwf.toLogView.exec_getLogEntry, he]
          rfl

/-- On a fresh disk of 96 bytes that were all 7 the law holds. -/
theorem compaction_preserves_iff_run :
    ∃ img0 img, Fresh img0 ∧ Run Step img0 [] img ∧ CompactionPreserves img := by
  obtain ⟨img0, evs, img, hfresh, hrun, hP⟩ := @exists_run_of_eval (usedDisk 96) []
    (fun res => res.1.isEmpty && res.2.head == sizeofSb + sizeofInode &&
      liveStrides res.2.byte res.2.size sizeofSb (res.2.size + 1) % 2 ^ 30 == 1 &&
      (exec (compactLoop res.2.size (res.2.size + 1) sizeofSb sizeofSb) res.2).isSome)
    (by decide +kernel)
  simp only [Bool.and_eq_true, beq_iff_eq, List.isEmpty_iff] at hP
  obtain ⟨⟨⟨rfl, hhead⟩, hlive⟩, hsome⟩ := hP
  obtain ⟨⟨w, img1⟩, hloop⟩ := Option.isSome_iff_exists.mp hsome
  obtain ⟨_, _, _, hin⟩ := compactLoop_returns hloop (Nat.le_refl _)
  exact ⟨img0, img, hfresh, hrun,
    (compaction_preserves_iff hfresh hrun).mpr ⟨hhead, hin, hlive⟩⟩

/-- On the disk of one megabyte that `fsck.wfs` assumes, the last stride ends behind the
mapping. -/
theorem not_compactionSafe_diskSize {img : Image} (h : img.size = diskSize) :
    ¬ CompactionSafe img := by
  rintro ⟨_, hin, _⟩
  have hlast := (hin 23831 (by rw [h]; decide)).1
  rw [h] at hlast
  exact absurd hlast (by decide)

/-- One file on a disk of 404 zero bytes: the loop moves the zeros behind the log and the
head grows. -/
theorem compaction_grows_the_log :
    ¬ ∀ img0 evs img, Fresh img0 → Run Step img0 evs img → CompactionPreserves img := by
  intro h
  obtain ⟨img0, evs, img, hfresh, hrun, hP⟩ := @exists_run_of_eval (zeroDisk 404)
    [.create .file [] nameA 0o644 0 0]
    (fun res => (exec (compactEntries res.2.size) res.2).all fun r =>
      decide (res.2.head < r.2.head)) (by decide +kernel)
  obtain ⟨img', hexec, hC⟩ := h img0 evs img hfresh hrun
  have hgrows := (Option.all_eq_true _ _).mp hP _ hexec
  exact absurd hC.shrinks (Nat.not_le.mpr (of_decide_eq_true hgrows))

end OSProjects.Wfs
