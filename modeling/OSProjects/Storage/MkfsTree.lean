import OSProjects.Storage.Tree

/-!
# The tree of a new image

In the image that `mkfs` writes the root has the files and nothing else, so the link counts are
right and the directories are a tree, before and after any run of calls.
-/

namespace OSProjects.Storage

open ByteMemory Citations RedoLog Relation StepSystem Xv6

variable {im : Image} {fs : List SourceFile} {n m : Nat}

/-! ## The entries of the root -/

theorem entryInum_zero {b : Memory} (h : ∀ pos, n ≤ pos → b pos = 0) :
    entryInum (readBytes b n direntSize) = 0 := by
  have hzero : readBytes b n direntSize = readBytes (fun _ => 0) n direntSize :=
    readBytes_congr fun pos hpos _ => h pos hpos
  rw [hzero]
  rfl

/-- The numbers of places that hold `0, 1, …, n + 1` and then nothing. -/
theorem inums_numbered {f : Nat → List UInt8} {r : Nat}
    (hused : ∀ m, m < n + 2 → entryInum (f m) = max 1 m)
    (hblank : ∀ m, n + 2 ≤ m → entryInum (f m) = 0) :
    inums (((List.range (n + r + 2)).map f).drop 2) = List.range' 2 n := by
  have hsplit : List.range (n + r + 2) =
      0 :: 1 :: (List.range' 2 n ++ List.range' (2 + n) r) := by
    rw [List.range_eq_range', List.range'_succ, List.range'_succ, List.range'_append_1]
  have hlow : (List.range' 2 n).map (fun m => entryInum (f m)) = List.range' 2 n := by
    refine (List.map_congr_left fun m hm => ?_).trans (List.map_id _)
    obtain ⟨hlow, hhigh⟩ := List.mem_range'_1.mp hm
    rw [hused m (by omega), max_eq_right (by omega)]
    rfl
  have hkeep : (List.range' 2 n).filter (· ≠ 0) = List.range' 2 n := by
    refine List.filter_eq_self.mpr fun m hm => ?_
    have := (List.mem_range'_1.mp hm).1
    exact decide_eq_true (by omega)
  have hdrop : ((List.range' (2 + n) r).map fun m => entryInum (f m)).filter (· ≠ 0) = [] := by
    refine List.filter_eq_nil_iff.mpr fun a ha => ?_
    obtain ⟨m, hm, rfl⟩ := List.mem_map.mp ha
    rw [hblank m (by have := (List.mem_range'_1.mp hm).1; omega)]
    decide
  rw [hsplit, List.map_cons, List.map_cons, List.drop_succ_cons, List.drop_succ_cons,
    List.drop_zero, inums, List.map_map, List.map_append, List.filter_append]
  change ((List.range' 2 n).map fun m => entryInum (f m)).filter (· ≠ 0) ++
    ((List.range' (2 + n) r).map fun m => entryInum (f m)).filter (· ≠ 0) = _
  rw [hlow, hkeep, hdrop, List.append_nil]

/-- What the root of an image has. -/
structure FlatRoot (n : Nat) (t : Nat → Node) : Prop where
  rest : (t rootino).rest = 0
  type : (t rootino).type = tDir
  nlink : (t rootino).nlink = 1
  dots : HasDots rootino (t rootino).ls
  kids : (t rootino).kids = List.range' 2 n
  files : ∀ a, 2 ≤ a → a < 2 + n → (t a).type = tFile ∧ (t a).nlink = 1
  unused : ∀ a, a = 0 ∨ 2 + n ≤ a → (t a).type = 0 ∧ (t a).nlink = 0
  leaves : ∀ a, (t a).type ≠ tDir → (t a).kids = []

/-- The entries that the root begins with, in their places. -/
theorem rootEntry {data : List UInt8} (hdata : data = rootEntries ++ Image.entries 2 fs) :
    (data.drop (16 * 0)).take 16 = Image.dirent rootino dot ∧
    (data.drop (16 * 1)).take 16 = Image.dirent rootino dotdot ∧
    ∀ j (hj : j < fs.length), (data.drop (16 * (j + 2))).take 16 =
      Image.dirent (2 + j) (Image.plainName fs[j].name) := by
  have hfirst : rootEntries.length = 32 := by
    rw [rootEntries, List.length_append, dirent_length, dirent_length]
  refine ⟨?_, ?_, fun j hj => ?_⟩
  · rw [hdata, rootEntries, List.append_assoc]
    exact List.take_left' (dirent_length _)
  · rw [hdata, rootEntries, List.append_assoc, List.drop_left' (dirent_length _)]
    exact List.take_left' (dirent_length _)
  · have hoff : 16 * (j + 2) = 32 + 16 * j := by omega
    rw [hdata, hoff, ← List.drop_drop, List.drop_left' hfirst, entries_entry hj]

theorem mkfs_flat (h : Image.mkfs fs = some im) (hroom : im.freeblock ≤ 1000)
    (hinodes : fs.length + 2 ≤ 200) :
    FlatRoot fs.length (tree mkfsSuperblock im.disk) := by
  obtain ⟨_, e, types, files, hbuilt, hdone, hkind, hroot, hadds, hunused⟩ :=
    mkfs_built h hroom hinodes
  have hone : rootino < 200 := by decide
  have hshows := hbuilt.shows rootino hone
  obtain ⟨hdot, hdotdot, hnamed⟩ := rootEntry hroot
  have hlen : (files rootino).length = 16 * (fs.length + 2) := by
    rw [hroot, rootContents_length]
  have hothers : ∀ a, a < 200 → a ≠ rootino →
      (tree mkfsSuperblock im.disk a).type = types a ∧
        (tree mkfsSuperblock im.disk a).nlink = if types a = 0 then 0 else 1 := by
    intro a ha har
    have hold := hbuilt.shows a ha
    rw [tree_type ha, tree_nlink ha, hdone.others a ha har]
    exact ⟨hold.type, hold.nlink⟩
  have hdinode := hdone.root
  have hbytes := (hbuilt.kept hdone hone).2
  set ip := mkfsSuperblock.dinode im.disk rootino with hip
  have htype : ip.type = tDir := by
    rw [hdinode]
    exact hshows.type.trans hkind
  have hnlink : ip.nlink = 1 := by
    rw [hdinode]
    refine hshows.nlink.trans (if_neg ?_)
    rw [hkind]
    decide
  have hsize : ip.size = (16 * (fs.length + 2) / bSize + 1) * bSize := by
    rw [hdinode]
    change ((mkfsSuperblock.dinode e rootino).size / bSize + 1) * bSize = _
    rw [hshows.size, hlen]
  have hwhole : ip.size % direntSize = 0 := by
    rw [hsize, bSize, direntSize]
    omega
  obtain ⟨r, hr⟩ : ∃ r, ip.size / direntSize = fs.length + r + 2 := by
    refine ⟨ip.size / direntSize - (fs.length + 2), ?_⟩
    rw [hsize, bSize, direntSize]
    omega
  have hnode : tree mkfsSuperblock im.disk rootino = ⟨tDir, 1, listing im.disk ip, 0⟩ := by
    rw [tree_eq hone, node, ← hip, htype, hnlink, hwhole, if_pos rfl, if_pos rfl]
  -- the places of the root, from the first on
  have hplace : ∀ m, m < fs.length + 2 → readBytes (fileByte im.disk ip) (direntSize * m)
      direntSize = ((files rootino).drop (16 * m)).take 16 := by
    intro m hm
    have hin : direntSize * m + direntSize ≤ (files rootino).length := by
      rw [hlen, direntSize]
      omega
    rw [hbytes, ← Nat.zero_add (direntSize * m), readBytes_sub _ 0 hin, hshows.bytes]
    rfl
  have hused : ∀ m, m < fs.length + 2 →
      entryInum (readBytes (fileByte im.disk ip) (direntSize * m) direntSize) = max 1 m := by
    intro m hm
    rw [hplace m hm]
    rcases m with _ | _ | j
    · rw [hdot]
      exact entryInum_dirent (by decide)
    · rw [hdotdot]
      exact entryInum_dirent (by decide)
    · rw [hnamed j (by omega), entryInum_dirent (by omega)]
      omega
  have hblank : ∀ m, fs.length + 2 ≤ m →
      entryInum (readBytes (fileByte im.disk ip) (direntSize * m) direntSize) = 0 := by
    intro m hm
    refine entryInum_zero fun pos hpos => ?_
    rw [hbytes]
    exact hshows.beyond pos (by rw [hlen]; exact Nat.le_trans (Nat.mul_le_mul_left 16 hm) hpos)
  refine ⟨by rw [hnode], by rw [hnode], by rw [hnode], ?_, ?_, fun a hlow hhigh => ?_,
    fun a ha => ?_, fun a => tree_kids_of_file⟩
  · have hfirst := hplace 0 (by omega)
    have hsecond := hplace 1 (by omega)
    rw [hdot] at hfirst
    rw [hdotdot] at hsecond
    have hls : listing im.disk ip =
        readBytes (fileByte im.disk ip) (direntSize * 0) direntSize ::
        readBytes (fileByte im.disk ip) (direntSize * 1) direntSize ::
        (List.range' 2 (fs.length + r)).map fun m =>
          readBytes (fileByte im.disk ip) (direntSize * m) direntSize := by
      rw [listing, hr, List.range_eq_range', List.range'_succ, List.range'_succ]
      rfl
    rw [hfirst, hsecond] at hls
    rw [hnode]
    exact ⟨rootino, _, hls, by decide, by decide⟩
  · rw [hnode, Node.kids, listing, hr]
    exact inums_numbered hused hblank
  · obtain ⟨htype, hnlink⟩ := hothers a (by omega) (by change a ≠ 1; omega)
    obtain ⟨hfile, _⟩ := hadds (a - 2) (by omega)
    rw [Nat.add_sub_cancel' hlow] at hfile
    rw [htype, hnlink, hfile]
    exact ⟨rfl, rfl⟩
  · by_cases hin : a < 200
    · obtain ⟨htype, hnlink⟩ := hothers a hin (by change a ≠ 1; omega)
      rw [htype, hnlink, hunused a ha]
      exact ⟨rfl, rfl⟩
    · have hout : ¬ a < mkfsSuperblock.ninodes := hin
      rw [tree, if_neg hout]
      exact ⟨rfl, rfl⟩

namespace FlatRoot

variable {t : Nat → Node} {a c : Nat}

theorem other (h : FlatRoot n t) (ha : a ≠ rootino) : (t a).type ≠ tDir := by
  change a ≠ 1 at ha
  by_cases hfile : 2 ≤ a ∧ a < 2 + n
  · rw [(h.files a hfile.1 hfile.2).1]
    decide
  · rw [(h.unused a (by omega)).1]
    decide

theorem mem_kids (h : FlatRoot n t) {i : Nat} :
    a ∈ (t i).kids ↔ i = rootino ∧ 2 ≤ a ∧ a < 2 + n := by
  by_cases hi : i = rootino
  · rw [hi, h.kids, List.mem_range'_1]
    exact (and_iff_right rfl).symm
  · rw [h.leaves i (h.other hi)]
    exact ⟨fun ha => absurd ha List.not_mem_nil, fun ha => absurd ha.1 hi⟩

theorem names_eq (h : FlatRoot n t) (hc : n + 2 ≤ c) :
    names c t a = if 2 ≤ a ∧ a < 2 + n then 1 else 0 := by
  have hroot : rootino < c := by
    change 1 < c
    omega
  have hcount : names c t a = (List.range' 2 n).count a := by
    rw [← h.kids]
    exact cited_single hroot fun j hj => h.leaves j (h.other hj)
  rw [hcount]
  split
  · next ha => exact List.count_eq_one_of_mem List.nodup_range' (List.mem_range'_1.mpr ha)
  · next ha => exact List.count_eq_zero.mpr fun hmem => ha (List.mem_range'_1.mp hmem)

theorem subdirs_eq (h : FlatRoot n t) : subdirs t a = 0 := by
  refine List.countP_eq_zero.mpr fun b hb => ?_
  have hne : b ≠ rootino := by
    have := (h.mem_kids.mp hb).2.1
    change b ≠ 1
    omega
  simpa using h.other hne

theorem linked (h : FlatRoot n t) (hc : n + 2 ≤ c) : Linked c t fun _ => 0 := by
  have hroot : ∀ a, (t a).type = tDir → a = rootino := fun a ha => by
    by_contra hne
    exact h.other hne ha
  have hlinks : ∀ a, (t a).nlink =
      (if 2 ≤ a ∧ a < 2 + n then 1 else 0) + if a = rootino then 1 else 0 := by
    intro a
    by_cases ha : a = rootino
    · rw [ha, h.nlink, if_pos rfl, if_neg (by change ¬ (2 ≤ 1 ∧ _); omega)]
    · rw [if_neg ha]
      change a ≠ 1 at ha
      split
      · next hin => exact (h.files a hin.1 hin.2).2
      · next hout => exact (h.unused a (by omega)).2
  refine ⟨(h.unused 0 (.inl rfl)).1, fun a ha => (h.unused a (.inr (by omega))).1, h.type,
    fun a ha => ?_, h.leaves, fun a ha => ?_, fun a => ?_, fun a => ?_, fun a ha => ?_,
    fun a ha hne _ => absurd (hroot a ha) hne, fun a ha => absurd ha (Nat.lt_irrefl 0)⟩
  · rw [hroot a ha]
    exact ⟨h.rest, h.dots⟩
  · obtain ⟨heq, hlow, _⟩ := h.mem_kids.mp ha
    change a = 1 at heq
    omega
  · rw [hlinks, h.names_eq hc, h.subdirs_eq, Nat.add_zero]
  · rw [hlinks]
    split <;> split <;> decide
  · rw [hlinks, if_neg, if_neg]
    · rintro rfl
      rw [h.type] at ha
      cases ha
    · intro hin
      rw [(h.files a hin.1 hin.2).1] at ha
      cases ha

theorem hierarchy (h : FlatRoot n t) (hc : n + 2 ≤ c) : Hierarchy c t := by
  have hroot : ∀ i, ¬ InDir t i rootino := fun i hi => by
    have := (h.mem_kids.mp hi).2.1
    exact absurd this (by decide)
  refine ⟨fun a ha => ?_, fun i a hi ha => ?_, fun a ha => ?_⟩
  · have hone : a = rootino := by
      by_contra hne
      exact h.other hne ha
    rw [hone, h.names_eq hc, if_neg (by change ¬ (2 ≤ 1 ∧ _); omega), if_pos rfl]
  · have hone : a = rootino := by
      by_contra hne
      exact h.other hne ha
    rw [hone] at hi
    exact absurd hi (hroot i)
  · rw [h.names_eq hc] at ha
    split at ha
    · next hin => exact .single (h.mem_kids.mpr ⟨rfl, hin⟩)
    · cases ha

end FlatRoot

/-! ## Runs from an image -/

/-- The image is in order if it is sound. -/
theorem mkfs_inOrder (h : Image.mkfs fs = some im) (hroom : im.freeblock ≤ 1000)
    (hinodes : fs.length + 2 ≤ 200) (hpart : 16 * (fs.length + 2) % bSize ≠ 0) :
    InOrder mkfsSuperblock ⟨im.disk, fun _ => 0⟩ := by
  have hflat := mkfs_flat h hroom hinodes
  exact ⟨⟨mkfs_sound h hroom hinodes hpart, hflat.linked hinodes⟩, hflat.hierarchy hinodes⟩

theorem mkfs_directories (k : Kernel) (h : Image.mkfs fs = some im) (hroom : im.freeblock ≤ 1000)
    (hinodes : fs.length + 2 ≤ 200) (hpart : 16 * (fs.length + 2) % bSize ≠ 0)
    {acts : List DirAct} {s : Directories}
    (hrun : Run (fun s a t => DirStep mkfsSuperblock k s a t ∧ a.Tidy mkfsSuperblock s)
      ⟨im.disk, fun _ => 0⟩ acts s) :
    (∀ a, a < 200 → (mkfsSuperblock.dinode s.disk a).nlink =
      names 200 (tree mkfsSuperblock s.disk) a + subdirs (tree mkfsSuperblock s.disk) a +
        s.linking a + if a = rootino then 1 else 0) ∧
    (∀ i j, InDir (tree mkfsSuperblock s.disk) i j →
      ReflTransGen (InDir (tree mkfsSuperblock s.disk)) rootino j) ∧
    (∀ a, ¬ TransGen (InDir (tree mkfsSuperblock s.disk)) a a) ∧
    ∀ i name, i < 200 → (mkfsSuperblock.dinode s.disk i).type = tDir →
      ∃ r e, unlink mkfsSuperblock k s.disk i name = .ok (r, e) := by
  obtain ⟨hok, hh⟩ := hrun.invariant (fun _ _ _ h hstep => h.step (by decide) hstep.1 hstep.2)
    (mkfs_inOrder h hroom hinodes hpart)
  refine ⟨fun a ha => ?_, fun i j hj => hh.reach j (hok.linked.kid_named hj),
    hh.acyclic hok.linked, fun i name hi hdir => hok.unlink_returns hi hdir⟩
  have hcount := hok.linked.count a
  rwa [tree_nlink ha] at hcount

theorem mkfs_directories_link : ∃ (im : Image) (s : Directories),
    Image.mkfs [shortSource] = some im ∧
    Run (fun s a t => DirStep mkfsSuperblock smallKernel s a t ∧ a.Tidy mkfsSuperblock s)
      ⟨im.disk, fun _ => 0⟩ [.linkFirst 2] s ∧
    (mkfsSuperblock.dinode s.disk 2).nlink =
      names 200 (tree mkfsSuperblock s.disk) 2 + subdirs (tree mkfsSuperblock s.disk) 2 +
        s.linking 2 + 0 := by
  obtain ⟨im, hmade, hroom⟩ := mkfs_shortSource
  have hflat := mkfs_flat hmade hroom (by decide)
  have hin : 2 < mkfsSuperblock.ninodes := by decide
  obtain ⟨htype, hnlink⟩ := hflat.files 2 (Nat.le_refl _) (by decide)
  rw [tree_type hin] at htype
  rw [tree_nlink hin] at hnlink
  have htidy : (mkfsSuperblock.dinode im.disk 2).nlink + 1 < 2 ^ 15 := by
    rw [hnlink]
    decide
  have hstep := DirStep.linkFirst (k := smallKernel) (s := ⟨im.disk, fun _ => 0⟩) hin
    (by rw [htype]; decide) (by rw [htype]; decide)
  have hrun : Run
      (fun s a t => DirStep mkfsSuperblock smallKernel s a t ∧ a.Tidy mkfsSuperblock s)
      ⟨im.disk, fun _ => 0⟩ [.linkFirst 2] _ := .single ⟨hstep, htidy⟩
  exact ⟨im, _, hmade, hrun, (mkfs_directories smallKernel hmade hroom (by decide) (by decide)
    hrun).1 2 (by decide)⟩

end OSProjects.Storage
