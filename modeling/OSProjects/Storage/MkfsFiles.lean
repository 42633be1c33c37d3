import OSProjects.Storage.MkfsImage

/-!
# The files of an image

Each file is added as an inode, an entry of the root and its bytes. At the end `fixRoot` rounds
the size of the root up, and `balloc` writes the bitmap that the counter stands for.
-/

namespace OSProjects.Storage

open ByteMemory RedoLog Xv6

variable {im im' : Image} {d e : Disk Block} {types : Nat → Nat} {files : Nat → List UInt8}
  {f : SourceFile} {fs : List SourceFile} {i n : Nat} {p : List UInt8} {cs : List (List UInt8)}

/-! ## The counters -/

theorem iappend_freeblock (h : im.iappend i p = some im') : im.freeblock ≤ im'.freeblock := by
  rw [Image.iappend] at h
  obtain ⟨⟨ip, im1⟩, hloop, rfl⟩ := Option.map_eq_some_iff.mp h
  change im.freeblock ≤ im1.freeblock
  exact appendLoop_freeblock hloop

theorem ialloc_freeblock (im : Image) (t : Nat) : (im.ialloc t).freeblock = im.freeblock := rfl

theorem appends_freeblock (h : cs.foldlM (fun x c => Image.iappend x i c) im = some im') :
    im.freeblock ≤ im'.freeblock := by
  induction cs generalizing im with
  | nil =>
      obtain rfl := Option.some.inj h
      exact Nat.le_refl _
  | cons c cs ih =>
      rw [List.foldlM_cons] at h
      obtain ⟨im1, hc, hrest⟩ := Option.bind_eq_some_iff.mp h
      exact Nat.le_trans (iappend_freeblock hc) (ih hrest)

theorem addFile_freeblock (h : im.addFile f = some im') : im.freeblock ≤ im'.freeblock := by
  rw [Image.addFile] at h
  split at h
  · cases h
  · obtain ⟨im1, hentry, hrest⟩ := Option.bind_eq_some_iff.mp h
    have hstart := iappend_freeblock hentry
    rw [ialloc_freeblock] at hstart
    exact Nat.le_trans hstart (appends_freeblock hrest)

theorem addFiles_freeblock (h : im.addFiles fs = some im') : im.freeblock ≤ im'.freeblock := by
  rw [Image.addFiles] at h
  induction fs generalizing im with
  | nil =>
      obtain rfl := Option.some.inj h
      exact Nat.le_refl _
  | cons f fs ih =>
      rw [List.foldlM_cons] at h
      obtain ⟨im1, hf, hrest⟩ := Option.bind_eq_some_iff.mp h
      exact Nat.le_trans (addFile_freeblock hf) (ih hrest)

/-! ## Adding files -/

theorem dirent_length (name : List UInt8) : (Image.dirent n name).length = 16 := by
  rw [Image.dirent, List.length_append, List.length_append, List.length_take,
    List.length_replicate, length_wordBytes]
  omega

theorem dirent_ne_nil (name : List UInt8) : Image.dirent n name ≠ [] := fun h => by
  have := dirent_length (n := n) name
  rw [h] at this
  cases this

/-- The entries of the files, whose inodes are `n` and on. -/
def Image.entries (n : Nat) : List SourceFile → List UInt8
  | [] => []
  | f :: fs => dirent n (plainName f.name) ++ entries (n + 1) fs

theorem entries_length : (Image.entries n fs).length = 16 * fs.length := by
  induction fs generalizing n with
  | nil => rfl
  | cons f fs ih =>
      rw [Image.entries, List.length_append, ih, dirent_length, List.length_cons]
      omega

/-- The bytes of a file are what the calls of `read` returned. -/
theorem Built.appends (h : Built im d types files) (hi : i < 200) (htype : types i ≠ 0)
    (hne : ∀ c ∈ cs, c ≠ []) (hdone : cs.foldlM (fun x c => Image.iappend x i c) im = some im')
    (hroom : im'.freeblock ≤ 1000) :
    (∃ e, Built im' e types (Function.update files i (files i ++ cs.flatten))) ∧
      im'.freeinode = im.freeinode := by
  induction cs generalizing im d files with
  | nil =>
      obtain rfl := Option.some.inj hdone
      rw [List.flatten_nil, List.append_nil, Function.update_eq_self]
      exact ⟨⟨d, h⟩, rfl⟩
  | cons c cs ih =>
      rw [List.foldlM_cons] at hdone
      obtain ⟨im1, hc, hrest⟩ := Option.bind_eq_some_iff.mp hdone
      obtain ⟨⟨e, he⟩, hinode⟩ := h.iappend hi htype (hne c List.mem_cons_self) hc
        (Nat.le_trans (appends_freeblock hrest) hroom)
      obtain ⟨hbuilt, hinode'⟩ := ih he (fun c hc => hne c (List.mem_cons_of_mem _ hc)) hrest
      rw [Function.update_self, Function.update_idem, List.append_assoc] at hbuilt
      rw [List.flatten_cons]
      exact ⟨hbuilt, hinode'.trans hinode⟩

theorem Built.addFile (h : Built im d types files) (hroot : types rootino ≠ 0)
    (hnext : rootino < im.freeinode) (hinodes : im.freeinode < 200)
    (hdone : im.addFile f = some im') (hroom : im'.freeblock ≤ 1000) :
    (∃ e, Built im' e (Function.update types im.freeinode tFile)
      (Function.update (Function.update files rootino (files rootino ++
        Image.dirent im.freeinode (Image.plainName f.name))) im.freeinode f.chunks.flatten)) ∧
      im'.freeinode = im.freeinode + 1 := by
  rw [Image.addFile] at hdone
  split at hdone
  · cases hdone
  · obtain ⟨im1, hentry, hchunks⟩ := Option.bind_eq_some_iff.mp hdone
    obtain ⟨e0, hmade⟩ := h.ialloc hinodes (t := tFile) (by decide) (by decide)
    have hne : rootino ≠ im.freeinode := Nat.ne_of_lt hnext
    obtain ⟨⟨e1, hnamed⟩, hinode⟩ := hmade.iappend (i := rootino) (Nat.lt_trans hnext hinodes)
      (by rwa [Function.update_of_ne hne]) (dirent_ne_nil _) hentry
      (Nat.le_trans (appends_freeblock hchunks) hroom)
    obtain ⟨hfilled, hinode'⟩ := hnamed.appends hinodes
      (by rw [Function.update_self]; decide) f.filled hchunks hroom
    rw [Function.update_of_ne hne.symm, (h.unused _ (Nat.le_refl _)).2, List.nil_append]
      at hfilled
    exact ⟨hfilled, hinode'.trans hinode⟩

/-- The files have their inodes in order, and the root has their entries. -/
theorem Built.addFiles (h : Built im d types files) (hroot : types rootino ≠ 0)
    (hnext : rootino < im.freeinode) (hinodes : im.freeinode + fs.length ≤ 200)
    (hdone : im.addFiles fs = some im') (hroom : im'.freeblock ≤ 1000) :
    ∃ e types' files', Built im' e types' files' ∧ types' rootino = types rootino ∧
      files' rootino = files rootino ++ Image.entries im.freeinode fs ∧
      im'.freeinode = im.freeinode + fs.length ∧
      (∀ i, i < im.freeinode → i ≠ rootino → types' i = types i ∧ files' i = files i) ∧
      ∀ k (hk : k < fs.length), types' (im.freeinode + k) = tFile ∧
        files' (im.freeinode + k) = fs[k].chunks.flatten := by
  rw [Image.addFiles] at hdone
  induction fs generalizing im d types files with
  | nil =>
      obtain rfl := Option.some.inj hdone
      refine ⟨d, types, files, h, rfl, (List.append_nil _).symm, rfl, fun _ _ _ => ⟨rfl, rfl⟩,
        fun k hk => absurd hk (Nat.not_lt_zero k)⟩
  | cons f fs ih =>
      rw [List.foldlM_cons] at hdone
      rw [List.length_cons] at hinodes
      obtain ⟨im1, hfile, hrest⟩ := Option.bind_eq_some_iff.mp hdone
      obtain ⟨⟨e1, hadded⟩, hinode⟩ := h.addFile hroot hnext (by omega) hfile
        (Nat.le_trans (addFiles_freeblock hrest) hroom)
      have hne : rootino ≠ im.freeinode := Nat.ne_of_lt hnext
      obtain ⟨e, types', files', hbuilt, hkind, hentries, hlast, hkeeps, hadds⟩ := ih hadded
        (by rwa [Function.update_of_ne hne]) (by omega) (by omega) hrest
      rw [hinode] at hentries hlast hkeeps hadds
      rw [Function.update_of_ne hne] at hkind hentries
      refine ⟨e, types', files', hbuilt, hkind, ?_,
        by rw [hlast, List.length_cons, Nat.add_right_comm, Nat.add_assoc],
        fun i hi hir => ?_, fun k hk => ?_⟩
      · rw [hentries, Function.update_self, List.append_assoc]
        rfl
      · obtain ⟨htype, hfile⟩ := hkeeps i (Nat.lt_succ_of_lt hi) hir
        rw [htype, hfile, Function.update_of_ne (Nat.ne_of_lt hi),
          Function.update_of_ne (Nat.ne_of_lt hi), Function.update_of_ne hir]
        exact ⟨rfl, rfl⟩
      · cases k with
        | zero =>
            obtain ⟨htype, hfile⟩ := hkeeps im.freeinode (Nat.lt_succ_self _) hne.symm
            rw [Nat.add_zero, htype, hfile, Function.update_self, Function.update_self]
            exact ⟨rfl, rfl⟩
        | succ k =>
            have := hadds k (Nat.lt_of_succ_lt_succ hk)
            rwa [Nat.add_assoc, Nat.add_comm 1 k] at this

/-! ## The bitmap -/

theorem bitmap_succ (hn : n / 8 < bSize) :
    Image.bitmap (n + 1) = Function.update (Image.bitmap n) ⟨n / 8, hn⟩
      (setBit (Image.bitmap n ⟨n / 8, hn⟩) (n % 8) true) := by
  rw [Image.bitmap, List.range_succ, List.foldl_append, List.foldl_cons, List.foldl_nil, dif_pos hn]
  rfl

theorem bit_bitmap {c used : Nat} (hc : c / 8 < bSize) (hused : used ≤ bpb) :
    bit (Image.bitmap used ⟨c / 8, hc⟩) (c % 8) = decide (c < used) := by
  induction used with
  | zero =>
      have hzero : ∀ k, bit (0 : UInt8) k = false := fun k => BitVec.getLsbD_zero
      exact (hzero _).trans (decide_eq_false (Nat.not_lt_zero c)).symm
  | succ n ih =>
      have hn : n / 8 < bSize := Nat.div_lt_of_lt_mul hused
      have hold := ih (Nat.le_of_succ_le hused)
      rw [bitmap_succ hn]
      by_cases hbyte : c / 8 = n / 8
      · have hsame : (⟨c / 8, hc⟩ : Fin bSize) = ⟨n / 8, hn⟩ := Fin.ext hbyte
        rw [hsame] at hold ⊢
        rw [Function.update_self, bit_setBit (Nat.mod_lt c (by decide)), hold]
        by_cases hbit : c % 8 = n % 8
        · have heq : c = n := by omega
          rw [if_pos hbit, heq, decide_eq_true (Nat.lt_succ_self n)]
        · rw [if_neg hbit, decide_eq_decide]
          omega
      · rw [Function.update_of_ne fun h => hbyte (Fin.mk.inj h), hold, decide_eq_decide]
        omega

theorem marked_bitmap {b used : Nat} (hb : b < 1000) (hused : used ≤ bpb) :
    mkfsSuperblock.marked (Function.update d mkfsSuperblock.bmapstart (Image.bitmap used)) b =
      decide (b < used) := by
  have hsmall : b < bpb := Nat.lt_trans hb (by decide)
  have hblock : mkfsSuperblock.bblock b = mkfsSuperblock.bmapstart := by
    rw [Superblock.bblock, Nat.div_eq_of_lt hsmall, Nat.zero_add]
  simp only [Superblock.marked, hblock, Nat.mod_eq_of_lt hsmall, Function.update_self]
  exact bit_bitmap _ hused

/-! ## The beginning and the end -/

theorem fresh_built : ∃ d, Built .fresh d (fun _ => 0) fun _ => [] := by
  let d : Disk Block :=
    Function.update Image.fresh.disk mkfsSuperblock.bmapstart (Image.bitmap nmeta)
  have hdinode : ∀ i, i < 200 → mkfsSuperblock.dinode d i = .zero := by
    intro i hi
    have hlow : 1 < mkfsSuperblock.iblock i :=
      Nat.lt_of_lt_of_le (by decide) (Nat.le_add_left mkfsSuperblock.inodestart _)
    have hhigh : mkfsSuperblock.iblock i < mkfsSuperblock.bmapstart := Superblock.iblock_lt hi
    refine Superblock.dinode_of_zero ?_
    change Function.update (Function.update _ 1 _) _ _ _ = _
    rw [Function.update_of_ne (Nat.ne_of_lt hhigh), Function.update_of_ne (Nat.ne_of_gt hlow)]
  have hmarks : ∀ b, b < 1000 → (mkfsSuperblock.marked d b = true ↔ b < nmeta) := by
    intro b hb
    rw [marked_bitmap hb (by decide), decide_eq_true_iff]
  refine ⟨d, ⟨fun b hb => ?_, hmarks, fun b hb => ?_, Nat.le_refl _⟩, .blank (fun i hi => ?_)
    fun b hb => ?_, fun i hi => ?_, fun _ _ => ⟨rfl, rfl⟩⟩
  · exact (Function.update_of_ne hb _ _).symm
  · have hne : b ≠ 1 := by
      rintro rfl
      exact absurd hb (by decide)
    simp only [Image.fresh, Function.update_of_ne hne]
  · rw [hdinode i hi]
    exact ⟨rfl, fun _ => rfl⟩
  · rw [hmarks b hb, mkfs_data_iff, not_and_or, Nat.not_le]
    exact ⟨Or.inl, fun h => h.resolve_right fun hn => hn hb⟩
  · have hzero := hdinode i hi
    refine ⟨by rw [hzero]; rfl, by rw [hzero]; rfl, by rw [hzero]; rfl, rfl, fun bn hbn => ?_,
      fun pos _ => ?_⟩
    · rw [hzero] at hbn
      exact absurd (lookup_of_zero fun _ => rfl) hbn
    · rw [hzero]
      exact if_pos (lookup_of_zero fun _ => rfl)

/-- The two first entries of the root. -/
def rootEntries : List UInt8 := Image.dirent rootino [46] ++ Image.dirent rootino [46, 46]

theorem rootContents_length :
    (rootEntries ++ Image.entries 2 fs).length = 16 * (fs.length + 2) := by
  rw [List.length_append, entries_length, rootEntries, List.length_append, dirent_length,
    dirent_length]
  omega

theorem withRoot_built (h : Image.withRoot = some im) (hroom : im.freeblock ≤ 1000) :
    (∃ e types files, Built im e types files ∧ types rootino = tDir ∧ types 0 = 0 ∧
      files rootino = rootEntries) ∧ im.freeinode = 2 := by
  obtain ⟨d, hfresh⟩ := fresh_built
  rw [Image.withRoot] at h
  obtain ⟨im1, hdot, hdotdot⟩ := Option.bind_eq_some_iff.mp h
  obtain ⟨e0, hmade⟩ := hfresh.ialloc (t := tDir) (by decide) (by decide) (by decide)
  have hone : Image.fresh.freeinode = rootino := rfl
  rw [hone] at hmade
  have htype : Function.update (fun _ => 0) rootino tDir rootino ≠ 0 := by
    rw [Function.update_self]
    decide
  obtain ⟨⟨e1, hnamed⟩, hinode⟩ := hmade.iappend (i := rootino) (by decide) htype
    (dirent_ne_nil _) hdot (Nat.le_trans (iappend_freeblock hdotdot) hroom)
  obtain ⟨⟨e2, hroot⟩, hinode'⟩ := hnamed.iappend (i := rootino) (by decide) htype
    (dirent_ne_nil _) hdotdot hroom
  refine ⟨⟨e2, _, _, hroot, Function.update_self .., Function.update_of_ne (by decide) .., ?_⟩, ?_⟩
  · rw [Function.update_self, Function.update_self]
    rfl
  · rw [hinode', hinode]
    rfl

/-- What the program leaves at its end, with `e` the disk that the kernel would have had. -/
structure Completes (im : Image) (e : Disk Block) : Prop where
  data : ∀ b, mkfsSuperblock.Data b → im.disk b = e b
  marks : ∀ b, b < 1000 → mkfsSuperblock.marked im.disk b = mkfsSuperblock.marked e b
  root : mkfsSuperblock.dinode im.disk rootino = { mkfsSuperblock.dinode e rootino with
    size := ((mkfsSuperblock.dinode e rootino).size / bSize + 1) * bSize }
  others : ∀ i, i < 200 → i ≠ rootino →
    mkfsSuperblock.dinode im.disk i = mkfsSuperblock.dinode e i

theorem Built.completes (h : Built im e types files)
    (hsize : (files rootino).length < maxFile * bSize)
    (hdone : im.fixRoot.balloc im.freeblock = some im') : Completes im' e := by
  have hone : rootino < 200 := by decide
  have hroot := h.mirrors.dinode_eq hone
  have hlen := (h.shows rootino hone).size
  have hfits := h.sound.fits rootino hone
  rw [Image.balloc] at hdone
  split at hdone
  · next hused =>
    obtain rfl := Option.some.inj hdone
    have hinode : ∀ i, i < 200 → mkfsSuperblock.dinode (Function.update im.fixRoot.disk
        mkfsSuperblock.bmapstart (Image.bitmap im.freeblock)) i =
        mkfsSuperblock.dinode im.fixRoot.disk i := by
      intro i hi
      have hlt : mkfsSuperblock.iblock i < mkfsSuperblock.bmapstart := Superblock.iblock_lt hi
      exact Superblock.dinode_congr (Function.update_of_ne (Nat.ne_of_lt hlt) _ _)
    refine ⟨fun b hb => ?_, fun b hb => ?_, ?_, fun i hi hne => ?_⟩
    · have hne : b ≠ mkfsSuperblock.bmapstart :=
        Nat.ne_of_gt (Nat.lt_of_le_of_lt (Nat.le_add_right _ _) hb.1)
      simp only [Image.fixRoot, Image.winode, Function.update_of_ne hne,
        Superblock.putDinode_of_data hb hone]
      exact h.mirrors.same b hne
    · rw [marked_bitmap hb (Nat.le_of_lt hused), Bool.eq_iff_iff, h.mirrors.marks b hb,
        decide_eq_true_iff]
    · rw [hinode _ hone, Image.fixRoot, Image.winode, hroot]
      refine Superblock.dinode_putDinode_self ⟨hfits.type, hfits.major, hfits.minor, hfits.nlink,
        ?_, hfits.addrs⟩
      have hmax : maxFile * bSize + bSize < 2 ^ 32 := by decide
      have hdiv := Nat.div_mul_le_self (mkfsSuperblock.dinode e rootino).size bSize
      change ((mkfsSuperblock.dinode e rootino).size / bSize + 1) * bSize < 2 ^ 32
      rw [Nat.add_one_mul]
      omega
    · rw [hinode i hi, Image.fixRoot, Image.winode]
      simp only [Superblock.dinode_putDinode_ne hne]
      exact h.mirrors.dinode_eq hi
  · cases hdone

/-- The program builds the root and the files, and completes the image. -/
theorem mkfs_built (h : Image.mkfs fs = some im) (hroom : im.freeblock ≤ 1000)
    (hinodes : fs.length + 2 ≤ 200) :
    ∃ im0 e types files, Built im0 e types files ∧ Completes im e ∧ types rootino = tDir ∧
      files rootino = rootEntries ++ Image.entries 2 fs ∧
      (∀ k (hk : k < fs.length), types (2 + k) = tFile ∧
        files (2 + k) = fs[k].chunks.flatten) ∧
      ∀ i, i = 0 ∨ 2 + fs.length ≤ i → types i = 0 := by
  rw [Image.mkfs] at h
  obtain ⟨im1, hroot, hrest⟩ := Option.bind_eq_some_iff.mp h
  obtain ⟨im2, hfiles, hdone⟩ := Option.bind_eq_some_iff.mp hrest
  have hcount : im.freeblock = im2.freeblock := by
    rw [Image.balloc] at hdone
    split at hdone
    · obtain rfl := Option.some.inj hdone
      rfl
    · cases hdone
  rw [hcount] at hroom
  obtain ⟨⟨e1, types1, files1, hbuilt, hkind, hzero, hentries⟩, hnext⟩ :=
    withRoot_built hroot (Nat.le_trans (addFiles_freeblock hfiles) hroom)
  obtain ⟨e, types, files, hall, hkind', hnames, hlast, hkeeps, hadds⟩ := hbuilt.addFiles
    (by rw [hkind]; decide) (by rw [hnext]; decide) (by rw [hnext]; omega) hfiles hroom
  rw [hnext, hentries] at hnames
  rw [hnext] at hadds hlast hkeeps
  refine ⟨im2, e, types, files, hall, hall.completes ?_ hdone, hkind'.trans hkind, hnames,
    hadds, fun i hi => ?_⟩
  swap
  · rcases hi with rfl | hi
    · rw [(hkeeps 0 (by decide) (by decide)).1, hzero]
    · exact (hall.unused i (by rw [hlast]; exact hi)).1
  have hmax : 16 * 200 < maxFile * bSize := by decide
  rw [hnames, List.length_append, entries_length, rootEntries, List.length_append, dirent_length,
    dirent_length]
  omega

/-! ## Soundness -/

/-- The image is sound if the entries of the root leave room in their last block. -/
theorem mkfs_sound (h : Image.mkfs fs = some im) (hroom : im.freeblock ≤ 1000)
    (hinodes : fs.length + 2 ≤ 200) (hpart : 16 * (fs.length + 2) % bSize ≠ 0) :
    Sound mkfsSuperblock im.disk (mkfsSuperblock.dinode im.disk) := by
  obtain ⟨_, e, types, files, hbuilt, hdone, hkind, hroot, _⟩ := mkfs_built h hroom hinodes
  have hone : rootino < 200 := by decide
  have hlen : (files rootino).length = 16 * (fs.length + 2) := by
    rw [hroot, rootContents_length]
  have hshows := hbuilt.shows rootino hone
  have hsize := hshows.size
  rw [hlen] at hsize
  have hfits := hbuilt.sound.fits rootino hone
  have hgrown := hbuilt.sound.setInode (w := mkfsSuperblock.dinode im.disk rootino)
    (by rw [hdone.root]) Superblock.dinode_fits ?_ (fun bn hbn => ?_) fun hfree => ?_
  · refine ((hgrown.ofData hdone.data hdone.marks).1).congr fun i hi => ?_
    by_cases hir : i = rootino
    · rw [hir, Function.update_self]
    · rw [Function.update_of_ne hir, hdone.others i hi hir]
  · have hmax : 16 * 200 + bSize ≤ maxFile * bSize := by decide
    have hdiv := Nat.div_mul_le_self (16 * (fs.length + 2)) bSize
    rw [hdone.root, hsize]
    change (16 * (fs.length + 2) / bSize + 1) * bSize ≤ maxFile * bSize
    rw [Nat.add_one_mul]
    omega
  · rw [hdone.root, hsize] at hbn
    refine hbuilt.sound.dense rootino hone bn ?_
    have hle : bn ≤ 16 * (fs.length + 2) / bSize :=
      Nat.le_of_lt_succ (Nat.lt_of_mul_lt_mul_right hbn)
    have hmul := Nat.mul_le_mul_right bSize hle
    have hsplit := Nat.div_add_mod' (16 * (fs.length + 2)) bSize
    rw [hsize]
    omega
  · rw [hdone.root] at hfree
    rw [← hshows.type, hfree] at hkind
    cases hkind

/-- The image is sound, as the kernel relies on, unless the entries of the root fill their last
block: then the rounded size has a block that the root has not. -/
theorem mkfs_sound_iff (h : Image.mkfs fs = some im) (hroom : im.freeblock ≤ 1000)
    (hinodes : fs.length + 2 ≤ 200) :
    Sound mkfsSuperblock im.disk (mkfsSuperblock.dinode im.disk) ↔
      16 * (fs.length + 2) % bSize ≠ 0 := by
  obtain ⟨_, e, types, files, hbuilt, hdone, hkind, hroot, _⟩ := mkfs_built h hroom hinodes
  have hone : rootino < 200 := by decide
  have hlen : (files rootino).length = 16 * (fs.length + 2) := by
    rw [hroot, rootContents_length]
  have hshows := hbuilt.shows rootino hone
  have hsize := hshows.size
  rw [hlen] at hsize
  constructor
  · intro hsound hfull
    -- the rounded size reaches one block further than the entries
    have hdense := hsound.dense rootino hone (16 * (fs.length + 2) / bSize) (by
      rw [hdone.root, hsize]
      exact Nat.mul_lt_mul_of_pos_right (Nat.lt_succ_self _) (by decide))
    have hsame : lookup im.disk (mkfsSuperblock.dinode im.disk rootino)
        (.data (16 * (fs.length + 2) / bSize)) = lookup e (mkfsSuperblock.dinode e rootino)
        (.data (16 * (fs.length + 2) / bSize)) := by
      rw [hdone.root]
      exact lookup_congr rfl fun hne => hdone.data _ (hbuilt.sound.indirect_inUse hone hne).1
    have htight := hshows.tight _ (hsame ▸ hdense)
    have hsplit := Nat.div_add_mod' (16 * (fs.length + 2)) bSize
    omega
  · exact mkfs_sound h hroom hinodes

/-- The file `_c`, of two bytes. -/
def shortSource : SourceFile := ⟨[95, 99], [[7, 8]], by decide⟩

theorem mkfs_shortSource : ∃ im, Image.mkfs [shortSource] = some im ∧ im.freeblock ≤ 1000 := by
  have hmade : (Image.mkfs [shortSource]).any (fun im => decide (im.freeblock ≤ 1000)) = true := by
    decide +kernel
  cases him : Image.mkfs [shortSource] with
  | none => rw [him] at hmade; cases hmade
  | some im =>
      rw [him] at hmade
      exact ⟨im, rfl, of_decide_eq_true hmade⟩

theorem mkfs_sound_short : ∃ im, Image.mkfs [shortSource] = some im ∧
    Sound mkfsSuperblock im.disk (mkfsSuperblock.dinode im.disk) := by
  obtain ⟨im, him, hroom⟩ := mkfs_shortSource
  exact ⟨im, him, (mkfs_sound_iff him hroom (by decide)).mpr (by decide)⟩

/-! ## Reading back -/

/-- A range of a file whose blocks are there is read as it is. -/
theorem readi_range {sb : Superblock} {k : Kernel} {ip : Dinode} {off n : Nat}
    (htype : ip.type ≠ tDev) (hsize : off + n ≤ ip.size) (hfits : ip.Fits)
    (hthere : ∀ bn, bn * bSize < off + n → lookup d ip (.data bn) ≠ 0) :
    readi sb k d ip off n = .ok ⟨n, readBytes (fileByte d ip) off n, ip, d⟩ := by
  have hwrap := hfits.size
  rw [readi, if_neg htype, if_neg (by omega)]
  have hloop : readLoop sb d ip off n = .ok (readBytes (fileByte d ip) off n, ip, d) := by
    refine readLoop_spec fun pos _ hhigh => hthere _ ?_
    exact Nat.lt_of_le_of_lt (Nat.div_mul_le_self pos bSize) hhigh
  simp only [if_neg (Nat.not_lt.mpr hsize), hloop]
  rfl

/-- The end moves no block of a file, and leaves its bytes. -/
theorem Built.kept {im0 : Image} (h : Built im0 e types files) (hdone : Completes im e)
    (hi : i < 200) :
    (∀ pl, lookup im.disk (mkfsSuperblock.dinode im.disk i) pl =
      lookup e (mkfsSuperblock.dinode e i) pl) ∧
    fileByte im.disk (mkfsSuperblock.dinode im.disk i) =
      fileByte e (mkfsSuperblock.dinode e i) := by
  have haddrs : (mkfsSuperblock.dinode im.disk i).addrs = (mkfsSuperblock.dinode e i).addrs := by
    by_cases hir : i = rootino
    · rw [hir, hdone.root]
    · rw [hdone.others i hi hir]
  have hlookup : ∀ pl, lookup im.disk (mkfsSuperblock.dinode im.disk i) pl =
      lookup e (mkfsSuperblock.dinode e i) pl := fun pl =>
    lookup_congr haddrs fun hne => hdone.data _ (h.sound.indirect_inUse hi hne).1
  exact ⟨hlookup, funext fun pos =>
    fileByte_congr (hlookup _) fun hne => hdone.data _ (h.sound.inUse hi hne).1⟩

theorem Built.readi {im0 : Image} {k : Kernel} {off n : Nat} (h : Built im0 e types files)
    (hdone : Completes im e) (hi : i < 200) (htype : types i ≠ tDev)
    (hn : off + n ≤ (files i).length) :
    Storage.readi mkfsSuperblock k im.disk (mkfsSuperblock.dinode im.disk i) off n =
      .ok ⟨n, ((files i).drop off).take n, mkfsSuperblock.dinode im.disk i, im.disk⟩ := by
  have hshows := h.shows i hi
  have halike : (mkfsSuperblock.dinode im.disk i).type = types i ∧
      (files i).length ≤ (mkfsSuperblock.dinode im.disk i).size := by
    rw [← hshows.type, ← hshows.size]
    by_cases hir : i = rootino
    · rw [hir, hdone.root]
      refine ⟨rfl, ?_⟩
      change _ ≤ ((mkfsSuperblock.dinode e rootino).size / bSize + 1) * bSize
      have hsplit := Nat.div_add_mod' (mkfsSuperblock.dinode e rootino).size bSize
      have hmod := Nat.mod_lt (mkfsSuperblock.dinode e rootino).size
        (show 0 < bSize by decide)
      rw [Nat.add_one_mul]
      omega
    · rw [hdone.others i hi hir]
      exact ⟨rfl, Nat.le_refl _⟩
  obtain ⟨hkind, hsize⟩ := halike
  obtain ⟨hlookup, hbytes⟩ := h.kept hdone hi
  rw [readi_range (by rwa [hkind]) (Nat.le_trans hn hsize) Superblock.dinode_fits
    fun bn hbn => ?_, hbytes, ← Nat.zero_add off, readBytes_sub _ 0 hn, hshows.bytes, Nat.zero_add]
  rw [hlookup]
  exact h.sound.dense i hi bn (by rw [hshows.size]; omega)

theorem entries_entry {j : Nat} (hj : j < fs.length) :
    ((Image.entries n fs).drop (16 * j)).take 16 =
      Image.dirent (n + j) (Image.plainName fs[j].name) := by
  induction fs generalizing n j with
  | nil => exact absurd hj (Nat.not_lt_zero j)
  | cons f fs ih =>
      rw [Image.entries]
      cases j with
      | zero => exact List.take_left' (dirent_length _)
      | succ j =>
          rw [Nat.mul_succ, Nat.add_comm, ← List.drop_drop, List.drop_left' (dirent_length _),
            ih (Nat.lt_of_succ_lt_succ hj), Nat.add_assoc, Nat.add_comm 1 j]
          rfl

/-- A range that reaches over the end of a file is cut there. -/
theorem readi_cut {sb : Superblock} {k : Kernel} {d : Disk Block} {ip : Dinode} {off n : Nat}
    (htype : ip.type ≠ tDev) (hoff : off ≤ ip.size) (hend : ip.size < off + n)
    (hword : off + n < 2 ^ 32) :
    Storage.readi sb k d ip off n = Storage.readi sb k d ip off (ip.size - off) := by
  have hfirst : ¬(ip.size < off ∨ 2 ^ 32 ≤ off + n) := by omega
  have hsecond : ¬(ip.size < off ∨ 2 ^ 32 ≤ off + (ip.size - off)) := by omega
  rw [Storage.readi, Storage.readi, if_neg htype, if_neg htype, if_neg hfirst, if_neg hsecond,
    if_pos hend, ite_self]

/-- The kernel reads back what went into the image: the root has its two first entries, then
one for each file without the leading underscore of its name; and each file has its bytes, up to
its end. -/
theorem mkfs_readback (k : Kernel) (h : Image.mkfs fs = some im) (hroom : im.freeblock ≤ 1000)
    (hinodes : fs.length + 2 ≤ 200) :
    readi mkfsSuperblock k im.disk (mkfsSuperblock.dinode im.disk rootino) 0 32 =
      .ok ⟨32, rootEntries, mkfsSuperblock.dinode im.disk rootino, im.disk⟩ ∧
    ∀ j (hj : j < fs.length),
      readi mkfsSuperblock k im.disk (mkfsSuperblock.dinode im.disk rootino) (16 * (j + 2)) 16 =
        .ok ⟨16, Image.dirent (j + 2) (Image.plainName fs[j].name),
          mkfsSuperblock.dinode im.disk rootino, im.disk⟩ ∧
      (mkfsSuperblock.dinode im.disk (j + 2)).type = tFile ∧
      (mkfsSuperblock.dinode im.disk (j + 2)).nlink = 1 ∧
      (mkfsSuperblock.dinode im.disk (j + 2)).size = fs[j].chunks.flatten.length ∧
      (∀ off n, off + n ≤ fs[j].chunks.flatten.length →
        readi mkfsSuperblock k im.disk (mkfsSuperblock.dinode im.disk (j + 2)) off n =
          .ok ⟨n, (fs[j].chunks.flatten.drop off).take n,
            mkfsSuperblock.dinode im.disk (j + 2), im.disk⟩) ∧
      ∀ off n, off ≤ fs[j].chunks.flatten.length → fs[j].chunks.flatten.length < off + n →
        off + n < 2 ^ 32 →
          readi mkfsSuperblock k im.disk (mkfsSuperblock.dinode im.disk (j + 2)) off n =
            .ok ⟨(fs[j].chunks.flatten.length - off : Nat), fs[j].chunks.flatten.drop off,
              mkfsSuperblock.dinode im.disk (j + 2), im.disk⟩ := by
  obtain ⟨_, e, types, files, hbuilt, hdone, hkind, hroot, hadds, _⟩ := mkfs_built h hroom hinodes
  have hone : rootino < 200 := by decide
  have hfirst : rootEntries.length = 32 := by
    rw [rootEntries, List.length_append, dirent_length, dirent_length]
  have hlen : (files rootino).length = 32 + 16 * fs.length := by
    rw [hroot, List.length_append, entries_length, hfirst]
  have hdir : types rootino ≠ tDev := by
    rw [hkind]
    decide
  refine ⟨?_, fun j hj => ?_⟩
  · rw [hbuilt.readi hdone hone hdir (by omega), hroot, List.drop_zero, List.take_left' hfirst]
    rfl
  · have hi : j + 2 < 200 := by omega
    have hne : j + 2 ≠ rootino := by
      change j + 2 ≠ 1
      omega
    obtain ⟨htype, hfile⟩ := hadds j hj
    rw [Nat.add_comm] at htype hfile
    have hshows := hbuilt.shows (j + 2) hi
    have hlinode : (mkfsSuperblock.dinode im.disk (j + 2)).type = tFile ∧
        (mkfsSuperblock.dinode im.disk (j + 2)).size = fs[j].chunks.flatten.length := by
      rw [hdone.others _ hi hne, hshows.type, htype, hshows.size, hfile]
      exact ⟨rfl, rfl⟩
    have hread : ∀ off n, off + n ≤ fs[j].chunks.flatten.length →
        readi mkfsSuperblock k im.disk (mkfsSuperblock.dinode im.disk (j + 2)) off n =
          .ok ⟨n, (fs[j].chunks.flatten.drop off).take n,
            mkfsSuperblock.dinode im.disk (j + 2), im.disk⟩ := fun off n hn => by
      rw [hbuilt.readi hdone hi (by rw [htype]; decide) (by rwa [hfile]), hfile]
    obtain ⟨hisfile, hissize⟩ := hlinode
    refine ⟨?_, hisfile, ?_, hissize, hread, fun off n hoff hend hword => ?_⟩
    · have hoff : 16 * (j + 2) = 32 + 16 * j := by omega
      rw [hbuilt.readi hdone hone hdir (by omega), hroot, hoff, ← List.drop_drop,
        List.drop_left' hfirst, entries_entry hj, Nat.add_comm 2 j]
      rfl
    · rw [hdone.others _ hi hne, hshows.nlink, htype]
      rfl
    · rw [readi_cut (by rw [hisfile]; decide) (by omega) (by omega) hword, hissize,
        hread off _ (by omega), List.take_of_length_le (by rw [List.length_drop])]

theorem mkfs_readback_short : ∃ im, Image.mkfs [shortSource] = some im ∧
    readi mkfsSuperblock smallKernel im.disk (mkfsSuperblock.dinode im.disk 2) 0 2 =
      .ok ⟨2, [7, 8], mkfsSuperblock.dinode im.disk 2, im.disk⟩ := by
  obtain ⟨im, him, hroom⟩ := mkfs_shortSource
  exact ⟨im, him, ((mkfs_readback smallKernel him hroom (by decide)).2 0
    (by decide)).2.2.2.2.1 0 2 (by decide)⟩

end OSProjects.Storage
