import OSProjects.Storage.Truncation

/-!
# Runs of a file system

In every run the marked data blocks are those that some inode has, each at one place, and the
inodes in memory are those on the disk. Reading and writing through the block map are reading
and writing of flat files.
-/

namespace OSProjects.Storage

open Allocation ByteMemory RedoLog StepSystem Xv6

variable {sb : Superblock} {k : Kernel} {d e : Disk Block} {u v w : Nat → Dinode} {ip iq : Dinode}
  {i j off n : Nat} {src : List UInt8} {s t : Volume}

/-! ## Dinodes on the disk -/

theorem Sound.congr (hs : Sound sb d v) (h : ∀ j, j < sb.ninodes → w j = v j) :
    Sound sb d w where
  exact := hs.exact.congr (fun _ => Iff.rfl) fun x => by
    by_cases hlt : x.1 < sb.ninodes
    · exact slot_congr (by rw [h _ hlt])
    · rw [slot, slot, if_neg fun hboth => hlt hboth.1, if_neg fun hboth => hlt hboth.1]
  meta_marked := hs.meta_marked
  fits := fun j hj => by rw [h j hj]; exact hs.fits j hj
  size := fun j hj => by rw [h j hj]; exact hs.size j hj
  dense := fun j hj => by rw [h j hj]; exact hs.dense j hj
  free := fun j hj => by rw [h j hj]; exact hs.free j hj

/-- A disk with the same data blocks and the same marks has the same files. -/
theorem Sound.ofData (hs : Sound sb d v) (hdata : ∀ b, sb.Data b → e b = d b)
    (hmarks : ∀ b, b < sb.size → sb.marked e b = sb.marked d b) :
    Sound sb e v ∧ ∀ j, j < sb.ninodes → (∀ pl, lookup e (v j) pl = lookup d (v j) pl) ∧
      fileByte e (v j) = fileByte d (v j) := by
  have hlookup : ∀ {j pl}, j < sb.ninodes → lookup e (v j) pl = lookup d (v j) pl := fun hj =>
    lookup_congr rfl fun hne => hdata _ (hs.indirect_inUse hj hne).1
  refine ⟨⟨hs.exact.congr (fun c => ?_) fun x => ?_, fun c hc hmeta => ?_, hs.fits, hs.size,
    fun j hj bn hbn => ?_, hs.free⟩, fun j hj => ⟨fun pl => hlookup hj, funext fun pos => ?_⟩⟩
  · exact and_congr_right fun hc => by rw [hmarks c hc.2]
  · by_cases hlt : x.1 < sb.ninodes
    · exact slot_congr (hlookup hlt)
    · rw [slot, slot, if_neg fun hboth => hlt hboth.1, if_neg fun hboth => hlt hboth.1]
  · rw [hmarks c hc, hs.meta_marked c hc hmeta]
  · rw [hlookup hj]
    exact hs.dense j hj bn hbn
  · exact fileByte_congr (hlookup hj) fun hne => hdata _ (hs.inUse hj hne).1

/-- The store of a dinode changes no block of a file and no mark. -/
theorem Sound.putDinode (hs : Sound sb d v) (ip : Dinode) (hi : i < sb.ninodes) :
    Sound sb (sb.putDinode d i ip) v ∧ ∀ j, j < sb.ninodes →
      (∀ pl, lookup (sb.putDinode d i ip) (v j) pl = lookup d (v j) pl) ∧
        fileByte (sb.putDinode d i ip) (v j) = fileByte d (v j) :=
  hs.ofData (fun _ hb => Superblock.putDinode_of_data hb hi) fun _ _ =>
    Superblock.marked_putDinode hi

/-- An operation on the inode `i` leaves `ip` there and the other files alone. -/
structure Changes (sb : Superblock) (d : Disk Block) (i : Nat) (ip : Dinode) (e : Disk Block) :
    Prop where
  sound : Sound sb e (sb.dinode e)
  self : sb.dinode e i = ip
  others : ∀ j, j < sb.ninodes → j ≠ i →
    sb.dinode e j = sb.dinode d j ∧ fileByte e (sb.dinode d j) = fileByte d (sb.dinode d j)

/-- After its `iupdate` an operation is complete. -/
theorem Changes.of_putDinode (hs : Sound sb e (Function.update (sb.dinode d) i ip))
    (hi : i < sb.ninodes)
    (hinodes : ∀ j, j < sb.ninodes → j ≠ i → sb.dinode e j = sb.dinode d j)
    (hothers : ∀ j, j < sb.ninodes → j ≠ i →
      fileByte e (sb.dinode d j) = fileByte d (sb.dinode d j)) :
    Changes sb d i ip (sb.putDinode e i ip) ∧ fileByte (sb.putDinode e i ip) ip = fileByte e ip := by
  have hfits : ip.Fits := by
    have := hs.fits i hi
    rwa [Function.update_self] at this
  obtain ⟨hsound, hbytes⟩ := hs.putDinode ip hi
  have hself : sb.dinode (sb.putDinode e i ip) i = ip := Superblock.dinode_putDinode_self hfits
  have hother : ∀ j, j < sb.ninodes → j ≠ i →
      sb.dinode (sb.putDinode e i ip) j = sb.dinode d j := fun j hj hji =>
    (Superblock.dinode_putDinode_ne hji).trans (hinodes j hj hji)
  refine ⟨⟨hsound.congr fun j hj => ?_, hself, fun j hj hji => ⟨hother j hj hji, ?_⟩⟩, ?_⟩
  · by_cases hji : j = i
    · subst hji
      rw [hself, Function.update_self]
    · rw [hother j hj hji, Function.update_of_ne hji]
  · have := (hbytes j hj).2
    rw [Function.update_of_ne hji] at this
    rw [this, hothers j hj hji]
  · have := (hbytes i hi).2
    rwa [Function.update_self] at this

/-- Fields of an inode other than its addresses may change, as far as its blocks reach. -/
theorem Sound.setInode {w : Dinode} (hs : Sound sb d v) (haddrs : w.addrs = (v i).addrs)
    (hfits : w.Fits) (hsize : w.size ≤ maxFile * bSize)
    (hdense : ∀ bn, bn * bSize < w.size → lookup d (v i) (.data bn) ≠ 0)
    (hfree : w.type = 0 → ∀ k, w.addrs k = 0) : Sound sb d (Function.update v i w) := by
  have hlookup : ∀ j pl, lookup d (Function.update v i w j) pl = lookup d (v j) pl := by
    intro j pl
    by_cases hji : j = i
    · subst hji
      rw [Function.update_self]
      exact lookup_congr haddrs fun _ => rfl
    · rw [Function.update_of_ne hji]
  have hcases : ∀ {P : Nat → Dinode → Prop}, P i w → (∀ j, j < sb.ninodes → P j (v j)) →
      ∀ j, j < sb.ninodes → P j (Function.update v i w j) := by
    intro P hnew hold j hj
    by_cases hji : j = i
    · subst hji
      rwa [Function.update_self]
    · rw [Function.update_of_ne hji]
      exact hold j hj
  refine ⟨hs.exact.congr (fun _ => Iff.rfl) fun x => slot_congr (hlookup _ _), hs.meta_marked,
    hcases (P := fun _ ip => ip.Fits) hfits hs.fits,
    hcases (P := fun _ ip => ip.size ≤ maxFile * bSize) hsize hs.size, ?_,
    hcases (P := fun _ ip => ip.type = 0 → ∀ k, ip.addrs k = 0) hfree hs.free⟩
  intro j hj bn hbn
  rw [hlookup]
  exact hcases (P := fun j w => bn * bSize < w.size → lookup d (v j) (.data bn) ≠ 0)
    (hdense bn) (fun j hj => hs.dense j hj bn) j hj hbn

/-! ## Whole operations -/

/-- The end of `writei`. The inode on the disk is the one in memory, also when `iupdate` is
not called: then no block was added. -/
theorem Written.grow (h : Written sb d (sb.dinode d) i off src ip e) (hi : i < sb.ninodes)
    (htype : (sb.dinode d i).type ≠ 0) (hoff : off ≤ (sb.dinode d i).size)
    (hmax : off + src.length ≤ maxFile * bSize) {r : WriteDone}
    (hr : Storage.grow sb e i ip (off + src.length) src.length = r) :
    Changes sb d i r.ip r.disk ∧
      fileByte r.disk r.ip = Store.apply ⟨off, src⟩ (fileByte d (sb.dinode d i)) ∧
      (sb.dinode d i).Alike { r.ip with size := (sb.dinode d i).size } ∧ r.result = src.length ∧
      r.ip.size = if 0 < src.length ∧ (sb.dinode d i).size < off + src.length
        then off + src.length else (sb.dinode d i).size := by
  have hself : Function.update (sb.dinode d) i ip i = ip := by rw [Function.update_self]
  subst hr
  rw [Storage.grow, h.alike.size]
  split
  · next hgrows =>
    have hfits : ip.Fits := by
      have := h.sound.fits i hi
      rwa [hself] at this
    have hsmall : off + src.length < 2 ^ 32 := Nat.lt_of_le_of_lt hmax (by decide)
    have hsound : Sound sb e (Function.update (sb.dinode d) i
        { ip with size := off + src.length }) := by
      have := h.sound.setInode (i := i) (w := { ip with size := off + src.length })
        (by rw [hself]) ⟨hfits.type, hfits.major, hfits.minor, hfits.nlink, hsmall, hfits.addrs⟩
        hmax (fun bn hbn => ?_) fun hzero => absurd (h.alike.type.symm.trans hzero) htype
      · rwa [Function.update_idem] at this
      · rw [hself]
        have hdiv : bn * bSize / bSize = bn := Nat.mul_div_cancel bn (by decide)
        rcases Nat.lt_or_ge (bn * bSize) off with hlt | hge
        · have hold := h.sound.dense i hi bn (by rw [hself, h.alike.size]; omega)
          rwa [hself] at hold
        · have := h.blocks (bn * bSize) hge hbn
          rwa [hdiv] at this
    obtain ⟨hchanges, hbytes⟩ := Changes.of_putDinode hsound hi (fun j hj _ => h.inodes j hj) h.others
    refine ⟨hchanges, ?_, ⟨h.alike.type, h.alike.major, h.alike.minor, h.alike.nlink, rfl⟩, rfl, rfl⟩
    rw [hbytes, ← h.here]
    exact funext fun pos => fileByte_congr (lookup_congr rfl fun _ => rfl) fun _ => rfl
  · next hstays =>
    have hsame : src.length = 0 ∨ off + src.length ≤ (sb.dinode d i).size := by omega
    have hip : ip = sb.dinode d i := h.within (by omega)
    refine ⟨⟨?_, ?_, ?_⟩, h.here, ?_, rfl, h.alike.size⟩
    · exact h.sound.congr fun j hj => by rw [hip, Function.update_eq_self, h.inodes j hj]
    · rw [h.inodes i hi, hip]
    · exact fun j hj hji => ⟨h.inodes j hj, h.others j hj hji⟩
    · rw [hip]
      exact .refl _

/-- `writei` of bytes that fit in a file. -/
theorem writei_spec (hs : Sound sb d (sb.dinode d)) (hi : i < sb.ninodes)
    (htype : (sb.dinode d i).type ≠ 0) (hoff : off ≤ (sb.dinode d i).size)
    (hmax : off + src.length ≤ maxFile * bSize) {r : WriteDone}
    (h : (writeLoop sb d (sb.dinode d i) off src).map (fun r =>
      grow sb r.2 i r.1 (off + src.length) src.length) = .ok r) :
    Changes sb d i r.ip r.disk ∧
      fileByte r.disk r.ip = Store.apply ⟨off, src⟩ (fileByte d (sb.dinode d i)) ∧
      (sb.dinode d i).Alike { r.ip with size := (sb.dinode d i).size } ∧ r.result = src.length ∧
      r.ip.size = if 0 < src.length ∧ (sb.dinode d i).size < off + src.length
        then off + src.length else (sb.dinode d i).size := by
  obtain ⟨⟨ip, e⟩, hloop, hr⟩ := map_ok h
  exact (writeLoop_spec hs hi htype hloop).grow hi htype hoff hmax hr

/-- The loop of `writei` panics only for want of blocks. -/
theorem writeLoop_error {p : FsPanic} (hmax : off + src.length ≤ maxFile * bSize)
    (h : writeLoop sb d ip off src = .error p) : p = .outOfBlocks := by
  generalize hlen : src.length = n at hmax
  induction n using Nat.strong_induction_on generalizing d ip off src with
  | _ n ih =>
    rw [writeLoop] at h
    split at h
    · cases h
    · next hne =>
      have hpos := chunk_pos off (mt List.length_eq_zero_iff.mp hne)
      have hle := chunk_le off src.length
      rcases bind_error h with hmap | ⟨m, _, hrest⟩
      · refine bmap_error (Nat.div_lt_of_lt_mul ?_) hmap
        rw [Nat.mul_comm]
        omega
      · exact ih (n - chunk off src.length) (by omega) hrest
          (by rw [List.length_drop, hlen]) (by omega)

/-- The loop of `writei` does not fail where all blocks are in place. -/
theorem writeLoop_there (hs : Sound sb d v) (hi : i < sb.ninodes)
    (hblocks : ∀ pos, off ≤ pos → pos < off + src.length →
      lookup d (v i) (.data (pos / bSize)) ≠ 0) :
    ∃ e, writeLoop sb d (v i) off src = .ok (v i, e) := by
  generalize hlen : src.length = n at hblocks
  induction n using Nat.strong_induction_on generalizing d off src with
  | _ n ih =>
    rw [writeLoop]
    split
    · exact ⟨d, rfl⟩
    · next hne =>
      have hpos := chunk_pos off (mt List.length_eq_zero_iff.mp hne)
      have hle := chunk_le off src.length
      have hfirst := hblocks off (Nat.le_refl _) (by omega)
      rw [bmap_of_lookup hfirst, ok_bind]
      refine ih (n - chunk off src.length) (by omega) (hs.store hi hfirst)
        (by rw [List.length_drop, hlen]) fun pos hlow hhigh => ?_
      rw [hs.lookup_store hi hfirst hi]
      exact hblocks pos (by omega) (by omega)

/-- The end of `iput`: the blocks of the inode are free, and the inode is. -/
theorem lastPut_spec (hs : Sound sb s.disk (sb.dinode s.disk)) (hi : i < sb.ninodes) :
    ∃ e, lastPut sb s i (sb.dinode s.disk i) = .ok ⟨e, Function.update s.cached i none⟩ ∧
      Changes sb s.disk i
        { sb.dinode s.disk i with type := 0, size := 0, addrs := fun _ => 0 } e ∧
      ∀ c, c < sb.size → (sb.marked e c = true ↔
        sb.marked s.disk c = true ∧ ¬ Holds s.disk (sb.dinode s.disk i) c) := by
  obtain ⟨e, hfreed, htrunc⟩ := hs.frees hi
  have hfits := hs.fits i hi
  have hsound := hfreed.sound { sb.dinode s.disk i with type := 0, size := 0, addrs := fun _ => 0 } hs hi
    ⟨Nat.two_pow_pos 16, hfits.major, hfits.minor, hfits.nlink, Nat.two_pow_pos 32,
      fun _ => Nat.two_pow_pos 32⟩ rfl fun _ => rfl
  obtain ⟨hsound', hbytes⟩ :=
    hsound.putDinode { sb.dinode s.disk i with size := 0, addrs := fun _ => 0 } hi
  obtain ⟨hchanges, _⟩ := Changes.of_putDinode hsound' hi
    (fun j hj hji => (Superblock.dinode_putDinode_ne hji).trans (hfreed.inodes j hj))
    fun j hj hji => by
      have := (hbytes j hj).2
      rw [Function.update_of_ne hji] at this
      rw [this, hfreed.fileByte_eq hs hj]
  refine ⟨_, by rw [lastPut, htrunc]; rfl, hchanges, fun c hc => ?_⟩
  rw [Superblock.marked_putDinode hi, Superblock.marked_putDinode hi]
  exact hfreed.marks c hc

/-- `ialloc` takes a free inode. -/
theorem ialloc_spec {type : Nat} (hs : Sound sb d (sb.dinode d)) (htype : type ≠ 0)
    (hshort : type < 2 ^ 16) (h : ialloc sb d type = .ok (i, e)) :
    i < sb.ninodes ∧ (sb.dinode d i).type = 0 ∧
      Changes sb d i { Dinode.zero with type := type } e := by
  rw [ialloc] at h
  split at h
  · next c hfind =>
    obtain ⟨rfl, rfl⟩ := Prod.mk.inj (Except.ok.inj h)
    have hfree : (sb.dinode d c).type = 0 := by simpa using List.find?_some hfind
    have hlt : c < sb.ninodes := by
      have := List.mem_range'_1.mp (List.mem_of_find?_eq_some hfind)
      omega
    have hsound : Sound sb d
        (Function.update (sb.dinode d) c { Dinode.zero with type := type }) :=
      hs.setInode (funext fun k => (hs.free c hlt hfree k).symm)
        ⟨hshort, Nat.two_pow_pos 16, Nat.two_pow_pos 16, Nat.two_pow_pos 16, Nat.two_pow_pos 32,
          fun _ => Nat.two_pow_pos 32⟩ (Nat.zero_le _)
        (fun bn hbn => absurd hbn (Nat.not_lt_zero _)) fun hz => absurd hz htype
    exact ⟨hlt, hfree, (Changes.of_putDinode hsound hlt (fun _ _ _ => rfl) fun _ _ _ => rfl).1⟩
  · cases h

/-- `iupdate` of the fields that the callers of `fs.c` set. -/
theorem iupdate_spec {major minor nlink : Nat} (hs : Sound sb d (sb.dinode d))
    (hi : i < sb.ninodes) (htype : (sb.dinode d i).type ≠ 0) (hmajor : major < 2 ^ 16)
    (hminor : minor < 2 ^ 16) (hnlink : nlink < 2 ^ 16) (ip : Dinode)
    (hip : ip = { sb.dinode d i with major := major, minor := minor, nlink := nlink }) :
    Changes sb d i ip (sb.putDinode d i ip) ∧
      fileByte (sb.putDinode d i ip) ip = fileByte d (sb.dinode d i) := by
  subst hip
  have hfits := hs.fits i hi
  have hsound := hs.setInode (i := i)
    (w := { sb.dinode d i with major := major, minor := minor, nlink := nlink }) rfl
    ⟨hfits.type, hmajor, hminor, hnlink, hfits.size, hfits.addrs⟩ (hs.size i hi)
    (hs.dense i hi) fun hz => absurd hz htype
  obtain ⟨hchanges, hbytes⟩ :=
    Changes.of_putDinode hsound hi (fun _ _ _ => rfl) fun _ _ _ => rfl
  refine ⟨hchanges, hbytes.trans (funext fun pos => ?_)⟩
  exact fileByte_congr (lookup_congr rfl fun _ => rfl) fun _ => rfl

/-! ## Flat files -/

/-- The type of a number, where 0 marks a free inode. -/
def inodeType (type : Nat) : InodeType :=
  if type = tDev then .dev else if type = tDir then .dir else .file

/-- The value of a `short`. -/
def short (n : Nat) : Int := if n < 2 ^ 15 then n else n - 2 ^ 16

/-- An inode with the bytes of its blocks, as the rest of the kernel sees it. -/
def flat (d : Disk Block) (ip : Dinode) : Inode where
  type := inodeType ip.type
  major := short ip.major
  size := ip.size
  data := fileByte d ip

theorem driver_flat (hmajor : ip.major < 2 ^ 16) : k.driver (flat d ip) = driver k ip := by
  rw [Kernel.driver, driver, flat, short]
  by_cases hsign : ip.major < 2 ^ 15
  · simp only [if_pos hsign]
    by_cases hdev : ip.major < nDev
    · rw [if_pos hdev, if_pos ⟨Int.natCast_nonneg _, Int.ofNat_lt.mpr hdev⟩, Int.toNat_natCast]
    · rw [if_neg hdev, if_neg fun h => hdev (Int.ofNat_lt.mp h.2)]
  · simp only [if_neg hsign]
    rw [if_neg fun h => ?_, if_neg fun h => ?_]
    · have : (10 : Nat) ≤ 2 ^ 15 := by decide
      exact hsign (Nat.lt_of_lt_of_le h this)
    · have := h.1
      omega

theorem flat_dev_iff : (flat d ip).type = .dev ↔ ip.type = tDev := by
  rw [flat, inodeType]
  constructor
  · intro h
    by_contra hne
    simp only [if_neg hne] at h
    split at h <;> cases h
  · intro h
    simp only [if_pos h]

/-- `readi` reads the flat file, and neither the inode nor the disk changes: it never
allocates. -/
theorem readi_flat (hs : Sound sb d v) (hi : i < sb.ninodes) :
    readi sb k d (v i) off n = .ok ⟨(k.readi (flat d (v i)) off n).1,
      (k.readi (flat d (v i)) off n).2, v i, d⟩ := by
  rw [readi, Kernel.readi]
  split
  · next hdev =>
    rw [if_pos (flat_dev_iff.mpr hdev), driver_flat (hs.fits i hi).major]
    cases driver k (v i) <;> rfl
  · next hdev =>
    rw [if_neg (mt flat_dev_iff.mp hdev)]
    split
    · next hout =>
      rw [if_pos (show (flat d (v i)).size < off ∨ 2 ^ 32 ≤ off + n from hout)]
    · next hin =>
      obtain ⟨hoff, _⟩ := not_or.mp hin
      rw [if_neg (show ¬ ((flat d (v i)).size < off ∨ 2 ^ 32 ≤ off + n) from hin)]
      have hmin : (if (v i).size < off + n then (v i).size - off else n) =
          min n ((v i).size - off) := by
        split <;> omega
      have hloop : readLoop sb d (v i) off (min n ((v i).size - off)) =
          .ok (readBytes (fileByte d (v i)) off (min n ((v i).size - off)), v i, d) := by
        refine readLoop_spec fun pos hlow hhigh => hs.dense i hi _ ?_
        have : pos / bSize * bSize ≤ pos := Nat.div_mul_le_self pos bSize
        omega
      simp only [hmin, hloop]
      rfl

/-- An operation that does nothing. -/
theorem Changes.refl (hs : Sound sb d (sb.dinode d)) : Changes sb d i (sb.dinode d i) d :=
  ⟨hs, rfl, fun _ _ _ => ⟨rfl, rfl⟩⟩

/-- `writei` writes the flat file and changes no other. -/
theorem writei_flat (hs : Sound sb d (sb.dinode d)) (hi : i < sb.ninodes)
    (htype : (sb.dinode d i).type ≠ 0) {r : WriteDone}
    (h : writei sb k d i (sb.dinode d i) off src = .ok r) :
    k.writeBytes (flat d (sb.dinode d i)) (some src) off src.length =
        .ok (flat r.disk r.ip, r.result) ∧
      Changes sb d i r.ip r.disk ∧ r.ip.type = (sb.dinode d i).type := by
  have hfits := hs.fits i hi
  rw [writei] at h
  rw [Kernel.writeBytes]
  split at h
  · next hdev =>
    rw [if_pos (flat_dev_iff.mpr hdev), driver_flat hfits.major]
    cases hdriver : driver k (sb.dinode d i) <;> rw [hdriver] at h <;>
      obtain rfl := Except.ok.inj h <;> exact ⟨rfl, .refl hs, rfl⟩
  · next hdev =>
    rw [if_neg (mt flat_dev_iff.mp hdev)]
    have hflat : (flat d (sb.dinode d i)).size = (sb.dinode d i).size := rfl
    rw [hflat]
    split at h
    · next hout =>
      obtain rfl := Except.ok.inj h
      rw [if_pos (hout.imp_right Or.inl)]
      exact ⟨rfl, .refl hs, rfl⟩
    · next hin =>
      obtain ⟨hoff, hwrap⟩ := not_or.mp hin
      split at h
      · next hbig =>
        obtain rfl := Except.ok.inj h
        rw [if_pos (Or.inr (Or.inr hbig))]
        exact ⟨rfl, .refl hs, rfl⟩
      · next hmax =>
        obtain ⟨hchanges, hbytes, halike, hresult, hsize⟩ :=
          writei_spec hs hi htype (Nat.not_lt.mp hoff) (Nat.not_lt.mp hmax) h
        rw [if_neg (not_or.mpr ⟨hoff, not_or.mpr ⟨hwrap, hmax⟩⟩)]
        refine ⟨?_, hchanges, halike.type⟩
        have htypes : r.ip.type = (sb.dinode d i).type := halike.type
        have hmajors : r.ip.major = (sb.dinode d i).major := halike.major
        simp only [flat, hbytes, hsize, hresult, htypes, hmajors]

/-! ## Volumes -/

/-- The volume is sound, and the inodes in memory are those on the disk. -/
structure Volume.Ok (sb : Superblock) (s : Volume) : Prop where
  sound : Sound sb s.disk (sb.dinode s.disk)
  cached : ∀ i ip, s.cached i = some ip →
    i < sb.ninodes ∧ ip = sb.dinode s.disk i ∧ ip.type ≠ 0

namespace Volume.Ok

theorem changes (h : s.Ok sb) (hc : Changes sb s.disk i ip e) (htype : ip.type ≠ 0)
    (hi : i < sb.ninodes) : Volume.Ok sb ⟨e, Function.update s.cached i (some ip)⟩ := by
  refine ⟨hc.sound, fun j iq hj => ?_⟩
  by_cases hji : j = i
  · subst hji
    simp only [Function.update_self, Option.some.injEq] at hj
    subst hj
    exact ⟨hi, hc.self.symm, htype⟩
  · simp only [Function.update_of_ne hji] at hj
    obtain ⟨hlt, rfl, hne⟩ := h.cached j iq hj
    exact ⟨hlt, (hc.others j hlt hji).1.symm, hne⟩

theorem changes_uncached (h : s.Ok sb) (hc : Changes sb s.disk i ip e) :
    Volume.Ok sb ⟨e, Function.update s.cached i none⟩ := by
  refine ⟨hc.sound, fun j iq hj => ?_⟩
  have hji : j ≠ i := by
    rintro rfl
    simp only [Function.update_self] at hj
    cases hj
  simp only [Function.update_of_ne hji] at hj
  obtain ⟨hlt, rfl, hne⟩ := h.cached j iq hj
  exact ⟨hlt, (hc.others j hlt hji).1.symm, hne⟩

theorem ialloc {type : Nat} (h : s.Ok sb) (htype : type ≠ 0) (hshort : type < 2 ^ 16)
    (hdone : Storage.ialloc sb s.disk type = .ok (i, d)) :
    Volume.Ok sb { s with disk := d } := by
  obtain ⟨hi, hfree, hchanges⟩ := ialloc_spec h.sound htype hshort hdone
  have hnone : s.cached i = none := by
    rw [Option.eq_none_iff_forall_ne_some]
    intro ip hip
    obtain ⟨_, rfl, hne⟩ := h.cached i ip hip
    exact hne hfree
  have hok := h.changes_uncached hchanges
  rwa [← hnone, Function.update_eq_self] at hok

theorem step {a : FsAct} (h : s.Ok sb) (hstep : FsStep sb k s a t) : t.Ok sb := by
  cases hstep with
  | ialloc htype hshort hdone => exact h.ialloc htype hshort hdone
  | ilock hi _ htype => exact h.changes (.refl h.sound) htype hi
  | readi hvalid hdone =>
      obtain ⟨hi, rfl, htype⟩ := h.cached _ _ hvalid
      obtain rfl := Except.ok.inj ((readi_flat h.sound hi).symm.trans hdone)
      exact h.changes (.refl h.sound) htype hi
  | writei hvalid hdone =>
      obtain ⟨hi, rfl, htype⟩ := h.cached _ _ hvalid
      obtain ⟨_, hchanges, hsame⟩ := writei_flat h.sound hi htype hdone
      exact h.changes hchanges (by rw [hsame]; exact htype) hi
  | iupdate hvalid hmajor hminor hnlink =>
      obtain ⟨hi, rfl, htype⟩ := h.cached _ _ hvalid
      exact h.changes (iupdate_spec h.sound hi htype hmajor hminor hnlink _ rfl).1 htype hi
  | iput hvalid _ hdone =>
      obtain ⟨hi, rfl, _⟩ := h.cached _ _ hvalid
      obtain ⟨e, hput, hchanges, _⟩ := lastPut_spec h.sound hi
      obtain rfl := Except.ok.inj (hput.symm.trans hdone)
      exact h.changes_uncached hchanges
  | recycle => exact h.changes_uncached (.refl h.sound)

end Volume.Ok

end OSProjects.Storage
