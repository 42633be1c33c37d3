import OSProjects.Storage.Mkfs

/-!
# The image is a file system

While `mkfs.c` builds the image, its counter stands for the bitmap that the kernel would have:
`iappend` does what the loop of `writei` does. So the image is sound when it is done, but for the
root directory: its size is rounded up to a further block if its entries fill their last one.
-/

namespace OSProjects.Storage

open ByteMemory RedoLog Xv6

variable {im im' : Image} {d e : Disk Block} {v : Nat → Dinode} {din din' : Dinode}
  {i j b fbn off used : Nat} {p : List UInt8} {x : Placed}

theorem mkfs_data_iff : mkfsSuperblock.Data b ↔ nmeta ≤ b ∧ b < 1000 := by
  rw [Superblock.Data]
  exact Iff.rfl

/-! ## The counter as a bitmap -/

/-- The disk that the kernel would have at this point of the program. -/
structure Mirrors (im : Image) (d : Disk Block) : Prop where
  same : ∀ b, b ≠ mkfsSuperblock.bmapstart → im.disk b = d b
  marks : ∀ b, b < 1000 → (mkfsSuperblock.marked d b = true ↔ b < im.freeblock)
  fresh : ∀ b, im.freeblock ≤ b → im.disk b = .zero
  low : nmeta ≤ im.freeblock

namespace Mirrors

theorem dinode_eq (h : Mirrors im d) (hi : i < 200) :
    mkfsSuperblock.dinode im.disk i = mkfsSuperblock.dinode d i := by
  refine Superblock.dinode_congr (h.same _ ?_)
  have hlt : mkfsSuperblock.iblock i < mkfsSuperblock.bmapstart := Superblock.iblock_lt hi
  exact Nat.ne_of_lt hlt

theorem of_used (h : Mirrors im d) (hb : mkfsSuperblock.InUse d b) :
    b ≠ mkfsSuperblock.bmapstart ∧ b < im.freeblock := by
  have hlow := (mkfs_data_iff.mp hb.1).1
  refine ⟨fun heq => ?_, (h.marks b hb.1.2).mp hb.2⟩
  rw [heq] at hlow
  exact Nat.lt_irrefl _ hlow

/-- `freeblock++` is `balloc`. -/
theorem balloc (h : Mirrors im d) (hroom : im.freeblock < 1000) :
    ∃ e, Storage.balloc mkfsSuperblock d = .ok (im.freeblock, e) ∧
      Mirrors { im with freeblock := im.freeblock + 1 } e := by
  have hfind : (List.range mkfsSuperblock.size).find? (fun b => !mkfsSuperblock.marked d b) =
      some im.freeblock := by
    rw [List.find?_range_eq_some]
    refine ⟨?_, List.mem_range.mpr hroom, fun b hb => ?_⟩
    · rw [Bool.not_eq_true', ← Bool.not_eq_true, h.marks _ hroom]
      exact Nat.lt_irrefl _
    · have hmark := (h.marks b (Nat.lt_trans hb hroom)).mpr hb
      rw [hmark]
      rfl
  have hdata : mkfsSuperblock.Data im.freeblock := mkfs_data_iff.mpr ⟨h.low, hroom⟩
  have hbitmap : mkfsSuperblock.bblock im.freeblock = mkfsSuperblock.bmapstart := by
    have hdiv : im.freeblock / bpb = 0 := Nat.div_eq_of_lt
      (Nat.lt_trans hroom (by decide))
    rw [Superblock.bblock, hdiv, Nat.zero_add]
  refine ⟨_, by rw [Storage.balloc, hfind], fun b hb => ?_, fun b hb => ?_, fun b hb => ?_,
    Nat.le_succ_of_le h.low⟩
  · change im.disk b = _
    by_cases heq : b = im.freeblock
    · subst heq
      rw [Function.update_self, h.fresh _ (Nat.le_refl _)]
    · rw [Function.update_of_ne heq, Superblock.mark, Function.update_of_ne (by rwa [hbitmap]),
        h.same b hb]
  · rw [Superblock.marked_update hdata hb, Superblock.marked_mark]
    change _ ↔ b < im.freeblock + 1
    rw [Nat.lt_succ_iff_lt_or_eq, ← h.marks b hb]
    by_cases heq : b = im.freeblock
    · simp [heq]
    · simp [heq]
  · exact h.fresh b (Nat.le_of_succ_le hb)

/-- A store to a block in use, on both sides. -/
theorem update {x : Block} (h : Mirrors im d) (hb : mkfsSuperblock.Data b)
    (hused : b < im.freeblock) :
    Mirrors { im with disk := Function.update im.disk b x } (Function.update d b x) := by
  refine ⟨fun c hc => ?_, fun c hc => ?_, fun c hc => ?_, h.low⟩
  · change Function.update im.disk b x c = _
    by_cases heq : c = b
    · subst heq
      rw [Function.update_self, Function.update_self]
    · rw [Function.update_of_ne heq, Function.update_of_ne heq, h.same c hc]
  · rw [Superblock.marked_update hb hc]
    exact h.marks c hc
  · change Function.update im.disk b x c = .zero
    rw [Function.update_of_ne (Nat.ne_of_gt (Nat.lt_of_lt_of_le hused hc)), h.fresh c hc]

/-- `winode` is `iupdate`. -/
theorem winode (h : Mirrors im d) (hi : i < 200) :
    Mirrors (im.winode i din) (mkfsSuperblock.putDinode d i din) := by
  have hblock : mkfsSuperblock.iblock i < mkfsSuperblock.bmapstart := Superblock.iblock_lt hi
  refine ⟨fun b hb => ?_, fun b hb => ?_, fun b hb => ?_, h.low⟩
  · change mkfsSuperblock.putDinode im.disk i din b = _
    rw [Superblock.putDinode, Superblock.putDinode]
    by_cases heq : b = mkfsSuperblock.iblock i
    · subst heq
      rw [Function.update_self, Function.update_self, h.same _ hb]
    · rw [Function.update_of_ne heq, Function.update_of_ne heq, h.same b hb]
  · have hmark : mkfsSuperblock.marked (mkfsSuperblock.putDinode d i din) b =
        mkfsSuperblock.marked d b := Superblock.marked_putDinode hi
    rw [hmark]
    exact h.marks b hb
  · have hlow : mkfsSuperblock.bmapstart < im.freeblock := h.low
    have hne : b ≠ mkfsSuperblock.iblock i := by
      rintro rfl
      exact Nat.lt_irrefl _ (Nat.lt_trans (Nat.lt_of_lt_of_le hlow hb) hblock)
    change mkfsSuperblock.putDinode im.disk i din b = .zero
    rw [Superblock.putDinode, Function.update_of_ne hne, h.fresh b hb]

end Mirrors

/-! ## The loop of iappend -/

theorem placeAddr_freeblock (k : Fin (nDirect + 1)) :
    im.freeblock ≤ (im.placeAddr din k).image.freeblock := by
  rw [Image.placeAddr]
  split
  · exact Nat.le_succ _
  · exact Nat.le_refl _

theorem placeEntry_freeblock : x.image.freeblock ≤ (Image.placeEntry x j).image.freeblock := by
  rw [Image.placeEntry]
  split
  · exact Nat.le_succ _
  · exact Nat.le_refl _

theorem place_freeblock (h : im.place din fbn = some x) : im.freeblock ≤ x.image.freeblock := by
  rw [Image.place] at h
  split at h
  · cases h
  · split at h
    · obtain rfl := Option.some.inj h
      exact placeAddr_freeblock _
    · obtain rfl := Option.some.inj h
      exact Nat.le_trans (placeAddr_freeblock _) placeEntry_freeblock

theorem appendLoop_freeblock (h : im.appendLoop din off p = some (din', im')) :
    im.freeblock ≤ im'.freeblock := by
  generalize hlen : p.length = n
  induction n using Nat.strong_induction_on generalizing im din off p with
  | _ n ih =>
    rw [Image.appendLoop] at h
    split at h
    · obtain ⟨rfl, rfl⟩ := Prod.mk.inj (Option.some.inj h)
      exact Nat.le_refl _
    · next hne =>
      obtain ⟨x, hx, hrest⟩ := Option.bind_eq_some_iff.mp h
      have hpos := chunk_pos off (mt List.length_eq_zero_iff.mp hne)
      have hle := chunk_le off p.length
      have hnext := ih (p.length - chunk off p.length) (by omega) hrest
        (by rw [List.length_drop, Image.portion_eq_chunk])
      exact Nat.le_trans (place_freeblock hx) hnext

theorem Mirrors.placeAddr {k : Fin (nDirect + 1)} (h : Mirrors im d)
    (hroom : (im.placeAddr din k).image.freeblock ≤ 1000) :
    ∃ e, mapAddr mkfsSuperblock d din k =
        .ok ⟨(im.placeAddr din k).addr, (im.placeAddr din k).din, e⟩ ∧
      Mirrors (im.placeAddr din k).image e := by
  rw [Image.placeAddr] at hroom ⊢
  rw [mapAddr]
  split at hroom
  · next hzero =>
    obtain ⟨e, he, hm⟩ := h.balloc hroom
    rw [if_pos hzero, if_pos hzero, he]
    exact ⟨e, rfl, hm⟩
  · next hne =>
    rw [if_neg hne, if_neg hne]
    exact ⟨d, rfl, h⟩

theorem Mirrors.placeEntry (h : Mirrors x.image d) (hdata : mkfsSuperblock.InUse d x.addr)
    (hroom : (Image.placeEntry x j).image.freeblock ≤ 1000) :
    ∃ e, mapEntry mkfsSuperblock ⟨x.addr, x.din, d⟩ j =
        .ok ⟨(Image.placeEntry x j).addr, (Image.placeEntry x j).din, e⟩ ∧
      Mirrors (Image.placeEntry x j).image e := by
  obtain ⟨hblock, hused⟩ := h.of_used hdata
  have hsame : x.image.disk x.addr = d x.addr := h.same _ hblock
  rw [Image.placeEntry] at hroom ⊢
  rw [mapEntry]
  rw [hsame] at hroom ⊢
  split at hroom
  · next hzero =>
    obtain ⟨e, he, hm⟩ := h.balloc hroom
    rw [if_pos hzero, if_pos hzero, he]
    have hkept : e x.addr = d x.addr := (hm.same _ hblock).symm.trans hsame
    refine ⟨_, rfl, ?_⟩
    simp only [hkept]
    exact hm.update hdata.1 (Nat.lt_succ_of_lt hused)
  · next hne =>
    rw [if_neg hne, if_neg hne]
    exact ⟨d, rfl, h⟩

/-- The block that `iappend` finds is the block that `bmap` finds. -/
theorem Mirrors.place (h : Mirrors im d) (hs : Sound mkfsSuperblock d v) (hi : i < 200)
    (htype : (v i).type ≠ 0) (hx : im.place (v i) fbn = some x)
    (hroom : x.image.freeblock ≤ 1000) :
    fbn < maxFile ∧ ∃ e, bmap mkfsSuperblock d (v i) fbn = .ok ⟨x.addr, x.din, e⟩ ∧
      Mirrors x.image e := by
  rw [Image.place] at hx
  split at hx
  · cases hx
  · next hmax =>
    refine ⟨Nat.not_le.mp hmax, ?_⟩
    rw [bmap]
    split at hx
    · next hdirect =>
      obtain rfl := Option.some.inj hx
      rw [dif_pos hdirect]
      exact h.placeAddr hroom
    · next hdirect =>
      obtain rfl := Option.some.inj hx
      have hin : fbn - nDirect < nIndirect := by
        have hlow : ¬ fbn < 12 := hdirect
        have hhigh : ¬ 140 ≤ fbn := hmax
        change fbn - 12 < 128
        omega
      obtain ⟨e, he, hm⟩ := h.placeAddr (Nat.le_trans placeEntry_freeblock hroom)
      have hmaps := mapAddr_spec hs hi htype he
      have hin' := hmaps.sound.inUse (p := .addr (Fin.last nDirect)) hi
        (by rw [Function.update_self, hmaps.found]; exact hmaps.pos)
      rw [Function.update_self, hmaps.found] at hin'
      obtain ⟨f, hf, hm'⟩ := hm.placeEntry (j := fbn - nDirect) hin' hroom
      rw [dif_neg hdirect, if_pos hin, he, ok_bind]
      exact ⟨f, hf, hm'⟩

/-- The loop of `iappend` is the loop of `writei`. -/
theorem Mirrors.appendLoop (h : Mirrors im d) (hs : Sound mkfsSuperblock d v) (hi : i < 200)
    (htype : (v i).type ≠ 0) (hloop : im.appendLoop (v i) off p = some (din', im'))
    (hroom : im'.freeblock ≤ 1000) :
    ∃ e, writeLoop mkfsSuperblock d (v i) off p = .ok (din', e) ∧ Mirrors im' e := by
  generalize hlen : p.length = n
  induction n using Nat.strong_induction_on generalizing im d v off p with
  | _ n ih =>
    rw [Image.appendLoop] at hloop
    rw [writeLoop]
    split at hloop
    · next hnil =>
      obtain ⟨rfl, rfl⟩ := Prod.mk.inj (Option.some.inj hloop)
      rw [dif_pos hnil]
      exact ⟨d, rfl, h⟩
    · next hne =>
      obtain ⟨x, hx, hrest⟩ := Option.bind_eq_some_iff.mp hloop
      have hlater := appendLoop_freeblock hrest
      obtain ⟨_, e, he, hm⟩ := h.place hs hi htype hx (Nat.le_trans hlater hroom)
      have hmaps := bmap_spec hs hi htype he
      have hself : Function.update v i x.din i = x.din := by rw [Function.update_self]
      have hpos := chunk_pos off (mt List.length_eq_zero_iff.mp hne)
      have hle := chunk_le off p.length
      have hin := hmaps.sound.inUse (p := .data (off / bSize)) hi
        (by rw [hself, hmaps.found]; exact hmaps.pos)
      rw [hself, hmaps.found] at hin
      obtain ⟨hblock, hused⟩ := hm.of_used hin
      have hmod : off - off / bSize * bSize = off % bSize := by
        have := Nat.div_add_mod' off bSize
        omega
      have hsame : x.image.disk x.addr = e x.addr := hm.same _ hblock
      simp only [Image.portion_eq_chunk, hmod, hsame] at hrest
      obtain ⟨hsound, _⟩ := hmaps.store p hi
      obtain ⟨f, hf, hm'⟩ := ih (p.length - chunk off p.length) (by omega)
        (hm.update hin.1 hused) hsound
        (by rw [hself, hmaps.alike.type]; exact htype) (by rw [hself]; exact hrest)
        List.length_drop
      rw [hself] at hf
      rw [dif_neg hne, he]
      exact ⟨f, hf, hm'⟩

/-- The assertion of the loop keeps a file within the largest size. -/
theorem appendLoop_range (h : im.appendLoop din off p = some (din', im')) (hne : p ≠ []) :
    off + p.length ≤ maxFile * bSize := by
  generalize hlen : p.length = n
  induction n using Nat.strong_induction_on generalizing im din off p with
  | _ n ih =>
    rw [Image.appendLoop, dif_neg hne] at h
    obtain ⟨x, hx, hrest⟩ := Option.bind_eq_some_iff.mp h
    have hpos := chunk_pos off (mt List.length_eq_zero_iff.mp hne)
    have hle := chunk_le off p.length
    have hdrop : (p.drop (Image.portion off p.length)).length = p.length - chunk off p.length := by
      rw [List.length_drop, Image.portion_eq_chunk]
    by_cases hmore : p.drop (Image.portion off p.length) = []
    · have hfbn : off / bSize < maxFile := by
        rw [Image.place] at hx
        split at hx
        · cases hx
        · next hmax => exact Nat.not_le.mp hmax
      have hzero : p.length - chunk off p.length = 0 := by rw [← hdrop, hmore]; rfl
      have hin := chunk_inside off p.length
      have hsplit := Nat.div_add_mod' off bSize
      have hlast : (off / bSize + 1) * bSize ≤ maxFile * bSize := Nat.mul_le_mul_right _ hfbn
      rw [Nat.add_one_mul] at hlast
      omega
    · have := ih (p.length - chunk off p.length) (by omega) hrest hmore hdrop
      rw [Image.portion_eq_chunk] at this
      omega

/-! ## The image so far -/

/-- An inode has this type, one link if it is in use, and these bytes, in no more blocks than
they need and with zeroes behind them. -/
structure Shows (d : Disk Block) (i t : Nat) (data : List UInt8) : Prop where
  type : (mkfsSuperblock.dinode d i).type = t
  nlink : (mkfsSuperblock.dinode d i).nlink = if t = 0 then 0 else 1
  size : (mkfsSuperblock.dinode d i).size = data.length
  bytes : readBytes (fileByte d (mkfsSuperblock.dinode d i)) 0 data.length = data
  tight : ∀ bn, lookup d (mkfsSuperblock.dinode d i) (.data bn) ≠ 0 → bn * bSize < data.length
  beyond : ∀ pos, data.length ≤ pos → fileByte d (mkfsSuperblock.dinode d i) pos = 0

/-- The image has the inodes that the functions name. -/
structure Built (im : Image) (d : Disk Block) (types : Nat → Nat) (files : Nat → List UInt8) :
    Prop where
  mirrors : Mirrors im d
  sound : Sound mkfsSuperblock d (mkfsSuperblock.dinode d)
  shows : ∀ i, i < 200 → Shows d i (types i) (files i)
  unused : ∀ i, im.freeinode ≤ i → types i = 0 ∧ files i = []

variable {types : Nat → Nat} {files : Nat → List UInt8} {t : Nat}

/-- A file is shown as before where its inode, its places and its bytes are. -/
theorem Shows.congr {data : List UInt8} (h : Shows d i t data)
    (hinode : mkfsSuperblock.dinode e i = mkfsSuperblock.dinode d i)
    (hlookup : ∀ bn, lookup e (mkfsSuperblock.dinode d i) (.data bn) =
      lookup d (mkfsSuperblock.dinode d i) (.data bn))
    (hbytes : fileByte e (mkfsSuperblock.dinode d i) = fileByte d (mkfsSuperblock.dinode d i)) :
    Shows e i t data := by
  refine ⟨by rw [hinode]; exact h.type, by rw [hinode]; exact h.nlink,
    by rw [hinode]; exact h.size, by rw [hinode, hbytes]; exact h.bytes, fun bn hbn => ?_,
    by rw [hinode, hbytes]; exact h.beyond⟩
  rw [hinode, hlookup] at hbn
  exact h.tight bn hbn

theorem Built.ialloc (h : Built im d types files) (hroom : im.freeinode < 200) (htype : t ≠ 0)
    (hshort : t < 2 ^ 16) :
    ∃ e, Built (im.ialloc t) e (Function.update types im.freeinode t) files := by
  obtain ⟨hfree, hnone⟩ := h.unused im.freeinode (Nat.le_refl _)
  have hold := h.shows im.freeinode hroom
  rw [hfree, hnone] at hold
  have hsound : Sound mkfsSuperblock d (Function.update (mkfsSuperblock.dinode d) im.freeinode
      { Dinode.zero with type := t, nlink := 1 }) :=
    h.sound.setInode (funext fun k => (h.sound.free _ hroom hold.type k).symm)
      ⟨hshort, Nat.two_pow_pos 16, Nat.two_pow_pos 16, Nat.one_lt_two_pow (by decide),
        Nat.two_pow_pos 32,
        fun _ => Nat.two_pow_pos 32⟩ (Nat.zero_le _)
      (fun bn hbn => absurd hbn (Nat.not_lt_zero _)) fun hz => absurd hz htype
  obtain ⟨hchanges, _⟩ := Changes.of_putDinode hsound hroom (fun _ _ _ => rfl) fun _ _ _ => rfl
  refine ⟨_, ?_, hchanges.sound, fun i hi => ?_, fun i hi => ?_⟩
  · have : Mirrors (im.winode im.freeinode { Dinode.zero with type := t, nlink := 1 }) _ :=
      h.mirrors.winode hroom
    exact ⟨this.same, this.marks, this.fresh, this.low⟩
  · by_cases heq : i = im.freeinode
    · subst heq
      rw [Function.update_self, hnone]
      have hself := hchanges.self
      refine ⟨by rw [hself], by rw [hself, if_neg htype], by rw [hself]; rfl, rfl,
        fun bn hbn => absurd ?_ hbn, fun pos _ => ?_⟩
      · rw [hself]
        exact lookup_of_zero fun _ => rfl
      · rw [hself]
        exact if_pos (lookup_of_zero fun _ => rfl)
    · rw [Function.update_of_ne heq]
      obtain ⟨hinode, hbytes⟩ := hchanges.others i hi heq
      have hkept := ((h.sound.putDinode { Dinode.zero with type := t, nlink := 1 } hroom).2 i hi).1
      exact (h.shows i hi).congr hinode (fun bn => hkept _) hbytes
  · have hne : i ≠ im.freeinode := fun heq => Nat.lt_irrefl _ (heq ▸ hi)
    rw [Function.update_of_ne hne]
    exact h.unused i (Nat.le_of_succ_le hi)

theorem readBytes_append {m : Memory} {old new : List UInt8}
    (h : readBytes m 0 old.length = old) :
    readBytes (Store.apply ⟨old.length, new⟩ m) 0 (old ++ new).length = old ++ new := by
  rw [List.length_append, readBytes_add, Store.readBytes_apply_disjoint _ _ (.inl (by simp)), h,
    Nat.zero_add, Store.readBytes_apply_self]

theorem place_freeinode (h : im.place din fbn = some x) : x.image.freeinode = im.freeinode := by
  rw [Image.place] at h
  split at h
  · cases h
  · split at h
    · obtain rfl := Option.some.inj h
      rw [Image.placeAddr]
      split <;> rfl
    · obtain rfl := Option.some.inj h
      rw [Image.placeEntry, Image.placeAddr]
      split <;> split <;> rfl

theorem appendLoop_freeinode (h : im.appendLoop din off p = some (din', im')) :
    im'.freeinode = im.freeinode := by
  generalize hlen : p.length = n
  induction n using Nat.strong_induction_on generalizing im din off p with
  | _ n ih =>
    rw [Image.appendLoop] at h
    split at h
    · obtain ⟨rfl, rfl⟩ := Prod.mk.inj (Option.some.inj h)
      rfl
    · next hne =>
      obtain ⟨x, hx, hrest⟩ := Option.bind_eq_some_iff.mp h
      have hpos := chunk_pos off (mt List.length_eq_zero_iff.mp hne)
      have hle := chunk_le off p.length
      have hnext := ih (p.length - chunk off p.length) (by omega) hrest
        (by rw [List.length_drop, Image.portion_eq_chunk])
      exact hnext.trans (place_freeinode hx)

/-- `iappend` appends, and changes no other file. -/
theorem Built.iappend (h : Built im d types files) (hi : i < 200) (htype : types i ≠ 0)
    (hne : p ≠ []) (happend : im.iappend i p = some im') (hroom : im'.freeblock ≤ 1000) :
    (∃ e, Built im' e types (Function.update files i (files i ++ p))) ∧
      im'.freeinode = im.freeinode := by
  rw [Image.iappend] at happend
  obtain ⟨⟨ip, im1⟩, hloop, rfl⟩ := Option.map_eq_some_iff.mp happend
  have hshows := h.shows i hi
  rw [h.mirrors.dinode_eq hi] at hloop ⊢
  have htype' : (mkfsSuperblock.dinode d i).type ≠ 0 := by rwa [hshows.type]
  obtain ⟨e, hwrite, hm⟩ := h.mirrors.appendLoop h.sound hi htype' hloop hroom
  have hmax := appendLoop_range hloop hne
  have hpos : 0 < p.length := List.length_pos_iff.mpr hne
  have hwritten := writeLoop_spec h.sound hi htype' hwrite
  have hgrow : grow mkfsSuperblock e i ip ((mkfsSuperblock.dinode d i).size + p.length) p.length =
      ⟨p.length, { ip with size := (mkfsSuperblock.dinode d i).size + p.length },
        mkfsSuperblock.putDinode e i
          { ip with size := (mkfsSuperblock.dinode d i).size + p.length }⟩ :=
    if_pos ⟨hpos, by rw [hwritten.alike.size]; omega⟩
  obtain ⟨hchanges, hbytes, halike, _⟩ :=
    hwritten.grow hi htype' (Nat.le_refl _) hmax hgrow
  simp only at hchanges hbytes halike
  have hlen : (mkfsSuperblock.dinode d i).size = (files i).length := hshows.size
  refine ⟨⟨_, ⟨?_, hchanges.sound, fun j hj => ?_, fun j hj => ?_⟩⟩, ?_⟩
  · exact hm.winode hi
  · by_cases hji : j = i
    · subst hji
      rw [Function.update_self]
      have hself := hchanges.self
      refine ⟨?_, ?_, ?_, ?_, fun bn hbn => ?_, fun pos hbeyond => ?_⟩
      · rw [hself]
        exact halike.type.trans hshows.type
      · rw [hself]
        exact halike.nlink.trans hshows.nlink
      · rw [hself, List.length_append, hlen]
      · rw [hself, hbytes, hlen]
        exact readBytes_append hshows.bytes
      · rw [hself] at hbn
        have hold : lookup e ip (.data bn) ≠ 0 := by
          have hkept := (hwritten.sound.putDinode
            { ip with size := (mkfsSuperblock.dinode d j).size + p.length } hi).2 j hi
          rw [Function.update_self] at hkept
          rwa [← hkept.1]
        rw [List.length_append]
        rcases hwritten.only bn hold with hthere | ⟨pos, _, hhigh, rfl⟩
        · exact Nat.lt_add_right _ (hshows.tight bn hthere)
        · rw [hlen] at hhigh
          exact Nat.lt_of_le_of_lt (Nat.div_mul_le_self pos bSize) hhigh
      · rw [List.length_append] at hbeyond
        rw [hself, hbytes, hlen, Store.apply_of_stop_le _ _ hbeyond]
        exact hshows.beyond pos (Nat.le_trans (Nat.le_add_right _ _) hbeyond)
    · rw [Function.update_of_ne hji]
      obtain ⟨hinode, hsame⟩ := hchanges.others j hj hji
      refine (h.shows j hj).congr hinode (fun bn => ?_) hsame
      have hkept := (hwritten.sound.putDinode
        { ip with size := (mkfsSuperblock.dinode d i).size + p.length } hi).2 j hj
      rw [Function.update_of_ne hji] at hkept
      rw [hkept.1, hwritten.apart j hj hji]
  · have hji : j ≠ i := by
      rintro rfl
      have hj' : im.freeinode ≤ j := by
        rw [← appendLoop_freeinode hloop]
        exact hj
      exact htype (h.unused j hj').1
    rw [Function.update_of_ne hji]
    refine h.unused j ?_
    rw [← appendLoop_freeinode hloop]
    exact hj
  · change im1.freeinode = im.freeinode
    exact appendLoop_freeinode hloop

end OSProjects.Storage
