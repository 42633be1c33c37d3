import OSProjects.Storage.BlockOwnership

/-!
# What the functions of an inode do to the files

`bmap` fills empty places and changes no byte of any file. The loop of `writei` stores its bytes
in one file and changes no other; the loop of `readi` finds all blocks in place. Truncation frees
the blocks of one inode, each of which is in use.
-/

namespace OSProjects.Storage

open ByteMemory RedoLog Xv6

variable {sb : Superblock} {d e : Disk Block} {v : Nat → Dinode} {ip : Dinode}
  {i j b c bn off n : Nat} {pl : Place} {m q : Mapped} {x : Block} {src : List UInt8}

section Results

variable {ε α β : Type*} {y : Except ε α}

theorem ok_bind {f : α → Except ε β} (a : α) : (Except.ok a : Except ε α).bind f = f a := rfl

theorem bind_ok {f : α → Except ε β} {r : β} (h : y.bind f = .ok r) :
    ∃ a, y = .ok a ∧ f a = .ok r := by
  cases y with
  | error => cases h
  | ok a => exact ⟨a, rfl, h⟩

theorem map_ok {f : α → β} {r : β} (h : y.map f = .ok r) : ∃ a, y = .ok a ∧ f a = r := by
  cases y with
  | error => cases h
  | ok a => exact ⟨a, rfl, Except.ok.inj h⟩

theorem bind_error {f : α → Except ε β} {p : ε} (h : y.bind f = .error p) :
    y = .error p ∨ ∃ a, y = .ok a ∧ f a = .error p := by
  cases y with
  | error => exact .inl (by rw [show _ = p from Except.error.inj h])
  | ok a => exact .inr ⟨a, rfl, h⟩

theorem map_error {f : α → β} {p : ε} (h : y.map f = .error p) : y = .error p := by
  cases y with
  | error => rw [show _ = p from Except.error.inj h]
  | ok a => cases h

end Results

/-! ## The block map -/

/-- What a lookup with allocation leaves: the place has the block, and no file has changed. -/
structure Maps (sb : Superblock) (d : Disk Block) (v : Nat → Dinode) (i : Nat) (pl : Place)
    (m : Mapped) : Prop where
  sound : Sound sb m.disk (Function.update v i m.ip)
  found : lookup m.disk m.ip pl = m.addr
  pos : m.addr ≠ 0
  alike : (v i).Alike m.ip
  keeps : ∀ pk, lookup d (v i) pk ≠ 0 → lookup m.disk m.ip pk ≠ 0
  only : ∀ pk, lookup m.disk m.ip pk ≠ 0 → lookup d (v i) pk ≠ 0 ∨ pk = pl ∨ pk = .indirect
  apart : ∀ j, j < sb.ninodes → j ≠ i → ∀ pk, lookup m.disk (v j) pk = lookup d (v j) pk
  bytes : ∀ j, j < sb.ninodes → ∀ p,
    fileByte m.disk (Function.update v i m.ip j) p = fileByte d (v j) p
  inodes : ∀ j, j < sb.ninodes → sb.dinode m.disk j = sb.dinode d j

theorem Maps.refl (hs : Sound sb d v) (hne : lookup d (v i) pl ≠ 0) :
    Maps sb d v i pl ⟨lookup d (v i) pl, v i, d⟩ := by
  refine ⟨?_, rfl, hne, .refl _, fun _ => id, fun _ => .inl, fun _ _ _ _ => rfl,
    fun j _ p => ?_, fun _ _ => rfl⟩
  · rw [Function.update_eq_self]
    exact hs
  · rw [Function.update_eq_self]

theorem Fills.maps {iq : Dinode} (h : Fills sb d v i pl b e iq) (hs : Sound sb d v)
    (hi : i < sb.ninodes) (htype : (v i).type ≠ 0) : Maps sb d v i pl ⟨b, iq, e⟩ := by
  refine ⟨h.sound hs hi htype, h.self, h.data.pos, h.alike, fun pk hne => ?_, fun pk hne => ?_,
    h.rest, fun j hj p => h.bytes hj p, h.inodes⟩
  · have hsame := h.lookup_of_ne hi hne
    rw [Function.update_self] at hsame
    rwa [hsame]
  · by_cases hpk : pk = pl
    · exact .inr (.inl hpk)
    · exact .inl (by rwa [← h.other pk hpk])

/-- One lookup after another. -/
theorem Maps.trans (h : Maps sb d v i .indirect m)
    (h' : Maps sb m.disk (Function.update v i m.ip) i pl q) : Maps sb d v i pl q := by
  have hi : Function.update v i m.ip i = m.ip := Function.update_self i m.ip v
  refine ⟨?_, h'.found, h'.pos, ?_, fun pk hne => ?_, fun pk hne => ?_,
    fun j hj hji pk => ?_, fun j hj p => ?_, fun j hj => ?_⟩
  · have := h'.sound
    rwa [Function.update_idem] at this
  · have := h'.alike
    rw [hi] at this
    exact h.alike.trans this
  · refine h'.keeps pk ?_
    rw [hi]
    exact h.keeps pk hne
  · rcases h'.only pk hne with hold | hnew
    · rw [hi] at hold
      exact (h.only pk hold).imp_right fun heq => .inr (heq.elim id id)
    · exact .inr hnew
  · have := h'.apart j hj hji pk
    rw [Function.update_of_ne hji] at this
    rw [this, h.apart j hj hji pk]
  · have := h'.bytes j hj p
    rw [Function.update_idem] at this
    rw [this, h.bytes j hj p]
  · rw [h'.inodes j hj, h.inodes j hj]

theorem mapAddr_spec {k : Fin (nDirect + 1)} (hs : Sound sb d v) (hi : i < sb.ninodes)
    (htype : (v i).type ≠ 0) (h : mapAddr sb d (v i) k = .ok m) :
    Maps sb d v i (.addr k) m := by
  rw [mapAddr] at h
  split at h
  · next hzero =>
    obtain ⟨r, hr, rfl⟩ := map_ok h
    exact ((hs.balloc hr).fills_addr hs hi hzero).maps hs hi htype
  · next hne =>
    obtain rfl := Except.ok.inj h
    rw [← lookup_addr (d := d)] at hne ⊢
    exact .refl hs hne

theorem mapEntry_spec (hs : Sound sb m.disk v) (hi : i < sb.ninodes) (htype : (v i).type ≠ 0)
    (hip : m.ip = v i) (haddr : m.addr = (v i).indirect) (hpos : m.addr ≠ 0) (hj : j < nIndirect)
    (h : mapEntry sb m j = .ok q) : Maps sb m.disk v i (.entry j) q := by
  rw [mapEntry, haddr, hip] at h
  rw [haddr] at hpos
  split at h
  · next hzero =>
    obtain ⟨r, hr, rfl⟩ := map_ok h
    exact ((hs.balloc hr).fills_entry hs hi hpos hj hzero).maps hs hi htype
  · next hne =>
    obtain rfl := Except.ok.inj h
    rw [← lookup_entry hj hpos] at hne ⊢
    exact .refl hs hne

/-- The last address is that of the indirect block. -/
theorem lastAddr : Place.addr (Fin.last nDirect) = .indirect := if_neg (Nat.lt_irrefl nDirect)

theorem bmap_spec (hs : Sound sb d v) (hi : i < sb.ninodes) (htype : (v i).type ≠ 0)
    (h : bmap sb d (v i) bn = .ok m) : Maps sb d v i (.data bn) m := by
  rw [bmap] at h
  split at h
  · next hbn =>
    have hplace : Place.data bn = .addr ⟨bn, Nat.lt_succ_of_lt hbn⟩ := by
      rw [Place.data, Place.addr, if_pos hbn, if_pos hbn]
    rw [hplace]
    exact mapAddr_spec hs hi htype h
  · next hbn =>
    split at h
    · next hj =>
      obtain ⟨a, ha, hq⟩ := bind_ok h
      have hmaps := mapAddr_spec hs hi htype ha
      have hip : a.ip = Function.update v i a.ip i := (Function.update_self i a.ip v).symm
      have haddr : a.addr = (Function.update v i a.ip i).indirect := by
        rw [Function.update_self]
        exact hmaps.found.symm
      have htype' : (Function.update v i a.ip i).type ≠ 0 := by
        rw [Function.update_self, hmaps.alike.type]
        exact htype
      rw [lastAddr] at hmaps
      rw [Place.data, if_neg hbn]
      exact hmaps.trans (mapEntry_spec hmaps.sound hi htype' hip haddr hmaps.pos hj hq)
    · cases h

/-- A block that is there is found, and nothing changes. -/
theorem bmap_of_lookup (hne : lookup d ip (.data bn) ≠ 0) :
    bmap sb d ip bn = .ok ⟨lookup d ip (.data bn), ip, d⟩ := by
  rw [Place.data] at hne ⊢
  rw [bmap]
  split
  · next hbn =>
    rw [if_pos hbn] at hne
    rw [lookup_direct hbn] at hne ⊢
    rw [mapAddr, if_neg hne]
  · next hbn =>
    rw [if_neg hbn] at hne
    have hboth : bn - nDirect < nIndirect ∧ ip.indirect ≠ 0 := by
      by_contra hnot
      exact hne (if_neg hnot)
    rw [lookup_entry hboth.1 hboth.2] at hne ⊢
    rw [if_pos hboth.1, mapAddr, if_neg (show ip.addrs (Fin.last nDirect) ≠ 0 from hboth.2)]
    rw [ok_bind, mapEntry]
    exact if_neg hne

theorem balloc_error {p : FsPanic} (h : balloc sb d = .error p) : p = .outOfBlocks := by
  rw [balloc] at h
  split at h
  · cases h
  · exact (Except.error.inj h).symm

theorem mapAddr_error {k : Fin (nDirect + 1)} {p : FsPanic}
    (h : mapAddr sb d ip k = .error p) : p = .outOfBlocks := by
  rw [mapAddr] at h
  split at h
  · exact balloc_error (map_error h)
  · cases h

/-- Within a file of the largest size `bmap` panics only for want of blocks. -/
theorem bmap_error {p : FsPanic} (hbn : bn < maxFile) (h : bmap sb d ip bn = .error p) :
    p = .outOfBlocks := by
  rw [bmap] at h
  split at h
  · exact mapAddr_error h
  · next hdirect =>
    have hin : bn - nDirect < nIndirect := by
      have hlow : ¬ bn < 12 := hdirect
      have hhigh : bn < 140 := hbn
      change bn - 12 < 128
      omega
    rw [if_pos hin] at h
    rcases bind_error h with h | ⟨a, _, h⟩
    · exact mapAddr_error h
    · rw [mapEntry] at h
      split at h
      · exact balloc_error (map_error h)
      · cases h

/-! ## Chunks -/

theorem chunk_le (off n : Nat) : chunk off n ≤ n := Nat.min_le_left _ _

/-- The bytes of a chunk lie in one block. -/
theorem chunk_inside (off n : Nat) : off % bSize + chunk off n ≤ bSize := by
  have : off % 512 < 512 := Nat.mod_lt off (by decide)
  change off % 512 + min n (512 - off % 512) ≤ 512
  omega

theorem chunk_block {k : Nat} (hk : k < chunk off n) :
    (off + k) / bSize = off / bSize ∧ (off + k) % bSize = off % bSize + k := by
  have hin := chunk_inside off n
  change off % 512 + chunk off n ≤ 512 at hin
  change (off + k) / 512 = off / 512 ∧ (off + k) % 512 = off % 512 + k
  omega

theorem readBytes_shift {mem mem' : Memory} {a a' : Nat}
    (h : ∀ k, k < n → mem (a + k) = mem' (a' + k)) : readBytes mem a n = readBytes mem' a' n := by
  refine List.ext_getElem? fun k => ?_
  by_cases hk : k < n
  · rw [getElem?_readBytes _ hk, getElem?_readBytes _ hk, h k hk]
  · rw [List.getElem?_eq_none (by rw [length_readBytes]; omega),
      List.getElem?_eq_none (by rw [length_readBytes]; omega)]

/-! ## The loop of readi -/

/-- The bytes of a chunk come from its block. -/
theorem readBytes_chunk (hne : lookup d ip (.data (off / bSize)) ≠ 0) :
    readBytes (d (lookup d ip (.data (off / bSize)))).toMemory (off % bSize) (chunk off n) =
      readBytes (fileByte d ip) off (chunk off n) := by
  refine readBytes_shift fun k hk => ?_
  obtain ⟨hdiv, hmod⟩ := chunk_block hk
  have hlt : off % bSize + k < bSize := Nat.lt_of_lt_of_le (Nat.add_lt_add_left hk _)
    (chunk_inside off n)
  rw [Block.toMemory_of_lt _ hlt, fileByte, hdiv, if_neg hne]
  congr 1
  exact Fin.ext hmod.symm

/-- Where all blocks are in place the loop reads the bytes of the file and changes nothing. -/
theorem readLoop_spec
    (hblocks : ∀ pos, off ≤ pos → pos < off + n → lookup d ip (.data (pos / bSize)) ≠ 0) :
    readLoop sb d ip off n = .ok (readBytes (fileByte d ip) off n, ip, d) := by
  induction n using Nat.strong_induction_on generalizing off with
  | _ n ih =>
    rw [readLoop]
    split
    · next hzero =>
      subst hzero
      rfl
    · next hn =>
      have hpos := chunk_pos off hn
      have hle := chunk_le off n
      have hfirst := hblocks off (Nat.le_refl _) (by omega)
      have hrest : readLoop sb d ip (off + chunk off n) (n - chunk off n) = .ok
          (readBytes (fileByte d ip) (off + chunk off n) (n - chunk off n), ip, d) :=
        ih (n - chunk off n) (by omega) fun pos hlow hhigh => hblocks pos (by omega) (by omega)
      rw [bmap_of_lookup hfirst]
      simp only [Except.bind, hrest, Except.map]
      rw [readBytes_chunk hfirst, ← readBytes_add, Nat.add_sub_cancel' hle]

/-! ## The loop of writei -/

/-- A store to a data block of one file. -/
theorem Sound.lookup_store {p : Place} (hs : Sound sb d v) (hi : i < sb.ninodes)
    (hne : lookup d (v i) (.data bn) ≠ 0) (hj : j < sb.ninodes) :
    lookup (Function.update d (lookup d (v i) (.data bn)) x) (v j) p = lookup d (v j) p :=
  lookup_congr rfl fun _ => Function.update_of_ne (hs.indirect_ne_data hi hj hne) x d

theorem Sound.store (hs : Sound sb d v) (hi : i < sb.ninodes)
    (hne : lookup d (v i) (.data bn) ≠ 0) :
    Sound sb (Function.update d (lookup d (v i) (.data bn)) x) v where
  exact := by
    have hdata := (hs.inUse hi hne).1
    refine hs.exact.congr (fun c => ?_) fun y => ?_
    · exact and_congr_right fun hc => by rw [Superblock.marked_update hdata hc.2]
    · by_cases hlt : y.1 < sb.ninodes
      · exact slot_congr (hs.lookup_store hi hne hlt)
      · rw [slot, slot, if_neg fun hboth => hlt hboth.1, if_neg fun hboth => hlt hboth.1]
  meta_marked := fun c hc hmeta => by
    rw [Superblock.marked_update (hs.inUse hi hne).1 hc, hs.meta_marked c hc hmeta]
  fits := hs.fits
  size := hs.size
  dense := fun j hj k hk => by
    rw [hs.lookup_store hi hne hj]
    exact hs.dense j hj k hk
  free := hs.free

theorem Sound.fileByte_store (hs : Sound sb d v) (hi : i < sb.ninodes)
    (hne : lookup d (v i) (.data bn) ≠ 0) (hj : j < sb.ninodes) (pos : Nat) :
    fileByte (Function.update d (lookup d (v i) (.data bn)) x) (v j) pos =
      if j = i ∧ pos / bSize = bn then x ⟨pos % bSize, Nat.mod_lt _ (by decide)⟩
      else fileByte d (v j) pos := by
  rw [fileByte, hs.lookup_store hi hne hj]
  split
  · next hzero =>
    rw [if_neg, fileByte, if_pos hzero]
    rintro ⟨rfl, rfl⟩
    exact hne hzero
  · next hbyte =>
    split
    · next hboth =>
      obtain ⟨rfl, rfl⟩ := hboth
      rw [Function.update_self]
    · next hother =>
      have hapart : lookup d (v j) (.data (pos / bSize)) ≠ lookup d (v i) (.data bn) := by
        intro heq
        obtain ⟨hji, hpl⟩ := hs.place_unique hi hj hne heq
        exact hother ⟨hji, Place.data_injective hpl⟩
      rw [Function.update_of_ne hapart, fileByte, if_neg hbyte]

/-- The block after a chunk has been copied into it. -/
def chunkBlock (m : Mapped) (off : Nat) (src : List UInt8) : Block :=
  Block.ofMemory (Store.apply ⟨off % bSize, src.take (chunk off src.length)⟩
    (m.disk m.addr).toMemory)

/-- A chunk is stored in its file and changes no other. -/
theorem Maps.store (src : List UInt8) (hm : Maps sb d v i (.data (off / bSize)) m) (hi : i < sb.ninodes) :
    Sound sb (Function.update m.disk m.addr (chunkBlock m off src)) (Function.update v i m.ip) ∧
      fileByte (Function.update m.disk m.addr (chunkBlock m off src)) m.ip =
        Store.apply ⟨off, src.take (chunk off src.length)⟩ (fileByte d (v i)) ∧
      ∀ j, j < sb.ninodes → j ≠ i →
        fileByte (Function.update m.disk m.addr (chunkBlock m off src)) (v j) =
          fileByte d (v j) := by
  have hself : Function.update v i m.ip i = m.ip := Function.update_self i m.ip v
  have haddr : lookup m.disk (Function.update v i m.ip i) (.data (off / bSize)) = m.addr := by
    rw [hself, hm.found]
  have hne : lookup m.disk (Function.update v i m.ip i) (.data (off / bSize)) ≠ 0 := by
    rw [haddr]
    exact hm.pos
  have hsound := hm.sound.store (x := chunkBlock m off src) hi hne
  have hbyte := fun j hj => hm.sound.fileByte_store (x := chunkBlock m off src) (j := j) hi hne hj
  rw [haddr] at hsound hbyte
  refine ⟨hsound, funext fun pos => ?_, fun j hj hji => funext fun pos => ?_⟩
  · have hold := hm.bytes i hi pos
    rw [hself] at hold
    have hthere := hbyte i hi pos
    rw [hself] at hthere
    rw [hthere]
    have hlen : (src.take (chunk off src.length)).length = chunk off src.length := by
      rw [List.length_take]
      exact Nat.min_eq_left (chunk_le off _)
    by_cases hin : off ≤ pos ∧ pos < off + chunk off src.length
    · obtain ⟨k, rfl⟩ := Nat.exists_eq_add_of_le hin.1
      have hk : k < chunk off src.length := by omega
      obtain ⟨hdiv, hmod⟩ := chunk_block hk
      rw [if_pos ⟨rfl, hdiv⟩, chunkBlock, Block.ofMemory, Store.apply_at _ _ (by rw [hlen]; exact hk)]
      simp only [hmod]
      exact Store.apply_at _ _ (by rw [hlen]; exact hk)
    · have hout : Store.apply ⟨off, src.take (chunk off src.length)⟩ (fileByte d (v i)) pos =
          fileByte d (v i) pos := by
        rcases Nat.lt_or_ge pos off with hlt | hge
        · exact Store.apply_of_lt _ _ hlt
        · refine Store.apply_of_stop_le _ _ ?_
          rw [Store.stop, hlen]
          exact Nat.not_lt.mp fun hlt => hin ⟨hge, hlt⟩
      rw [hout]
      split
      · next hboth =>
        have hmod : pos % bSize < bSize := Nat.mod_lt _ (by decide)
        have hsame : chunkBlock m off src ⟨pos % bSize, hmod⟩ =
            m.disk m.addr ⟨pos % bSize, hmod⟩ := by
          rw [chunkBlock, Block.ofMemory]
          have hpos : pos = pos / bSize * bSize + pos % bSize := (Nat.div_add_mod' pos bSize).symm
          have hoff : off = off / bSize * bSize + off % bSize := (Nat.div_add_mod' off bSize).symm
          rw [hboth.2] at hpos
          rcases Nat.lt_or_ge pos off with hlt | hge
          · rw [Store.apply_of_lt _ _ (show pos % bSize < off % bSize by omega),
              Block.toMemory_of_lt _ hmod]
          · rw [Store.apply_of_stop_le _ _ (by rw [Store.stop, hlen]; simp only; omega),
              Block.toMemory_of_lt _ hmod]
        rw [hsame, ← hold, fileByte, hboth.2, if_neg (by rw [hm.found]; exact hm.pos), hm.found]
      · exact hold
  · have hthere := hbyte j hj pos
    have hold := hm.bytes j hj pos
    rw [Function.update_of_ne hji] at hthere hold
    rw [hthere, if_neg fun hboth => hji hboth.1, hold]

/-- What the loop of `writei` leaves. -/
structure Written (sb : Superblock) (d : Disk Block) (v : Nat → Dinode) (i off : Nat)
    (src : List UInt8) (ip : Dinode) (e : Disk Block) : Prop where
  sound : Sound sb e (Function.update v i ip)
  alike : (v i).Alike ip
  here : fileByte e ip = Store.apply ⟨off, src⟩ (fileByte d (v i))
  others : ∀ j, j < sb.ninodes → j ≠ i → fileByte e (v j) = fileByte d (v j)
  inodes : ∀ j, j < sb.ninodes → sb.dinode e j = sb.dinode d j
  keeps : ∀ pl, lookup d (v i) pl ≠ 0 → lookup e ip pl ≠ 0
  blocks : ∀ pos, off ≤ pos → pos < off + src.length → lookup e ip (.data (pos / bSize)) ≠ 0
  only : ∀ bn, lookup e ip (.data bn) ≠ 0 → lookup d (v i) (.data bn) ≠ 0 ∨
    ∃ pos, off ≤ pos ∧ pos < off + src.length ∧ pos / bSize = bn
  apart : ∀ j, j < sb.ninodes → j ≠ i → ∀ pl, lookup e (v j) pl = lookup d (v j) pl
  within : off + src.length ≤ (v i).size → ip = v i

theorem writeLoop_spec (hs : Sound sb d v) (hi : i < sb.ninodes) (htype : (v i).type ≠ 0)
    (h : writeLoop sb d (v i) off src = .ok (ip, e)) : Written sb d v i off src ip e := by
  generalize hlen : src.length = n
  induction n using Nat.strong_induction_on generalizing d v off src with
  | _ n ih =>
    rw [writeLoop] at h
    split at h
    · next hnil =>
      obtain ⟨rfl, rfl⟩ := Prod.mk.inj (Except.ok.inj h)
      subst hnil
      refine ⟨?_, .refl _, (Store.apply_nil off _).symm, fun _ _ _ => rfl, fun _ _ => rfl,
        fun _ => id, fun pos hlow hhigh => absurd hhigh (Nat.not_lt.mpr hlow), fun _ => .inl,
        fun _ _ _ _ => rfl, fun _ => rfl⟩
      rw [Function.update_eq_self]
      exact hs
    · next hne =>
      obtain ⟨m, hm, hrest⟩ := bind_ok h
      have hmaps := bmap_spec hs hi htype hm
      have hself : Function.update v i m.ip i = m.ip := Function.update_self i m.ip v
      have hpos := chunk_pos off (mt List.length_eq_zero_iff.mp hne)
      have hle := chunk_le off src.length
      obtain ⟨hsound, hhere, hothers⟩ := hmaps.store src hi
      have htype' : (Function.update v i m.ip i).type ≠ 0 := by
        rw [hself, hmaps.alike.type]
        exact htype
      have hdrop : (src.drop (chunk off src.length)).length = src.length - chunk off src.length :=
        List.length_drop
      have hnext := ih (src.length - chunk off src.length) (by omega) hsound htype'
        (by rw [hself]; exact hrest) hdrop
      have hdata : lookup (Function.update m.disk m.addr (chunkBlock m off src)) m.ip =
          lookup m.disk m.ip := by
        funext pl
        have hfound : lookup m.disk (Function.update v i m.ip i) (.data (off / bSize)) = m.addr := by
          rw [hself, hmaps.found]
        have := hmaps.sound.lookup_store (x := chunkBlock m off src) (p := pl) (j := i) hi
          (by rw [hfound]; exact hmaps.pos) hi
        rwa [hfound, hself] at this
      constructor
      · have := hnext.sound
        rwa [Function.update_idem] at this
      · have := hnext.alike
        rw [hself] at this
        exact hmaps.alike.trans this
      · have htake : (src.take (chunk off src.length)).length = chunk off src.length := by
          rw [List.length_take]
          exact Nat.min_eq_left hle
        have happend := Store.apply_append off (src.take (chunk off src.length))
          (src.drop (chunk off src.length)) (fileByte d (v i))
        rw [htake, List.take_append_drop] at happend
        rw [hnext.here, hself, hhere, happend]
      · intro j hj hji
        have := hnext.others j hj hji
        rw [Function.update_of_ne hji] at this
        rw [this, hothers j hj hji]
      · intro j hj
        have hin := hmaps.sound.inUse (p := .data (off / bSize)) hi
          (by rw [hself, hmaps.found]; exact hmaps.pos)
        rw [hself, hmaps.found] at hin
        rw [hnext.inodes j hj, Superblock.dinode_update hin.1 hj, hmaps.inodes j hj]
      · intro pl hpl
        refine hnext.keeps pl ?_
        rw [hself, hdata]
        exact hmaps.keeps pl hpl
      · intro pos hlow hhigh
        rcases Nat.lt_or_ge pos (off + chunk off src.length) with hlt | hge
        · obtain ⟨k, rfl⟩ := Nat.exists_eq_add_of_le hlow
          refine hnext.keeps _ ?_
          rw [hself, hdata, (chunk_block (show k < chunk off src.length by omega)).1, hmaps.found]
          exact hmaps.pos
        · exact hnext.blocks pos hge (by rw [hdrop]; omega)
      · intro bn hbn
        rcases hnext.only bn hbn with hold | ⟨pos, hlow, hhigh, hpos⟩
        · rw [hself, hdata] at hold
          rcases hmaps.only _ hold with hold | hnew | hnew
          · exact .inl hold
          · exact .inr ⟨off, Nat.le_refl _, by omega, (Place.data_injective hnew).symm⟩
          · exact absurd hnew Place.data_ne_indirect
        · rw [hdrop] at hhigh
          exact .inr ⟨pos, by omega, by omega, hpos⟩
      · intro j hj hji pl
        have hlater := hnext.apart j hj hji pl
        have hfound : lookup m.disk (Function.update v i m.ip i) (.data (off / bSize)) = m.addr := by
          rw [hself, hmaps.found]
        have hstore := hmaps.sound.lookup_store (x := chunkBlock m off src) (p := pl) (j := j) hi
          (by rw [hfound]; exact hmaps.pos) hj
        rw [hfound] at hstore
        rw [Function.update_of_ne hji] at hlater hstore
        rw [hlater, hstore, hmaps.apart j hj hji pl]
      · intro hsize
        have hpresent : lookup d (v i) (.data (off / bSize)) ≠ 0 := by
          refine hs.dense i hi _ ?_
          have hlow : off / bSize * bSize ≤ off := Nat.div_mul_le_self off bSize
          omega
        have hm' : bmap sb d (v i) (off / bSize) = _ := bmap_of_lookup hpresent
        obtain rfl : m = _ := Except.ok.inj (hm.symm.trans hm')
        have hlast := hnext.within (by rw [hdrop, hself]; simp only; omega)
        rw [hself] at hlast
        exact hlast

end OSProjects.Storage
