import OSProjects.Storage.BlockMap

/-!
# Truncation

`itrunc` and the end of `iput` free exactly the blocks of one inode. Each of them is marked when
its turn comes, as no block is at two places, so `bfree` does not panic.
-/

namespace OSProjects.Storage

open Allocation ByteMemory RedoLog Xv6

variable {sb : Superblock} {d e f : Disk Block} {v : Nat → Dinode} {ip : Dinode}
  {i j b c : Nat} {pl : Place} {bs : List Nat} {gone gone' : Nat → Prop}

/-! ## Blocks that are freed -/

/-- Some blocks have been freed, and nothing else has changed. -/
structure Freed (sb : Superblock) (d : Disk Block) (gone : Nat → Prop) (e : Disk Block) : Prop where
  marks : ∀ c, c < sb.size → (sb.marked e c = true ↔ sb.marked d c = true ∧ ¬ gone c)
  data : ∀ c, sb.Data c → e c = d c
  inodes : ∀ i, i < sb.ninodes → sb.dinode e i = sb.dinode d i

namespace Freed

theorem refl (d : Disk Block) : Freed sb d (fun _ => False) d :=
  ⟨fun _ _ => (and_iff_left not_false).symm, fun _ _ => rfl, fun _ _ => rfl⟩

theorem trans (h : Freed sb d gone e) (h' : Freed sb e gone' f) :
    Freed sb d (fun c => gone c ∨ gone' c) f where
  marks := fun c hc => by rw [h'.marks c hc, h.marks c hc, not_or, and_assoc]
  data := fun c hc => (h'.data c hc).trans (h.data c hc)
  inodes := fun i hi => (h'.inodes i hi).trans (h.inodes i hi)

theorem congr (h : Freed sb d gone e) (hsame : ∀ c, gone c ↔ gone' c) : Freed sb d gone' e :=
  ⟨fun c hc => by rw [h.marks c hc, hsame], h.data, h.inodes⟩

/-- Places are as before: their blocks are data blocks. -/
theorem lookup_eq (h : Freed sb d gone e) (hs : Sound sb d v) (hi : i < sb.ninodes) :
    lookup e (v i) pl = lookup d (v i) pl :=
  lookup_congr rfl fun hne => h.data _ (hs.indirect_inUse hi hne).1

theorem fileByte_eq (h : Freed sb d gone e) (hs : Sound sb d v) (hi : i < sb.ninodes) :
    fileByte e (v i) = fileByte d (v i) :=
  funext fun _ => fileByte_congr (h.lookup_eq hs hi) fun hne => h.data _ (hs.inUse hi hne).1

end Freed

theorem bfree_spec (hb : b < sb.size) (hmark : sb.marked d b = true) :
    ∃ e, bfree sb d b = .ok e ∧ Freed sb d (· = b) e := by
  refine ⟨sb.mark d b false, if_pos hmark, fun c _ => ?_, fun c hc => ?_, fun i hi => ?_⟩
  · rw [Superblock.marked_mark]
    split
    · next heq => exact ⟨fun h => (by cases h), fun h => absurd heq h.2⟩
    · next hne => exact (and_iff_left hne).symm
  · exact Superblock.mark_of_data hc hb
  · exact Superblock.dinode_mark hi

/-- Different blocks in use are freed one after another. -/
theorem bfreeAll_spec (sb : Superblock) (d : Disk Block) (bs : List Nat)
    (hmark : ∀ b ∈ bs, b ≠ 0 → b < sb.size ∧ sb.marked d b = true)
    (hapart : bs.Pairwise fun a b => a ≠ 0 → a ≠ b) :
    ∃ e, bfreeAll sb bs d = .ok e ∧ Freed sb d (fun c => c ≠ 0 ∧ c ∈ bs) e := by
  induction bs generalizing d with
  | nil => exact ⟨d, rfl, (Freed.refl d).congr fun c => by simp⟩
  | cons b bs ih =>
      obtain ⟨hfirst, hrest⟩ := List.pairwise_cons.mp hapart
      rw [bfreeAll]
      split
      · next hzero =>
        obtain ⟨e, he, hfreed⟩ := ih d (fun c hc => hmark c (List.mem_cons_of_mem b hc)) hrest
        refine ⟨e, he, hfreed.congr fun c => and_congr_right fun hc => ?_⟩
        rw [List.mem_cons]
        exact ⟨.inr, fun h => h.resolve_left fun heq => hc (heq.trans hzero)⟩
      · next hne =>
        obtain ⟨hlt, hmarked⟩ := hmark b List.mem_cons_self hne
        obtain ⟨e, he, hone⟩ := bfree_spec hlt hmarked
        obtain ⟨f, hf, hmore⟩ := ih e (fun c hc hc0 => by
          obtain ⟨hclt, hcm⟩ := hmark c (List.mem_cons_of_mem b hc) hc0
          exact ⟨hclt, (hone.marks c hclt).mpr ⟨hcm, fun heq => hfirst c hc hne heq.symm⟩⟩) hrest
        refine ⟨f, by rw [he]; exact hf, (hone.trans hmore).congr fun c => ?_⟩
        rw [List.mem_cons]
        constructor
        · rintro (rfl | ⟨hc, hin⟩)
          · exact ⟨hne, .inl rfl⟩
          · exact ⟨hc, .inr hin⟩
        · rintro ⟨hc, rfl | hin⟩
          · exact .inl rfl
          · exact .inr ⟨hc, hin⟩

/-! ## The blocks of an inode -/

/-- Some place of the inode has the block. -/
def Holds (d : Disk Block) (ip : Dinode) (c : Nat) : Prop := c ≠ 0 ∧ ∃ pl, lookup d ip pl = c

theorem Sound.holds_inUse (hs : Sound sb d v) (hi : i < sb.ninodes) (h : Holds d (v i) c) :
    sb.InUse d c := by
  obtain ⟨hne, pl, rfl⟩ := h
  exact hs.inUse hi hne

/-- `itrunc` before its `iupdate` does not panic and frees exactly the blocks of the inode. -/
theorem Sound.frees (hs : Sound sb d v) (hi : i < sb.ninodes) :
    ∃ e, Freed sb d (Holds d (v i)) e ∧
      itrunc sb d i (v i) = .ok ({ v i with size := 0, addrs := fun _ => 0 },
        sb.putDinode e i { v i with size := 0, addrs := fun _ => 0 }) := by
  have hplace : ∀ {p : Place}, lookup d (v i) p ≠ 0 →
      lookup d (v i) p < sb.size ∧ sb.marked d (lookup d (v i) p) = true := fun hne =>
    ⟨(hs.inUse hi hne).1.2, (hs.inUse hi hne).2⟩
  have hdirect : ∀ k : Fin nDirect, (v i).addrs k.castSucc = lookup d (v i) (.direct k) :=
    fun k => (lookup_direct k.isLt).symm
  -- The direct blocks.
  obtain ⟨e, he, hfirst⟩ := bfreeAll_spec sb d
      ((List.finRange nDirect).map fun k => (v i).addrs k.castSucc)
    (fun b hb hne => by
      obtain ⟨k, _, rfl⟩ := List.mem_map.mp hb
      simp only [hdirect] at hne ⊢
      exact hplace hne)
    (List.pairwise_map.mpr ((List.nodup_finRange nDirect).imp fun {a b} hab hne heq => by
      simp only [hdirect] at hne heq
      exact hab (Fin.ext (Place.direct.inj (hs.place_unique hi hi hne heq.symm).2).symm)))
  have hentry : ∀ {j}, j < nIndirect → (v i).indirect ≠ 0 →
      entry (e (v i).indirect) j = lookup d (v i) (.entry j) := fun hj ha => by
    rw [hfirst.data _ (hs.indirect_inUse hi ha).1, lookup_entry hj ha]
  -- The indirect block with its entries.
  have hsecond : ∃ f, freeIndirect sb e (v i).indirect = .ok f ∧
      Freed sb e (fun c => c ≠ 0 ∧ ∃ pl, lookup d (v i) pl = c ∧ ∀ k, pl ≠ .direct k) f := by
    rw [freeIndirect]
    split
    · next hzero =>
      refine ⟨e, rfl, (Freed.refl e).congr fun c => ⟨False.elim, ?_⟩⟩
      rintro ⟨hc, pl, rfl, hpl⟩
      cases pl with
      | direct k => exact hpl k rfl
      | indirect => exact hc hzero
      | entry j => exact hc (if_neg fun hboth => hboth.2 hzero)
    · next ha =>
      have hnot : ∀ {p : Place}, lookup d (v i) p ≠ 0 → (∀ k, p ≠ .direct k) →
          ¬ (lookup d (v i) p ≠ 0 ∧ lookup d (v i) p ∈
            (List.finRange nDirect).map fun k => (v i).addrs k.castSucc) := by
        rintro p hne hpl ⟨_, hin⟩
        obtain ⟨k, _, hk⟩ := List.mem_map.mp hin
        rw [hdirect] at hk
        exact hpl k (hs.place_unique hi hi hne hk).2.symm
      obtain ⟨g, hg, hentries⟩ := bfreeAll_spec sb e
          ((List.range nIndirect).map (entry (e (v i).indirect)))
        (fun b hb hne => by
          obtain ⟨j, hj, rfl⟩ := List.mem_map.mp hb
          have hj := List.mem_range.mp hj
          rw [hentry hj ha] at hne ⊢
          obtain ⟨hlt, hm⟩ := hplace hne
          exact ⟨hlt, (hfirst.marks _ hlt).mpr ⟨hm, hnot hne fun k h => by cases h⟩⟩)
        (List.pairwise_map.mpr ((List.nodup_range (n := nIndirect)).imp_of_mem
          fun {a b} hamem hbmem hab hne heq => by
            have haj := List.mem_range.mp hamem
            have hbj := List.mem_range.mp hbmem
            rw [hentry haj ha] at hne heq
            rw [hentry hbj ha] at heq
            exact hab (Place.entry.inj (hs.place_unique hi hi hne heq.symm).2).symm))
      have hmem : ∀ c, c ≠ 0 ∧ c ∈ (List.range nIndirect).map (entry (e (v i).indirect)) ↔
          c ≠ 0 ∧ ∃ j, lookup d (v i) (.entry j) = c := by
        refine fun c => and_congr_right fun hc => ⟨fun hin => ?_, ?_⟩
        · obtain ⟨j, hj, rfl⟩ := List.mem_map.mp hin
          exact ⟨j, (hentry (List.mem_range.mp hj) ha).symm⟩
        · rintro ⟨j, rfl⟩
          have hboth : j < nIndirect ∧ (v i).indirect ≠ 0 := by
            by_contra hnone
            exact hc (if_neg hnone)
          exact List.mem_map.mpr ⟨j, List.mem_range.mpr hboth.1, hentry hboth.1 ha⟩
      have hindirect : sb.marked g (v i).indirect = true := by
        obtain ⟨hlt, hm⟩ := hplace (p := .indirect) ha
        refine (hentries.marks _ hlt).mpr ⟨(hfirst.marks _ hlt).mpr
          ⟨hm, hnot (p := .indirect) ha fun k h => by cases h⟩, fun hin => ?_⟩
        obtain ⟨_, j, hj⟩ := (hmem _).mp hin
        cases (hs.place_unique (p := .indirect) hi hi ha hj).2
      obtain ⟨f, hf, hlast⟩ := bfree_spec (hplace (p := .indirect) ha).1 hindirect
      refine ⟨f, by rw [hg]; exact hf, (hentries.trans hlast).congr fun c => ?_⟩
      rw [hmem]
      constructor
      · rintro (⟨hc, j, rfl⟩ | rfl)
        · exact ⟨hc, _, rfl, fun k h => by cases h⟩
        · exact ⟨ha, .indirect, rfl, fun k h => by cases h⟩
      · rintro ⟨hc, pl, rfl, hpl⟩
        cases pl with
        | direct k => exact absurd rfl (hpl k)
        | indirect => exact .inr rfl
        | entry j => exact .inl ⟨hc, j, rfl⟩
  obtain ⟨f, hf, hrest⟩ := hsecond
  refine ⟨f, (hfirst.trans hrest).congr fun c => ?_, ?_⟩
  · constructor
    · rintro (⟨hc, hin⟩ | ⟨hc, pl, rfl, _⟩)
      · obtain ⟨k, _, rfl⟩ := List.mem_map.mp hin
        exact ⟨hc, _, (hdirect k).symm⟩
      · exact ⟨hc, pl, rfl⟩
    · rintro ⟨hc, pl, rfl⟩
      cases pl with
      | direct k =>
          have hk : k < nDirect := by
            by_contra hk
            exact hc (dif_neg hk)
          exact .inl ⟨hc, List.mem_map.mpr ⟨⟨k, hk⟩, List.mem_finRange _, hdirect ⟨k, hk⟩⟩⟩
      | indirect => exact .inr ⟨hc, _, rfl, fun k h => by cases h⟩
      | entry j => exact .inr ⟨hc, _, rfl, fun k h => by cases h⟩
  · rw [itrunc, he]
    change (freeIndirect sb e (v i).indirect).map _ = _
    rw [hf]
    rfl

/-- An inode without blocks. -/
theorem lookup_of_zero (h : ∀ k, ip.addrs k = 0) : lookup d ip pl = 0 := by
  cases pl with
  | direct k =>
      rw [lookup]
      split
      · exact h _
      · rfl
  | indirect => exact h _
  | entry j => exact if_neg fun hboth => hboth.2 (h _)

/-- A volume is sound after the blocks of an inode have been freed and it has none. -/
theorem Freed.sound (h : Freed sb d (Holds d (v i)) e) (ip : Dinode) (hs : Sound sb d v) (hi : i < sb.ninodes)
    (hfits : ip.Fits) (hsize : ip.size = 0) (haddrs : ∀ k, ip.addrs k = 0) :
    Sound sb e (Function.update v i ip) := by
  have hother : ∀ j, j ≠ i → Function.update v i ip j = v j := fun j hji =>
    Function.update_of_ne hji ip v
  have hself : Function.update v i ip i = ip := by rw [Function.update_self]
  refine ⟨hs.exact.give (fun x => x.1 = i) (fun c => ?_) fun x => ?_, fun c hc hmeta => ?_,
    fun j hj => ?_, fun j hj => ?_, fun j hj bn hbn => ?_, fun j hj hzero => ?_⟩
  · constructor
    · rintro ⟨hc, hm⟩
      obtain ⟨hm, hgone⟩ := (h.marks c hc.2).mp hm
      refine ⟨⟨hc, hm⟩, fun x hx heq => hgone ?_⟩
      rw [slot] at heq
      split at heq
      · next hboth =>
        obtain rfl := Option.some.inj heq
        rw [hx] at hboth ⊢
        exact ⟨hboth.2, x.2, rfl⟩
      · cases heq
    · rintro ⟨⟨hc, hm⟩, hleft⟩
      refine ⟨hc, (h.marks c hc.2).mpr ⟨hm, ?_⟩⟩
      rintro ⟨hne, pl, rfl⟩
      exact hleft (i, pl) rfl (slot_eq hi hne)
  · obtain ⟨j, pl⟩ := x
    by_cases hji : j = i
    · subst hji
      rw [if_pos rfl]
      exact slot_none (by rw [hself, lookup_of_zero haddrs])
    · rw [if_neg hji]
      by_cases hlt : j < sb.ninodes
      · exact slot_congr (by rw [hother j hji, h.lookup_eq hs hlt])
      · rw [slot, slot, if_neg fun hboth => hlt hboth.1, if_neg fun hboth => hlt hboth.1]
  · exact (h.marks c hc).mpr ⟨hs.meta_marked c hc hmeta, fun hgone =>
      hmeta (hs.holds_inUse hi hgone).1⟩
  · by_cases hji : j = i
    · rwa [hji, hself]
    · rw [hother j hji]
      exact hs.fits j hj
  · by_cases hji : j = i
    · rw [hji, hself, hsize]
      exact Nat.zero_le _
    · rw [hother j hji]
      exact hs.size j hj
  · by_cases hji : j = i
    · rw [hji, hself, hsize] at hbn
      exact absurd hbn (Nat.not_lt_zero _)
    · rw [hother j hji] at hbn ⊢
      rw [h.lookup_eq hs hj]
      exact hs.dense j hj bn hbn
  · by_cases hji : j = i
    · rwa [hji, hself]
    · rw [hother j hji] at hzero ⊢
      exact hs.free j hj hzero

end OSProjects.Storage
