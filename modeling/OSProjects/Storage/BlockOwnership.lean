import OSProjects.Foundation.Allocation
import OSProjects.Storage.Inode

/-!
# Which inode holds which block

The places of an inode are its direct addresses, its indirect address and the entries of its
indirect block. A sound volume marks exactly the data blocks that some place holds, each in one
place. Allocation, the stores of data and truncation keep a volume sound.
-/

namespace OSProjects.Storage

open Allocation ByteMemory RedoLog Xv6

/-! ## Places -/

/-- Where an inode keeps the number of a block. -/
inductive Place
  | direct (k : Nat)
  | indirect
  | entry (j : Nat)
  deriving DecidableEq

/-- The place of the `bn`-th block of a file. -/
def Place.data (bn : Nat) : Place := if bn < nDirect then .direct bn else .entry (bn - nDirect)

/-- The number of the indirect block. -/
def Dinode.indirect (ip : Dinode) : Nat := ip.addrs (Fin.last nDirect)

/-- The block number at a place, zero for none. -/
def lookup (d : Disk Block) (ip : Dinode) : Place → Nat
  | .direct k => if h : k < nDirect then ip.addrs ⟨k, Nat.lt_succ_of_lt h⟩ else 0
  | .indirect => ip.indirect
  | .entry j => if j < nIndirect ∧ ip.indirect ≠ 0 then entry (d ip.indirect) j else 0

/-- The byte of a file at an offset. Bytes in blocks that it does not have are zero. -/
def fileByte (d : Disk Block) (ip : Dinode) : Memory := fun pos =>
  if lookup d ip (.data (pos / bSize)) = 0 then 0
  else d (lookup d ip (.data (pos / bSize))) ⟨pos % bSize, Nat.mod_lt _ (by decide)⟩

section Lookup

variable {d e : Disk Block} {ip iq : Dinode} {pl : Place} {bn k j : Nat}

theorem lookup_direct (h : k < nDirect) :
    lookup d ip (.direct k) = ip.addrs ⟨k, Nat.lt_succ_of_lt h⟩ := dif_pos h

theorem lookup_entry (hj : j < nIndirect) (ha : ip.indirect ≠ 0) :
    lookup d ip (.entry j) = entry (d ip.indirect) j := if_pos ⟨hj, ha⟩

/-- The places of an inode depend on its addresses and on its indirect block. -/
theorem lookup_congr (haddrs : iq.addrs = ip.addrs)
    (h : ip.indirect ≠ 0 → e ip.indirect = d ip.indirect) : lookup e iq pl = lookup d ip pl := by
  have hsame : iq.indirect = ip.indirect := congrFun haddrs _
  cases pl with
  | direct k => simp only [lookup, haddrs]
  | indirect => exact hsame
  | entry j =>
      simp only [lookup, hsame]
      split
      · next hentry => rw [h hentry.2]
      · rfl

/-- The bytes of a file depend on its blocks. -/
theorem fileByte_congr {pos : Nat}
    (hsame : lookup e iq (.data (pos / bSize)) = lookup d ip (.data (pos / bSize)))
    (hblock : lookup d ip (.data (pos / bSize)) ≠ 0 →
      e (lookup d ip (.data (pos / bSize))) = d (lookup d ip (.data (pos / bSize)))) :
    fileByte e iq pos = fileByte d ip pos := by
  rw [fileByte, fileByte, hsame]
  split
  · rfl
  · next hne => rw [hblock hne]

theorem Place.data_ne_indirect : Place.data bn ≠ .indirect := by
  rw [Place.data]
  split <;> exact fun h => by cases h

theorem Place.data_injective (h : Place.data bn = Place.data k) : bn = k := by
  rw [Place.data, Place.data] at h
  split at h <;> split at h
  · exact Place.direct.inj h
  · cases h
  · cases h
  · have := Place.entry.inj h
    omega

end Lookup

/-! ## Sound volumes -/

section

variable (sb : Superblock)

/-- The block that an inode has at a place. -/
def slot (d : Disk Block) (v : Nat → Dinode) (x : Nat × Place) : Option Nat :=
  if x.1 < sb.ninodes ∧ lookup d (v x.1) x.2 ≠ 0 then some (lookup d (v x.1) x.2) else none

/-- A data block that the bitmap says is in use. -/
def Superblock.InUse (d : Disk Block) (b : Nat) : Prop := sb.Data b ∧ sb.marked d b = true

/-- What holds of a disk, with the inodes `v` as they are in memory. -/
structure Sound (d : Disk Block) (v : Nat → Dinode) : Prop where
  exact : Exact (sb.InUse d) (slot sb d v)
  meta_marked : ∀ b, b < sb.size → ¬ sb.Data b → sb.marked d b = true
  fits : ∀ i, i < sb.ninodes → (v i).Fits
  size : ∀ i, i < sb.ninodes → (v i).size ≤ maxFile * bSize
  dense : ∀ i, i < sb.ninodes → ∀ bn, bn * bSize < (v i).size →
    lookup d (v i) (.data bn) ≠ 0
  free : ∀ i, i < sb.ninodes → (v i).type = 0 → ∀ k, (v i).addrs k = 0

end

variable {sb : Superblock} {d e : Disk Block} {v w : Nat → Dinode} {ip : Dinode}
  {i j b c bn : Nat} {pl pk : Place} {x : Block}

theorem slot_eq (hi : i < sb.ninodes) (h : lookup d (v i) pl ≠ 0) :
    slot sb d v (i, pl) = some (lookup d (v i) pl) := if_pos ⟨hi, h⟩

theorem slot_none (h : lookup d (v i) pl = 0) : slot sb d v (i, pl) = none :=
  if_neg fun hboth => hboth.2 h

theorem slot_congr (h : lookup e (w i) pl = lookup d (v i) pl) :
    slot sb e w (i, pl) = slot sb d v (i, pl) := by
  rw [slot, slot, h]

namespace Sound

/-- A block at a place is a data block in use. -/
theorem inUse {p : Place} (h : Sound sb d v) (hi : i < sb.ninodes)
    (hne : lookup d (v i) p ≠ 0) : sb.InUse d (lookup d (v i) p) :=
  h.exact.held (i, p) _ (slot_eq hi hne)

/-- No block is at two places. -/
theorem place_unique {p q : Place} (h : Sound sb d v) (hi : i < sb.ninodes) (hj : j < sb.ninodes)
    (hne : lookup d (v i) p ≠ 0) (hsame : lookup d (v j) q = lookup d (v i) p) :
    j = i ∧ q = p := by
  have hslot : slot sb d v (j, q) = some (lookup d (v i) p) := by
    rw [← hsame]
    exact slot_eq hj (by rw [hsame]; exact hne)
  exact Prod.mk.inj (h.exact.unique _ _ _ hslot (slot_eq hi hne))

/-- The indirect block of an inode. -/
theorem indirect_inUse (h : Sound sb d v) (hi : i < sb.ninodes) (hne : (v i).indirect ≠ 0) :
    sb.InUse d (v i).indirect := h.inUse (p := .indirect) hi hne

theorem indirect_ne_data (h : Sound sb d v) (hi : i < sb.ninodes) (hj : j < sb.ninodes)
    (hne : lookup d (v i) (.data bn) ≠ 0) : (v j).indirect ≠ lookup d (v i) (.data bn) := by
  intro heq
  exact Place.data_ne_indirect (h.place_unique (q := .indirect) hi hj hne heq).2.symm

end Sound

/-! ## The allocator -/

/-- What `balloc` leaves: the block was free, is marked now, and is zero. -/
structure Allocated (sb : Superblock) (d : Disk Block) (b : Nat) (e : Disk Block) : Prop where
  data : sb.Data b
  fresh : sb.marked d b = false
  marks : ∀ c, c < sb.size → sb.marked e c = if c = b then true else sb.marked d c
  zero : e b = .zero
  rest : ∀ c, sb.Data c → c ≠ b → e c = d c
  inodes : ∀ i, i < sb.ninodes → sb.dinode e i = sb.dinode d i

theorem Sound.balloc (h : Sound sb d v) (hdone : balloc sb d = .ok (b, e)) :
    Allocated sb d b e := by
  rw [Storage.balloc] at hdone
  split at hdone
  · next c hfind =>
    obtain ⟨rfl, rfl⟩ := Prod.mk.inj (Except.ok.inj hdone)
    have hfresh : sb.marked d c = false := by
      have := List.find?_some hfind
      simpa using this
    have hlt : c < sb.size := List.mem_range.mp (List.mem_of_find?_eq_some hfind)
    have hdata : sb.Data c := by
      by_contra hmeta
      rw [h.meta_marked c hlt hmeta] at hfresh
      cases hfresh
    refine ⟨hdata, hfresh, fun x hx => ?_, Function.update_self c _ _, fun x hx hne => ?_,
      fun i hi => ?_⟩
    · rw [Superblock.marked_update hdata hx, Superblock.marked_mark]
    · rw [Function.update_of_ne hne, Superblock.mark_of_data hx hlt]
    · rw [Superblock.dinode_update hdata hi, Superblock.dinode_mark hi]
  · cases hdone

namespace Allocated

theorem inUse_iff (h : Allocated sb d b e) : sb.InUse e c ↔ sb.InUse d c ∨ c = b := by
  constructor
  · rintro ⟨hc, hmark⟩
    rw [h.marks c hc.2] at hmark
    split at hmark
    · next heq => exact .inr heq
    · exact .inl ⟨hc, hmark⟩
  · rintro (⟨hc, hmark⟩ | rfl)
    · refine ⟨hc, ?_⟩
      rw [h.marks c hc.2, hmark, ite_self]
    · exact ⟨h.data, by rw [h.marks c h.data.2, if_pos rfl]⟩

theorem not_inUse (h : Allocated sb d b e) : ¬ sb.InUse d b := fun hin => by
  have := hin.2
  rw [h.fresh] at this
  cases this

/-- A block in use is not the new one. -/
theorem keeps (h : Allocated sb d b e) (hc : sb.InUse d c) : c ≠ b ∧ e c = d c := by
  have hne : c ≠ b := fun heq => h.not_inUse (heq ▸ hc)
  exact ⟨hne, h.rest c hc.1 hne⟩

/-- Inodes keep their places. -/
theorem lookup_eq (h : Allocated sb d b e) (hs : Sound sb d v) (hi : i < sb.ninodes) :
    lookup e (v i) pl = lookup d (v i) pl :=
  lookup_congr rfl fun hne => (h.keeps (hs.indirect_inUse hi hne)).2

theorem meta_marked (h : Allocated sb d b e) (hs : Sound sb d v) (hc : c < sb.size)
    (hmeta : ¬ sb.Data c) : sb.marked e c = true := by
  rw [h.marks c hc, hs.meta_marked c hc hmeta, ite_self]

end Allocated

/-! ## A block for an empty place -/

/-- The fields other than the addresses agree. -/
structure Dinode.Alike (ip iq : Dinode) : Prop where
  type : iq.type = ip.type
  major : iq.major = ip.major
  minor : iq.minor = ip.minor
  nlink : iq.nlink = ip.nlink
  size : iq.size = ip.size

theorem Dinode.Alike.refl (ip : Dinode) : ip.Alike ip := ⟨rfl, rfl, rfl, rfl, rfl⟩

theorem Dinode.Alike.trans {iq ir : Dinode} (h : ip.Alike iq) (h' : iq.Alike ir) : ip.Alike ir :=
  ⟨h'.type.trans h.type, h'.major.trans h.major, h'.minor.trans h.minor,
    h'.nlink.trans h.nlink, h'.size.trans h.size⟩

/-- The place `pk` of the inode `i`, which was empty, has the zeroed block `b`, and nothing else
has changed; the inode is `iq` now. -/
structure Fills (sb : Superblock) (d : Disk Block) (v : Nat → Dinode) (i : Nat) (pk : Place)
    (b : Nat) (e : Disk Block) (iq : Dinode) : Prop where
  empty : lookup d (v i) pk = 0
  free : ¬ sb.InUse d b
  inUse : ∀ c, sb.InUse e c ↔ sb.InUse d c ∨ c = b
  meta_marked : ∀ c, c < sb.size → ¬ sb.Data c → sb.marked e c = true
  self : lookup e iq pk = b
  other : ∀ pl, pl ≠ pk → lookup e iq pl = lookup d (v i) pl
  rest : ∀ j, j < sb.ninodes → j ≠ i → ∀ pl, lookup e (v j) pl = lookup d (v j) pl
  blocks : ∀ j, j < sb.ninodes → ∀ bn, lookup d (v j) (.data bn) ≠ 0 →
    e (lookup d (v j) (.data bn)) = d (lookup d (v j) (.data bn))
  zero : e b = .zero
  inodes : ∀ j, j < sb.ninodes → sb.dinode e j = sb.dinode d j
  alike : (v i).Alike iq
  addrs : ∀ k, iq.addrs k < 2 ^ 32

namespace Fills

variable {iq : Dinode}

theorem data (h : Fills sb d v i pk b e iq) : sb.Data b := ((h.inUse b).mpr (.inr rfl)).1

/-- The other places are as before, in all inodes. -/
theorem lookup_eq (h : Fills sb d v i pk b e iq) (hj : j < sb.ninodes)
    (hne : (j, pl) ≠ (i, pk)) :
    lookup e (Function.update v i iq j) pl = lookup d (v j) pl := by
  by_cases hji : j = i
  · subst hji
    rw [Function.update_self]
    exact h.other pl fun heq => hne (by rw [heq])
  · rw [Function.update_of_ne hji]
    exact h.rest j hj hji pl

/-- A place that had a block has it still. -/
theorem lookup_of_ne (h : Fills sb d v i pk b e iq) (hj : j < sb.ninodes)
    (hne : lookup d (v j) pl ≠ 0) :
    lookup e (Function.update v i iq j) pl = lookup d (v j) pl := by
  refine h.lookup_eq hj fun heq => hne ?_
  obtain ⟨rfl, rfl⟩ := Prod.mk.inj heq
  exact h.empty

theorem sound (h : Fills sb d v i pk b e iq) (hs : Sound sb d v) (hi : i < sb.ninodes)
    (htype : (v i).type ≠ 0) : Sound sb e (Function.update v i iq) where
  exact := by
    have hself : slot sb e (Function.update v i iq) (i, pk) = some b := by
      have hb : lookup e (Function.update v i iq i) pk = b := by
        rw [Function.update_self, h.self]
      rw [← hb]
      exact slot_eq hi (by rw [hb]; exact h.data.pos)
    refine hs.exact.take h.free (slot_none h.empty) h.inUse hself fun x hx => ?_
    by_cases hlt : x.1 < sb.ninodes
    · exact slot_congr (h.lookup_eq hlt hx)
    · rw [slot, slot, if_neg fun hboth => hlt hboth.1, if_neg fun hboth => hlt hboth.1]
  meta_marked := h.meta_marked
  fits := by
    intro j hj
    by_cases hji : j = i
    · subst hji
      have hold := hs.fits j hj
      rw [Function.update_self]
      refine ⟨?_, ?_, ?_, ?_, ?_, h.addrs⟩
      · rw [h.alike.type]; exact hold.type
      · rw [h.alike.major]; exact hold.major
      · rw [h.alike.minor]; exact hold.minor
      · rw [h.alike.nlink]; exact hold.nlink
      · rw [h.alike.size]; exact hold.size
    · rw [Function.update_of_ne hji]
      exact hs.fits j hj
  size := by
    intro j hj
    by_cases hji : j = i
    · subst hji
      rw [Function.update_self, h.alike.size]
      exact hs.size j hj
    · rw [Function.update_of_ne hji]
      exact hs.size j hj
  dense := by
    intro j hj bn hbn
    have hsize : (Function.update v i iq j).size = (v j).size := by
      by_cases hji : j = i
      · subst hji
        rw [Function.update_self, h.alike.size]
      · rw [Function.update_of_ne hji]
    rw [hsize] at hbn
    have hold := hs.dense j hj bn hbn
    rwa [h.lookup_of_ne hj hold]
  free := by
    intro j hj hzero
    by_cases hji : j = i
    · subst hji
      rw [Function.update_self, h.alike.type] at hzero
      exact absurd hzero htype
    · rw [Function.update_of_ne hji] at hzero ⊢
      exact hs.free j hj hzero

/-- No file has other bytes: the new block is zero, as the missing one was. -/
theorem bytes (h : Fills sb d v i pk b e iq) (hj : j < sb.ninodes) (pos : Nat) :
    fileByte e (Function.update v i iq j) pos = fileByte d (v j) pos := by
  by_cases hplace : (j, Place.data (pos / bSize)) = (i, pk)
  · obtain ⟨rfl, hpk⟩ := Prod.mk.inj hplace
    rw [fileByte, fileByte, Function.update_self, hpk, h.empty, if_pos rfl, h.self,
      if_neg h.data.pos, h.zero]
    rfl
  · exact fileByte_congr (h.lookup_eq hj hplace) fun hne => h.blocks j hj _ hne

end Fills

/-- The place of an address. -/
def Place.addr (k : Fin (nDirect + 1)) : Place := if k.val < nDirect then .direct k else .indirect

theorem lookup_addr (k : Fin (nDirect + 1)) : lookup d ip (.addr k) = ip.addrs k := by
  rw [Place.addr]
  split
  · next h => exact lookup_direct h
  · next h =>
    have hlast : k = Fin.last nDirect := Fin.ext (Nat.le_antisymm (Nat.lt_succ_iff.mp k.isLt)
      (Nat.not_lt.mp h))
    rw [hlast]
    rfl

/-- An address that was zero is set to a new block. -/
theorem Allocated.fills_addr (h : Allocated sb d b e) (hs : Sound sb d v) (hi : i < sb.ninodes)
    {k : Fin (nDirect + 1)} (hzero : (v i).addrs k = 0) :
    Fills sb d v i (.addr k) b e { v i with addrs := Function.update (v i).addrs k b } where
  empty := by rw [lookup_addr, hzero]
  free := h.not_inUse
  inUse := fun _ => h.inUse_iff
  meta_marked := fun _ => h.meta_marked hs
  self := by
    rw [lookup_addr]
    exact Function.update_self k b (v i).addrs
  other := by
    intro pl hne
    have hindirect : k.val < nDirect →
        Function.update (v i).addrs k b (Fin.last nDirect) = (v i).indirect := fun hk =>
      Function.update_of_ne (fun heq => Nat.lt_irrefl nDirect (by rw [← heq] at hk; exact hk)) _ _
    cases pl with
    | direct j =>
        simp only [lookup]
        split
        · next hj =>
          refine Function.update_of_ne (fun heq => hne ?_) _ _
          rw [Place.addr, ← heq, if_pos hj]
        · rfl
    | indirect =>
        have hk : k.val < nDirect := by
          by_contra hk
          exact hne (if_neg hk).symm
        exact hindirect hk
    | entry j =>
        by_cases hk : k.val < nDirect
        · have hsame : lookup e { v i with addrs := Function.update (v i).addrs k b } (.entry j) =
              lookup e (v i) (.entry j) := by
            simp only [lookup, Dinode.indirect, hindirect hk]
            rfl
          rw [hsame, h.lookup_eq hs hi]
        · have hlast : k = Fin.last nDirect := Fin.ext (Nat.le_antisymm
            (Nat.lt_succ_iff.mp k.isLt) (Nat.not_lt.mp hk))
          subst hlast
          have hold : lookup d (v i) (.entry j) = 0 := if_neg fun hj => hj.2 hzero
          rw [hold, lookup]
          simp only [Dinode.indirect, Function.update_self]
          rw [h.zero, entry_zero, ite_self]
  rest := fun _ hj _ _ => h.lookup_eq hs hj
  blocks := fun _ hj _ hne => (h.keeps (hs.inUse hj hne)).2
  zero := h.zero
  inodes := h.inodes
  alike := ⟨rfl, rfl, rfl, rfl, rfl⟩
  addrs := by
    intro j
    by_cases hjk : j = k
    · subst hjk
      simp only [Function.update_self]
      exact h.data.lt
    · simp only [Function.update_of_ne hjk]
      exact (hs.fits i hi).addrs j

/-- An entry of the indirect block that was zero is set to a new block. -/
theorem Allocated.fills_entry (h : Allocated sb d b e) (hs : Sound sb d v) (hi : i < sb.ninodes)
    (ha : (v i).indirect ≠ 0) (hj : j < nIndirect) (hzero : entry (d (v i).indirect) j = 0) :
    Fills sb d v i (.entry j) b
      (Function.update e (v i).indirect (setEntry (e (v i).indirect) j b)) (v i) := by
  have hindirect : sb.InUse d (v i).indirect := hs.indirect_inUse hi ha
  obtain ⟨hab, hsame⟩ := h.keeps hindirect
  have hmark : ∀ c, c < sb.size →
      sb.marked (Function.update e (v i).indirect (setEntry (e (v i).indirect) j b)) c =
        sb.marked e c := fun c hc => Superblock.marked_update hindirect.1 hc
  refine ⟨?_, h.not_inUse, fun c => ?_, fun c hc hmeta => ?_, ?_, fun pl hne => ?_,
    fun k hk hki pl => ?_, fun k hk bn hne => ?_, ?_, fun k hk => ?_, .refl _,
    (hs.fits i hi).addrs⟩
  · rw [lookup_entry hj ha, hzero]
  · rw [← h.inUse_iff]
    exact and_congr_right fun hc => by rw [hmark c hc.2]
  · rw [hmark c hc, h.meta_marked hs hc hmeta]
  · rw [lookup_entry hj ha, Function.update_self, entry_setEntry_self hj h.data.lt]
  · cases pl with
    | direct k => rfl
    | indirect => rfl
    | entry k =>
        simp only [lookup]
        split
        · next hk =>
          rw [Function.update_self, entry_setEntry_ne hk.1 (fun heq => hne (by rw [heq])), hsame]
        · rfl
  · refine lookup_congr rfl fun hk' => ?_
    have hapart : (v k).indirect ≠ (v i).indirect := fun heq =>
      hki (hs.place_unique (p := .indirect) (q := .indirect) hi hk ha heq).1
    rw [Function.update_of_ne hapart]
    exact (h.keeps (hs.indirect_inUse hk hk')).2
  · rw [Function.update_of_ne (hs.indirect_ne_data hk hi hne).symm]
    exact (h.keeps (hs.inUse hk hne)).2
  · rw [Function.update_of_ne hab.symm, h.zero]
  · rw [Superblock.dinode_update hindirect.1 hk, h.inodes k hk]

end OSProjects.Storage
