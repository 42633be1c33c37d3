import OSProjects.Foundation.StepSystem
import OSProjects.Xv6.Boot

/-!
# The VMA table under `mmap` and `munmap`

As long as a process only maps, its valid records stay disjoint and each lies on
present pages. `munmap` leaves every record as it is, so no slot is ever freed.
-/

namespace OSProjects.Xv6

open StepSystem

/-- The addresses of a record, by the comparison that `munmap` makes. -/
def Vma.Covers (v : Vma) (b : Nat) : Prop := v.addr ≤ b ∧ b < v.endAddr

instance (v : Vma) (b : Nat) : Decidable (v.Covers b) := inferInstanceAs (Decidable (_ ∧ _))

/-- The valid records of a process are pairwise disjoint. -/
def VmasDisjoint (vmas : Fin nVma → Vma) : Prop :=
  ∀ i j, i ≠ j → (vmas i).valid = true → (vmas j).valid = true →
    ∀ b, (vmas i).Covers b → ¬(vmas j).Covers b

/-- A slot that `mmap` may take and `munmap` passes over. -/
def SlotFree (vmas : Fin nVma → Vma) (j : Fin nVma) : Prop :=
  (vmas j).addr = 0 ∧ (vmas j).valid = false

/-! ## Sessions of a process -/

/-- A mapping that `mmap` has returned, with the slot in which it was recorded. -/
structure Mapping where
  addr : Nat
  length : Int
  slot : Fin nVma
  deriving DecidableEq

def Mapping.Covers (m : Mapping) (b : Nat) : Prop := m.addr ≤ b ∧ (b : Int) < m.addr + m.length

instance (m : Mapping) (b : Nat) : Decidable (m.Covers b) := inferInstanceAs (Decidable (_ ∧ _))

/-- The kernel and the mappings that are established, the latest first. -/
structure Session where
  kernel : Kernel
  mappings : List Mapping

inductive MapCall
  | mmap (args : MmapArgs)
  | munmap (m : Mapping)

/-- The arguments are words. -/
def MmapArgs.Words (a : MmapArgs) : Prop := a.addr < 2 ^ 32 ∧ a.length < 2 ^ 31

/-- A call of `mmap`, or of `munmap` for an established mapping. -/
inductive MapStep (p : Fin nProc) : Session → MapCall → Session → Prop
  | failed {k k' a live} (hwords : a.Words) (h : k.mmap p a = .ok (k', -1)) :
      MapStep p ⟨k, live⟩ (.mmap a) ⟨k', live⟩
  | mapped {k k' a live} {addr : Nat} {j} (hwords : a.Words)
      (hslot : mmapSlot (k.procs p).vmas = some j) (h : k.mmap p a = .ok (k', addr)) :
      MapStep p ⟨k, live⟩ (.mmap a) ⟨k', ⟨addr, a.length, j⟩ :: live⟩
  | unmapped {k k' m live} (hm : m ∈ live) (h : k.munmap p m.addr m.length = .ok (k', 0)) :
      MapStep p ⟨k, live⟩ (.munmap m) ⟨k', live.erase m⟩

/-- A `MAP_FIXED` call that passes the checks names an aligned address, and its length
can be rounded up to whole pages in an `int`. -/
def Regular (p : Fin nProc) (s : Session) : MapCall → Prop
  | .mmap a =>
      0 < a.length → has a.flags mapFixed = true →
        (mmapAddr (s.kernel.procs p).pgdir a).isSome = true →
          a.addr % pgSize = 0 ∧ a.length ≤ 0x7FFFF000
  | .munmap _ => True

def RegularStep (p : Fin nProc) (s : Session) (c : MapCall) (s' : Session) : Prop :=
  MapStep p s c s' ∧ Regular p s c

/-- The record that `munmap` selects is the one of the latest mapping of the address. -/
def SelectsLatest (p : Fin nProc) (s : Session) : Prop :=
  ∀ b m, s.mappings.find? (fun m => m.Covers b) = some m →
    munmapSlot (s.kernel.procs p).vmas b = some m.slot

/-- The law of mapping and unmapping, in every state that the calls lead through. -/
def MapLaw (p : Fin nProc) (s0 : Session) (calls : List MapCall) : Prop :=
  ∀ pre s, pre <+: calls → Run (RegularStep p) s0 pre s →
    VmasDisjoint (s.kernel.procs p).vmas ∧ SelectsLatest p s ∧
      ∀ m s', pre ++ [.munmap m] <+: calls → RegularStep p s (.munmap m) s' →
        SlotFree (s'.kernel.procs p).vmas m.slot

/-! ## `munmap` leaves the records -/

/-- Only the contents of files and the number of free blocks differ. -/
def FilesOnly (k k' : Kernel) : Prop :=
  ∃ inodes blocks, k' = { k with inodes := inodes, freeBlocks := blocks }

namespace FilesOnly

variable {p : Fin nProc} {k k' k'' : Kernel}

theorem refl (k : Kernel) : FilesOnly k k := ⟨k.inodes, k.freeBlocks, rfl⟩

theorem putInode (k : Kernel) (i : Nat) (x : Inode) : FilesOnly k (k.putInode i x) := ⟨_, _, rfl⟩

theorem trans (h : FilesOnly k k') (h' : FilesOnly k' k'') : FilesOnly k k'' := by
  obtain ⟨inodes, blocks, rfl⟩ := h
  obtain ⟨inodes', blocks', rfl⟩ := h'
  exact ⟨inodes', blocks', rfl⟩

theorem of_writeoffLoop {ip data size fuel written w : Nat} {offset : Int}
    (h : Kernel.writeoffLoop p ip data size fuel written offset k = .ok (k', w)) :
    FilesOnly k k' := by
  induction fuel generalizing k written offset with
  | zero =>
      simp only [Kernel.writeoffLoop, Except.ok.injEq, Prod.mk.injEq] at h
      rw [← h.1]
      exact refl k
  | succ fuel ih =>
      rw [Kernel.writeoffLoop] at h
      split at h
      case isFalse =>
        simp only [Except.ok.injEq, Prod.mk.injEq] at h
        rw [← h.1]
        exact refl k
      case isTrue =>
        dsimp only at h
        split at h
        · simp at h
        case h_2 node r _ =>
          split at h
          · simp only [Except.ok.injEq, Prod.mk.injEq] at h
            rw [← h.1]
            exact putInode k ip node
          · exact (putInode k ip node).trans (ih h)

theorem of_writeBack {v : Vma} {data : Nat} {size offset : Int}
    (h : k.writeBack p v data size offset = .ok k') : FilesOnly k k' := by
  rw [Kernel.writeBack] at h
  split at h
  · simp at h
  case h_2 f _ =>
    split at h
    · simp at h
    case h_2 k1 r hf =>
      obtain rfl := Except.ok.inj h
      rw [Kernel.filewriteoff] at hf
      split at hf
      · simp only [Except.ok.injEq, Prod.mk.injEq] at hf
        rw [← hf.1]
        exact refl k
      · split at hf
        case isTrue =>
          split at hf
          · simp at hf
          case h_2 k1 w hloop =>
            simp only [Except.ok.injEq, Prod.mk.injEq] at hf
            rw [← hf.1]
            exact of_writeoffLoop hloop
        · simp at hf

theorem of_written {c : Bool} {v : Vma} {data : Nat} {size offset : Int}
    (h : (if c then k.writeBack p v data size offset else .ok k) = .ok k') :
    FilesOnly k k' := by
  split at h
  · exact of_writeBack h
  · obtain rfl := Except.ok.inj h
    exact refl k

end FilesOnly

/-- A relation that writing a page back and giving frames back stay in. -/
structure Unmapping (p : Fin nProc) (R : Kernel → Kernel → Prop) : Prop where
  refl : ∀ k, R k k
  trans : ∀ {k k1 k2}, R k k1 → R k1 k2 → R k k2
  writeBack : ∀ {k k' v data size offset},
    k.writeBack p v data size offset = .ok k' → R k k'
  dealloc : ∀ {k k' oldsz newsz}, k.dealloc p oldsz newsz = .ok k' → R k k'

namespace Unmapping

variable {R : Kernel → Kernel → Prop} {p : Fin nProc} {k k' : Kernel}

theorem written (hR : Unmapping p R) {c : Bool} {v : Vma} {data : Nat} {size offset : Int}
    (h : (if c then k.writeBack p v data size offset else .ok k) = .ok k') : R k k' := by
  split at h
  · exact hR.writeBack h
  · obtain rfl := Except.ok.inj h
    exact hR.refl k

theorem munmapPage (hR : Unmapping p R) {v : Vma} {addr : Nat} {length off : Int}
    (h : k.munmapPage p v addr length off = .ok k') : R k k' := by
  rw [Kernel.munmapPage] at h
  split at h
  · simp at h
  case h_2 k1 hw => exact hR.trans (hR.written hw) (hR.dealloc h)

theorem munmapFirst (hR : Unmapping p R) {v : Vma} {addr : Nat} {length rest : Int}
    (h : k.munmapFirst p v addr length = .ok (k', rest)) : R k k' := by
  rw [Kernel.munmapFirst] at h
  split at h
  · simp only [Except.ok.injEq, Prod.mk.injEq] at h
    rw [← h.1]
    exact hR.refl k
  · dsimp only at h
    split at h
    · simp at h
    case h_2 k1 hw =>
      split at h
      · simp at h
      case h_2 k2 hd =>
        simp only [Except.ok.injEq, Prod.mk.injEq] at h
        rw [← h.1]
        exact hR.trans (hR.written hw) (hR.dealloc hd)

theorem munmapLoop (hR : Unmapping p R) {fuel addr : Nat} {j : Fin nVma} {length off : Int}
    (h : Kernel.munmapLoop p fuel j addr length off k = .ok k') : R k k' := by
  induction fuel generalizing k j addr length off with
  | zero => simp [Kernel.munmapLoop] at h
  | succ fuel ih =>
      rw [Kernel.munmapLoop] at h
      split at h
      case isFalse =>
        obtain rfl := Except.ok.inj h
        exact hR.refl k
      case isTrue =>
        dsimp only at h
        split at h
        · simp at h
        case h_2 k1 hpage => exact hR.trans (hR.munmapPage hpage) (ih h)

/-- What the parts of `munmap` stay in, the call stays in. -/
theorem munmap (hR : Unmapping p R) {addr : Nat} {length r : Int}
    (h : k.munmap p addr length = .ok (k', r)) : R k k' := by
  rw [Kernel.munmap] at h
  split at h
  · simp at h
  · dsimp only at h
    split at h
    · simp at h
    case h_2 k1 rest hfirst =>
      split at h
      · split at h
        · simp at h
        case h_2 k2 hloop =>
          simp only [Except.ok.injEq, Prod.mk.injEq] at h
          rw [← h.1]
          exact hR.trans (hR.munmapFirst hfirst) (hR.munmapLoop hloop)
      · simp only [Except.ok.injEq, Prod.mk.injEq] at h
        rw [← h.1]
        exact hR.munmapFirst hfirst

end Unmapping

/-- Only the page table of `p`, the memory, the contents of files and the number of free blocks
differ. -/
def SpaceAndFiles (p : Fin nProc) (k k' : Kernel) : Prop :=
  ∃ s inodes blocks, k' = { k.setSpace p s with inodes := inodes, freeBlocks := blocks }

namespace SpaceAndFiles

variable {p : Fin nProc} {k k' k'' : Kernel}

theorem refl (k : Kernel) : SpaceAndFiles p k k :=
  ⟨k.space p, k.inodes, k.freeBlocks, by rw [Kernel.setSpace_space]⟩

theorem of_setSpace (s : Space) : SpaceAndFiles p k (k.setSpace p s) :=
  ⟨s, k.inodes, k.freeBlocks, rfl⟩

theorem trans (h : SpaceAndFiles p k k') (h' : SpaceAndFiles p k' k'') :
    SpaceAndFiles p k k'' := by
  obtain ⟨s, inodes, blocks, rfl⟩ := h
  obtain ⟨s', inodes', blocks', rfl⟩ := h'
  refine ⟨s', inodes', blocks', ?_⟩
  simp [Kernel.setSpace, Kernel.setProc]

theorem vmas (h : SpaceAndFiles p k k') : (k'.procs p).vmas = (k.procs p).vmas := by
  obtain ⟨s, inodes, blocks, rfl⟩ := h
  simp

theorem of_filesOnly (h : FilesOnly k k') : SpaceAndFiles p k k' := by
  obtain ⟨inodes, blocks, rfl⟩ := h
  exact ⟨k.space p, inodes, blocks, by rw [Kernel.setSpace_space]⟩

theorem of_dealloc {oldsz newsz : Nat} (h : k.dealloc p oldsz newsz = .ok k') :
    SpaceAndFiles p k k' := by
  rw [Kernel.dealloc] at h
  split at h
  · simp at h
  · obtain rfl := Except.ok.inj h
    exact of_setSpace _

theorem unmapping (p : Fin nProc) : Unmapping p (SpaceAndFiles p) where
  refl := refl
  trans h h' := h.trans h'
  writeBack h := of_filesOnly (.of_writeBack h)
  dealloc h := of_dealloc h

theorem of_munmapPage {v : Vma} {addr : Nat} {length off : Int}
    (h : k.munmapPage p v addr length off = .ok k') : SpaceAndFiles p k k' :=
  (unmapping p).munmapPage h

theorem of_munmapFirst {v : Vma} {addr : Nat} {length rest : Int}
    (h : k.munmapFirst p v addr length = .ok (k', rest)) : SpaceAndFiles p k k' :=
  (unmapping p).munmapFirst h

theorem of_munmap {addr : Nat} {length r : Int} (h : k.munmap p addr length = .ok (k', r)) :
    SpaceAndFiles p k k' :=
  (unmapping p).munmap h

end SpaceAndFiles

/-! ## `mmap` keeps the records disjoint -/

/-- The valid records are disjoint and lie on present pages. -/
structure Tidy (k : Kernel) (p : Fin nProc) : Prop where
  half : KernelHalf (k.procs p).pgdir
  present : ∀ j, ((k.procs p).vmas j).valid = true → ∀ b, ((k.procs p).vmas j).Covers b →
    (k.procs p).pgdir.present b = true
  disjoint : VmasDisjoint (k.procs p).vmas

theorem Tidy.of_noMapping {k : Kernel} {p : Fin nProc} (h : NoMapping k p)
    (hhalf : KernelHalf (k.procs p).pgdir) : Tidy k p := by
  refine ⟨hhalf, ?_, ?_⟩
  · rw [h]
    exact fun j hj => by simp [Vma.zero] at hj
  · rw [h]
    exact fun i j _ hi => by simp [Vma.zero] at hi

section Mmap

variable {k k' : Kernel} {p : Fin nProc} {a : MmapArgs} {addr : Nat}

theorem pgRoundUpInt_of_le {length : Int} (h0 : 0 < length) (h : length ≤ 0x7FFFF000) :
    pgRoundUpInt length = (length + 4095) / 4096 * 4096 := by
  simp only [pgRoundUpInt, int32]
  omega

theorem pgRoundUpInt_of_lt {length : Int} (h : 0x7FFFF000 < length) (hlt : length < 2 ^ 31) :
    pgRoundUpInt length = -2 ^ 31 := by
  simp only [pgRoundUpInt, int32]
  omega

/-- A region of half the address space that starts below `KERNBASE` holds a kernel page. -/
theorem isRegionFree_of_half {d : Pgdir} (hd : KernelHalf d) (halign : addr % 4096 = 0)
    (hpos : 0 < addr) (hlt : addr < 0x80000000) : isRegionFree d addr (2 ^ 31) = false := by
  by_contra hfree
  have hfree' := Bool.not_eq_false _ ▸ hfree
  have hcount : (uint (addr + 2 ^ 31) - addr + (pgSize - 1)) / pgSize = 2 ^ 19 := by
    simp only [uint, pgSize]
    omega
  rw [isRegionFree, hcount, Pgdir.allAbsent_iff] at hfree'
  have habsent := hfree' ((0x80000000 - addr) / 4096) (by omega)
  rw [show addr + (0x80000000 - addr) / 4096 * 4096 = 0x80000000 by omega] at habsent
  have hbase := hd.base
  simp [Pgdir.present, habsent] at hbase

/-- Where a regular call places its region. -/
theorem mmapAddr_regular (hhalf : KernelHalf (k.procs p).pgdir) (hwords : a.Words)
    (hreg : has a.flags mapFixed = true → a.addr % 4096 = 0 ∧ a.length ≤ 0x7FFFF000)
    (haddr : mmapAddr (k.procs p).pgdir a = some addr) :
    0x60000000 ≤ addr ∧ addr % 4096 = 0 ∧ addr < 2 ^ 32 ∧ a.length ≤ 0x7FFFF000 := by
  obtain ⟨hle, hfree, hcase⟩ := mmapAddr_eq_some haddr
  split at hcase
  case isTrue hfixed =>
    obtain ⟨rfl, -⟩ := hcase
    exact ⟨hle, (hreg hfixed).1, hwords.1, (hreg hfixed).2⟩
  case isFalse =>
    refine ⟨hle, hcase.1, by omega, ?_⟩
    by_contra hbig
    rw [pgRoundUpInt_of_lt (by omega) hwords.2, show ofInt (-2 ^ 31) = 2 ^ 31 by decide,
      isRegionFree_of_half hhalf hcase.1 (by omega) hcase.2] at hfree
    cases hfree

/-- What a page loop that has run to its end leaves behind. -/
structure Filled (k : Kernel) (p : Fin nProc) (addr i : Nat) (k' : Kernel) : Prop where
  below : 0 < i → addr + i ≤ 0xFE000000
  keeps : (k.procs p).pgdir.Keeps (k'.procs p).pgdir
  fresh : ∀ b, Behind addr i b →
    (k.procs p).pgdir.lookup b = none ∧ (k'.procs p).pgdir.present b = true

theorem Filled.added {k1 : Kernel} {i frame : Nat} (h : Filled k p addr i k1)
    (hlt : addr + i < 0xFE000000) (hi : i % 4096 = 0) (halign : addr % 4096 = 0)
    (hadd : PageAdded k1 p (addr + i) frame k') : Filled k p addr (i + 4096) k' := by
  refine ⟨fun _ => by omega, h.keeps.trans hadd.keeps, fun b hb => ?_⟩
  rcases behind_succ hi hb with hb | hpage
  · obtain ⟨hnone, hpresent⟩ := h.fresh b hb
    exact ⟨hnone, hadd.keeps.present hpresent⟩
  · refine ⟨?_, ?_⟩
    · cases hold : (k.procs p).pgdir.lookup b with
      | none => rfl
      | some e =>
          have hnew := h.keeps b e hold
          rw [Pgdir.lookup_congr _ hpage, hadd.absent] at hnew
          cases hnew
    · simp [Pgdir.present, hadd.lookup, hpage]

theorem filled_of_mmapLoop {n : Nat}
    (h : Kernel.mmapLoop p a addr n 0 k = .ok (k', true)) (halign : addr % 4096 = 0)
    (hlt : addr < 2 ^ 32) (hhalf : KernelHalf (k.procs p).pgdir) :
    Filled k p addr (n * 4096) k' := by
  have h0 : Filled k p addr 0 k :=
    ⟨fun h => absurd h (lt_irrefl 0), Pgdir.Keeps.refl _, fun b ⟨m, hm, _⟩ => by omega⟩
  have := mmapLoop_induct (P := fun i k1 => Filled k p addr i k1)
    (fun i frame k1 k2 hfill hbelow hi hadd => hfill.added hbelow hi halign hadd)
    h halign rfl hlt (fun h => absurd h (lt_irrefl 0)) hhalf h0
  simpa using this

/-- A regular call keeps the table tidy, and records what it returns in the first slot
whose `addr` is null. -/
theorem Tidy.mmap {r : Int} (ht : Tidy k p) (hwords : a.Words)
    (hreg : 0 < a.length → has a.flags mapFixed = true →
      (mmapAddr (k.procs p).pgdir a).isSome = true → a.addr % 4096 = 0 ∧ a.length ≤ 0x7FFFF000)
    (h : k.mmap p a = .ok (k', r)) :
    Tidy k' p ∧ ((r = -1 ∧ (k'.procs p).vmas = (k.procs p).vmas) ∨
      ∃ (addr : Nat) (j : Fin nVma) (v : Vma), r = addr ∧ mmapSlot (k.procs p).vmas = some j ∧
        (k'.procs p).vmas = Function.update (k.procs p).vmas j v ∧ v.valid = true ∧
        0x60000000 ≤ addr ∧ v.addr = addr ∧ (v.endAddr : Int) = addr + a.length) := by
  cases mmap_outcome h with
  | refused => exact ⟨ht, Or.inl ⟨rfl, rfl⟩⟩
  | gaveUp hlength haddr hslot hloop =>
      obtain ⟨-, halign, hlt, -⟩ := mmapAddr_regular ht.half hwords
        (fun hfixed => hreg hlength hfixed (by rw [haddr]; rfl)) haddr
      obtain ⟨s, rfl⟩ := mmapLoop_space hloop
      have hkeeps : (k.procs p).pgdir.Keeps ((k.setSpace p s).procs p).pgdir := fun b e hb =>
        mmapLoop_keeps hloop halign rfl hlt (fun h => absurd h (lt_irrefl 0)) ht.half hb
          fun hnew => hnew.elim fun m hm => by omega
      have hvmas : ((k.setSpace p s).procs p).vmas = (k.procs p).vmas := by simp
      refine ⟨⟨hkeeps.kernelHalf ht.half, ?_, ?_⟩, Or.inl ⟨rfl, hvmas⟩⟩
      · rw [hvmas]
        exact fun j hj b hb => hkeeps.present (ht.present j hj b hb)
      · rw [hvmas]
        exact ht.disjoint
  | @mapped addr j k1 f hlength haddr hslot hloop hf =>
      obtain ⟨hstart, halign, hlt, hbound⟩ := mmapAddr_regular ht.half hwords
        (fun hfixed => hreg hlength hfixed (by rw [haddr]; rfl)) haddr
      have hfill := filled_of_mmapLoop hloop halign hlt ht.half
      obtain ⟨s, rfl⟩ := mmapLoop_space hloop
      rw [pgRoundUpInt_of_le hlength hbound] at hfill
      have hpages : a.length ≤ (((a.length + 4095) / 4096 * 4096).toNat / 4096 * 4096 : Nat) ∧
          0 < ((a.length + 4095) / 4096 * 4096).toNat / 4096 * 4096 := by omega
      generalize ((a.length + 4095) / 4096 * 4096).toNat / 4096 * 4096 = size at hfill hpages
      have hbelow := hfill.below hpages.2
      have hend : ((uint (addr + ofInt a.length) : Nat) : Int) = addr + a.length := by
        simp only [uint, ofInt]
        omega
      generalize hv : ({ mmapRecord a addr (((k.setSpace p s).procs p).vmas j) with
        pf := f } : Vma) = v
      obtain ⟨hvalid, hvaddr, hvend⟩ : v.valid = true ∧ v.addr = addr ∧
          (v.endAddr : Int) = addr + a.length := by
        rw [← hv]
        exact ⟨rfl, rfl, hend⟩
      have hvmas : (((k.setSpace p s).setVma p j v).procs p).vmas =
          Function.update (k.procs p).vmas j v := by simp [Kernel.setVma]
      have hpgdir : (((k.setSpace p s).setVma p j v).procs p).pgdir =
          ((k.setSpace p s).procs p).pgdir := by simp [Kernel.setVma]
      -- The new record lies on pages that were absent before the call.
      have hnew : ∀ b, v.Covers b → Behind addr size b := by
        rintro b ⟨hle, hb⟩
        refine ⟨(b - addr) / 4096, by omega, ?_⟩
        simp only [pageOf]
        omega
      refine ⟨⟨?_, ?_, ?_⟩, Or.inr ⟨addr, j, v, rfl, hslot, hvmas, hvalid, hstart, hvaddr,
        hvend⟩⟩
      · rw [hpgdir]
        exact hfill.keeps.kernelHalf ht.half
      · rw [hvmas, hpgdir]
        intro i hi b hb
        rcases eq_or_ne i j with rfl | hne
        · rw [Function.update_self] at hb
          exact (hfill.fresh b (hnew b hb)).2
        · rw [Function.update_of_ne hne] at hi hb
          exact hfill.keeps.present (ht.present i hi b hb)
      · rw [hvmas]
        have hold : ∀ i, i ≠ j → ((k.procs p).vmas i).valid = true → ∀ b,
            ((k.procs p).vmas i).Covers b → ¬v.Covers b := by
          intro i _ hi b hb hvb
          have hpresent := ht.present i hi b hb
          simp [Pgdir.present, (hfill.fresh b (hnew b hvb)).1] at hpresent
        intro i i' hne hi hi' b hb hb'
        rcases eq_or_ne i j with rfl | hij
        · rw [Function.update_of_ne hne.symm] at hi' hb'
          rw [Function.update_self] at hb
          exact hold i' hne.symm hi' b hb' hb
        · rw [Function.update_of_ne hij] at hi hb
          rcases eq_or_ne i' j with rfl | hij'
          · rw [Function.update_self] at hb'
            exact hold i hij hi b hb hb'
          · rw [Function.update_of_ne hij'] at hi' hb'
            exact ht.disjoint i i' hne hi hi' b hb hb'

end Mmap

/-! ## The law over a run -/

section Law

variable {p : Fin nProc} {s0 s s' : Session} {calls : List MapCall}

/-- Every established mapping is still recorded in its slot. -/
def Recorded (p : Fin nProc) (s : Session) : Prop :=
  ∀ m ∈ s.mappings, ((s.kernel.procs p).vmas m.slot).valid = true ∧
    ((s.kernel.procs p).vmas m.slot).addr = m.addr ∧
    (((s.kernel.procs p).vmas m.slot).endAddr : Int) = m.addr + m.length ∧ 0 < m.addr

/-- What holds along a run without `munmap`. -/
structure MapsOnly (p : Fin nProc) (s : Session) : Prop where
  tidy : Tidy s.kernel p
  recorded : Recorded p s

theorem MapsOnly.mmap {args : MmapArgs} (h : MapsOnly p s)
    (hstep : RegularStep p s (.mmap args) s') : MapsOnly p s' := by
  obtain ⟨hstep, hreg⟩ := hstep
  cases hstep with
  | @failed k k' _ live hwords hcall =>
      obtain ⟨htidy, hcase⟩ := h.tidy.mmap hwords hreg hcall
      refine ⟨htidy, ?_⟩
      rcases hcase with ⟨-, hvmas⟩ | ⟨addr, j, v, hr, -⟩
      · intro m hm
        simpa only [hvmas] using h.recorded m hm
      · omega
  | @mapped k k' _ live addr j hwords hslot hcall =>
      obtain ⟨htidy, hcase⟩ := h.tidy.mmap hwords hreg hcall
      refine ⟨htidy, ?_⟩
      rcases hcase with ⟨hr, -⟩ | ⟨addr', j', v, hr, hslot', hvmas, hv, hlow, haddr, hend⟩
      · omega
      · obtain rfl : j = j' := Option.some.inj (hslot.symm.trans hslot')
        obtain rfl : addr = addr' := by exact_mod_cast hr
        intro m hm
        simp only [hvmas]
        rcases List.mem_cons.mp hm with rfl | hm
        · rw [Function.update_self]
          exact ⟨hv, haddr, hend, by simp only; omega⟩
        · obtain ⟨hmv, hma, hme, hpos⟩ := h.recorded m hm
          have hne : m.slot ≠ j := by
            rintro rfl
            have hnull := mmapSlot_eq_some hslot
            exact absurd (hnull ▸ hma) (by omega)
          rw [Function.update_of_ne hne]
          exact ⟨hmv, hma, hme, hpos⟩

/-- The slot that `munmap` selects, on a table of disjoint records. -/
theorem munmapSlot_of_disjoint {vmas : Fin nVma → Vma} (hd : VmasDisjoint vmas) {j : Fin nVma}
    {b : Nat} (hvalid : (vmas j).valid = true) (hb : (vmas j).Covers b) :
    munmapSlot vmas b = some j := by
  have hmatch : ((vmas j).valid && decide ((vmas j).addr ≤ b ∧ b < (vmas j).endAddr)) = true := by
    rw [hvalid, Bool.true_and, decide_eq_true_eq]
    exact hb
  cases hfind : munmapSlot vmas b with
  | none =>
      have := List.find?_eq_none.mp hfind j (List.mem_finRange j)
      exact absurd hmatch this
  | some i =>
      have hi := List.find?_some hfind
      simp only [Bool.and_eq_true, decide_eq_true_eq] at hi
      by_contra hne
      exact hd i j (fun hij => hne (by rw [hij])) hi.1 hvalid b hi.2 hb

theorem MapsOnly.selectsLatest (h : MapsOnly p s) : SelectsLatest p s := by
  intro b m hm
  have hcovers : m.Covers b := by simpa using List.find?_some hm
  obtain ⟨hvalid, haddr, hend, -⟩ := h.recorded m (List.mem_of_find?_eq_some hm)
  refine munmapSlot_of_disjoint h.tidy.disjoint hvalid ?_
  simp only [Mapping.Covers] at hcovers
  simp only [Vma.Covers]
  omega

/-- No call empties a slot whose `addr` is not null. -/
theorem MapStep.addr_ne_zero {c : MapCall} (h : MapStep p s c s') {j : Fin nVma}
    (hj : ((s.kernel.procs p).vmas j).addr ≠ 0) : ((s'.kernel.procs p).vmas j).addr ≠ 0 := by
  have hmmap : ∀ {k k' a} {r : Int}, ((k.procs p).vmas j).addr ≠ 0 →
      Kernel.mmap k p a = .ok (k', r) → ((k'.procs p).vmas j).addr ≠ 0 := by
    intro k k' a r hj hcall
    cases mmap_outcome hcall with
    | refused => exact hj
    | gaveUp _ _ _ hloop =>
        obtain ⟨s, rfl⟩ := mmapLoop_space hloop
        simpa using hj
    | @mapped addr i k1 f _ haddr hslot hloop _ =>
        obtain ⟨s, rfl⟩ := mmapLoop_space hloop
        rcases eq_or_ne j i with rfl | hne
        · exact absurd (mmapSlot_eq_some hslot) hj
        · simpa [Kernel.setVma, Function.update_of_ne hne] using hj
  cases h with
  | failed _ hcall => exact hmmap hj hcall
  | mapped _ _ hcall => exact hmmap hj hcall
  | unmapped _ hcall =>
      simpa only [(SpaceAndFiles.of_munmap hcall).vmas] using hj

/-- A call that returns an address has recorded it. -/
theorem mmap_records {k k' : Kernel} {a : MmapArgs} {addr : Nat} {j : Fin nVma}
    (hslot : mmapSlot (k.procs p).vmas = some j) (h : k.mmap p a = .ok (k', addr)) :
    ((k'.procs p).vmas j).addr = addr ∧ 0x60000000 ≤ addr := by
  generalize hr : (addr : Int) = r at h
  cases mmap_outcome h with
  | refused => omega
  | gaveUp => omega
  | mapped _ haddr hslot' hloop _ =>
      obtain ⟨s, rfl⟩ := mmapLoop_space hloop
      obtain rfl := Option.some.inj (hslot.symm.trans hslot')
      obtain rfl : addr = _ := by exact_mod_cast hr
      exact ⟨by simp [Kernel.setVma, mmapRecord], (mmapAddr_eq_some haddr).1⟩

/-- The slot of every established mapping is in use. -/
theorem slots_in_use (hrun : Run (RegularStep p) s0 calls s) (h0 : s0.mappings = []) :
    ∀ m ∈ s.mappings, ((s.kernel.procs p).vmas m.slot).addr ≠ 0 := by
  refine hrun.invariant (P := fun s => ∀ m ∈ s.mappings,
    ((s.kernel.procs p).vmas m.slot).addr ≠ 0) ?_ (by simp [h0])
  intro s c s' hs ⟨hstep, _⟩ m hm
  have hold := hstep.addr_ne_zero (j := m.slot)
  cases hstep with
  | failed _ _ => exact hold (hs m hm)
  | mapped _ hslot hcall =>
      rcases List.mem_cons.mp hm with rfl | hm
      · obtain ⟨haddr, hlow⟩ := mmap_records hslot hcall
        simp only at haddr ⊢
        omega
      · exact hold (hs m hm)
  | unmapped _ _ => exact hold (hs m (List.mem_of_mem_erase hm))

/-! ## Running calls -/

instance (a : MmapArgs) : Decidable a.Words := inferInstanceAs (Decidable (_ ∧ _))

instance (p : Fin nProc) (s : Session) : (c : MapCall) → Decidable (Regular p s c)
  | .mmap _ => inferInstanceAs (Decidable (_ → _ → _ → _))
  | .munmap _ => inferInstanceAs (Decidable True)

/-- Serve one call, if it may be made. -/
def stepMap (p : Fin nProc) (s : Session) (c : MapCall) : Option Session :=
  if Regular p s c then
    match c with
    | .mmap a =>
        match mmapSlot (s.kernel.procs p).vmas, s.kernel.mmap p a with
        | some j, .ok (k', .ofNat addr) =>
            if a.Words then some ⟨k', ⟨addr, a.length, j⟩ :: s.mappings⟩ else none
        | _, _ => none
    | .munmap m =>
        match s.kernel.munmap p m.addr m.length with
        | .ok (k', 0) => if m ∈ s.mappings then some ⟨k', s.mappings.erase m⟩ else none
        | _ => none
  else none

def runMaps (p : Fin nProc) : Session → List MapCall → Option Session
  | s, [] => some s
  | s, c :: rest => (stepMap p s c).bind fun s => runMaps p s rest

theorem regularStep_of_stepMap {c : MapCall} (h : stepMap p s c = some s') :
    RegularStep p s c s' := by
  unfold stepMap at h
  split at h
  case isFalse => cases h
  case isTrue hreg =>
    refine ⟨?_, hreg⟩
    cases c with
    | mmap a =>
        dsimp only at h
        split at h
        case h_1 j k' addr hslot hcall =>
          split at h
          case isTrue hwords =>
            obtain rfl := Option.some.inj h
            exact .mapped hwords hslot hcall
          case isFalse => cases h
        · cases h
    | munmap m =>
        dsimp only at h
        split at h
        case h_1 k' hcall =>
          split at h
          case isTrue hm =>
            obtain rfl := Option.some.inj h
            exact .unmapped hm hcall
          case isFalse => cases h
        · cases h

theorem run_of_runMaps (h : runMaps p s calls = some s') : Run (RegularStep p) s calls s' := by
  induction calls generalizing s with
  | nil =>
      obtain rfl := Option.some.inj h
      exact Run.nil
  | cons c rest ih =>
      obtain ⟨s1, hstep, hrest⟩ := Option.bind_eq_some_iff.mp h
      exact (Run.single (regularStep_of_stepMap hstep)).append (ih hrest)

/-- An anonymous private mapping of one page. -/
def onePage : MmapArgs := ⟨0, 4096, 3, mapPrivate ||| mapAnonymous, -1, 0⟩

/-! ## The law -/

/-- In a run of regular calls from a tidy table, the law of mapping and unmapping holds
exactly when nothing is unmapped. -/
theorem mapping_law_iff {k : Kernel} (htidy : Tidy k p)
    (hrun : Run (RegularStep p) ⟨k, []⟩ calls s) :
    MapLaw p ⟨k, []⟩ calls ↔ ∀ m, .munmap m ∉ calls := by
  constructor
  · intro hlaw m hm
    obtain ⟨pre, post, rfl⟩ := List.append_of_mem hm
    obtain ⟨s1, hpre, hrest⟩ := hrun.split
    rw [show MapCall.munmap m :: post = [.munmap m] ++ post from rfl] at hrest
    obtain ⟨s2, hone, -⟩ := hrest.split
    have hstep := hone.step_of_single
    have hfree := (hlaw pre s1 (List.prefix_append _ _) hpre).2.2 m s2
      ⟨post, by simp⟩ hstep
    -- The slot was in use before the call, and `munmap` has not touched it.
    cases hstep.1 with
    | unmapped hlive hcall =>
        refine slots_in_use hpre rfl m hlive ?_
        have hvmas := (SpaceAndFiles.of_munmap hcall).vmas
        simp only at hfree ⊢
        rw [← hvmas]
        exact hfree.1
  · intro hnone pre s' hpre hrun'
    have hmaps : MapsOnly p s' := by
      refine hrun'.invariant_of_mem (P := MapsOnly p) ?_ ⟨htidy, by simp [Recorded]⟩
      intro t c u hc ht hstep
      cases c with
      | mmap args => exact ht.mmap hstep
      | munmap m => exact absurd (hpre.subset hc) (hnone m)
    refine ⟨hmaps.tidy.disjoint, hmaps.selectsLatest, fun m s'' hm _ => ?_⟩
    exact absurd (hm.subset (List.mem_append_right _ (List.mem_singleton_self _))) (hnone m)

/-- Two mappings after boot: the law holds along the run. -/
theorem mapping_law_iff_run : ∃ k calls s, bootKernel 80 [] = .ok k ∧ calls.length = 2 ∧
    Run (RegularStep k.initproc) ⟨k, []⟩ calls s ∧ MapLaw k.initproc ⟨k, []⟩ calls := by
  obtain ⟨k, hk, hrun⟩ := @exists_ok _ (bootKernel 80 [])
    (fun k => (runMaps k.initproc ⟨k, []⟩ [.mmap onePage, .mmap onePage]).isSome)
    (by decide +kernel)
  obtain ⟨s, hs⟩ := Option.isSome_iff_exists.mp hrun
  obtain ⟨hhalf, hno⟩ := userinit_eq_ok hk
  exact ⟨k, _, s, hk, rfl, run_of_runMaps hs,
    (mapping_law_iff (Tidy.of_noMapping hno hhalf) (run_of_runMaps hs)).mpr (by simp)⟩

/-- One page is mapped and unmapped after boot. Its slot stays in use. -/
theorem unmapped_slot_stays_in_use :
    ¬∀ p k calls s, Tidy k p → Run (RegularStep p) ⟨k, []⟩ calls s → MapLaw p ⟨k, []⟩ calls := by
  intro hlaw
  obtain ⟨k, hk, hrun⟩ := @exists_ok _ (bootKernel 80 []) (fun k =>
    (runMaps k.initproc ⟨k, []⟩ [.mmap onePage]).any fun s =>
      (runMaps k.initproc s [.munmap ⟨0x60000000, 4096, 0⟩]).any fun s' =>
        ((s'.kernel.procs k.initproc).vmas 0).addr == 0x60000000)
    (by decide +kernel)
  obtain ⟨hhalf, hno⟩ := userinit_eq_ok hk
  obtain ⟨s, hs, hrest⟩ := (Option.any_eq_true _ _).mp hrun
  obtain ⟨s', hs', haddr⟩ := (Option.any_eq_true _ _).mp hrest
  have hmap := run_of_runMaps hs
  have hunmap := (run_of_runMaps hs').step_of_single
  have hfree := (hlaw k.initproc k _ s' (Tidy.of_noMapping hno hhalf)
    (hmap.append (run_of_runMaps hs')) _ s (List.prefix_append _ _) hmap).2.2 _ s'
    (List.prefix_refl _) hunmap
  rw [beq_iff_eq] at haddr
  exact absurd (haddr.symm.trans hfree.1) (by decide)

end Law

end OSProjects.Xv6
