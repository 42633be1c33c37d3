import Mathlib.Order.Bounds.Basic
import OSProjects.Xv6.PageLoop
import OSProjects.Xv6.VmaTable

/-!
# Where `mmap` places a region, and how it fails

Without `MAP_FIXED` the region is the first fit from `VMA_START` on. The path does not
test the upper bound: the kernel page at `VMA_END` is what keeps the region below it.
-/

namespace OSProjects.Xv6

variable {k k' : Kernel} {p : Fin nProc} {a : MmapArgs} {d : Pgdir}

/-! ## Sizes and regions -/

/-- The pages that a length takes, `PGROUNDUP(length) / PGSIZE` without wrap-around. -/
def pageCount (length : Int) : Nat := (length.toNat + (pgSize - 1)) / pgSize

/-- The turns of the page loop of `mmap`. -/
def mmapTurns (length : Int) : Nat := (pgRoundUpInt length).toNat / pgSize

section Sizes

variable {length : Int}

/-- Read as unsigned, `alloc_length` is the rounded length even where the sum overflows. -/
theorem ofInt_pgRoundUpInt (h0 : 0 < length) (hlt : length < 2 ^ 31) :
    ofInt (pgRoundUpInt length) = pageCount length * 4096 := by
  simp only [ofInt, pgRoundUpInt, int32, pageCount, pgSize]
  omega

theorem mmapTurns_of_le (h0 : 0 < length) (h : length ≤ 0x7FFFF000) :
    mmapTurns length = pageCount length := by
  rw [mmapTurns, pgRoundUpInt_of_le h0 h]
  simp only [pageCount, pgSize]
  omega

theorem mmapTurns_of_lt (h : 0x7FFFF000 < length) (hlt : length < 2 ^ 31) :
    mmapTurns length = 0 := by
  rw [mmapTurns, pgRoundUpInt_of_lt h hlt]
  rfl

theorem pageCount_pos (h0 : 0 < length) : 0 < pageCount length := by
  simp only [pageCount, pgSize]
  omega

theorem pageCount_le (hlt : length < 2 ^ 31) : pageCount length ≤ 2 ^ 19 := by
  simp only [pageCount, pgSize]
  omega

end Sizes

/-- `is_region_free` over whole pages that do not reach the end of the address space. -/
theorem isRegionFree_iff {addr n : Nat} (h : addr + n * 4096 < 2 ^ 32) :
    isRegionFree d addr (n * 4096) = true ↔
      ∀ m, m < n → d.lookup (addr + m * 4096) = none := by
  have hcount : (uint (addr + n * 4096) - addr + (pgSize - 1)) / pgSize = n := by
    simp only [uint, pgSize]
    omega
  rw [isRegionFree, hcount, Pgdir.allAbsent_iff]

/-- No page of `[x, x + size)` is present, and `x` is a page of the window or above. -/
def Fits (d : Pgdir) (size x : Nat) : Prop :=
  vmaStart ≤ x ∧ x % pgSize = 0 ∧ ∀ b, x ≤ b → b < x + size → d.present b = false

theorem fits_iff {x n : Nat} (hx : vmaStart ≤ x) (halign : x % 4096 = 0) :
    Fits d (n * 4096) x ↔ ∀ m, m < n → d.lookup (x + m * 4096) = none := by
  constructor
  · rintro ⟨-, -, h⟩ m hm
    have habsent := h (x + m * 4096) (by omega) (by omega)
    simpa [Pgdir.present] using habsent
  · refine fun h => ⟨hx, halign, fun b hle hlt => ?_⟩
    have hpage : pageOf b = pageOf (x + (b - x) / 4096 * 4096) := by
      simp only [pageOf]
      omega
    rw [Pgdir.present_congr _ hpage, Pgdir.present, h _ (by omega)]
    rfl

theorem isRegionFree_iff_fits {x n : Nat} (hx : vmaStart ≤ x) (halign : x % 4096 = 0)
    (h : x + n * 4096 < 2 ^ 32) : isRegionFree d x (n * 4096) = true ↔ Fits d (n * 4096) x := by
  rw [isRegionFree_iff h, fits_iff hx halign]

/-- A region that starts below the kernel and is free ends below it. -/
theorem Fits.le_vmaEnd {x size : Nat} (h : Fits d size x) (hhalf : KernelHalf d)
    (hlt : x < vmaEnd) : x + size ≤ vmaEnd := by
  by_contra hover
  have habsent := h.2.2 kernBase (by simp only [vmaEnd, kernBase] at *; omega)
    (by simp only [vmaEnd, kernBase] at *; omega)
  rw [hhalf.base] at habsent
  cases habsent

section Search

variable {size addr n x c : Nat}

/-- The search passes over regions that are not free. -/
theorem findRegion_before (h : findRegion d size addr n = some x) (hle : addr ≤ c) (hlt : c < x)
    (halign : c % 4096 = addr % 4096) : isRegionFree d c size = false := by
  induction n generalizing addr with
  | zero => simp [findRegion] at h
  | succ n ih =>
      rw [findRegion] at h
      split at h
      case isTrue =>
        obtain rfl := Option.some.inj h
        omega
      case isFalse hfree =>
        rcases Nat.eq_or_lt_of_le hle with rfl | hgt
        · simpa using hfree
        · exact ih h (by simp only [pgSize]; omega) (by simp only [pgSize]; omega)

theorem findRegion_none (h : findRegion d size addr n = none) (hle : addr ≤ c)
    (hlt : c < addr + n * 4096) (halign : c % 4096 = addr % 4096) :
    isRegionFree d c size = false := by
  induction n generalizing addr with
  | zero => omega
  | succ n ih =>
      rw [findRegion] at h
      split at h
      case isTrue => cases h
      case isFalse hfree =>
        rcases Nat.eq_or_lt_of_le hle with rfl | hgt
        · simpa using hfree
        · rw [Nat.succ_mul] at hlt
          exact ih h (by simp only [pgSize]; omega) (by simp only [pgSize]; omega)
            (by simp only [pgSize]; omega)

end Search

/-! ## Failing allocations -/

/-- `kalloc` fails for the page at `va`, or for the page table that it needs. -/
def Kernel.KallocFails (k : Kernel) (p : Fin nProc) (va : Nat) : Prop :=
  k.mem.kalloc = none ∨
    ∃ frame mem, k.mem.kalloc = some (frame, mem) ∧
      Space.walkAlloc ⟨mem, (k.procs p).pgdir⟩ va = none

/-- During the call, `kalloc` fails at some turn of the page loop. -/
def AllocFails (k : Kernel) (p : Fin nProc) (a : MmapArgs) (addr : Nat) : Prop :=
  ∃ i k1, i < mmapTurns a.length ∧ k.mmapLoop p a addr i 0 = .ok (k1, true) ∧
    k1.KallocFails p (addr + i * pgSize)

/-- An allocation fails exactly where the free frames do not suffice for the page. -/
theorem kallocFails_iff {va : Nat} : k.KallocFails p va ↔
    k.mem.freelist.length < pageNeeds (k.procs p).pgdir va := by
  cases hl : k.mem.freelist with
  | nil =>
      have hnone := Mem.kalloc_nil hl
      simp only [Kernel.KallocFails, hnone, true_or, List.length_nil, pageNeeds, true_iff]
      omega
  | cons f rest =>
      simp only [Kernel.KallocFails, Mem.kalloc_cons hl, Space.walkAlloc_eq_none, Mem.kalloc_eq_none,
        ← Pgdir.tableFrame_eq_none, pageNeeds, List.length_cons]
      by_cases ht : (k.procs p).pgdir.tableFrame (pdx va) = none
      · cases rest with
        | nil => simp [ht]
        | cons g rest => simp [ht]
      · simp [ht]

/-- A turn gives up only where an allocation fails. -/
theorem kallocFails_of_mmapPage {addr i : Nat} (halign : (addr + i) % 4096 = 0)
    (hlt : addr + i < 2 ^ 32) (h : k.mmapPage p a addr i = .ok (k', false)) :
    k.KallocFails p (addr + i) := by
  have hva : uint (addr + i) = addr + i := Nat.mod_eq_of_lt hlt
  rw [Kernel.mmapPage] at h
  split at h
  case h_1 hk => exact Or.inl hk
  case h_2 frame mem hk =>
    refine Or.inr ⟨frame, mem, hk, ?_⟩
    rw [hva, Space.mappages_aligned halign hlt] at h
    split at h
    · simp at h
    case h_2 s hm =>
      obtain ⟨htable, hnil⟩ := Space.mapPage_false hm
      exact Space.walkAlloc_eq_none.mpr ⟨htable, Mem.kalloc_nil hnil⟩
    case h_3 =>
      split at h
      · simp at h
      · split at h <;> simp at h

theorem exists_failing_mmapPage {addr n i : Nat} (h : k.mmapLoop p a addr n i = .ok (k', false)) :
    ∃ j k1, j < n ∧ k.mmapLoop p a addr j i = .ok (k1, true) ∧
      k1.mmapPage p a addr (i + j * 4096) = .ok (k', false) := by
  induction n generalizing i k with
  | zero => simp [Kernel.mmapLoop] at h
  | succ n ih =>
      rw [Kernel.mmapLoop] at h
      split at h
      · simp at h
      case h_2 k1 hturn =>
        simp only [Except.ok.injEq, Prod.mk.injEq, and_true] at h
        subst h
        exact ⟨0, k, by omega, rfl, by simpa using hturn⟩
      case h_3 k1 hturn =>
        obtain ⟨j, k2, hj, hloop, hfail⟩ := ih h
        refine ⟨j + 1, k2, by omega, ?_, ?_⟩
        · rw [Kernel.mmapLoop, hturn]
          exact hloop
        · rwa [Nat.succ_mul, Nat.add_comm (j * 4096), ← Nat.add_assoc]

/-! ## The outcome of a call -/

theorem mmap_eq {addr : Nat} {j : Fin nVma} (hlength : 0 < a.length)
    (haddr : mmapAddr (k.procs p).pgdir a = some addr)
    (hslot : mmapSlot (k.procs p).vmas = some j) : k.mmap p a =
      match k.mmapLoop p a addr (mmapTurns a.length) 0 with
      | .error h => .error h
      | .ok (k, false) => .ok (k, -1)
      | .ok (k, true) =>
          let record := mmapRecord a addr ((k.procs p).vmas j)
          if has a.flags mapAnonymous then .ok (k.setVma p j record, addr)
          else
            match k.ofileAt p a.fd with
            | .error h => .error h
            | .ok f => .ok (k.setVma p j { record with pf := f }, addr) := by
  rw [Kernel.mmap, if_neg (by omega), haddr]
  simp only [hslot]
  rfl

theorem mmap_of_noAddr (haddr : mmapAddr (k.procs p).pgdir a = none) :
    k.mmap p a = .ok (k, -1) := by
  rw [Kernel.mmap, haddr]
  split <;> rfl

theorem mmap_of_noSlot (hslot : mmapSlot (k.procs p).vmas = none) :
    k.mmap p a = .ok (k, -1) := by
  rw [Kernel.mmap, hslot]
  split
  · rfl
  · split <;> rfl

/-- A page that the loop adds, in an address space whose upper end stays mapped. -/
theorem mmapLoop_present {addr n : Nat} (h : k.mmapLoop p a addr n 0 = .ok (k', true))
    (halign : addr % 4096 = 0) (hlt : addr < 2 ^ 32) (hhalf : KernelHalf (k.procs p).pgdir)
    (b : Nat) : (k'.procs p).pgdir.present b = true ↔
      (k.procs p).pgdir.present b = true ∨ Behind addr (n * 4096) b := by
  have h0 : ∀ b, (k.procs p).pgdir.present b = true ↔
      (k.procs p).pgdir.present b = true ∨ Behind addr 0 b := fun b =>
    ⟨Or.inl, fun h => h.resolve_right fun ⟨m, hm, _⟩ => by omega⟩
  have hstep : ∀ i frame k1 k2, (∀ b, (k1.procs p).pgdir.present b = true ↔
      (k.procs p).pgdir.present b = true ∨ Behind addr i b) → addr + i < 0xFE000000 →
      i % 4096 = 0 → PageAdded k1 p (addr + i) frame k2 →
      ∀ b, (k2.procs p).pgdir.present b = true ↔
        (k.procs p).pgdir.present b = true ∨ Behind addr (i + 4096) b := by
    intro i frame k1 k2 hP _ hi hadd b
    rw [Pgdir.present, hadd.lookup]
    by_cases hpage : pageOf b = pageOf (addr + i)
    · rw [if_pos hpage]
      refine ⟨fun _ => Or.inr ⟨i / 4096, by omega, ?_⟩, fun _ => rfl⟩
      rwa [show addr + i / 4096 * 4096 = addr + i by omega]
    · rw [if_neg hpage]
      refine (hP b).trans (or_congr_right ⟨?_, fun hb => ?_⟩)
      · rintro ⟨m, hm, hb⟩
        exact ⟨m, by omega, hb⟩
      · exact (behind_succ hi hb).resolve_right hpage
  have hall := mmapLoop_induct (P := fun i k1 => ∀ b, (k1.procs p).pgdir.present b = true ↔
    (k.procs p).pgdir.present b = true ∨ Behind addr i b) hstep h halign rfl hlt
    (fun h => absurd h (lt_irrefl 0)) hhalf h0 b
  rwa [Nat.zero_add] at hall

/-- Below the end of the address space, the pages behind are those of the region. -/
theorem behind_iff {addr n b : Nat} (halign : addr % 4096 = 0) (hend : addr + n * 4096 ≤ 2 ^ 32)
    (hb : b < 2 ^ 32) : Behind addr (n * 4096) b ↔ addr ≤ b ∧ b < addr + n * 4096 := by
  constructor
  · rintro ⟨m, hm, hpage⟩
    simp only [pageOf] at hpage
    omega
  · rintro ⟨hle, hlt⟩
    refine ⟨(b - addr) / 4096, by omega, ?_⟩
    simp only [pageOf]
    omega

/-- The region that a call without `MAP_FIXED` selects. -/
theorem isLeast_mmapAddr {addr : Nat} (hlength : 0 < a.length) (hword : a.length < 2 ^ 31)
    (hnot : has a.flags mapFixed = false) (haddr : mmapAddr d a = some addr) :
    IsLeast {x | Fits d (pageCount a.length * pgSize) x} addr ∧ addr < vmaEnd := by
  have hcount := pageCount_le hword
  simp only [mmapAddr, hnot, Bool.false_eq_true, if_false,
    ofInt_pgRoundUpInt hlength hword] at haddr
  obtain ⟨hfree, hle, hlt, hmod⟩ := findRegion_eq_some haddr
  simp only [vmaStart, vmaEnd, pgSize] at hle hlt hmod
  refine ⟨⟨(isRegionFree_iff_fits hle (by omega) (by omega)).mp hfree, fun x hx => ?_⟩,
    by simp only [vmaEnd]; omega⟩
  by_contra hbefore
  obtain ⟨hstart, halign, -⟩ := id hx
  simp only [vmaStart, pgSize] at hstart halign
  have hnotfree := findRegion_before haddr hstart (by omega) (by simp only [vmaStart]; omega)
  rw [(isRegionFree_iff_fits hstart halign (by omega)).mpr hx] at hnotfree
  cases hnotfree

/-- `mmap` without `MAP_FIXED` takes the first fit, which ends below the kernel although the
path does not test it, and makes exactly its pages present. It fails only if there is no
fit in the window, no slot, or no frame. -/
theorem first_fit {r : Int} (hhalf : KernelHalf (k.procs p).pgdir) (hlength : 0 < a.length)
    (hword : a.length < 2 ^ 31) (hnot : has a.flags mapFixed = false)
    (h : k.mmap p a = .ok (k', r)) :
    (r ≠ -1 → ∃ addr : Nat, r = addr ∧
      IsLeast {x | Fits (k.procs p).pgdir (pageCount a.length * pgSize) x} addr ∧
      addr + pageCount a.length * pgSize ≤ vmaEnd ∧
      ∀ b, b < 2 ^ 32 → ((k'.procs p).pgdir.present b = true ↔
        (k.procs p).pgdir.present b = true ∨
          (addr ≤ b ∧ b < addr + pageCount a.length * pgSize))) ∧
    (r = -1 →
      (∀ x, Fits (k.procs p).pgdir (pageCount a.length * pgSize) x →
        vmaEnd < x + pageCount a.length * pgSize) ∨
      (∀ j, ((k.procs p).vmas j).addr ≠ 0) ∨
      ∃ addr, mmapAddr (k.procs p).pgdir a = some addr ∧ AllocFails k p a addr) := by
  cases haddr : mmapAddr (k.procs p).pgdir a with
  | none =>
      rw [mmap_of_noAddr haddr] at h
      obtain ⟨rfl, rfl⟩ := Prod.mk.inj (Except.ok.inj h)
      refine ⟨fun hr => absurd rfl hr, fun _ => Or.inl fun x hx => ?_⟩
      have hcount := pageCount_le hword
      have hpos := pageCount_pos hlength
      obtain ⟨hstart, halign, -⟩ := id hx
      simp only [mmapAddr, hnot, Bool.false_eq_true, if_false,
        ofInt_pgRoundUpInt hlength hword] at haddr
      simp only [vmaStart, vmaEnd, pgSize] at hstart halign hx haddr ⊢
      by_contra hin
      have hnotfree := findRegion_none haddr hstart (by omega) (by omega)
      rw [(isRegionFree_iff_fits hstart halign (by omega)).mpr hx] at hnotfree
      cases hnotfree
  | some addr =>
      obtain ⟨hleast, hlt⟩ := isLeast_mmapAddr hlength hword hnot haddr
      have hend := hleast.1.le_vmaEnd hhalf hlt
      obtain ⟨hstart, halign, -⟩ := id hleast.1
      have hpos := pageCount_pos hlength
      simp only [vmaStart, vmaEnd, pgSize] at hstart halign hlt hend
      have hturns : mmapTurns a.length = pageCount a.length :=
        mmapTurns_of_le hlength (by simp only [pageCount, pgSize] at hend; omega)
      cases hslot : mmapSlot (k.procs p).vmas with
      | none =>
          rw [mmap_of_noSlot hslot] at h
          obtain ⟨rfl, rfl⟩ := Prod.mk.inj (Except.ok.inj h)
          refine ⟨fun hr => absurd rfl hr, fun _ => Or.inr (Or.inl fun j => ?_)⟩
          simpa using List.find?_eq_none.mp hslot j (List.mem_finRange j)
      | some j =>
          rw [mmap_eq hlength haddr hslot] at h
          cases hloop : k.mmapLoop p a addr (mmapTurns a.length) 0 with
          | error e => simp [hloop] at h
          | ok r1 =>
              obtain ⟨k1, _ | _⟩ := r1
              · obtain ⟨i, k2, hi, hrun, hfail⟩ := exists_failing_mmapPage hloop
                rw [Nat.zero_add] at hfail
                simp only [hloop, Except.ok.injEq, Prod.mk.injEq] at h
                obtain ⟨rfl, rfl⟩ := h
                have hkalloc := kallocFails_of_mmapPage
                  (show (addr + i * 4096) % 4096 = 0 by omega) (by omega) hfail
                exact ⟨fun hr => absurd rfl hr, fun _ =>
                  Or.inr (Or.inr ⟨addr, rfl, i, k2, hi, hrun, hkalloc⟩)⟩
              · rw [hturns] at hloop
                have hpresent := mmapLoop_present hloop halign (by omega) hhalf
                have hresult : r = addr ∧ (k'.procs p).pgdir = (k1.procs p).pgdir := by
                  rw [hturns, hloop] at h
                  dsimp only at h
                  split at h
                  · obtain ⟨rfl, rfl⟩ := Prod.mk.inj (Except.ok.inj h)
                    simp [Kernel.setVma]
                  · split at h
                    · cases h
                    · obtain ⟨rfl, rfl⟩ := Prod.mk.inj (Except.ok.inj h)
                      simp [Kernel.setVma]
                obtain ⟨rfl, hpgdir⟩ := hresult
                refine ⟨fun _ => ⟨addr, rfl, hleast, by simpa using hend, fun b hb => ?_⟩,
                  fun hr => by omega⟩
                rw [hpgdir, hpresent b, behind_iff halign (by omega) hb]
                rfl

/-- The first process maps one page after boot. -/
theorem first_fit_run : ∃ k k' : Kernel, bootKernel 80 [] = .ok k ∧
    k.mmap k.initproc onePage = .ok (k', 0x60000000) ∧
    ∃ addr : Nat, (0x60000000 : Int) = addr ∧
      IsLeast {x | Fits (k.procs k.initproc).pgdir (pageCount onePage.length * pgSize) x} addr := by
  obtain ⟨k, hk, hcall⟩ := @exists_ok _ (bootKernel 80 [])
    (fun k => okWith (k.mmap k.initproc onePage) fun x => x.2 == 0x60000000) (by decide +kernel)
  obtain ⟨⟨k', r⟩, hk', hreturn⟩ := exists_ok hcall
  obtain rfl : r = 0x60000000 := beq_iff_eq.mp hreturn
  have hfit := first_fit (userinit_eq_ok hk).1 (by decide) (by decide) (by decide) hk'
  obtain ⟨addr, haddr, hleast, -⟩ := hfit.1 (by decide)
  exact ⟨k, k', hk, hk', addr, haddr, hleast⟩

/-! ## A call that runs out of memory -/

/-- The `i`-th prefix of the loop is what the placed pages say, so a failing allocation
means that the frames do not suffice for the next page. -/
theorem AllocFails.exists_turn {addr : Nat} (h : AllocFails k p a addr) (hsound : k.mem.Sound)
    (hfile : k.HasFile p a) (halign : addr % 4096 = 0)
    (hbound : addr + mmapTurns a.length * 4096 ≤ 0xFE000000)
    (habsent : ∀ j, j < mmapTurns a.length →
      (k.procs p).pgdir.lookup (addr + j * 4096) = none) :
    ∃ m, m < mmapTurns a.length ∧
      framesNeeded (k.procs p).pgdir addr m ≤ k.mem.freelist.length ∧
      k.mem.freelist.length < framesNeeded (k.procs p).pgdir addr (m + 1) := by
  obtain ⟨m, k1, hm, hrun, hfail⟩ := h
  have hmul : m * 4096 ≤ mmapTurns a.length * 4096 := Nat.mul_le_mul_right 4096 (Nat.le_of_lt hm)
  rcases mmapLoop_places (n := m) hsound hfile halign
    ((Nat.add_le_add_left hmul addr).trans hbound) (fun j hj => habsent j (by omega)) with
    ⟨hframes, frames, tables, k2, rfl, hplaced, hloop⟩ | ⟨-, tables, k2, hloop, -⟩
  · rw [hrun] at hloop
    obtain ⟨rfl, -⟩ := Prod.mk.inj (Except.ok.inj hloop)
    refine ⟨frames.length, hm, hframes, ?_⟩
    have hneeded := hplaced.taken.framesNeeded_succ
    have hlength := hplaced.taken.length_freelist
    have hshort := kallocFails_iff.mp hfail
    simp only [Kernel.space, pgSize] at hneeded hlength hshort
    omega
  · rw [hrun] at hloop
    cases hloop

/-- Whatever allocation fails, `mmap` returns -1 with the table and the pages as they were.
Every frame is free again except those of new page tables, which are empty. -/
theorem mmap_failure_restores {addr : Nat} (hsound : k.mem.Sound) (hlength : 0 < a.length)
    (haddr : mmapAddr (k.procs p).pgdir a = some addr)
    (hslot : (mmapSlot (k.procs p).vmas).isSome = true) (halign : addr % pgSize = 0)
    (hwindow : addr + pageCount a.length * pgSize ≤ vmaEnd) (hfile : k.HasFile p a)
    (hfails : AllocFails k p a addr) :
    ∃ k' tables, k.mmap p a = .ok (k', -1) ∧ (k'.procs p).vmas = (k.procs p).vmas ∧
      (∀ b, (k'.procs p).pgdir.lookup b = (k.procs p).pgdir.lookup b) ∧
      k.mem.freelist.Perm (tables ++ k'.mem.freelist) ∧
      ∀ f ∈ tables, ∃ i t, (k.procs p).pgdir.table i = none ∧
        (k'.procs p).pgdir.table i = some t ∧ t.frame = f ∧ ∀ x, x < 1024 → t.entry x = none := by
  obtain ⟨j, hj⟩ := Option.isSome_iff_exists.mp hslot
  obtain ⟨hstart, hfree, -⟩ := mmapAddr_eq_some haddr
  simp only [pgSize, vmaEnd] at halign hwindow
  have hbig : a.length ≤ 0x20000000 := by
    simp only [pageCount, pgSize] at hwindow
    omega
  have hturns := mmapTurns_of_le hlength (by omega)
  rw [ofInt_pgRoundUpInt hlength (by omega), isRegionFree_iff (by omega), ← hturns] at hfree
  rw [← hturns] at hwindow
  obtain ⟨m, hm, hframes, hout⟩ := hfails.exists_turn hsound hfile halign (by omega) hfree
  have hmul : m * 4096 ≤ mmapTurns a.length * 4096 := Nat.mul_le_mul_right _ hm.le
  obtain ⟨tables, k', hloop, hrestored⟩ := mmapLoop_fails hsound halign (by omega) hm
    (fun _ => hfile) (fun j hj => hfree j (by omega)) hframes hout
  refine ⟨k', tables, by rw [mmap_eq hlength haddr hj, hloop], ?_, hrestored.lookup,
    hrestored.freelist, fun f hf => ?_⟩
  · obtain ⟨s, rfl⟩ := hrestored.space
    simp
  · obtain ⟨i, hi, hnone, hsome⟩ := hrestored.new f hf
    obtain ⟨t, ht, hframe⟩ := Option.map_eq_some_iff.mp hsome
    refine ⟨i, t, (Pgdir.tableFrame_eq_none _ _).mp hnone, ht, hframe, fun x hx => ?_⟩
    have hsame := hrestored.lookup (i * 2 ^ 22 + x * 2 ^ 12)
    have hpdx : pdx (i * 2 ^ 22 + x * 2 ^ 12) = i := by
      simp only [pdx]
      omega
    have hptx : ptx (i * 2 ^ 22 + x * 2 ^ 12) = x := by
      simp only [ptx]
      omega
    rw [Pgdir.lookup, Pgdir.lookup, hpdx, hptx, ht, (Pgdir.tableFrame_eq_none _ _).mp hnone]
      at hsame
    exact hsame

/-- An anonymous private mapping of two pages. -/
def twoPages : MmapArgs := { onePage with length := 8192 }

/-- Two frames are free after boot: one for the first page and one for its table. -/
theorem mmap_failure_restores_run : ∃ k k' : Kernel, bootKernel 70 [] = .ok k ∧
    k.mmap k.initproc twoPages = .ok (k', -1) ∧
    (k'.procs k.initproc).vmas = (k.procs k.initproc).vmas := by
  obtain ⟨k, hk, hcall⟩ := @exists_ok _ (bootKernel 70 []) (fun k =>
    decide (mmapAddr (k.procs k.initproc).pgdir twoPages = some 0x60000000) &&
      (mmapSlot (k.procs k.initproc).vmas).isSome &&
      decide (0 < k.mem.imageEnd) && decide (∀ f ∈ k.mem.freelist, k.mem.Freeable f) &&
      okWith (k.mmapLoop k.initproc twoPages 0x60000000 1 0) fun x =>
        x.2 && x.1.mem.freelist.isEmpty) (by decide +kernel)
  simp only [Bool.and_eq_true, decide_eq_true_eq] at hcall
  obtain ⟨⟨⟨⟨haddr, hslot⟩, himage⟩, hfreeable⟩, hrun⟩ := hcall
  have hfails : AllocFails k k.initproc twoPages 0x60000000 := by
    obtain ⟨⟨k1, done⟩, hloop, hempty⟩ := exists_ok hrun
    obtain ⟨rfl, hempty⟩ := Bool.and_eq_true_iff.mp hempty
    exact ⟨1, k1, by decide, hloop, Or.inl (Mem.kalloc_nil (List.isEmpty_iff.mp hempty))⟩
  obtain ⟨k', tables, hcall, hvmas, -⟩ := mmap_failure_restores ⟨himage, hfreeable⟩ (by decide)
    haddr hslot (by decide) (by decide) (Or.inl (by decide)) hfails
  exact ⟨k, k', hk, hcall, hvmas⟩

end OSProjects.Xv6
