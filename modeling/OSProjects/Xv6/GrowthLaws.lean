import OSProjects.Xv6.Fixed
import OSProjects.Xv6.Growth

/-!
# What a page fault may do, and when it must grow a mapping

Two laws of the handler: it adds one page and one record or does nothing but kill, and it
grows a mapping up to its guard page. Both are stated with the exact states that meet them.
-/

namespace OSProjects.Xv6

open StepSystem

variable {k k' : Kernel} {p : Fin nProc} {addr : Nat}

/-! ## All or nothing -/

/-- The process is killed; its pages, its records and the free frames are as they were. -/
structure OnlyKilled (k : Kernel) (p : Fin nProc) (k' : Kernel) : Prop where
  killed : (k'.procs p).killed = true
  lookup : ∀ b, (k'.procs p).pgdir.lookup b = (k.procs p).pgdir.lookup b
  vmas : (k'.procs p).vmas = (k.procs p).vmas
  freelist : k'.mem.freelist = k.mem.freelist

/-- The page of the address is present, it was absent, and no other page has changed. -/
def OnePageMore (k : Kernel) (p : Fin nProc) (addr : Nat) (k' : Kernel) : Prop :=
  (k.procs p).pgdir.lookup addr = none ∧ ∃ frame ∈ k.mem.freelist, ∀ b,
    (k'.procs p).pgdir.lookup b =
      if pageOf b = pageOf addr then some ⟨frame, pteW ||| pteU⟩
      else (k.procs p).pgdir.lookup b

/-- A slot that was not in use records the address, and the other records in use differ at
most in their link. -/
def OneRecordMore (k : Kernel) (p : Fin nProc) (addr : Nat) (k' : Kernel) : Prop :=
  ∃ j, ((k.procs p).vmas j).valid = false ∧ ((k'.procs p).vmas j).valid = true ∧
    ((k'.procs p).vmas j).Covers addr ∧
    ∀ m, m ≠ j → ((k.procs p).vmas m).valid = true →
      (k'.procs p).vmas m = { (k.procs p).vmas m with next := ((k'.procs p).vmas m).next }

/-- The handler only kills the process, or it adds one page and one record. -/
def AllOrNothing (k : Kernel) (p : Fin nProc) (addr : Nat) : Prop :=
  ∃ k', k.pageFault p addr = .ok k' ∧
    (OnlyKilled k p k' ∨ (OnePageMore k p addr k' ∧ OneRecordMore k p addr k'))

/-- The record in slot `i` can be grown to the fault without harm. -/
structure CanGrow (k : Kernel) (p : Fin nProc) (addr : Nat) (i : Fin nVma) : Prop where
  absent : (k.procs p).pgdir.lookup addr = none
  memory : pageNeeds (k.procs p).pgdir addr ≤ k.mem.freelist.length
  unused : ((k.procs p).vmas (slotBehind i)).valid = false
  covers : uint (((k.procs p).vmas i).addr + pgSize) ≤ addr
  file : k.HasFile p ((k.procs p).vmas i).args

section Update

variable {vmas : Fin nVma → Vma} {i j : Fin nVma}

/-- The slot that holds the new page. -/
theorem updateVmaStructure_slot : updateVmaStructure vmas (slotBehind i) i (slotBehind i) =
    { vmas i with
      addr := uint ((vmas i).addr + pgSize)
      endAddr := uint ((vmas i).endAddr + pgSize)
      offset := int32 ((vmas i).offset + pgSize)
      valid := true
      next := (updateVmaStructure vmas (slotBehind i) i (slotBehind i)).next } := by
  simp [updateVmaStructure]

/-- In the other slots at most the link changes. -/
theorem updateVmaStructure_of_ne (h : j ≠ slotBehind i) :
    updateVmaStructure vmas (slotBehind i) i j =
      { vmas j with next := (updateVmaStructure vmas (slotBehind i) i j).next } := by
  rcases eq_or_ne j i with rfl | hne
  · simp [updateVmaStructure, h]
  · simp [updateVmaStructure, h, hne]

end Update

/-- What the handler does with an absent page, given the frames and the file for it. -/
theorem pageFault_adds_page {i : Fin nVma} (h : GrowsSlot k p addr i) (hword : addr < 2 ^ 32)
    (habsent : (k.procs p).pgdir.lookup addr = none)
    (hmemory : pageNeeds (k.procs p).pgdir addr ≤ k.mem.freelist.length)
    (hfile : k.HasFile p ((k.procs p).vmas i).args) : ∃ k', k.pageFault p addr = .ok k' ∧
      OnePageMore k p addr k' ∧ (k'.procs p).killed = (k.procs p).killed ∧
      (k'.procs p).vmas = updateVmaStructure (k.procs p).vmas (slotBehind i) i := by
  have hpage : pageOf (pgRoundDown addr) = pageOf addr := pageOf_pgRoundDown addr
  obtain ⟨frame, mem, s, hk, hm⟩ := exists_faultPage habsent hmemory
  obtain ⟨-, hlookup, -⟩ := Space.mapPage_eq_true hm
  have hframe : frame ∈ k.mem.freelist := by
    rw [(Mem.kalloc_eq_some hk).freelist]
    exact List.mem_cons_self
  refine ⟨_, pageFault_adds h hfile hword hk hm, ⟨habsent, frame, hframe, ?_⟩, ?_, ?_⟩
  · intro b
    rw [pgdir_recordGrowth, hlookup, hpage]
  · exact killed_recordGrowth
  · exact vmas_recordGrowth

/-- Whatever the handler finds, it kills the process and does nothing else or adds one page
and one record, exactly when the record it selects can be grown. -/
theorem growth_all_or_nothing_iff (hword : addr < 2 ^ 32) :
    AllOrNothing k p addr ↔ ∀ i, GrowsSlot k p addr i → CanGrow k p addr i := by
  constructor
  · rintro ⟨k', hcall, hlaw⟩ i hi
    have habsent : (k.procs p).pgdir.lookup addr = none := by
      by_contra hpresent
      rw [pageFault_remap hi hpresent] at hcall
      cases hcall
    have hfile : k.HasFile p ((k.procs p).vmas i).args := by
      by_contra hno
      exact pageFault_noFile hi hno hcall
    have hmemory : pageNeeds (k.procs p).pgdir addr ≤ k.mem.freelist.length := by
      by_contra hshort
      obtain ⟨hsame, hnil⟩ := pageFault_short hi hword (Nat.lt_of_not_le hshort) hcall
      rcases hlaw with honly | ⟨⟨-, frame, -, hlookup⟩, -⟩
      · exact hi.frame (honly.freelist.symm.trans hnil)
      · have hthere := hlookup addr
        rw [hsame, habsent, if_pos rfl] at hthere
        cases hthere
    obtain ⟨k1, hcall1, hpage, -, hvmas⟩ := pageFault_adds_page hi hword habsent hmemory hfile
    obtain rfl : k' = k1 := Except.ok.inj (hcall.symm.trans hcall1)
    obtain ⟨-, frame, -, hlookup⟩ := hpage
    rcases hlaw with honly | ⟨-, j, hunused, hvalid, hcovers, -⟩
    · have hthere := hlookup addr
      rw [honly.lookup, habsent, if_pos rfl] at hthere
      cases hthere
    · -- Only the slot behind comes into use.
      rw [hvmas] at hvalid hcovers
      have hj : j = slotBehind i := by
        by_contra hne
        rw [updateVmaStructure_of_ne hne, hunused] at hvalid
        cases hvalid
      subst hj
      rw [updateVmaStructure_slot] at hcovers
      exact ⟨habsent, hmemory, hunused, hcovers.1, hfile⟩
  · intro hcan
    by_cases hgrows : ∃ i, GrowsSlot k p addr i
    case pos =>
      obtain ⟨i, hi⟩ := hgrows
      have hc := hcan i hi
      obtain ⟨k', hcall, hpage, -, hvmas⟩ :=
        pageFault_adds_page hi hword hc.absent hc.memory hc.file
      refine ⟨k', hcall, Or.inr ⟨hpage, slotBehind i, hc.unused, ?_⟩⟩
      rw [hvmas]
      refine ⟨?_, ?_, fun m hm _ => updateVmaStructure_of_ne hm⟩
      · rw [updateVmaStructure_slot]
      · rw [updateVmaStructure_slot]
        exact ⟨hc.covers, hi.selected.ends.2⟩
    case neg =>
      rw [not_exists] at hgrows
      refine ⟨_, pageFault_segfault hgrows, Or.inl ?_⟩
      constructor
      case killed => simp [Kernel.segfault]
      case lookup => simp [Kernel.segfault]
      case vmas => simp [Kernel.segfault]
      case freelist => rfl

/-- An anonymous private mapping of one page that grows. -/
def growingPage : MmapArgs := { onePage with flags := mapPrivate ||| mapAnonymous ||| mapGrowsup }

/-- A page of its own, further up in the window. -/
def pageAbove : MmapArgs := { fixedPage with addr := 0x60004000 }

/-- The only mapping of a process grows by a page. -/
theorem growth_all_or_nothing_iff_run : ∃ k0 k, bootKernel 80 [] = .ok k0 ∧
    Run CallStep k0 [(0, .mmap growingPage)] k ∧ AllOrNothing k 0 0x60001000 := by
  obtain ⟨k0, hboot, hcalls⟩ := @exists_ok _ (bootKernel 80 []) (fun k0 =>
    (runCalls k0 [(0, .mmap growingPage)]).any fun k : Kernel =>
      decide (∀ i, ((k.procs 0).vmas i).EndsBefore 0x60001000 → i = 0) &&
        decide ((k.procs 0).pgdir.lookup 0x60001000 = none) &&
        decide (pageNeeds (k.procs 0).pgdir 0x60001000 ≤ k.mem.freelist.length) &&
        decide (((k.procs 0).vmas (slotBehind 0)).valid = false) &&
        decide (uint (((k.procs 0).vmas 0).addr + pgSize) ≤ 0x60001000) &&
        has ((k.procs 0).vmas 0).flags mapAnonymous) (by decide +kernel)
  obtain ⟨k, hk, hcheck⟩ := (Option.any_eq_true _ _).mp hcalls
  simp only [Bool.and_eq_true, decide_eq_true_eq] at hcheck
  obtain ⟨⟨⟨⟨⟨honly, habsent⟩, hmemory⟩, hunused⟩, hcovers⟩, hanon⟩ := hcheck
  refine ⟨k0, k, hboot, run_of_runCalls hk,
    (growth_all_or_nothing_iff (by decide)).mpr fun i hi => ?_⟩
  obtain rfl := honly i hi.selected.ends
  exact ⟨habsent, hmemory, hunused, hcovers, Or.inl hanon⟩

/-- Slot 1 holds another mapping when the one in slot 0 grows, and loses its record. -/
theorem neighbour_record_lost :
    ¬∀ (k : Kernel) p addr, addr < 2 ^ 32 → AllOrNothing k p addr := by
  intro hall
  obtain ⟨k0, -, hcalls⟩ := @exists_ok _ (bootKernel 80 []) (fun k0 =>
    (runCalls k0 [(0, .mmap growingPage), (0, .mmap pageAbove)]).any fun k : Kernel =>
      okWith (k.pageFault 0 0x60001000) fun k' => !(k'.procs 0).killed &&
        decide (∀ j, ((k.procs 0).vmas j).valid = false → ((k'.procs 0).vmas j).valid = false))
    (by decide +kernel)
  obtain ⟨k, -, hcheck⟩ := (Option.any_eq_true _ _).mp hcalls
  obtain ⟨k', hcall, hlaw⟩ := hall k 0 0x60001000 (by decide)
  simp only [okWith, hcall, Bool.and_eq_true, Bool.not_eq_true', decide_eq_true_eq] at hcheck
  rcases hlaw with honly | ⟨-, j, hunused, hvalid, -⟩
  · rw [honly.killed] at hcheck
    cases hcheck.1
  · rw [hcheck.2 j hunused] at hvalid
    cases hvalid

/-! ## Growth up to the guard page -/

/-- Slot `j` holds a growable mapping in use whose last page is mapped and lies right below
the page of the address. That page and the one above it are absent and belong to the
window, and there are a slot and memory for one page more. -/
structure AtGuard (k : Kernel) (p : Fin nProc) (addr : Nat) (j : Fin nVma) : Prop where
  valid : ((k.procs p).vmas j).valid = true
  growsup : has ((k.procs p).vmas j).flags mapGrowsup = true
  last : (((k.procs p).vmas j).endAddr - 1) / pgSize + 1 = addr / pgSize
  mapped : (k.procs p).pgdir.present (addr - pgSize) = true
  absent : (k.procs p).pgdir.lookup addr = none
  guard : (k.procs p).pgdir.lookup (addr + pgSize) = none
  start : vmaStart + pgSize ≤ addr
  stop : (addr / pgSize + 2) * pgSize ≤ vmaEnd
  slot : ∃ i, ((k.procs p).vmas i).valid = false
  memory : pageNeeds (k.procs p).pgdir addr ≤ k.mem.freelist.length

/-- `AtGuard`, as a test. -/
def guardCheck (k : Kernel) (p : Fin nProc) (addr : Nat) (j : Fin nVma) : Bool :=
  ((k.procs p).vmas j).valid && has ((k.procs p).vmas j).flags mapGrowsup &&
    decide ((((k.procs p).vmas j).endAddr - 1) / pgSize + 1 = addr / pgSize) &&
    (k.procs p).pgdir.present (addr - pgSize) && !(k.procs p).pgdir.present addr &&
    !(k.procs p).pgdir.present (addr + pgSize) && decide (vmaStart + pgSize ≤ addr) &&
    decide ((addr / pgSize + 2) * pgSize ≤ vmaEnd) &&
    decide (∃ i, ((k.procs p).vmas i).valid = false) &&
    decide (pageNeeds (k.procs p).pgdir addr ≤ k.mem.freelist.length)

theorem atGuard_of_check {j : Fin nVma} (h : guardCheck k p addr j = true) :
    AtGuard k p addr j := by
  simp only [guardCheck, Bool.and_eq_true, decide_eq_true_eq, Bool.not_eq_true', Pgdir.present,
    Option.isSome_eq_false_iff, Option.isNone_iff_eq_none] at h
  obtain ⟨⟨⟨⟨⟨⟨⟨⟨⟨hvalid, hgrowsup⟩, hlast⟩, hmapped⟩, habsent⟩, hguard⟩, hstart⟩, hstop⟩, hslot⟩,
    hmemory⟩ := h
  exact ⟨hvalid, hgrowsup, hlast, hmapped, habsent, hguard, hstart, hstop, hslot, hmemory⟩

/-- The handler maps the page and does not kill the process. -/
def Grows (k : Kernel) (p : Fin nProc) (addr : Nat) : Prop :=
  ∃ k', k.pageFault p addr = .ok k' ∧ (k'.procs p).pgdir.present addr = true ∧
    (k'.procs p).killed = (k.procs p).killed

theorem isRegionFree_page {d : Pgdir} (h : addr + pgSize < 2 ^ 32) :
    isRegionFree d addr pgSize = true ↔ d.lookup addr = none := by
  have hone := @isRegionFree_iff d addr 1 (by simpa [pgSize] using h)
  rw [Nat.one_mul] at hone
  simp only [pgSize, hone, Nat.lt_one_iff, forall_eq, Nat.zero_mul, Nat.add_zero]

theorem AtGuard.passesChecks {j : Fin nVma} (h : AtGuard k p addr j) : PassesChecks k p addr := by
  have hstart := h.start
  have hstop := h.stop
  simp only [vmaStart, vmaEnd, pgSize] at hstart hstop
  have hnext : uint (addr + pgSize) = addr + 4096 := Nat.mod_eq_of_lt (by
    simp only [pgSize]
    omega)
  have hbefore : uint (addr + (2 ^ 32 - pgSize)) = addr - 4096 := by
    simp only [uint, pgSize]
    omega
  constructor
  case start =>
    simp only [vmaStart]
    omega
  case stop =>
    rw [hnext]
    simp only [vmaEnd]
    omega
  case guard =>
    rw [hnext, isRegionFree_page (by simp only [pgSize]; omega)]
    exact h.guard
  case mapped =>
    rw [hbefore, Bool.eq_false_iff, Ne, isRegionFree_page (by simp only [pgSize]; omega)]
    exact Option.isSome_iff_ne_none.mp h.mapped

/-- A mapping grows into the page below its guard page exactly when the first record that
ends less than a page below the fault is growable, no slot from 2 up to two behind it is in
use, and its file can be read. -/
theorem grows_to_guard_iff {j : Fin nVma} (h : AtGuard k p addr j) :
    Grows k p addr ↔ ∃ i, Selected (k.procs p).vmas addr i ∧
      has ((k.procs p).vmas i).flags mapGrowsup = true ∧
      k.HasFile p ((k.procs p).vmas i).args := by
  have hstop := h.stop
  simp only [vmaEnd, pgSize] at hstop
  have hword : addr < 2 ^ 32 := by omega
  have hframe : k.mem.freelist ≠ [] := by
    intro hnil
    have hmemory := h.memory
    rw [hnil, List.length_nil, pageNeeds] at hmemory
    omega
  constructor
  · rintro ⟨k', hcall, hpresent, -⟩
    by_cases hgrows : ∃ i, GrowsSlot k p addr i
    case pos =>
      obtain ⟨i, hi⟩ := hgrows
      refine ⟨i, hi.selected, hi.growsup, ?_⟩
      by_contra hno
      exact pageFault_noFile hi hno hcall
    case neg =>
      rw [not_exists] at hgrows
      obtain rfl := Except.ok.inj (hcall.symm.trans (pageFault_segfault hgrows))
      simp [Kernel.segfault, Pgdir.present, h.absent] at hpresent
  · rintro ⟨i, hselected, hgrowsup, hfile⟩
    have hi : GrowsSlot k p addr i := ⟨h.passesChecks, hselected, hgrowsup, hframe⟩
    obtain ⟨k', hcall, ⟨-, frame, -, hlookup⟩, hkilled, -⟩ :=
      pageFault_adds_page hi hword h.absent h.memory hfile
    refine ⟨k', hcall, ?_, hkilled⟩
    rw [Pgdir.present, hlookup, if_pos rfl]
    rfl

/-- A mapping of one whole page grows. -/
theorem grows_to_guard_iff_run : ∃ k0 k, bootKernel 80 [] = .ok k0 ∧
    Run CallStep k0 [(0, .mmap growingPage)] k ∧ AtGuard k 0 0x60001000 0 ∧
    Grows k 0 0x60001000 := by
  obtain ⟨k0, hboot, hcalls⟩ := @exists_ok _ (bootKernel 80 []) (fun k0 =>
    (runCalls k0 [(0, .mmap growingPage)]).any fun k : Kernel => guardCheck k 0 0x60001000 0 &&
      decide (((k.procs 0).vmas 0).EndsBefore 0x60001000) &&
      decide (∀ m : Fin nVma, 2 ≤ m.val → m.val ≤ 2 → ((k.procs 0).vmas m).valid = false) &&
      has ((k.procs 0).vmas 0).flags mapAnonymous) (by decide +kernel)
  obtain ⟨k, hk, hcheck⟩ := (Option.any_eq_true _ _).mp hcalls
  simp only [Bool.and_eq_true, decide_eq_true_eq] at hcheck
  obtain ⟨⟨⟨hguard, hends⟩, hunused⟩, hanon⟩ := hcheck
  have hat := atGuard_of_check hguard
  refine ⟨k0, k, hboot, run_of_runCalls hk, hat, (grows_to_guard_iff hat).mpr ⟨0,
    ⟨hends, fun j hj => absurd hj (Fin.not_lt_zero j), hunused⟩, hat.growsup, Or.inl hanon⟩⟩

/-- The same mapping with a length of 100 bytes. -/
def growingBytes : MmapArgs := { growingPage with length := 100 }

/-- The record of 100 bytes ends inside its page, and a fault in the upper part of the next
page is not less than a page behind it. -/
theorem unrounded_end_kills : ¬∀ mem inodes blocks devsw init (k0 : Kernel) calls k p addr j,
    (Kernel.zero mem inodes blocks devsw).userinit init = .ok k0 → Run CallStep k0 calls k →
    AtGuard k p addr j → Grows k p addr := by
  intro hall
  obtain ⟨k0, hboot, hcalls⟩ := @exists_ok _ (bootKernel 80 []) (fun k0 =>
    (runCalls k0 [(0, .mmap growingBytes)]).any fun k : Kernel => guardCheck k 0 0x60001800 0 &&
      okWith (k.pageFault 0 0x60001800) fun k' => !(k'.procs 0).pgdir.present 0x60001800)
    (by decide +kernel)
  obtain ⟨k, hk, hcheck⟩ := (Option.any_eq_true _ _).mp hcalls
  rw [Bool.and_eq_true] at hcheck
  obtain ⟨k', hcall, hpresent, -⟩ := hall _ _ _ _ _ k0 _ k 0 0x60001800 0 hboot
    (run_of_runCalls hk) (atGuard_of_check hcheck.1)
  have habsent := hcheck.2
  simp only [okWith, hcall, hpresent] at habsent
  cases habsent

end OSProjects.Xv6
