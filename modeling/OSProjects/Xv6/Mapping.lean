import OSProjects.Xv6.Mmap
import OSProjects.Xv6.PageTables

/-!
# The outcomes of `mmap`

`PageAdded` is what one turn of the page loop does, in `mmap` as in the page-fault
handler. A call that gives up leaves every page that was present where it was.
-/

namespace OSProjects.Xv6

open ByteMemory

variable {k k' : Kernel} {p : Fin nProc}

/-- The pages of the kernel that every page table maps and no call removes. -/
structure KernelHalf (d : Pgdir) : Prop where
  base : d.present kernBase = true
  devices : ∀ va, devSpace ≤ va → va < 2 ^ 32 → d.present va = true

/-- A page table that maps every page of another one to the same frame. -/
def Pgdir.Keeps (d d' : Pgdir) : Prop := ∀ b e, d.lookup b = some e → d'.lookup b = some e

namespace Pgdir.Keeps

variable {d d' d'' : Pgdir}

theorem refl (d : Pgdir) : d.Keeps d := fun _ _ h => h

theorem trans (h : d.Keeps d') (h' : d'.Keeps d'') : d.Keeps d'' :=
  fun b e hb => h' b e (h b e hb)

theorem present (h : d.Keeps d') {b : Nat} (hb : d.present b = true) : d'.present b = true := by
  obtain ⟨e, he⟩ := Option.isSome_iff_exists.mp hb
  exact Option.isSome_iff_exists.mpr ⟨e, h b e he⟩

theorem kernelHalf (h : d.Keeps d') (hk : KernelHalf d) : KernelHalf d' :=
  ⟨h.present hk.base, fun va hva hlt => h.present (hk.devices va hva hlt)⟩

end Pgdir.Keeps

/-- The page at `va`, which was absent, now lies in `frame`, which was free. -/
structure PageAdded (k : Kernel) (p : Fin nProc) (va frame : Nat) (k' : Kernel) : Prop where
  space : ∃ s, k' = k.setSpace p s
  absent : (k.procs p).pgdir.lookup va = none
  lookup : ∀ b, (k'.procs p).pgdir.lookup b =
    if pageOf b = pageOf va then some ⟨frame, pteW ||| pteU⟩ else (k.procs p).pgdir.lookup b
  freelist : ∃ taken, k.mem.freelist = frame :: taken ++ k'.mem.freelist
  imageEnd : k'.mem.imageEnd = k.mem.imageEnd

theorem PageAdded.keeps {va frame : Nat} (h : PageAdded k p va frame k') :
    (k.procs p).pgdir.Keeps (k'.procs p).pgdir := by
  intro b e hb
  have hne : pageOf b ≠ pageOf va := by
    intro hpage
    rw [Pgdir.lookup_congr _ hpage, h.absent] at hb
    cases hb
  rw [h.lookup, if_neg hne, hb]

theorem PageAdded.of_mappages {m : Mem} {va frame : Nat} {s : Space}
    (hk : k.mem.kalloc = some (frame, m)) (halign : va % 4096 = 0) (hlt : va < 2 ^ 32)
    (h : Space.mappages ⟨m.zeroPage frame, (k.procs p).pgdir⟩ va pgSize frame
      (pteW ||| pteU) = .ok (s, true)) :
    PageAdded k p va frame (k.setSpace p s) := by
  rw [Space.mappages_aligned halign hlt] at h
  obtain ⟨habsent, hlookup, taken, htook⟩ := Space.mapPage_eq_true h
  have hfree := Mem.kalloc_eq_some hk
  refine ⟨⟨s, rfl⟩, habsent, ?_, ⟨taken, ?_⟩, ?_⟩
  · simpa using hlookup
  · rw [hfree.freelist]
    simpa [Mem.zeroPage] using htook.freelist
  · simpa [Mem.zeroPage, hfree.imageEnd] using htook.imageEnd

/-- Reading a file page changes bytes only. -/
theorem Kernel.mmapRead_eq {fd : Int} {i frame : Nat} (h : k.mmapRead p fd i frame = .ok k') :
    ∃ bytes, k' = k.setSpace p ⟨k.mem.storeBytes frame bytes, (k.procs p).pgdir⟩ := by
  unfold Kernel.mmapRead at h
  split at h
  · simp at h
  · simp at h
  · split at h
    · simp at h
    · obtain rfl := Except.ok.inj h
      exact ⟨_, k.setMem_eq_setSpace p _⟩

theorem PageAdded.mmapRead {va frame i : Nat} {fd : Int} {k1 : Kernel}
    (h : PageAdded k p va frame k1) (hr : k1.mmapRead p fd i frame = .ok k') :
    PageAdded k p va frame k' := by
  obtain ⟨bytes, rfl⟩ := Kernel.mmapRead_eq hr
  obtain ⟨s, rfl⟩ := h.space
  refine ⟨⟨_, Kernel.setSpace_setSpace _ _ _ _⟩, h.absent, ?_, ?_, ?_⟩
  · simpa using h.lookup
  · simpa [Mem.storeBytes] using h.freelist
  · simpa [Mem.storeBytes] using h.imageEnd

/-! ## The page loop -/

section Loop

variable {a : MmapArgs} {addr n i : Nat} {r : Bool}

/-- The pages that the loop has mapped before the turn for offset `i`. -/
def Behind (addr i b : Nat) : Prop := ∃ m, m * 4096 < i ∧ pageOf b = pageOf (addr + m * 4096)

theorem mmapPage_space (h : k.mmapPage p a addr i = .ok (k', r)) :
    ∃ s, k' = k.setSpace p s := by
  rw [Kernel.mmapPage] at h
  split at h
  case h_1 =>
    split at h
    · simp at h
    case h_2 s _ =>
      simp only [Except.ok.injEq, Prod.mk.injEq] at h
      exact ⟨s, h.1.symm⟩
  case h_2 =>
    split at h
    · simp at h
    case h_2 =>
      split at h
      · simp at h
      case h_2 s _ =>
        split at h
        · simp at h
        case h_2 mem _ =>
          simp only [Except.ok.injEq, Prod.mk.injEq] at h
          exact ⟨_, h.1.symm⟩
    case h_3 s _ =>
      split at h
      · simp only [Except.ok.injEq, Prod.mk.injEq] at h
        exact ⟨s, h.1.symm⟩
      · split at h
        · simp at h
        case h_2 k1 hr =>
          simp only [Except.ok.injEq, Prod.mk.injEq] at h
          obtain ⟨bytes, hk1⟩ := Kernel.mmapRead_eq hr
          exact ⟨_, by rw [← h.1, hk1, Kernel.setSpace_setSpace]⟩

/-- The loop changes memory and the page table of the process only. -/
theorem mmapLoop_space (h : Kernel.mmapLoop p a addr n i k = .ok (k', r)) :
    ∃ s, k' = k.setSpace p s := by
  induction n generalizing i k with
  | zero =>
      simp only [Kernel.mmapLoop, Except.ok.injEq, Prod.mk.injEq] at h
      exact ⟨k.space p, by rw [Kernel.setSpace_space, h.1]⟩
  | succ n ih =>
      rw [Kernel.mmapLoop] at h
      split at h
      · simp at h
      case h_2 k1 hturn =>
        simp only [Except.ok.injEq, Prod.mk.injEq] at h
        rw [← h.1]
        exact mmapPage_space hturn
      case h_3 k1 hturn =>
        obtain ⟨s1, rfl⟩ := mmapPage_space hturn
        obtain ⟨s, rfl⟩ := ih h
        exact ⟨s, Kernel.setSpace_setSpace _ _ _ _⟩

/-- One turn: a page is added, or the call gives up and may unmap the pages behind. -/
theorem mmapPage_eq_ok (h : k.mmapPage p a addr i = .ok (k', r))
    (halign : addr % 4096 = 0) (hi : i % 4096 = 0) (hlt : addr < 2 ^ 32)
    (hend : 0 < i → addr + i ≤ 0xFE000000) (hhalf : KernelHalf (k.procs p).pgdir) :
    (r = true ∧ addr + i < 0xFE000000 ∧ ∃ frame, PageAdded k p (addr + i) frame k') ∨
    (r = false ∧ ∀ b e, (k.procs p).pgdir.lookup b = some e → ¬Behind addr i b →
      (k'.procs p).pgdir.lookup b = some e) := by
  have hlt32 : addr + i < 2 ^ 32 := by
    rcases Nat.eq_zero_or_pos i with rfl | hpos
    · exact hlt
    · have := hend hpos
      omega
  have halign' : (addr + i) % 4096 = 0 := by omega
  have hva : uint (addr + i) = addr + i := by
    simp only [uint]
    omega
  have hup : pgRoundUp addr = addr := by
    simp only [pgRoundUp, pgSize, uint]
    omega
  have hdevice : (k.procs p).pgdir.lookup (addr + i) = none → addr + i < 0xFE000000 := by
    intro habsent
    by_contra hge
    have hdev := hhalf.devices (addr + i) (by simp only [devSpace]; omega) hlt32
    simp [Pgdir.present, habsent] at hdev
  -- A page below `addr + i` on the way up from `addr` is behind.
  have hbehind : ∀ b c, addr ≤ c → c < addr + i → c % 4096 = 0 → pageOf b = pageOf c →
      Behind addr i b := by
    intro b c hle hlt hc hb
    refine ⟨(c - addr) / 4096, by omega, ?_⟩
    rwa [show addr + (c - addr) / 4096 * 4096 = c by omega]
  rw [Kernel.mmapPage, hva] at h
  split at h
  case h_1 =>
    split at h
    · simp at h
    case h_2 s hd =>
      simp only [Except.ok.injEq, Prod.mk.injEq] at h
      obtain ⟨rfl, rfl⟩ := h
      refine Or.inr ⟨rfl, fun b e hb hnot => ?_⟩
      have hlookup := Space.dealloc_lookup (b := b) (by omega) hd (by
        rw [hup]
        exact fun c hle hlt hc hbc => hnot (hbehind b c hle hlt hc hbc))
      simpa [hlookup, Kernel.space] using hb
  case h_2 frame m hk =>
    split at h
    · simp at h
    case h_2 s hm =>
      -- The table for the page is missing and cannot be allocated.
      rw [Space.mappages_aligned halign' hlt32] at hm
      obtain ⟨rfl, habsent⟩ := Space.mapPage_eq_false hm
      have hlt := hdevice habsent
      have hva' : uint (addr + i + pgSize) = addr + i + 4096 := by
        simp only [uint, pgSize]
        omega
      rw [hva'] at h
      split at h
      · simp at h
      case h_2 s hd =>
        split at h
        · simp at h
        case h_2 mem hf =>
          simp only [Except.ok.injEq, Prod.mk.injEq] at h
          obtain ⟨rfl, rfl⟩ := h
          refine Or.inr ⟨rfl, fun b e hb hnot => ?_⟩
          have hlookup := Space.dealloc_lookup (b := b) (by omega) hd (by
            rw [hup]
            intro c hle hlt hc hbc
            rcases Nat.lt_or_ge c (addr + i) with hci | hci
            · exact hnot (hbehind b c hle hci hc hbc)
            · obtain rfl : c = addr + i := by omega
              rw [Pgdir.lookup_congr _ hbc] at hb
              simp [hb] at habsent)
          simpa [hlookup] using hb
    case h_3 s hm =>
      -- The page is mapped; an anonymous mapping reads no file.
      have hadd := PageAdded.of_mappages hk halign' hlt32 hm
      have hlt := hdevice hadd.absent
      split at h
      case isTrue =>
        simp only [Except.ok.injEq, Prod.mk.injEq] at h
        obtain ⟨rfl, rfl⟩ := h
        exact Or.inl ⟨rfl, hlt, frame, hadd⟩
      case isFalse =>
        split at h
        · simp at h
        case h_2 k1 hr =>
          simp only [Except.ok.injEq, Prod.mk.injEq] at h
          obtain ⟨rfl, rfl⟩ := h
          exact Or.inl ⟨rfl, hlt, frame, hadd.mmapRead hr⟩

theorem behind_succ {b : Nat} (hi : i % 4096 = 0) (h : Behind addr (i + 4096) b) :
    Behind addr i b ∨ pageOf b = pageOf (addr + i) := by
  obtain ⟨m, hm, hb⟩ := h
  rcases Nat.lt_or_ge (m * 4096) i with hlt | hge
  · exact Or.inl ⟨m, hlt, hb⟩
  · rw [show addr + m * 4096 = addr + i by omega] at hb
    exact Or.inr hb

/-- What every added page preserves holds behind a loop that has run to its end. -/
theorem mmapLoop_induct {P : Nat → Kernel → Prop}
    (hstep : ∀ i frame k k', P i k → addr + i < 0xFE000000 → i % 4096 = 0 →
      PageAdded k p (addr + i) frame k' → P (i + 4096) k')
    (h : Kernel.mmapLoop p a addr n i k = .ok (k', true)) (halign : addr % 4096 = 0)
    (hi : i % 4096 = 0) (hlt : addr < 2 ^ 32) (hend : 0 < i → addr + i ≤ 0xFE000000)
    (hhalf : KernelHalf (k.procs p).pgdir)
    (h0 : P i k) : P (i + n * 4096) k' := by
  induction n generalizing i k with
  | zero =>
      simp only [Kernel.mmapLoop, Except.ok.injEq, Prod.mk.injEq, and_true] at h
      rwa [Nat.zero_mul, Nat.add_zero, ← h]
  | succ n ih =>
      rw [Kernel.mmapLoop] at h
      split at h
      · simp at h
      · simp at h
      case h_3 k1 hturn =>
        rcases mmapPage_eq_ok hturn halign hi hlt hend hhalf with ⟨-, hbelow, frame, hadd⟩ | ⟨hr, -⟩
        · have hP := ih h (by simp only [pgSize]; omega) (by simp only [pgSize]; omega)
            (hadd.keeps.kernelHalf hhalf) (hstep i frame k k1 h0 hbelow hi hadd)
          rwa [pgSize, show i + 4096 + n * 4096 = i + (n + 1) * 4096 by omega] at hP
        · cases hr

/-- However the loop ends, a page that it did not map itself stays. -/
theorem mmapLoop_keeps (h : Kernel.mmapLoop p a addr n i k = .ok (k', r))
    (halign : addr % 4096 = 0) (hi : i % 4096 = 0) (hlt : addr < 2 ^ 32)
    (hend : 0 < i → addr + i ≤ 0xFE000000) (hhalf : KernelHalf (k.procs p).pgdir) {b : Nat}
    {e : Pte} (hb : (k.procs p).pgdir.lookup b = some e) (hnot : ¬Behind addr i b) :
    (k'.procs p).pgdir.lookup b = some e := by
  induction n generalizing i k with
  | zero =>
      simp only [Kernel.mmapLoop, Except.ok.injEq, Prod.mk.injEq] at h
      rwa [← h.1]
  | succ n ih =>
      rw [Kernel.mmapLoop] at h
      split at h
      · simp at h
      case h_2 k1 hturn =>
        simp only [Except.ok.injEq, Prod.mk.injEq] at h
        obtain ⟨rfl, rfl⟩ := h
        rcases mmapPage_eq_ok hturn halign hi hlt hend hhalf with ⟨hr, -⟩ | ⟨-, hkeep⟩
        · cases hr
        · exact hkeep b e hb hnot
      case h_3 k1 hturn =>
        rcases mmapPage_eq_ok hturn halign hi hlt hend hhalf with
          ⟨-, hbelow, frame, hadd⟩ | ⟨hr, -⟩
        · refine ih h (by simp only [pgSize]; omega) (by simp only [pgSize]; omega)
            (hadd.keeps.kernelHalf hhalf) (hadd.keeps b e hb) fun hbehind => ?_
          rcases behind_succ hi hbehind with hbehind | hpage
          · exact hnot hbehind
          · rw [Pgdir.lookup_congr _ hpage, hadd.absent] at hb
            cases hb
        · cases hr

end Loop

/-! ## The region and the slot -/

section Region

variable {d : Pgdir} {a : MmapArgs} {addr addr' size n : Nat}

theorem findRegion_eq_some (h : findRegion d size addr n = some addr') :
    isRegionFree d addr' size = true ∧ addr ≤ addr' ∧ addr' < addr + n * 4096 ∧
      addr' % 4096 = addr % 4096 := by
  induction n generalizing addr with
  | zero => simp [findRegion] at h
  | succ n ih =>
      rw [findRegion] at h
      split at h
      case isTrue hfree =>
        obtain rfl := Option.some.inj h
        exact ⟨hfree, le_rfl, by omega, rfl⟩
      case isFalse =>
        obtain ⟨hfree, hle, hlt, hmod⟩ := ih h
        simp only [pgSize] at hle hlt hmod
        exact ⟨hfree, by omega, by omega, by omega⟩

/-- Where `mmap` may place a region. -/
theorem mmapAddr_eq_some (h : mmapAddr d a = some addr) :
    0x60000000 ≤ addr ∧ isRegionFree d addr (ofInt (pgRoundUpInt a.length)) = true ∧
      if has a.flags mapFixed then
        addr = a.addr ∧ uint (addr + ofInt (pgRoundUpInt a.length)) ≤ 0x80000000
      else addr % 4096 = 0 ∧ addr < 0x80000000 := by
  simp only [mmapAddr] at h
  split at h
  case isTrue hfixed =>
    split at h
    · cases h
    case isFalse hcheck =>
      obtain rfl := Option.some.inj h
      simp only [not_or, Nat.not_lt, Bool.not_eq_false, vmaStart, vmaEnd] at hcheck
      obtain ⟨hstart, hend, hfree⟩ := hcheck
      rw [if_pos hfixed]
      exact ⟨hstart, hfree, rfl, hend⟩
  case isFalse hfixed =>
    obtain ⟨hfree, hle, hlt, hmod⟩ := findRegion_eq_some h
    simp only [vmaStart, vmaEnd, pgSize] at hle hlt hmod
    rw [if_neg hfixed]
    exact ⟨hle, hfree, by omega, by omega⟩

theorem mmapSlot_eq_some {vmas : Fin nVma → Vma} {j : Fin nVma} (h : mmapSlot vmas = some j) :
    (vmas j).addr = 0 := by
  simpa using List.find?_some h

end Region

/-- How a call of `mmap` can end. -/
inductive MmapOutcome (k : Kernel) (p : Fin nProc) (a : MmapArgs) : Kernel → Int → Prop
  | refused : MmapOutcome k p a k (-1)
  | gaveUp {addr j k'} (hlength : 0 < a.length)
      (haddr : mmapAddr (k.procs p).pgdir a = some addr)
      (hslot : mmapSlot (k.procs p).vmas = some j)
      (hloop : Kernel.mmapLoop p a addr ((pgRoundUpInt a.length).toNat / 4096) 0 k =
        .ok (k', false)) :
      MmapOutcome k p a k' (-1)
  | mapped {addr j k' f} (hlength : 0 < a.length)
      (haddr : mmapAddr (k.procs p).pgdir a = some addr)
      (hslot : mmapSlot (k.procs p).vmas = some j)
      (hloop : Kernel.mmapLoop p a addr ((pgRoundUpInt a.length).toNat / 4096) 0 k =
        .ok (k', true))
      (hf : if has a.flags mapAnonymous then f = ((k'.procs p).vmas j).pf
        else k'.ofileAt p a.fd = .ok f) :
      MmapOutcome k p a
        (k'.setVma p j { mmapRecord a addr ((k'.procs p).vmas j) with pf := f }) addr

theorem mmap_outcome {a : MmapArgs} {r : Int} (h : k.mmap p a = .ok (k', r)) :
    MmapOutcome k p a k' r := by
  rw [Kernel.mmap] at h
  split at h
  · simp only [Except.ok.injEq, Prod.mk.injEq] at h
    obtain ⟨rfl, rfl⟩ := h
    exact .refused
  case isFalse hlength =>
    split at h
    · simp only [Except.ok.injEq, Prod.mk.injEq] at h
      obtain ⟨rfl, rfl⟩ := h
      exact .refused
    case h_2 addr haddr =>
      split at h
      · simp only [Except.ok.injEq, Prod.mk.injEq] at h
        obtain ⟨rfl, rfl⟩ := h
        exact .refused
      case h_2 j hslot =>
        split at h
        · simp at h
        case h_2 k1 hloop =>
          simp only [Except.ok.injEq, Prod.mk.injEq] at h
          obtain ⟨rfl, rfl⟩ := h
          exact .gaveUp (by omega) haddr hslot hloop
        case h_3 k1 hloop =>
          dsimp only at h
          split at h
          case isTrue hanon =>
            simp only [Except.ok.injEq, Prod.mk.injEq] at h
            obtain ⟨rfl, rfl⟩ := h
            exact .mapped (by omega) haddr hslot hloop (by rw [if_pos hanon])
          case isFalse hanon =>
            split at h
            · simp at h
            case h_2 f hf =>
              simp only [Except.ok.injEq, Prod.mk.injEq] at h
              obtain ⟨rfl, rfl⟩ := h
              exact .mapped (by omega) haddr hslot hloop (by rw [if_neg hanon]; exact hf)

end OSProjects.Xv6
