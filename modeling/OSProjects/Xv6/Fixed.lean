import OSProjects.Xv6.Placement

/-!
# `mmap` with `MAP_FIXED`

The address is a word of the caller. Its alignment is not looked at, and the sum with the
length wraps, so the region test can pass for a range that leaves the window.
-/

namespace OSProjects.Xv6

variable {k k' : Kernel} {p : Fin nProc} {a : MmapArgs}

/-! ## What is promised, and when -/

/-- The `n` pages from `addr` on, absent before, lie in distinct frames that were free. -/
structure MapsPages (k : Kernel) (p : Fin nProc) (addr n : Nat) (frames : List Nat)
    (k' : Kernel) : Prop where
  count : frames.length = n
  distinct : frames.Nodup
  taken : ∀ f ∈ frames, f ∈ k.mem.freelist ∧ f ∉ k'.mem.freelist
  pages : ∀ m f, frames[m]? = some f → (k.procs p).pgdir.lookup (addr + m * pgSize) = none ∧
    (k'.procs p).pgdir.lookup (addr + m * pgSize) = some ⟨f, pteW ||| pteU⟩
  others : ∀ b, (∀ m, m < n → pageOf b ≠ pageOf (addr + m * pgSize)) →
    (k'.procs p).pgdir.lookup b = (k.procs p).pgdir.lookup b

/-- The call returns -1 and no page-table entry changes, or it maps the pages of its length
inside the window. -/
def Confined (k : Kernel) (p : Fin nProc) (a : MmapArgs) : Prop :=
  (∃ k', k.mmap p a = .ok (k', -1) ∧
    ∀ b, (k'.procs p).pgdir.lookup b = (k.procs p).pgdir.lookup b) ∨
  ∃ (k' : Kernel) (addr : Nat) (frames : List Nat), k.mmap p a = .ok (k', addr) ∧
    addr % pgSize = 0 ∧ vmaStart ≤ addr ∧ addr + pageCount a.length * pgSize ≤ vmaEnd ∧
    MapsPages k p addr (pageCount a.length) frames k'

/-- The region test or the search for a slot refuses the call. -/
def Refused (k : Kernel) (p : Fin nProc) (a : MmapArgs) : Prop :=
  mmapAddr (k.procs p).pgdir a = none ∨ mmapSlot (k.procs p).vmas = none

/-- The region is one of whole pages of the window, and its file can be read. -/
def InWindow (k : Kernel) (p : Fin nProc) (a : MmapArgs) : Prop :=
  a.addr % pgSize = 0 ∧ a.addr + pageCount a.length * pgSize ≤ vmaEnd ∧ k.HasFile p a

/-- Memory runs out before the call does harm: at an aligned address before it comes to a
page that is present, at any other on the first page, with nothing on the page behind. -/
def StopsEarly (k : Kernel) (p : Fin nProc) (a : MmapArgs) : Prop :=
  let d := (k.procs p).pgdir
  let free := k.mem.freelist.length
  if a.addr % pgSize = 0 then
    ∃ m, m < mmapTurns a.length ∧ (∀ j, j < m → d.lookup (a.addr + j * pgSize) = none) ∧
      free < framesNeeded d a.addr (m + 1) ∧ (0 < m → k.HasFile p a)
  else
    0 < mmapTurns a.length ∧
      (free = 0 ∨ (free < pageNeeds d a.addr ∧ d.lookup (a.addr + pgSize) = none))

/-! ## Results of the call -/

/-- A call with `MAP_FIXED` that returns an address returns the one it was given. -/
theorem mmap_fixed_addr {r : Int} (hfixed : has a.flags mapFixed = true)
    (h : k.mmap p a = .ok (k', r)) (hr : r ≠ -1) : r = a.addr := by
  cases mmap_outcome h with
  | refused => exact absurd rfl hr
  | gaveUp => exact absurd rfl hr
  | mapped _ haddr =>
      have hcase := (mmapAddr_eq_some haddr).2.2
      rw [if_pos hfixed] at hcase
      rw [hcase.1]

section Passed

variable {addr : Nat} {j : Fin nVma}

/-- A call whose page loop does not give up does not return -1. -/
theorem mmap_ne_failed (hlength : 0 < a.length)
    (haddr : mmapAddr (k.procs p).pgdir a = some addr)
    (hslot : mmapSlot (k.procs p).vmas = some j)
    (hloop : ∀ k1, k.mmapLoop p a addr (mmapTurns a.length) 0 ≠ .ok (k1, false)) :
    k.mmap p a ≠ .ok (k', -1) := by
  intro h
  rw [mmap_eq hlength haddr hslot] at h
  split at h
  · cases h
  case h_2 k1 hfalse => exact hloop k1 hfalse
  case h_3 k1 _ =>
    dsimp only at h
    split at h
    · have := (Prod.mk.inj (Except.ok.inj h)).2
      omega
    · split at h
      · cases h
      · have := (Prod.mk.inj (Except.ok.inj h)).2
        omega

theorem mmap_of_loop_error {e : Halt} (hlength : 0 < a.length)
    (haddr : mmapAddr (k.procs p).pgdir a = some addr)
    (hslot : mmapSlot (k.procs p).vmas = some j)
    (hloop : k.mmapLoop p a addr (mmapTurns a.length) 0 = .error e) :
    k.mmap p a = .error e := by
  rw [mmap_eq hlength haddr hslot, hloop]

/-- Where the loop gives up with the pages as they were, the call is confined. -/
theorem Confined.of_loop_false (hlength : 0 < a.length)
    (haddr : mmapAddr (k.procs p).pgdir a = some addr)
    (hslot : mmapSlot (k.procs p).vmas = some j)
    (hloop : k.mmapLoop p a addr (mmapTurns a.length) 0 = .ok (k', false))
    (hlookup : ∀ b, (k'.procs p).pgdir.lookup b = (k.procs p).pgdir.lookup b) :
    Confined k p a :=
  Or.inl ⟨k', by rw [mmap_eq hlength haddr hslot, hloop], hlookup⟩

theorem not_confined_of_error {e : Halt} (h : k.mmap p a = .error e) : ¬Confined k p a := by
  rintro (⟨k1, hcall, -⟩ | ⟨k1, addr, frames, hcall, -⟩)
  · rw [h] at hcall
    cases hcall
  · rw [h] at hcall
    cases hcall

/-- The first turn without a free frame. -/
theorem mmapPage_empty (hnil : k.mem.freelist = []) (hlt : addr < 2 ^ 32) :
    k.mmapPage p a addr 0 = .ok (k, false) := by
  have hva : uint (addr + 0) = addr := Nat.mod_eq_of_lt hlt
  rw [Kernel.mmapPage, Mem.kalloc_nil hnil]
  simp only [hva, Space.dealloc, le_rfl, if_true, Kernel.setSpace_space]

/-- The first turn without a file to read from. -/
theorem mmapPage_noFile {frame : Nat} {mem : Mem} {s : Space} (hfile : ¬k.HasFile p a)
    (halign : addr % 4096 = 0) (hlt : addr < 2 ^ 32) (hk : k.mem.kalloc = some (frame, mem))
    (hm : Space.mapPage ⟨mem.zeroPage frame, (k.procs p).pgdir⟩ addr frame
      (pteW ||| pteU) = .ok (s, true)) :
    ∃ e, k.mmapPage p a addr 0 = .error e := by
  have hva : uint (addr + 0) = addr := Nat.mod_eq_of_lt hlt
  obtain ⟨hanon, hnone⟩ : has a.flags mapAnonymous = false ∧
      ∀ f, k.ofileAt p a.fd = .ok (some f) → k.ipOf f = none := by
    simpa [Kernel.HasFile, ← Option.eq_none_iff_forall_ne_some] using hfile
  rw [Kernel.mmapPage, hk]
  simp only [hva, Space.mappages_aligned halign hlt, hm, hanon, Bool.false_eq_true, if_false,
    Kernel.mmapRead, Kernel.ofileAt_setSpace]
  split
  case h_1 e _ => exact ⟨e, rfl⟩
  case h_2 k1 h1 =>
    split at h1
    · cases h1
    · cases h1
    case h_3 f hf =>
      rw [Kernel.ipOf_setSpace, hnone f hf] at h1
      cases h1

end Passed

/-- What a turn does to the page table, once it has a frame. -/
theorem mmapPage_cases {addr i frame : Nat} {mem : Mem} {r : Bool}
    (hk : k.mem.kalloc = some (frame, mem)) (h : k.mmapPage p a addr i = .ok (k', r)) :
    ∃ s, Space.mappages ⟨mem.zeroPage frame, (k.procs p).pgdir⟩ (uint (addr + i)) pgSize frame
        (pteW ||| pteU) = .ok (s, r) ∧
      ((r = true ∧ (k'.procs p).pgdir = s.pgdir) ∨
        (r = false ∧ ∃ s', s.dealloc (uint (addr + i + pgSize)) addr = .ok s' ∧
          (k'.procs p).pgdir = s'.pgdir)) := by
  rw [Kernel.mmapPage, hk] at h
  dsimp only at h
  split at h
  · cases h
  case h_2 s hm =>
    split at h
    · cases h
    case h_2 s' hd =>
      split at h
      · cases h
      · obtain ⟨rfl, rfl⟩ := Prod.mk.inj (Except.ok.inj h)
        exact ⟨s, hm, Or.inr ⟨rfl, s', hd, by simp⟩⟩
  case h_3 s hm =>
    split at h
    · obtain ⟨rfl, rfl⟩ := Prod.mk.inj (Except.ok.inj h)
      exact ⟨s, hm, Or.inl ⟨rfl, by simp⟩⟩
    · split at h
      · cases h
      case h_2 k1 hr =>
        obtain ⟨rfl, rfl⟩ := Prod.mk.inj (Except.ok.inj h)
        obtain ⟨bytes, hk1⟩ := Kernel.mmapRead_eq hr
        exact ⟨s, hm, Or.inl ⟨rfl, by simp [hk1]⟩⟩

/-! ## An address inside a page -/

section Unaligned

variable {va f perm : Nat} {s s' : Space}

/-- `mappages` of one page at such an address maps two, and the second frame is the one
behind the first. -/
theorem mappages_unaligned (halign : va % 4096 ≠ 0) (hlt : va < 0xFE000000) :
    s.mappages va pgSize f perm =
      match s.mapPage (pgRoundDown va) f perm with
      | .error h => .error h
      | .ok (s, false) => .ok (s, false)
      | .ok (s, true) => s.mapPage (pgRoundDown va + 4096) (f + 4096) perm := by
  have hlast : pgRoundDown (uint (va + pgSize - 1)) = pgRoundDown va + 4096 := by
    simp only [pgRoundDown, pgSize, uint]
    omega
  have hne : pgRoundDown va ≠ pgRoundDown va + 4096 := by omega
  have hnext : uint (pgRoundDown va + 4096) = pgRoundDown va + 4096 := by
    simp only [pgRoundDown, pgSize, uint]
    omega
  rw [Space.mappages, hlast, show allPages = (2 ^ 20 - 1) + 2 from rfl, Space.mapLoop]
  cases s.mapPage (pgRoundDown va) f perm with
  | error e => rfl
  | ok r =>
      obtain ⟨s1, _ | _⟩ := r
      · rfl
      · simp only [hne, if_false, hnext, Space.mapLoop, pgSize]
        cases s1.mapPage (pgRoundDown va + 4096) (f + 4096) perm with
        | error e => rfl
        | ok r =>
            obtain ⟨s2, _ | _⟩ := r
            · rfl
            · simp

theorem pageOf_pgRoundDown_next (va : Nat) :
    pageOf (pgRoundDown va + 4096) = pageOf (va + 4096) := by
  simp only [pageOf, pgRoundDown, pgSize]
  omega

theorem pageOf_next_ne (va : Nat) : pageOf (va + 4096) ≠ pageOf va := by
  simp only [pageOf]
  omega

/-- What the clean-up of the first turn does: it looks at the second page only. -/
theorem dealloc_unaligned (halign : va % 4096 ≠ 0) (hlt : va < 0xFE000000)
    (h : s.dealloc (uint (va + 4096)) va = .ok s') :
    s'.pgdir.lookup va = s.pgdir.lookup va ∧ s'.pgdir.lookup (va + 4096) = none := by
  have hold : uint (va + 4096) = va + 4096 := Nat.mod_eq_of_lt (by omega)
  have hup : pgRoundUp va = pgRoundDown va + 4096 := by
    simp only [pgRoundUp, pgRoundDown, pgSize, uint]
    omega
  rw [hold] at h
  constructor
  · apply Space.dealloc_lookup (fun _ => by omega) h
    intro c hc hlt' hmod
    simp only [pageOf]
    rw [hup] at hc
    simp only [pgRoundDown, pgSize] at hc
    omega
  · rw [Space.dealloc, if_neg (by omega), hup, show allPages = (2 ^ 20 - 1) + 2 from rfl,
      Space.deallocLoop] at h
    have hin : pgRoundDown va + 4096 < va + 4096 := by
      simp only [pgRoundDown, pgSize]
      omega
    rw [if_pos hin] at h
    cases hturn : s.deallocPage (pgRoundDown va + 4096) with
    | error e => simp [hturn] at h
    | ok r =>
        obtain ⟨a', s1⟩ := r
        have habsent := Space.deallocPage_absent hturn
        have hup' : ¬a' < va + 4096 := by
          rcases (Space.deallocPage_eq_ok hturn).1 with ⟨hjump, -⟩ | hstep
          · simp only [nextTable, pdx, uint, pgRoundDown, pgSize] at hjump
            omega
          · simp only [uint, pgRoundDown, pgSize] at hstep
            omega
        simp only [hturn, Space.deallocLoop, if_neg hup', Except.ok.injEq] at h
        subst h
        rwa [← Pgdir.lookup_congr _ (pageOf_pgRoundDown_next va)]

theorem dealloc_unaligned_absent (halign : va % 4096 ≠ 0) (hlt : va < 0xFE000000)
    (h : s.pgdir.lookup (va + 4096) = none) : s.dealloc (uint (va + 4096)) va = .ok s := by
  have hold : uint (va + 4096) = va + 4096 := Nat.mod_eq_of_lt (by omega)
  have hup : pgRoundUp va = pgRoundDown va + 4096 := by
    simp only [pgRoundUp, pgRoundDown, pgSize, uint]
    omega
  have hin : pgRoundDown va + 4096 < va + 4096 := by
    simp only [pgRoundDown, pgSize]
    omega
  rw [← Pgdir.lookup_congr _ (pageOf_pgRoundDown_next va)] at h
  obtain ⟨a', hturn, hnext⟩ := Space.deallocPage_of_absent h
  have hout : ¬a' < va + 4096 := by
    rcases hnext with hjump | hstep
    · simp only [nextTable, pdx, uint, pgRoundDown, pgSize] at hjump
      omega
    · simp only [uint, pgRoundDown, pgSize] at hstep
      omega
  rw [hold, Space.dealloc, if_neg (by omega), hup, show allPages = (2 ^ 20 - 1) + 2 from rfl,
    Space.deallocLoop, if_pos hin, hturn]
  simp only [Space.deallocLoop, if_neg hout]

end Unaligned

/-- The first turn at an unaligned address, with a free frame: it stops for want of a page
table, or it leaves the page of the address mapped, and the one behind too if it succeeds. -/
theorem unaligned_turn {va : Nat} {r : Bool} (halign : va % 4096 ≠ 0) (hword : va < 2 ^ 32)
    (hhalf : KernelHalf (k.procs p).pgdir) (hfree : k.mem.freelist ≠ [])
    (h : k.mmapPage p a va 0 = .ok (k', r)) :
    va < 0xFE000000 ∧ (k.procs p).pgdir.lookup va = none ∧
      ((r = false ∧ k.mem.freelist.length < pageNeeds (k.procs p).pgdir va ∧
          (k'.procs p).pgdir.lookup (va + 4096) = none) ∨
        ((k'.procs p).pgdir.lookup va ≠ none ∧
          (r = true → (k'.procs p).pgdir.lookup (va + 4096) ≠ none))) := by
  obtain ⟨frame, rest, hl⟩ := List.exists_cons_of_ne_nil hfree
  have hva : uint (va + 0) = va := Nat.mod_eq_of_lt hword
  obtain ⟨s, hmap, hend⟩ := mmapPage_cases (Mem.kalloc_cons hl) h
  rw [hva] at hmap
  by_cases hpresent : (k.procs p).pgdir.present va = true
  · rw [Space.mappages_of_present hpresent] at hmap
    cases hmap
  have habsent : (k.procs p).pgdir.lookup va = none := by
    simpa [Pgdir.present] using hpresent
  have hlt : va < 0xFE000000 := by
    by_contra hge
    exact hpresent (hhalf.devices va (by simp only [devSpace]; omega) hword)
  refine ⟨hlt, habsent, ?_⟩
  rw [mappages_unaligned halign hlt] at hmap
  split at hmap
  · cases hmap
  case h_2 s1 hfirst =>
    -- There is no frame for the page table.
    obtain ⟨rfl, rfl⟩ := Prod.mk.inj (Except.ok.inj hmap)
    obtain ⟨rfl, -⟩ := Space.mapPage_eq_false hfirst
    obtain ⟨-, s', hd, hpgdir⟩ := hend.resolve_left (by simp)
    left
    refine ⟨rfl, ?_, ?_⟩
    · obtain ⟨htable, hnil⟩ := Space.mapPage_false hfirst
      have hpdx := (pageOf_eq_iff.mp (pageOf_pgRoundDown va)).1
      have hrest : rest = [] := hnil
      rw [hpdx, ← Pgdir.tableFrame_eq_none] at htable
      rw [hl, hrest, pageNeeds, if_pos htable, List.length_singleton]
      omega
    · rw [hpgdir]
      exact (dealloc_unaligned halign hlt (by simpa using hd)).2
  case h_3 s1 hfirst =>
    right
    obtain ⟨-, hlookup, -⟩ := Space.mapPage_eq_true hfirst
    have hva1 : s1.pgdir.lookup va ≠ none := by
      rw [hlookup, if_pos (pageOf_pgRoundDown va).symm]
      simp
    rcases hend with ⟨rfl, hpgdir⟩ | ⟨rfl, s', hd, hpgdir⟩
    · obtain ⟨-, hlookup2, -⟩ := Space.mapPage_eq_true hmap
      rw [hpgdir]
      constructor
      · rw [hlookup2, if_neg]
        · exact hva1
        · rw [pageOf_pgRoundDown_next]
          exact (pageOf_next_ne va).symm
      · intro _
        rw [hlookup2, if_pos (pageOf_pgRoundDown_next va).symm]
        simp
    · obtain ⟨rfl, -⟩ := Space.mapPage_eq_false hmap
      constructor
      · rw [hpgdir, (dealloc_unaligned halign hlt (by simpa using hd)).1]
        exact hva1
      · simp

/-- At an unaligned address a loop that gives up has stopped early, or the pages are not
what they were. -/
theorem unaligned_lookup {va n : Nat} (halign : va % 4096 ≠ 0) (hword : va < 2 ^ 32)
    (hhalf : KernelHalf (k.procs p).pgdir)
    (hlookup : ∀ b, (k'.procs p).pgdir.lookup b = (k.procs p).pgdir.lookup b)
    (h : k.mmapLoop p a va (n + 1) 0 = .ok (k', false)) :
    k.mem.freelist.length = 0 ∨ (k.mem.freelist.length < pageNeeds (k.procs p).pgdir va ∧
      (k.procs p).pgdir.lookup (va + pgSize) = none) := by
  by_cases hfree : k.mem.freelist = []
  · left
    rw [hfree, List.length_nil]
  right
  rw [Kernel.mmapLoop] at h
  split at h
  · cases h
  case h_2 k1 hturn =>
    obtain ⟨rfl, -⟩ := Prod.mk.inj (Except.ok.inj h)
    obtain ⟨hlt, habsent, ⟨-, hshort, hnext⟩ | ⟨hpresent, -⟩⟩ :=
      unaligned_turn halign hword hhalf hfree hturn
    · exact ⟨hshort, (hlookup _).symm.trans hnext⟩
    · rw [hlookup, habsent] at hpresent
      exact absurd rfl hpresent
  case h_3 k1 hturn =>
    obtain ⟨hlt, habsent, ⟨hr, -⟩ | ⟨hpresent, hnext⟩⟩ :=
      unaligned_turn halign hword hhalf hfree hturn
    · cases hr
    -- The second turn finds the page behind mapped, or cleans up only that page.
    suffices hkept : (k'.procs p).pgdir.lookup va = (k1.procs p).pgdir.lookup va by
      rw [← hkept, hlookup, habsent] at hpresent
      exact absurd rfl hpresent
    cases n with
    | zero => cases h
    | succ n =>
        have hva : uint (va + (0 + pgSize)) = va + 4096 := by
          rw [Nat.zero_add]
          exact Nat.mod_eq_of_lt (by simp only [pgSize]; omega)
        rw [Kernel.mmapLoop] at h
        cases hl : k1.mem.freelist with
        | nil =>
            rw [Kernel.mmapPage, Mem.kalloc_nil hl, hva] at h
            cases hd : (k1.space p).dealloc (va + 4096) va with
            | error e => simp [hd] at h
            | ok s =>
                simp only [hd, Except.ok.injEq, Prod.mk.injEq, and_true] at h
                have hold : uint (va + 4096) = va + 4096 := Nat.mod_eq_of_lt (by omega)
                rw [← hold] at hd
                rw [← h]
                simpa [Kernel.space] using (dealloc_unaligned halign hlt hd).1
        | cons frame rest =>
            have hpanic : ∀ k2 r, k1.mmapPage p a va (0 + pgSize) ≠ .ok (k2, r) := by
              intro k2 r hturn
              obtain ⟨s, hmap, -⟩ := mmapPage_cases (Mem.kalloc_cons hl) hturn
              rw [hva, Space.mappages_of_present] at hmap
              · cases hmap
              · exact Option.isSome_iff_ne_none.mpr (hnext rfl)
            split at h
            · cases h
            case h_2 k2 hturn => exact absurd hturn (hpanic k2 false)
            case h_3 k2 hturn => exact absurd hturn (hpanic k2 true)

/-- Conversely, a loop that stops early leaves the pages as they were. -/
theorem unaligned_stops {va n : Nat} (hsound : k.mem.Sound) (halign : va % 4096 ≠ 0)
    (hword : va < 2 ^ 32) (hhalf : KernelHalf (k.procs p).pgdir)
    (hstop : k.mem.freelist.length = 0 ∨
      (k.mem.freelist.length < pageNeeds (k.procs p).pgdir va ∧
        (k.procs p).pgdir.lookup (va + pgSize) = none)) :
    ∃ k', k.mmapLoop p a va (n + 1) 0 = .ok (k', false) ∧
      ∀ b, (k'.procs p).pgdir.lookup b = (k.procs p).pgdir.lookup b := by
  by_cases hnil : k.mem.freelist = []
  · refine ⟨k, ?_, fun _ => rfl⟩
    rw [Kernel.mmapLoop, mmapPage_empty hnil hword]
  obtain ⟨hshort, hnext⟩ := hstop.resolve_left
    (fun h0 => hnil (List.length_eq_zero_iff.mp h0))
  have hcases : k.mem.freelist = [] ∨ ∃ f, k.mem.freelist = [f] ∧
      (k.procs p).pgdir.table (pdx va) = none := lt_pageNeeds_cases (s := k.space p) hshort
  obtain ⟨frame, hl, htable⟩ := hcases.resolve_left hnil
  have hlt : va < 0xFE000000 := by
    by_contra hge
    have hpresent := hhalf.devices va (by simp only [devSpace]; omega) hword
    rw [Pgdir.present, Pgdir.lookup_of_table_none htable] at hpresent
    cases hpresent
  have hva : uint (va + 0) = va := Nat.mod_eq_of_lt hword
  have hk : k.mem.kalloc = some (frame, { k.mem with freelist := [] }) := Mem.kalloc_cons hl
  generalize hmem : ({ k.mem with freelist := [] } : Mem) = mem at hk
  have hempty : (mem.zeroPage frame).freelist = [] := by
    rw [← hmem]
    rfl
  have himage : (mem.zeroPage frame).imageEnd = k.mem.imageEnd := by
    rw [← hmem]
    rfl
  have hpdx := (pageOf_eq_iff.mp (pageOf_pgRoundDown va)).1
  have hmap : Space.mappages ⟨mem.zeroPage frame, (k.procs p).pgdir⟩ va pgSize frame
      (pteW ||| pteU) = .ok (⟨mem.zeroPage frame, (k.procs p).pgdir⟩, false) := by
    rw [mappages_unaligned halign hlt, Space.mapPage_of_none
      (s := ⟨mem.zeroPage frame, (k.procs p).pgdir⟩) (hpdx ▸ htable) (Mem.kalloc_nil hempty)]
  have hd := dealloc_unaligned_absent (s := ⟨mem.zeroPage frame, (k.procs p).pgdir⟩) halign hlt
    hnext
  have hfreeable : (mem.zeroPage frame).Freeable frame :=
    (hsound.freeable frame (by rw [hl]; exact List.mem_singleton_self _)).congr himage
  obtain ⟨mem', hmem'⟩ := Mem.exists_kfree hfreeable
  refine ⟨k.setSpace p ⟨mem', (k.procs p).pgdir⟩, ?_, fun b => by simp⟩
  have hva' : uint (va + 0 + pgSize) = uint (va + 4096) := rfl
  rw [Kernel.mmapLoop, Kernel.mmapPage, hk]
  simp only [hva, hva', hmap, hd, hmem']

/-! ## When the promise is kept -/

/-- An unaligned call that has passed the checks. -/
theorem confined_unaligned {j : Fin nVma} (hsound : k.mem.Sound)
    (hhalf : KernelHalf (k.procs p).pgdir) (hlength : 0 < a.length) (hword : a.addr < 2 ^ 32)
    (hfixed : has a.flags mapFixed = true)
    (haddr : mmapAddr (k.procs p).pgdir a = some a.addr)
    (hslot : mmapSlot (k.procs p).vmas = some j) (halign : a.addr % 4096 ≠ 0) :
    Confined k p a ↔ StopsEarly k p a := by
  rw [StopsEarly, if_neg (by simpa [pgSize] using halign)]
  constructor
  · rintro (⟨k', hcall, hlookup⟩ | ⟨k', addr, frames, hcall, hmod, -⟩)
    · have hfalse : ∃ k1, k.mmapLoop p a a.addr (mmapTurns a.length) 0 = .ok (k1, false) := by
        by_contra hnone
        exact mmap_ne_failed hlength haddr hslot (fun k1 h => hnone ⟨k1, h⟩) hcall
      obtain ⟨k1, hloop⟩ := hfalse
      rw [mmap_eq hlength haddr hslot, hloop] at hcall
      obtain ⟨rfl, -⟩ := Prod.mk.inj (Except.ok.inj hcall)
      cases hturns : mmapTurns a.length with
      | zero => rw [hturns] at hloop; cases hloop
      | succ n =>
          rw [hturns] at hloop
          exact ⟨by omega, unaligned_lookup halign hword hhalf hlookup hloop⟩
    · have haddr' := mmap_fixed_addr hfixed hcall (by omega)
      have : addr = a.addr := by omega
      subst this
      exact absurd hmod halign
  · rintro ⟨hturns, hstop⟩
    obtain ⟨n, hn⟩ := Nat.exists_eq_succ_of_ne_zero hturns.ne'
    obtain ⟨k', hloop, hlookup⟩ := unaligned_stops (a := a) (n := n) hsound halign hword hhalf hstop
    rw [← Nat.succ_eq_add_one, ← hn] at hloop
    exact .of_loop_false hlength haddr hslot hloop hlookup

theorem framesNeeded_one (d : Pgdir) (addr : Nat) : framesNeeded d addr 1 = pageNeeds d addr := by
  have h := (PagesTaken.nil ⟨⟨[], fun _ => 0, 0, 0⟩, d⟩ addr 0).framesNeeded_succ
  simpa [framesNeeded_zero] using h

/-- Absent pages in a row lie below the device pages. -/
theorem absent_below {d : Pgdir} {addr m : Nat} (hhalf : KernelHalf d) (halign : addr % 4096 = 0)
    (hlt : addr < 2 ^ 32) (hm : 0 < m)
    (habsent : ∀ j, j < m → d.lookup (addr + j * 4096) = none) :
    addr + m * 4096 ≤ 0xFE000000 := by
  by_contra hover
  have hdevice : ∃ j, j < m ∧ 0xFE000000 ≤ addr + j * 4096 ∧ addr + j * 4096 < 2 ^ 32 := by
    rcases Nat.lt_or_ge addr 0xFE000000 with hbelow | habove
    · exact ⟨(0xFE000000 - addr) / 4096, by omega, by omega, by omega⟩
    · exact ⟨0, hm, by omega, by omega⟩
  obtain ⟨j, hj, hge, hword⟩ := hdevice
  have hpresent := hhalf.devices _ (by simpa [devSpace] using hge) hword
  rw [Pgdir.present, habsent j hj] at hpresent
  cases hpresent

/-- Pages that the loop has placed are what a confined call maps. -/
theorem Placed.mapsPages {addr : Nat} {frames tables : List Nat} {k1 : Kernel}
    (h : Placed k p a addr frames tables k1) (hnodup : k.mem.freelist.Nodup)
    (hpgdir : (k'.procs p).pgdir = (k1.procs p).pgdir) (hmem : k'.mem = k1.mem) :
    MapsPages k p addr frames.length frames k' := by
  have hall := h.taken.freelist.nodup_iff.mp hnodup
  constructor
  case count => rfl
  case distinct => exact hall.sublist (List.sublist_append_left _ _)
  case taken =>
    intro f hf
    constructor
    · exact h.taken.freelist.mem_iff.mpr (List.mem_append_left _ hf)
    · intro hfree
      rw [hmem] at hfree
      exact (List.nodup_append.mp hall).2.2 f hf f (List.mem_append_right _ hfree) rfl
  case pages =>
    intro m f hf
    rw [hpgdir]
    exact ⟨h.taken.absent m (List.getElem?_eq_some_iff.mp hf).1, h.taken.mapped m f hf⟩
  case others =>
    intro b hb
    rw [hpgdir]
    exact h.taken.other b hb

section Aligned

variable {j : Fin nVma}

/-- A loop over absent pages of the window keeps the promise. -/
theorem Confined.of_inWindow (hsound : k.mem.Sound) (hnodup : k.mem.freelist.Nodup)
    (hlength : 0 < a.length) (haddr : mmapAddr (k.procs p).pgdir a = some a.addr)
    (hslot : mmapSlot (k.procs p).vmas = some j) (h : InWindow k p a) : Confined k p a := by
  obtain ⟨halign, hend, hfile⟩ := h
  obtain ⟨hstart, hfree, -⟩ := mmapAddr_eq_some haddr
  simp only [pgSize, vmaEnd] at halign hend
  have hbig : a.length ≤ 0x20000000 := by
    simp only [pageCount, pgSize] at hend
    omega
  have hturns := mmapTurns_of_le hlength (by omega)
  rw [ofInt_pgRoundUpInt hlength (by omega), isRegionFree_iff (by omega)] at hfree
  rcases mmapLoop_places hsound hfile halign (by omega) hfree with
    ⟨-, frames, tables, k1, hcount, hplaced, hloop⟩ | ⟨-, tables, k1, hloop, hrestored⟩
  · right
    have hcall : ∃ v, k.mmap p a = .ok (k1.setVma p j v, a.addr) := by
      rw [mmap_eq hlength haddr hslot, hturns, hloop]
      dsimp only
      rcases hplaced.hasFile.mpr hfile with hanon | ⟨f, -, hf, -⟩
      · exact ⟨_, by rw [if_pos hanon]⟩
      · rw [hf]
        dsimp only
        split
        · exact ⟨_, rfl⟩
        · exact ⟨_, rfl⟩
    obtain ⟨v, hv⟩ := hcall
    refine ⟨_, a.addr, frames, hv, halign, hstart, by simpa [pgSize, vmaEnd] using hend, ?_⟩
    rw [← hcount]
    apply hplaced.mapsPages hnodup
    · simp [Kernel.setVma]
    · rfl
  · rw [← hturns] at hloop
    exact .of_loop_false hlength haddr hslot hloop hrestored.lookup

/-- Where memory runs out on the way, the pages are given back. -/
theorem Confined.of_stopsEarly (hsound : k.mem.Sound) (hhalf : KernelHalf (k.procs p).pgdir)
    (hlength : 0 < a.length) (hword : a.addr < 2 ^ 32) (halign : a.addr % 4096 = 0)
    (haddr : mmapAddr (k.procs p).pgdir a = some a.addr)
    (hslot : mmapSlot (k.procs p).vmas = some j) (h : StopsEarly k p a) : Confined k p a := by
  rw [StopsEarly, if_pos (by simpa [pgSize] using halign)] at h
  obtain ⟨m, hm, habsent, hout, hfile⟩ := h
  simp only [pgSize] at habsent
  by_cases hnil : k.mem.freelist = []
  · obtain ⟨n, hn⟩ := Nat.exists_eq_succ_of_ne_zero (Nat.ne_of_gt (Nat.lt_of_le_of_lt
      (Nat.zero_le m) hm))
    have hloop : k.mmapLoop p a a.addr (mmapTurns a.length) 0 = .ok (k, false) := by
      rw [hn, Kernel.mmapLoop, mmapPage_empty hnil hword]
    exact Confined.of_loop_false hlength haddr hslot hloop fun _ => rfl
  · obtain ⟨m1, hm1, hframes, hout1⟩ := exists_failing_turn hout
    have hbound : a.addr + m1 * 4096 < 0xFFBFF000 := by
      rcases Nat.eq_zero_or_pos m1 with rfl | hpos
      · have hshort : (k.space p).mem.freelist.length < pageNeeds (k.space p).pgdir a.addr := by
          rw [Nat.zero_add, framesNeeded_one] at hout1
          exact hout1
        obtain ⟨f, -, htable⟩ := (lt_pageNeeds_cases hshort).resolve_left hnil
        have hone := absent_below hhalf halign hword Nat.one_pos fun j hj => by
          obtain rfl : j = 0 := by omega
          rw [Nat.zero_mul, Nat.add_zero]
          exact Pgdir.lookup_of_table_none htable
        omega
      · have hbelow := absent_below hhalf halign hword hpos fun j hj => habsent j (by omega)
        omega
    obtain ⟨tables, k', hloop, hrestored⟩ := mmapLoop_fails hsound halign hbound
      (Nat.lt_of_lt_of_le hm1 hm) (fun hpos => hfile (by omega)) (fun j hj => habsent j (by omega))
      hframes hout1
    exact .of_loop_false hlength haddr hslot hloop hrestored.lookup

/-- Otherwise the call does not return, or it returns without having mapped a page. -/
theorem not_confined_aligned (hhalf : KernelHalf (k.procs p).pgdir) (hlength : 0 < a.length)
    (hwords : a.Words) (hfixed : has a.flags mapFixed = true) (halign : a.addr % 4096 = 0)
    (haddr : mmapAddr (k.procs p).pgdir a = some a.addr)
    (hslot : mmapSlot (k.procs p).vmas = some j) (hout : ¬InWindow k p a)
    (hstop : ¬StopsEarly k p a) : ¬Confined k p a := by
  obtain ⟨hstart, -, hcase⟩ := mmapAddr_eq_some haddr
  rw [if_pos hfixed, ofInt_pgRoundUpInt hlength hwords.2] at hcase
  rw [StopsEarly, if_pos (by simpa [pgSize] using halign)] at hstop
  simp only [pgSize] at hstop
  rcases lt_or_ge (0x7FFFF000 : Int) a.length with hbig | hle
  · -- The rounded length is negative, and the loop makes no turn.
    have hturns := mmapTurns_of_lt hbig hwords.2
    rintro (⟨k', hcall, -⟩ | ⟨k', addr, frames, hcall, -, hge, hend, -⟩)
    · apply mmap_ne_failed hlength haddr hslot _ hcall
      intro k1 hloop
      rw [hturns] at hloop
      cases hloop
    · simp only [vmaStart, vmaEnd, pageCount, pgSize] at hge hend
      omega
  have hturns := mmapTurns_of_le hlength hle
  have hpos := pageCount_pos hlength
  suffices herror : ∃ e, k.mmapLoop p a a.addr (mmapTurns a.length) 0 = .error e by
    obtain ⟨e, he⟩ := herror
    exact not_confined_of_error (mmap_of_loop_error hlength haddr hslot he)
  by_cases hfile : k.HasFile p a
  · -- The region leaves the window, so it reaches the device pages.
    have hwrap : 2 ^ 32 ≤ a.addr + pageCount a.length * 4096 := by
      have hover : ¬a.addr + pageCount a.length * 4096 ≤ 0x80000000 := fun hin =>
        hout ⟨by simpa [pgSize] using halign, by simpa [pgSize, vmaEnd] using hin, hfile⟩
      have := hcase.2
      simp only [uint] at this
      omega
    have hfound : ∃ m, m < pageCount a.length ∧
        (k.procs p).pgdir.lookup (a.addr + m * 4096) ≠ none := by
      by_contra hnone
      have hbelow := absent_below hhalf halign hwords.1 hpos fun j hj => by
        by_contra hsome
        exact hnone ⟨j, hj, hsome⟩
      omega
    classical
    obtain ⟨hm, hpresent⟩ := Nat.find_spec hfound
    have habsent : ∀ j, j < Nat.find hfound →
        (k.procs p).pgdir.lookup (a.addr + j * 4096) = none := by
      intro j hj
      by_contra hsome
      exact Nat.find_min hfound hj ⟨by omega, hsome⟩
    generalize Nat.find hfound = m at hm hpresent habsent
    have hbelow : a.addr + m * 4096 < 2 ^ 32 := by
      rcases Nat.eq_zero_or_pos m with rfl | hm0
      · simpa using hwords.1
      · have := absent_below hhalf halign hwords.1 hm0 habsent
        omega
    have henough : framesNeeded (k.procs p).pgdir a.addr (m + 1) ≤ k.mem.freelist.length := by
      by_contra hshort
      exact hstop ⟨m, hturns ▸ hm, habsent, Nat.lt_of_not_le hshort, fun _ => hfile⟩
    obtain ⟨frames, tables, k1, rfl, hplaced, hloop⟩ := exists_placed hfile halign hbelow.le
      habsent ((framesNeeded_lt (Nat.lt_succ_self m)).le.trans henough)
    have hneeded := hplaced.taken.framesNeeded_succ
    have hlength' := hplaced.taken.length_freelist
    have hfree : k1.mem.freelist ≠ [] := by
      intro hnil
      simp only [Kernel.space, hnil, List.length_nil, pageNeeds] at hneeded hlength'
      omega
    obtain ⟨frame, rest, hl⟩ := List.exists_cons_of_ne_nil hfree
    have hpanic := mmapPage_remap (a := a) (by omega) hbelow (Mem.kalloc_cons hl) (by
      rw [Pgdir.present, hplaced.lookup_next halign le_rfl (by omega)]
      exact Option.isSome_iff_ne_none.mpr hpresent)
    have hrest := hloop (mmapTurns a.length - frames.length - 1 + 1)
    rw [show frames.length + (mmapTurns a.length - frames.length - 1 + 1) = mmapTurns a.length by
      omega] at hrest
    exact ⟨.remap, by rw [hrest, Kernel.mmapLoop, hpanic]⟩
  · -- The first page is placed, and the read goes through a bad descriptor.
    have henough : pageNeeds (k.procs p).pgdir a.addr ≤ k.mem.freelist.length := by
      by_contra hshort
      rw [← framesNeeded_one] at hshort
      exact hstop ⟨0, by omega, by simp, Nat.lt_of_not_le hshort, fun h => by omega⟩
    obtain ⟨n, hn⟩ := Nat.exists_eq_succ_of_ne_zero (show mmapTurns a.length ≠ 0 by omega)
    suffices hturn : ∃ e, k.mmapPage p a a.addr 0 = .error e by
      obtain ⟨e, he⟩ := hturn
      exact ⟨e, by rw [hn, Kernel.mmapLoop, he]⟩
    by_cases hpresent : (k.procs p).pgdir.present a.addr = true
    · have hfree : k.mem.freelist ≠ [] := by
        intro hnil
        rw [hnil, List.length_nil, pageNeeds] at henough
        omega
      obtain ⟨frame, rest, hl⟩ := List.exists_cons_of_ne_nil hfree
      exact ⟨.remap, mmapPage_remap halign hwords.1 (Mem.kalloc_cons hl) hpresent⟩
    · have habsent : (k.space p).pgdir.lookup a.addr = none := by
        simpa [Pgdir.present, Kernel.space] using hpresent
      obtain ⟨frame, mem, s, hk, hm⟩ := exists_mapPage (pteW ||| pteU) habsent henough
      exact mmapPage_noFile hfile halign hwords.1 hk hm

end Aligned

/-- With `MAP_FIXED`, the call does nothing or maps the pages of its length inside the window
exactly when it is refused, or names whole pages of the window, or memory runs out early. -/
theorem fixed_confined_iff (hsound : k.mem.Sound) (hnodup : k.mem.freelist.Nodup)
    (hhalf : KernelHalf (k.procs p).pgdir) (hlength : 0 < a.length) (hwords : a.Words)
    (hfixed : has a.flags mapFixed = true) :
    Confined k p a ↔ Refused k p a ∨ InWindow k p a ∨ StopsEarly k p a := by
  cases haddr : mmapAddr (k.procs p).pgdir a with
  | none =>
      have hrefused : Refused k p a := Or.inl haddr
      exact iff_of_true (Or.inl ⟨k, mmap_of_noAddr haddr, fun _ => rfl⟩) (Or.inl hrefused)
  | some addr =>
      obtain rfl : addr = a.addr := by
        have hcase := (mmapAddr_eq_some haddr).2.2
        rw [if_pos hfixed] at hcase
        exact hcase.1
      cases hslot : mmapSlot (k.procs p).vmas with
      | none =>
          have hrefused : Refused k p a := Or.inr hslot
          exact iff_of_true (Or.inl ⟨k, mmap_of_noSlot hslot, fun _ => rfl⟩) (Or.inl hrefused)
      | some j =>
          have hpassed : ¬Refused k p a := by simp [Refused, haddr, hslot]
          rw [or_iff_right hpassed]
          by_cases halign : a.addr % 4096 = 0
          · constructor
            · intro h
              by_contra hneither
              rw [not_or] at hneither
              exact not_confined_aligned hhalf hlength hwords hfixed halign haddr hslot
                hneither.1 hneither.2 h
            · rintro (h | h)
              · exact .of_inWindow hsound hnodup hlength haddr hslot h
              · exact .of_stopsEarly hsound hhalf hlength hwords.1 halign haddr hslot h
          · have hnot : ¬InWindow k p a := fun h => halign (by simpa [pgSize] using h.1)
            rw [or_iff_right hnot]
            exact confined_unaligned hsound hhalf hlength hwords.1 hfixed haddr hslot halign

/-- One anonymous page at the start of the window. -/
def fixedPage : MmapArgs :=
  ⟨0x60000000, 4096, 3, mapPrivate ||| mapAnonymous ||| mapFixed, -1, 0⟩

theorem fixed_confined_iff_run : ∃ k, bootKernel 80 [] = .ok k ∧
    Confined k k.initproc fixedPage := by
  obtain ⟨k, hk, hmem⟩ := @exists_ok _ (bootKernel 80 []) (fun k =>
    decide (0 < k.mem.imageEnd) && decide (∀ f ∈ k.mem.freelist, k.mem.Freeable f) &&
      decide k.mem.freelist.Nodup) (by decide +kernel)
  simp only [Bool.and_eq_true, decide_eq_true_eq] at hmem
  obtain ⟨⟨himage, hfreeable⟩, hnodup⟩ := hmem
  have hwindow : InWindow k k.initproc fixedPage := ⟨by decide, by decide, Or.inl (by decide)⟩
  exact ⟨k, hk, (fixed_confined_iff ⟨himage, hfreeable⟩ hnodup (userinit_eq_ok hk).1 (by decide)
    (by decide) (by decide)).mpr (Or.inr (Or.inl hwindow))⟩

/-- Two anonymous pages at an address that is not a multiple of the page size. -/
def askewPages : MmapArgs :=
  ⟨0x60000001, 8192, 3, mapPrivate ||| mapAnonymous ||| mapFixed, -1, 0⟩

/-- The first page of the region is mapped together with the second, which the second turn
then finds present. -/
theorem askew_region_panics : ¬∀ (k : Kernel) p (a : MmapArgs), k.mem.Sound →
    k.mem.freelist.Nodup → KernelHalf (k.procs p).pgdir → 0 < a.length → a.Words →
    has a.flags mapFixed = true → Confined k p a := by
  intro hall
  obtain ⟨k, hk, hmem⟩ := @exists_ok _ (bootKernel 80 []) (fun k =>
    decide (0 < k.mem.imageEnd) && decide (∀ f ∈ k.mem.freelist, k.mem.Freeable f) &&
      decide k.mem.freelist.Nodup && haltsWith (k.mmap k.initproc askewPages) .remap)
    (by decide +kernel)
  simp only [Bool.and_eq_true, decide_eq_true_eq] at hmem
  obtain ⟨⟨⟨himage, hfreeable⟩, hnodup⟩, hpanic⟩ := hmem
  have hconfined := hall k k.initproc askewPages ⟨himage, hfreeable⟩ hnodup
    (userinit_eq_ok hk).1 (by decide) (by decide) (by decide)
  exact not_confined_of_error (error_of_check hpanic) hconfined

end OSProjects.Xv6
