import OSProjects.Xv6.Placement
import OSProjects.Xv6.References

/-!
# The pages that `munmap` removes

`munmap` removes the first page, and one more for every link from the record it finds, if
that is a shared file mapping that grows. The length decides nothing.
-/

namespace OSProjects.Xv6

open ByteMemory StepSystem

variable {k k' k'' : Kernel} {p : Fin nProc}

/-! ## Removing a range -/

/-- The frames of the pages among `n` from `addr` on that are present. -/
def framesOf (d : Pgdir) (addr n : Nat) : List Nat :=
  (List.range n).filterMap fun t => (d.lookup (addr + t * pgSize)).map Pte.pa

/-- The `n` pages from `addr` on are absent, their frames have been added to the free list,
and the other pages are as they were. -/
structure Removed (k : Kernel) (p : Fin nProc) (addr n : Nat) (k' : Kernel) : Prop where
  absent : ∀ t, t < n → (k'.procs p).pgdir.lookup (addr + t * pgSize) = none
  other : ∀ b, (∀ t, t < n → pageOf b ≠ pageOf (addr + t * pgSize)) →
    (k'.procs p).pgdir.lookup b = (k.procs p).pgdir.lookup b
  freelist : k'.mem.freelist.Perm (framesOf (k.procs p).pgdir addr n ++ k.mem.freelist)

theorem framesOf_add (d : Pgdir) (addr m n : Nat) :
    framesOf d addr (m + n) = framesOf d addr m ++ framesOf d (addr + m * pgSize) n := by
  simp only [framesOf, List.range_add, List.filterMap_append, List.filterMap_map,
    Function.comp_def, Nat.add_mul, Nat.add_assoc]

theorem framesOf_congr {d d' : Pgdir} {addr n : Nat}
    (h : ∀ t, t < n → d'.lookup (addr + t * pgSize) = d.lookup (addr + t * pgSize)) :
    framesOf d' addr n = framesOf d addr n := by
  apply List.filterMap_congr
  intro t ht
  rw [h t (List.mem_range.mp ht)]

theorem framesOf_absent {d : Pgdir} {addr n : Nat}
    (h : ∀ t, t < n → d.lookup (addr + t * pgSize) = none) : framesOf d addr n = [] := by
  apply List.filterMap_eq_nil_iff.mpr
  intro t ht
  rw [h t (List.mem_range.mp ht), Option.map_none]

namespace Removed

variable {addr m n : Nat}

theorem zero (k : Kernel) (p : Fin nProc) (addr : Nat) : Removed k p addr 0 k :=
  ⟨by simp, fun _ _ => rfl, List.Perm.refl _⟩

theorem of_absent (h : (k.procs p).pgdir.lookup addr = none) : Removed k p addr 1 k := by
  constructor
  case absent =>
    intro t ht
    obtain rfl : t = 0 := by omega
    simpa using h
  case other => exact fun _ _ => rfl
  case freelist => simp [framesOf, h]

/-- Two ranges that follow each other. -/
theorem append (h : Removed k p addr m k') (h' : Removed k' p (addr + m * pgSize) n k'')
    (halign : addr % 4096 = 0) (hlt : m + n ≤ 2 ^ 20) : Removed k p addr (m + n) k'' := by
  simp only [pgSize] at h h'
  have hapart : ∀ s t, s < m → t < n →
      pageOf (addr + m * 4096 + t * 4096) ≠ pageOf (addr + s * 4096) := by
    intro s t hs ht heq
    rw [Nat.add_assoc, ← Nat.add_mul, pageOf_add halign (by omega) (by omega)] at heq
    omega
  have hsplit : ∀ t, m ≤ t → addr + t * 4096 = addr + m * 4096 + (t - m) * 4096 := fun t ht => by
    omega
  constructor
  case absent =>
    intro t ht
    simp only [pgSize]
    rcases Nat.lt_or_ge t m with hm | hm
    · rw [h'.other _ fun s hs heq => hapart t s hm hs heq.symm]
      exact h.absent t hm
    · rw [hsplit t hm]
      exact h'.absent (t - m) (by omega)
  case other =>
    intro b hb
    simp only [pgSize] at hb
    rw [h'.other b fun t ht => by
      have := hb (m + t) (by omega)
      rwa [hsplit _ (Nat.le_add_right m t), Nat.add_sub_cancel_left] at this]
    exact h.other b fun t ht => hb t (by omega)
  case freelist =>
    have hsame : framesOf (k'.procs p).pgdir (addr + m * 4096) n =
        framesOf (k.procs p).pgdir (addr + m * 4096) n := by
      apply framesOf_congr
      intro t ht
      exact h.other _ fun s hs => hapart s t hs ht
    have hlater := h'.freelist
    rw [hsame] at hlater
    rw [framesOf_add, List.append_assoc]
    refine hlater.trans ((h.freelist.append_left _).trans ?_)
    rw [← List.append_assoc, ← List.append_assoc]
    exact List.perm_append_comm.append_right _

/-- Pages that were absent may be left out at the end. -/
theorem shrink (h : Removed k p addr (m + n) k')
    (habsent : ∀ t, m ≤ t → t < m + n → (k.procs p).pgdir.lookup (addr + t * pgSize) = none) :
    Removed k p addr m k' := by
  constructor
  case absent => exact fun t ht => h.absent t (by omega)
  case other =>
    intro b hb
    by_cases hin : ∃ t, t < m + n ∧ pageOf b = pageOf (addr + t * pgSize)
    · obtain ⟨t, ht, hpage⟩ := hin
      have hge : m ≤ t := by
        by_contra hlt
        exact hb t (by omega) hpage
      rw [Pgdir.lookup_congr _ hpage, Pgdir.lookup_congr _ hpage, h.absent t ht,
        habsent t hge ht]
    · exact h.other b fun t ht heq => hin ⟨t, ht, heq⟩
  case freelist =>
    have hrest : framesOf (k.procs p).pgdir (addr + m * pgSize) n = [] := by
      apply framesOf_absent
      intro t ht
      have := habsent (m + t) (by omega) (by omega)
      rwa [Nat.add_mul, ← Nat.add_assoc] at this
    have hall := h.freelist
    rwa [framesOf_add, hrest, List.append_nil] at hall

end Removed

/-! ## One page -/

/-- The memory behind `kfree`. -/
def Mem.junked (m : Mem) (pa : Nat) : Mem :=
  { m with
    freelist := pa :: m.freelist
    phys := Store.apply ⟨pa, wordBytes 4 m.nextFree⟩ (fill m.phys pa pgSize 1) }

/-- A turn of `deallocuvm` gives the frame of its page back. -/
theorem Space.deallocPage_mem {s s' : Space} {a a' : Nat}
    (h : s.deallocPage a = .ok (a', s')) :
    s'.mem = match s.pgdir.lookup a with
      | none => s.mem
      | some e => s.mem.junked e.pa := by
  cases ht : s.pgdir.table (pdx a) with
  | none =>
      simp only [deallocPage, ht, Except.ok.injEq, Prod.mk.injEq] at h
      rw [← h.2, Pgdir.lookup_of_table_none ht]
  | some t =>
      have hlookup : s.pgdir.lookup a = t.entry (ptx a) := by rw [Pgdir.lookup, ht, Option.bind_some]
      cases he : t.entry (ptx a) with
      | none =>
          simp only [deallocPage, ht, he, Except.ok.injEq, Prod.mk.injEq] at h
          rw [← h.2, hlookup, he]
      | some pte =>
          simp only [deallocPage, ht, he] at h
          split at h
          · cases h
          · split at h
            · cases h
            case h_2 mem hmem =>
              simp only [Except.ok.injEq, Prod.mk.injEq] at h
              rw [Mem.kfree] at hmem
              split at hmem
              case isFalse => cases hmem
              case isTrue =>
                rw [← h.2, hlookup, he]
                exact (Except.ok.inj hmem).symm

theorem Space.deallocPage_freelist {s s' : Space} {a a' : Nat}
    (h : s.deallocPage a = .ok (a', s')) :
    s'.mem.freelist = ((s.pgdir.lookup a).map Pte.pa).toList ++ s.mem.freelist := by
  rw [deallocPage_mem h]
  cases s.pgdir.lookup a with
  | none => rfl
  | some e => rfl

/-- `deallocuvm` up to an address in the page it starts with takes one turn. -/
theorem Space.dealloc_part {s s' : Space} {addr oldsz : Nat} (halign : addr % 4096 = 0)
    (hlt : addr < 0xFE000000) (hpos : addr < oldsz) (hpart : oldsz ≤ addr + 4096)
    (h : s.dealloc oldsz addr = .ok s') : ∃ a', s.deallocPage addr = .ok (a', s') := by
  have hup : pgRoundUp addr = addr := by
    simp only [pgRoundUp, pgSize, uint]
    omega
  have htwo : 2 ≤ allPages := by
    simp only [allPages]
    omega
  obtain ⟨fuel, hfuel⟩ := Nat.exists_eq_add_of_le' htwo
  rw [dealloc, if_neg (Nat.not_le.mpr hpos), hup, hfuel, deallocLoop, if_pos hpos] at h
  cases hturn : s.deallocPage addr with
  | error e => simp [hturn] at h
  | ok r =>
      obtain ⟨a', s1⟩ := r
      have hpast : ¬a' < oldsz := by
        rcases (deallocPage_eq_ok hturn).1 with ⟨hjump, -⟩ | hnext
        · simp only [nextTable, pdx, uint] at hjump
          omega
        · simp only [uint] at hnext
          omega
      simp only [hturn, deallocLoop, if_neg hpast, Except.ok.injEq] at h
      exact ⟨a', by rw [h]⟩

/-- `munmap` frees one page, whatever part of it the length covers. -/
theorem Removed.of_dealloc {addr : Nat} {part : Int} (halign : addr % 4096 = 0)
    (hlt : addr < 0xFE000000) (hpos : 0 < part) (hpart : part ≤ 4096)
    (h : k.dealloc p (ofInt (addr + part)) addr = .ok k') : Removed k p addr 1 k' := by
  have hold : ofInt (addr + part) = addr + part.toNat := by
    simp only [ofInt]
    omega
  rw [hold, Kernel.dealloc] at h
  cases hd : (k.space p).dealloc (addr + part.toNat) addr with
  | error e => simp [hd] at h
  | ok s =>
      rw [hd] at h
      obtain rfl := Except.ok.inj h
      obtain ⟨a', hturn⟩ := Space.dealloc_part halign hlt (by omega) (by omega) hd
      constructor
      case absent =>
        intro t ht
        obtain rfl : t = 0 := by omega
        simpa using Space.deallocPage_absent hturn
      case other =>
        intro b hb
        rw [Kernel.procs_setSpace, Function.update_self]
        exact (Space.deallocPage_eq_ok hturn).2 b (by simpa using hb 0 Nat.zero_lt_one)
      case freelist =>
        rw [Kernel.mem_setSpace, Space.deallocPage_freelist hturn]
        cases hl : (k.procs p).pgdir.lookup addr with
        | none => simp [framesOf, Kernel.space, hl]
        | some e => simp [framesOf, Kernel.space, hl]

/-! ## The pages of a call -/

/-- The links that lead on from slot `j`. -/
def linkCount (vmas : Fin nVma → Vma) : Nat → Fin nVma → Option Nat
  | 0, _ => none
  | fuel + 1, j =>
      if (vmas j).next = 0 then some 0
      else (linkCount vmas fuel (vmas j).next).map (· + 1)

/-- How many pages `munmap` frees for the record in slot `j`. -/
def munmapPages (vmas : Fin nVma → Vma) (j : Fin nVma) : Option Nat :=
  let v := vmas j
  if has v.flags mapGrowsup && !has v.flags mapAnonymous && !has v.flags mapPrivate then
    (linkCount vmas (nVma + 1) j).map (· + 1)
  else some 1

section Length

variable {length : Int}

theorem pagePart_pos (h : 0 < length) : 0 < pagePart length := by
  simp only [pagePart, pgSize, gt_iff_lt]
  split <;> omega

theorem pagePart_le (length : Int) : pagePart length ≤ 4096 := by
  simp only [pagePart, pgSize, gt_iff_lt]
  split <;> omega

theorem restPart_pos (h : 0 < length) : 0 < restPart length := by
  simp only [restPart, pgSize, gt_iff_lt]
  split <;> omega

end Length

namespace Removed

variable {addr m n : Nat} {length rest : Int}

/-- What happens to the files before or after does not matter. -/
theorem of_filesOnly (hf : FilesOnly k k') (h : Removed k' p addr n k'') :
    Removed k p addr n k'' := by
  obtain ⟨inodes, blocks, rfl⟩ := hf
  exact ⟨h.absent, h.other, h.freelist⟩

theorem of_munmapPage {v : Vma} {off : Int} (halign : addr % 4096 = 0) (hlt : addr < 0xFE000000)
    (hlength : 0 < length) (h : k.munmapPage p v addr length off = .ok k') :
    Removed k p addr 1 k' := by
  rw [Kernel.munmapPage] at h
  split at h
  · cases h
  case h_2 k1 hw =>
    apply of_filesOnly (.of_written hw)
    exact of_dealloc halign hlt (pagePart_pos hlength) (pagePart_le _) h

theorem of_munmapFirst {v : Vma} (halign : addr % 4096 = 0) (hlt : addr < 0xFE000000)
    (hlength : 0 < length) (h : k.munmapFirst p v addr length = .ok (k', rest)) :
    Removed k p addr 1 k' ∧ 0 < rest := by
  rw [Kernel.munmapFirst] at h
  split at h
  case h_1 ht =>
    -- Without a page table the page is absent anyway.
    simp only [Except.ok.injEq, Prod.mk.injEq] at h
    obtain ⟨rfl, rfl⟩ := h
    exact ⟨of_absent (Pgdir.lookup_of_table_none ht), hlength⟩
  case h_2 =>
    dsimp only at h
    split at h
    · cases h
    case h_2 k1 hw =>
      split at h
      · cases h
      case h_2 k2 hd =>
        simp only [Except.ok.injEq, Prod.mk.injEq] at h
        obtain ⟨rfl, rfl⟩ := h
        refine ⟨of_filesOnly (.of_written hw) ?_, restPart_pos hlength⟩
        exact of_dealloc halign hlt (pagePart_pos hlength) (pagePart_le _) hd

/-- The loop frees one page for every link. -/
theorem of_munmapLoop {fuel : Nat} {j : Fin nVma} {off : Int} (halign : addr % 4096 = 0)
    (hlt : addr + fuel * 4096 < 0xFE000000) (hlength : 0 < length)
    (h : Kernel.munmapLoop p fuel j addr length off k = .ok k') :
    ∃ c, linkCount (k.procs p).vmas fuel j = some c ∧ c < fuel ∧
      Removed k p (addr + 4096) c k' := by
  induction fuel generalizing k j addr length off with
  | zero => simp [Kernel.munmapLoop] at h
  | succ fuel ih =>
      rw [Kernel.munmapLoop] at h
      split at h
      case isFalse hstop =>
        obtain rfl := Except.ok.inj h
        have hnext : ((k.procs p).vmas j).next = 0 := by
          by_contra hne
          exact hstop ⟨hne, hlength⟩
        exact ⟨0, by rw [linkCount, if_pos hnext], Nat.succ_pos _, zero k p _⟩
      case isTrue hgo =>
        dsimp only at h
        split at h
        · cases h
        case h_2 k1 hpage =>
          rw [Nat.succ_mul, Nat.add_comm (fuel * 4096), ← Nat.add_assoc] at hlt
          have hva : uint (addr + pgSize) = addr + 4096 := by
            simp only [uint, pgSize]
            omega
          rw [hva] at h hpage
          obtain ⟨c, hc, hcount, hrest⟩ := ih (by omega) hlt (restPart_pos hlength) h
          have hone := of_munmapPage (by omega) (by omega) hlength hpage
          rw [(SpaceAndFiles.of_munmapPage hpage).vmas] at hc
          refine ⟨c + 1, by rw [linkCount, if_neg hgo.1, hc, Option.map_some],
            Nat.succ_lt_succ hcount, ?_⟩
          rw [Nat.add_comm c]
          exact hone.append hrest (by omega) (by omega)

/-- The pages that `munmap` frees. -/
theorem of_munmap {r : Int} (halign : addr % 4096 = 0) (hlt : addr < 0x80000000)
    (hlength : 0 < length) (h : k.munmap p addr length = .ok (k', r)) :
    ∃ j m, munmapSlot (k.procs p).vmas addr = some j ∧
      munmapPages (k.procs p).vmas j = some m ∧ m ≤ nVma + 1 ∧ Removed k p addr m k' := by
  rw [Kernel.munmap] at h
  split at h
  · cases h
  case h_2 j hj =>
    dsimp only at h
    split at h
    · cases h
    case h_2 k1 rest hfirst =>
      obtain ⟨hone, hrest⟩ := of_munmapFirst halign (by omega) hlength hfirst
      split at h
      case isTrue hchain =>
        split at h
        · cases h
        case h_2 k2 hloop =>
          obtain ⟨rfl, -⟩ := Prod.mk.inj (Except.ok.inj h)
          obtain ⟨c, hc, hcount, hmore⟩ := of_munmapLoop halign
            (by simp only [nVma]; omega) hrest hloop
          rw [(SpaceAndFiles.of_munmapFirst hfirst).vmas] at hc
          refine ⟨j, c + 1, hj, by rw [munmapPages, if_pos hchain, hc, Option.map_some], hcount, ?_⟩
          rw [Nat.add_comm c]
          exact hone.append (by simpa using hmore) halign (by simp only [nVma] at hcount; omega)
      case isFalse hchain =>
        obtain ⟨rfl, -⟩ := Prod.mk.inj (Except.ok.inj h)
        exact ⟨j, 1, hj, by rw [munmapPages, if_neg hchain], by simp [nVma], hone⟩

end Removed

/-! ## The range that was asked for -/

/-- A range as `mmap` hands it out: it starts on a page and lies in the window, and its
pages are still present. -/
structure RangeMapped (k : Kernel) (p : Fin nProc) (addr : Nat) (length : Int) : Prop where
  pos : 0 < length
  word : length < 2 ^ 31
  aligned : addr % pgSize = 0
  stop : addr + pageCount length * pgSize ≤ vmaEnd
  present : ∀ t, t < pageCount length → (k.procs p).pgdir.present (addr + t * pgSize) = true

/-- What `mmap` returns is such a range, if the address it is given starts a page and the
rounded length is a word. -/
theorem RangeMapped.of_mmap {a : MmapArgs} {addr : Nat} (hhalf : KernelHalf (k.procs p).pgdir)
    (hwords : a.Words)
    (hfixed : has a.flags mapFixed = true → a.addr % 4096 = 0 ∧ a.length ≤ 0x7FFFF000)
    (h : k.mmap p a = .ok (k', addr)) : RangeMapped k' p addr a.length := by
  have hout := mmap_outcome h
  generalize hr : (addr : Int) = r at hout
  cases hout with
  | refused => omega
  | gaveUp => omega
  | @mapped addr' j k1 f hlength haddr hslot hloop hf =>
      obtain rfl : addr = addr' := Int.ofNat.inj hr
      obtain ⟨hstart, halign, hlt, hbound⟩ := mmapAddr_regular hhalf hwords hfixed haddr
      have hturns := mmapTurns_of_le hlength hbound
      rw [mmapTurns, pgSize] at hturns
      rw [hturns] at hloop
      have hfill := filled_of_mmapLoop hloop halign hlt hhalf
      have hpages := pageCount_pos hlength
      have hcount := pageCount_le hwords.2
      have hbelow := hfill.below (by omega)
      constructor
      case pos => exact hlength
      case word => exact hwords.2
      case aligned => exact halign
      case stop =>
        obtain ⟨-, hfree, hcase⟩ := mmapAddr_eq_some haddr
        rw [ofInt_pgRoundUpInt hlength hwords.2] at hfree hcase
        split at hcase
        case isTrue =>
          rw [uint, Nat.mod_eq_of_lt (by omega)] at hcase
          exact hcase.2
        case isFalse =>
          rw [isRegionFree_iff_fits hstart halign (by omega)] at hfree
          exact hfree.le_vmaEnd hhalf hcase.2
      case present =>
        intro t ht
        have hthere := (hfill.fresh (addr + t * 4096) ⟨t, by omega, rfl⟩).2
        simpa [Kernel.setVma] using hthere

/-- The call removes the range exactly when the record it looks up leads to at least as many
pages as the length has, and those behind the range were absent before. -/
theorem munmap_removes_iff {addr : Nat} {length : Int} (hrange : RangeMapped k p addr length)
    (h : k.munmap p addr length = .ok (k', 0)) :
    Removed k p addr (pageCount length) k' ↔
      ∃ j m, munmapSlot (k.procs p).vmas addr = some j ∧
        munmapPages (k.procs p).vmas j = some m ∧ pageCount length ≤ m ∧
        ∀ t, pageCount length ≤ t → t < m →
          (k.procs p).pgdir.present (addr + t * pgSize) = false := by
  have halign : addr % 4096 = 0 := hrange.aligned
  have hstop := hrange.stop
  have hpos := pageCount_pos hrange.pos
  have hcount := pageCount_le hrange.word
  simp only [pgSize, vmaEnd] at hstop
  obtain ⟨j, m, hj, hm, hfuel, hfreed⟩ := Removed.of_munmap halign (by omega) hrange.pos h
  simp only [nVma] at hfuel
  generalize hn : pageCount length = n at hstop hpos hcount
  have hapart : ∀ s t, s < t → t < n ∨ t < m →
      pageOf (addr + t * pgSize) ≠ pageOf (addr + s * pgSize) := by
    intro s t hst ht heq
    rw [pgSize, pageOf_add halign (by omega) (by omega)] at heq
    omega
  constructor
  · intro hremoved
    refine ⟨j, m, hj, hm, ?_, ?_⟩
    · -- A page that the call does not reach would still be there.
      by_contra hless
      rw [Nat.not_le] at hless
      have hleft := hfreed.other (addr + m * pgSize) fun t ht => hapart t m ht (Or.inl hless)
      have hthere := hrange.present m (by omega)
      rw [Pgdir.present, ← hleft, hremoved.absent m hless] at hthere
      cases hthere
    · intro t hge ht
      have hsame := hremoved.other (addr + t * pgSize) fun s hs =>
        hapart s t (by omega) (Or.inr ht)
      rw [Pgdir.present, ← hsame, hfreed.absent t ht]
      rfl
  · rintro ⟨j', m', hj', hm', hle, habsent⟩
    obtain rfl : j = j' := Option.some.inj (hj.symm.trans hj')
    obtain rfl : m = m' := Option.some.inj (hm.symm.trans hm')
    obtain ⟨rest, rfl⟩ := Nat.exists_eq_add_of_le hle
    apply hfreed.shrink
    intro t hge ht
    simpa [Pgdir.present] using habsent t hge ht

/-- A mapping of one page is removed. -/
theorem munmap_removes_iff_run : ∃ k0 k k', bootKernel 80 [] = .ok k0 ∧
    Run CallStep k0 [(0, .mmap onePage)] k ∧ k.munmap 0 0x60000000 4096 = .ok (k', 0) ∧
    Removed k 0 0x60000000 (pageCount 4096) k' := by
  obtain ⟨k0, hboot, hcalls⟩ := @exists_ok _ (bootKernel 80 []) (fun k0 =>
    (runCalls k0 [(0, .mmap onePage)]).any fun k : Kernel =>
      (k.procs 0).pgdir.present 0x60000000 &&
        decide (munmapSlot (k.procs 0).vmas 0x60000000 = some 0) &&
        decide (munmapPages (k.procs 0).vmas 0 = some 1) &&
        okWith (k.munmap 0 0x60000000 4096) fun x => x.2 == 0) (by decide +kernel)
  obtain ⟨k, hk, hcheck⟩ := (Option.any_eq_true _ _).mp hcalls
  simp only [Bool.and_eq_true, decide_eq_true_eq] at hcheck
  obtain ⟨⟨⟨hpresent, hslot⟩, hpages⟩, hcall⟩ := hcheck
  obtain ⟨⟨k', r⟩, hk', hreturn⟩ := exists_ok hcall
  obtain rfl : r = 0 := by simpa using hreturn
  refine ⟨k0, k, k', hboot, run_of_runCalls hk, hk', ?_⟩
  have hcount : pageCount 4096 = 1 := by decide
  refine (munmap_removes_iff ⟨by decide, by decide, by decide, by decide, ?_⟩ hk').mpr
    ⟨0, 1, hslot, hpages, hcount.le, fun t hge ht => by omega⟩
  intro t ht
  obtain rfl : t = 0 := by omega
  exact hpresent

/-- The second page of an anonymous mapping stays. -/
theorem second_page_stays : ¬∀ (k : Kernel) p addr length k', RangeMapped k p addr length →
    k.munmap p addr length = .ok (k', 0) → Removed k p addr (pageCount length) k' := by
  intro hall
  obtain ⟨k0, -, hcalls⟩ := @exists_ok _ (bootKernel 80 []) (fun k0 =>
    (runCalls k0 [(0, .mmap twoPages)]).any fun k : Kernel =>
      (k.procs 0).pgdir.present 0x60000000 && (k.procs 0).pgdir.present 0x60001000 &&
        okWith (k.munmap 0 0x60000000 8192) fun x =>
          x.2 == 0 && (x.1.procs 0).pgdir.present 0x60001000) (by decide +kernel)
  obtain ⟨k, -, hcheck⟩ := (Option.any_eq_true _ _).mp hcalls
  simp only [Bool.and_eq_true] at hcheck
  obtain ⟨⟨hfirst, hsecond⟩, hcall⟩ := hcheck
  obtain ⟨⟨k', r⟩, hk', hreturn⟩ := exists_ok hcall
  simp only [Bool.and_eq_true, beq_iff_eq] at hreturn
  obtain ⟨rfl, hstays⟩ := hreturn
  have hcount : pageCount 8192 = 2 := by decide
  have hremoved := hall k 0 0x60000000 8192 k' (by
    refine ⟨by decide, by decide, by decide, by decide, fun t ht => ?_⟩
    rw [hcount] at ht
    obtain rfl | rfl : t = 0 ∨ t = 1 := by omega
    · exact hfirst
    · exact hsecond) hk'
  have habsent : (k'.procs 0).pgdir.lookup 0x60001000 = none := hremoved.absent 1 (by omega)
  rw [Pgdir.present, habsent] at hstays
  cases hstays

end OSProjects.Xv6
