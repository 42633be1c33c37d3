import OSProjects.Xv6.Allocation
import OSProjects.Xv6.Pinned

/-!
# Which ranges `deallocuvm` can clear

`deallocuvm` returns exactly when `kfree` takes every frame in its range. With the pinned pages
of the kernel half in place it never comes to the end of the address space.
-/

namespace OSProjects.Xv6

/-- `deallocuvm` can give the frame of a page back. -/
def Mem.Takes (m : Mem) (e : Pte) : Prop := e.pa ≠ 0 ∧ m.Freeable e.pa

/-- The page of `b` is one that `deallocuvm` comes to on its way from `newsz` to `oldsz`. -/
def InRange (newsz oldsz b : Nat) : Prop :=
  newsz < oldsz ∧ pgRoundUp newsz ≤ pgRoundDown b ∧ pgRoundDown b < oldsz

theorem Mem.Takes.congr {m m' : Mem} {e : Pte} (h : m.Takes e)
    (he : m'.imageEnd = m.imageEnd) : m'.Takes e :=
  ⟨h.1, h.2.congr he⟩

theorem Pte.Pinned.not_takes {m : Mem} {e : Pte} (h : e.Pinned) : ¬m.Takes e := by
  rintro ⟨hzero, hfree⟩
  rcases h with hpa | hpa
  · exact hzero hpa
  · exact absurd hfree.2.2 (Nat.not_lt.mpr hpa)

theorem pgRoundUp_aligned (a : Nat) : pgRoundUp a % 4096 = 0 := by
  simp only [pgRoundUp, pgSize]
  omega

namespace Space

variable {s s' : Space} {a a' b oldsz newsz fuel : Nat}

/-! ## One page -/

theorem deallocPage_takes {e : Pte} (h : s.deallocPage a = .ok (a', s'))
    (he : s.pgdir.lookup a = some e) : s.mem.Takes e := by
  obtain ⟨t, ht, hentry⟩ := Option.bind_eq_some_iff.mp he
  rw [deallocPage, ht] at h
  simp only [hentry] at h
  split at h
  case isTrue => cases h
  case isFalse hzero =>
    split at h
    case h_1 => cases h
    case h_2 hfree => exact ⟨hzero, (Mem.kfree_eq_ok hfree).1⟩

theorem deallocPage_imageEnd (h : s.deallocPage a = .ok (a', s')) :
    s'.mem.imageEnd = s.mem.imageEnd := by
  rw [deallocPage] at h
  split at h
  case h_1 =>
    simp only [Except.ok.injEq, Prod.mk.injEq] at h
    rw [h.2]
  case h_2 =>
    split at h
    case h_1 =>
      simp only [Except.ok.injEq, Prod.mk.injEq] at h
      rw [h.2]
    case h_2 =>
      split at h
      case isTrue => cases h
      case isFalse =>
        split at h
        case h_1 => cases h
        case h_2 hfree =>
          simp only [Except.ok.injEq, Prod.mk.injEq] at h
          rw [← h.2]
          exact (Mem.kfree_eq_ok hfree).2.imageEnd

/-- No turn maps a page. -/
theorem deallocPage_keeps_absent (h : s.deallocPage a = .ok (a', s'))
    (hb : s.pgdir.lookup b = none) : s'.pgdir.lookup b = none := by
  by_cases hpage : pageOf b = pageOf a
  · rw [Pgdir.lookup_congr _ hpage]
    exact deallocPage_absent h
  · rw [(deallocPage_eq_ok h).2 b hpage, hb]

theorem exists_deallocPage (h : ∀ e, s.pgdir.lookup a = some e → s.mem.Takes e) :
    ∃ a' s', s.deallocPage a = .ok (a', s') := by
  cases hlookup : s.pgdir.lookup a with
  | none =>
      obtain ⟨a', hturn, -⟩ := deallocPage_of_absent hlookup
      exact ⟨a', s, hturn⟩
  | some e =>
      obtain ⟨hne, hfree⟩ := h e hlookup
      obtain ⟨mem, -, hturn⟩ := deallocPage_of_lookup hlookup hfree hne
      exact ⟨_, _, hturn⟩

/-! ## The loop -/

theorem deallocLoop_keeps_absent (h : s.deallocLoop oldsz fuel a = .ok s')
    (hb : s.pgdir.lookup b = none) : s'.pgdir.lookup b = none :=
  deallocLoop_keeps (P := fun s => s.pgdir.lookup b = none) deallocPage_keeps_absent h hb

theorem deallocLoop_imageEnd (h : s.deallocLoop oldsz fuel a = .ok s') :
    s'.mem.imageEnd = s.mem.imageEnd :=
  deallocLoop_keeps (P := fun x => x.mem.imageEnd = s.mem.imageEnd)
    (fun hturn hx => (deallocPage_imageEnd hturn).trans hx) h rfl

/-- A loop that returns has given back every page in its range. -/
theorem deallocLoop_range (h : s.deallocLoop oldsz fuel a = .ok s') (halign : a % 4096 = 0)
    (hle : a ≤ pgRoundDown b) (hlt : pgRoundDown b < oldsz) (hb : b < 2 ^ 32) :
    (∀ e, s.pgdir.lookup b = some e → s.mem.Takes e) ∧ s'.pgdir.lookup b = none := by
  induction fuel generalizing a s with
  | zero => cases h
  | succ fuel ih =>
      rw [deallocLoop, if_pos (by omega)] at h
      split at h
      case h_1 => cases h
      case h_2 a1 s1 hturn =>
        by_cases hpage : pageOf b = pageOf a
        · constructor
          · intro e he
            rw [Pgdir.lookup_congr _ hpage] at he
            exact deallocPage_takes hturn he
          · apply deallocLoop_keeps_absent h
            rw [Pgdir.lookup_congr _ hpage]
            exact deallocPage_absent hturn
        · have hother := (deallocPage_eq_ok hturn).2 b hpage
          have hmem := deallocPage_imageEnd hturn
          -- The page is either still ahead or in a table that is missing.
          have hahead : (a1 % 4096 = 0 ∧ a1 ≤ pgRoundDown b) ∨ s.pgdir.lookup b = none := by
            simp only [pgRoundDown, pgSize] at hle hlt ⊢
            simp only [pageOf] at hpage
            rcases (deallocPage_eq_ok hturn).1 with ⟨hjump, htable⟩ | hstep
            · by_cases htables : pdx b = pdx a
              · refine Or.inr (Pgdir.lookup_of_table_none ?_)
                rwa [htables]
              · simp only [nextTable, pdx, uint] at hjump htables
                left
                omega
            · simp only [uint] at hstep
              left
              omega
          rcases hahead with ⟨halign1, hle1⟩ | habsent
          · obtain ⟨htakes, hgone⟩ := ih h halign1 hle1
            rw [hother] at htakes
            exact ⟨fun e he => (htakes e he).congr hmem.symm, hgone⟩
          · constructor
            · intro e he
              rw [habsent] at he
              cases he
            · exact deallocLoop_keeps_absent h (hother.trans habsent)

theorem exists_deallocLoop (hold : oldsz ≤ 0xFFC00000) (halign : a % 4096 = 0)
    (hfuel : oldsz ≤ a + fuel * 4096)
    (htakes : ∀ b e, b < 2 ^ 32 → a ≤ pgRoundDown b → pgRoundDown b < oldsz →
      s.pgdir.lookup b = some e → s.mem.Takes e) :
    ∃ s', s.deallocLoop oldsz (fuel + 1) a = .ok s' := by
  induction fuel generalizing a s with
  | zero =>
      refine ⟨s, ?_⟩
      rw [deallocLoop, if_neg (by omega)]
  | succ fuel ih =>
      by_cases hlt : a < oldsz
      case neg =>
        refine ⟨s, ?_⟩
        rw [deallocLoop, if_neg hlt]
      case pos =>
        have hdown : pgRoundDown a = a := by
          simp only [pgRoundDown, pgSize]
          omega
        obtain ⟨a1, s1, hturn⟩ := exists_deallocPage fun e he =>
          htakes a e (by omega) hdown.ge (by omega) he
        have hnext : a1 % 4096 = 0 ∧ a + 4096 ≤ a1 := by
          rcases (deallocPage_eq_ok hturn).1 with ⟨hjump, -⟩ | hstep
          · simp only [nextTable, pdx, uint] at hjump
            omega
          · simp only [uint] at hstep
            omega
        have hmem := deallocPage_imageEnd hturn
        obtain ⟨s', hrest⟩ := ih (s := s1) hnext.1 (by omega) fun b e hb hle hb' he => by
          cases hbefore : s.pgdir.lookup b with
          | none =>
              rw [deallocPage_keeps_absent hturn hbefore] at he
              cases he
          | some e' =>
              have hpage : pageOf b ≠ pageOf a := by
                intro hpage
                rw [Pgdir.lookup_congr _ hpage, deallocPage_absent hturn] at he
                cases he
              rw [(deallocPage_eq_ok hturn).2 b hpage] at he
              exact (htakes b e hb (by omega) hb' he).congr hmem
        refine ⟨s', ?_⟩
        rw [deallocLoop, if_pos hlt, hturn]
        exact hrest

/-! ## The range -/

theorem dealloc_imageEnd (h : s.dealloc oldsz newsz = .ok s') :
    s'.mem.imageEnd = s.mem.imageEnd := by
  rw [dealloc] at h
  split at h
  case isTrue =>
    cases h
    rfl
  case isFalse => exact deallocLoop_imageEnd h

/-- The last page of a range that reaches the last page table is pinned. -/
theorem exists_pinned (hd : PinnedHalf s.pgdir) (hlt : newsz < oldsz) (hold : oldsz < 2 ^ 32)
    (hstart : pgRoundUp newsz < oldsz) (hend : 0xFFC00000 < oldsz) :
    ∃ b e, b < 2 ^ 32 ∧ InRange newsz oldsz b ∧ s.pgdir.lookup b = some e ∧ e.Pinned := by
  obtain ⟨e, he, hpinned⟩ := hd.devices (oldsz - 1) (by simp only [devSpace]; omega) (by omega)
  have halign := pgRoundUp_aligned newsz
  refine ⟨oldsz - 1, e, by omega, ⟨hlt, ?_, ?_⟩, he, hpinned⟩
  · simp only [pgRoundDown, pgSize]
    omega
  · simp only [pgRoundDown, pgSize]
    omega

theorem dealloc_clears (h : s.dealloc oldsz newsz = .ok s') (hb : b < 2 ^ 32)
    (hin : InRange newsz oldsz b) :
    (∀ e, s.pgdir.lookup b = some e → s.mem.Takes e) ∧ s'.pgdir.lookup b = none := by
  rw [dealloc, if_neg (Nat.not_le.mpr hin.1)] at h
  exact deallocLoop_range h (pgRoundUp_aligned newsz) hin.2.1 hin.2.2 hb

/-- Without a page in its range, `deallocuvm` does nothing. -/
theorem dealloc_of_empty (h : oldsz ≤ newsz ∨ oldsz ≤ pgRoundUp newsz) :
    s.dealloc oldsz newsz = .ok s := by
  rw [dealloc]
  split
  case isTrue => rfl
  case isFalse hlt =>
    have hfuel : allPages = 2 ^ 20 + 1 := rfl
    rw [hfuel, deallocLoop, if_neg (by omega)]

/-- `deallocuvm` leaves the pages outside its range. -/
theorem dealloc_outside (hd : PinnedHalf s.pgdir) (hold : oldsz < 2 ^ 32)
    (h : s.dealloc oldsz newsz = .ok s') (hb : b < 2 ^ 32) (hout : ¬InRange newsz oldsz b) :
    s'.pgdir.lookup b = s.pgdir.lookup b := by
  by_cases hempty : oldsz ≤ newsz ∨ oldsz ≤ pgRoundUp newsz
  case pos =>
    rw [dealloc_of_empty hempty] at h
    cases h
    rfl
  case neg =>
    rw [not_or, Nat.not_le, Nat.not_le] at hempty
    refine dealloc_lookup (fun _ => ?_) h fun c hle hc halign hpage => hout ⟨hempty.1, ?_, ?_⟩
    · by_contra hend
      obtain ⟨b', e, hb', hin, he, hpinned⟩ :=
        exists_pinned hd hempty.1 hold hempty.2 (Nat.lt_of_not_le hend)
      exact hpinned.not_takes ((dealloc_clears h hb' hin).1 e he)
    · simp only [pageOf] at hpage
      simp only [pgRoundDown, pgSize]
      omega
    · simp only [pageOf] at hpage
      simp only [pgRoundDown, pgSize]
      omega

/-- `deallocuvm` returns exactly when it can give back every page in its range. -/
theorem dealloc_returns_iff (hd : PinnedHalf s.pgdir) (hold : oldsz < 2 ^ 32) :
    (∃ s', s.dealloc oldsz newsz = .ok s') ↔
      ∀ b e, b < 2 ^ 32 → InRange newsz oldsz b → s.pgdir.lookup b = some e →
        s.mem.Takes e := by
  constructor
  · rintro ⟨s', h⟩ b e hb hin he
    exact (dealloc_clears h hb hin).1 e he
  · intro htakes
    by_cases hempty : oldsz ≤ newsz ∨ oldsz ≤ pgRoundUp newsz
    case pos => exact ⟨s, dealloc_of_empty hempty⟩
    case neg =>
      rw [not_or, Nat.not_le, Nat.not_le] at hempty
      have hend : oldsz ≤ 0xFFC00000 := by
        by_contra hend
        obtain ⟨b, e, hb, hin, he, hpinned⟩ :=
          exists_pinned hd hempty.1 hold hempty.2 (Nat.lt_of_not_le hend)
        exact hpinned.not_takes (htakes b e hb hin he)
      rw [dealloc, if_neg (Nat.not_le.mpr hempty.1)]
      exact exists_deallocLoop hend (pgRoundUp_aligned newsz) (by omega)
        fun b e hb hle hb' he => htakes b e hb ⟨hempty.1, hle, hb'⟩ he

end Space

end OSProjects.Xv6
