import OSProjects.Xv6.Vm

/-!
# What the page-table operations do to the pages

A page table is seen through `lookup`, as a function of the page of an address.
Each operation of `vm.c` has one lemma for the pages and one for the free list.
-/

namespace OSProjects.Xv6

open ByteMemory

attribute [simp] pgSize kernBase vmaStart vmaEnd devSpace physTop

/-- The number of the page that an address lies on. -/
def pageOf (va : Nat) : Nat := va / 4096 % 2 ^ 20

theorem pageOf_eq_iff {a b : Nat} : pageOf a = pageOf b ↔ pdx a = pdx b ∧ ptx a = ptx b := by
  simp only [pageOf, pdx, ptx]
  omega

@[simp] theorem pageOf_uint (a : Nat) : pageOf (uint a) = pageOf a := by
  simp only [pageOf, uint]
  omega

theorem pageOf_pgRoundDown (va : Nat) : pageOf (pgRoundDown va) = pageOf va := by
  simp only [pageOf, pgRoundDown, pgSize]
  omega

theorem pageOf_add {a i j : Nat} (ha : a % 4096 = 0) (hi : i < 2 ^ 20) (hj : j < 2 ^ 20) :
    pageOf (a + i * 4096) = pageOf (a + j * 4096) ↔ i = j := by
  simp only [pageOf]
  omega

namespace Pgdir

variable {d : Pgdir} {a b : Nat}

theorem lookup_congr (d : Pgdir) (h : pageOf a = pageOf b) : d.lookup a = d.lookup b := by
  obtain ⟨hd, ht⟩ := pageOf_eq_iff.mp h
  simp only [lookup, hd, ht]

theorem present_congr (d : Pgdir) (h : pageOf a = pageOf b) : d.present a = d.present b := by
  rw [present, lookup_congr d h, present]

theorem lookup_of_table_none (h : d.table (pdx a) = none) : d.lookup a = none := by
  simp [lookup, h]

theorem lookup_setEntry {t : PageTable} (h : d.table (pdx a) = some t) (e : Option Pte)
    (b : Nat) : (d.setEntry a e).lookup b = if pageOf b = pageOf a then e else d.lookup b := by
  simp only [setEntry, h, setTable, lookup, pageOf_eq_iff]
  by_cases hd : pdx b = pdx a
  case neg => simp [hd]
  case pos =>
    rw [hd, Function.update_self, h]
    by_cases ht : ptx b = ptx a
    · simp [ht]
    · simp [ht]

theorem exists_table_of_lookup {e : Pte} (h : d.lookup a = some e) :
    ∃ t, d.table (pdx a) = some t := by
  obtain ⟨t, ht, -⟩ := Option.bind_eq_some_iff.mp h
  exact ⟨t, ht⟩

end Pgdir

/-! ## The allocator -/

/-- `m'` is `m` after some frames have been taken from the free list. -/
structure Mem.Took (m m' : Mem) (taken : List Nat) : Prop where
  freelist : m.freelist = taken ++ m'.freelist
  phys : m'.phys = m.phys
  imageEnd : m'.imageEnd = m.imageEnd

theorem Mem.Took.refl (m : Mem) : m.Took m [] := ⟨rfl, rfl, rfl⟩

theorem Mem.kalloc_eq_some {m m' : Mem} {f : Nat} (h : m.kalloc = some (f, m')) :
    m.Took m' [f] := by
  cases hl : m.freelist with
  | nil => simp [kalloc, hl] at h
  | cons g rest =>
      simp only [kalloc, hl, Option.some.injEq, Prod.mk.injEq] at h
      obtain ⟨rfl, rfl⟩ := h
      exact ⟨hl, rfl, rfl⟩

/-! ## Mapping one page -/

namespace Space

variable {s s' : Space} {a b pa perm : Nat}

theorem walkAlloc_eq_some (h : s.walkAlloc a = some s') :
    (∀ b, s'.pgdir.lookup b = s.pgdir.lookup b) ∧
      (∃ t, s'.pgdir.table (pdx a) = some t) ∧ ∃ taken, s.mem.Took s'.mem taken := by
  cases ht : s.pgdir.table (pdx a) with
  | some t =>
      simp only [walkAlloc, ht, Option.some.injEq] at h
      subst h
      exact ⟨fun _ => rfl, ⟨t, ht⟩, [], .refl _⟩
  | none =>
      cases hk : s.mem.kalloc with
      | none => simp [walkAlloc, ht, hk] at h
      | some r =>
          obtain ⟨f, mem⟩ := r
          simp only [walkAlloc, ht, hk, Option.some.injEq] at h
          subst h
          refine ⟨fun b => ?_, ⟨_, Function.update_self _ _ _⟩, [f], Mem.kalloc_eq_some hk⟩
          by_cases hb : pdx b = pdx a
          · simp [Pgdir.lookup, Pgdir.setTable, hb, ht]
          · simp [Pgdir.lookup, Pgdir.setTable, Function.update_of_ne hb]

/-- A page is mapped only if it was absent. -/
theorem mapPage_eq_true (h : s.mapPage a pa perm = .ok (s', true)) :
    s.pgdir.lookup a = none ∧
      (∀ b, s'.pgdir.lookup b =
        if pageOf b = pageOf a then some ⟨pa, perm⟩ else s.pgdir.lookup b) ∧
      ∃ taken, s.mem.Took s'.mem taken := by
  cases hw : s.walkAlloc a with
  | none => simp [mapPage, hw] at h
  | some s1 =>
      obtain ⟨hlookup, ⟨t, ht⟩, htook⟩ := walkAlloc_eq_some hw
      cases hp : s1.pgdir.lookup a with
      | some e => simp [mapPage, hw, Pgdir.present, hp] at h
      | none =>
          simp only [mapPage, hw, Pgdir.present, hp, Option.isSome_none, Bool.false_eq_true,
            if_false, Except.ok.injEq, Prod.mk.injEq, and_true] at h
          subst h
          refine ⟨by rw [← hlookup, hp], fun b => ?_, htook⟩
          rw [Pgdir.lookup_setEntry ht, hlookup]

/-- If the page cannot be mapped, its table was missing and nothing has changed. -/
theorem mapPage_eq_false (h : s.mapPage a pa perm = .ok (s', false)) :
    s' = s ∧ s.pgdir.lookup a = none := by
  cases hw : s.walkAlloc a with
  | some s1 =>
      simp only [mapPage, hw] at h
      split at h <;> simp at h
  | none =>
      simp only [mapPage, hw, Except.ok.injEq, Prod.mk.injEq, and_true] at h
      refine ⟨h.symm, Pgdir.lookup_of_table_none ?_⟩
      cases ht : s.pgdir.table (pdx a) with
      | none => rfl
      | some t => simp [walkAlloc, ht] at hw

/-- For an aligned page, `mappages` is one turn of its loop. -/
theorem mappages_aligned {va : Nat} (ha : va % 4096 = 0) (hlt : va < 2 ^ 32) :
    s.mappages va pgSize pa perm = s.mapPage va pa perm := by
  have hdown : pgRoundDown va = va := by
    simp only [pgRoundDown, pgSize]
    omega
  have hlast : pgRoundDown (uint (va + pgSize - 1)) = va := by
    simp only [pgRoundDown, pgSize, uint]
    omega
  rw [mappages, hdown, hlast, allPages, mapLoop]
  cases h : s.mapPage va pa perm with
  | error e => rfl
  | ok r =>
      obtain ⟨s1, _ | _⟩ := r
      · rfl
      · simp

/-! ## Unmapping -/

/-- One turn of `deallocuvm` unmaps at most the page `a`. It jumps where no table describes
the page. -/
theorem deallocPage_eq_ok {a' : Nat} (h : s.deallocPage a = .ok (a', s')) :
    (a' = nextTable a ∧ s.pgdir.table (pdx a) = none ∨ a' = uint (a + 4096)) ∧
      ∀ b, pageOf b ≠ pageOf a → s'.pgdir.lookup b = s.pgdir.lookup b := by
  cases ht : s.pgdir.table (pdx a) with
  | none =>
      simp only [deallocPage, ht, Except.ok.injEq, Prod.mk.injEq] at h
      obtain ⟨rfl, rfl⟩ := h
      exact ⟨Or.inl ⟨rfl, rfl⟩, fun _ _ => rfl⟩
  | some t =>
      cases he : t.entry (ptx a) with
      | none =>
          simp only [deallocPage, ht, he, Except.ok.injEq, Prod.mk.injEq] at h
          obtain ⟨rfl, rfl⟩ := h
          exact ⟨Or.inr rfl, fun _ _ => rfl⟩
      | some pte =>
          simp only [deallocPage, ht, he] at h
          by_cases hpa : pte.pa = 0
          · simp [hpa] at h
          · rw [if_neg hpa] at h
            cases hf : s.mem.kfree pte.pa with
            | error e => simp [hf] at h
            | ok mem =>
                simp only [hf, Except.ok.injEq, Prod.mk.injEq] at h
                obtain ⟨rfl, rfl⟩ := h
                refine ⟨Or.inr rfl, fun b hb => ?_⟩
                rw [Pgdir.lookup_setEntry ht, if_neg hb]

/-- Behind a turn its page is absent. -/
theorem deallocPage_absent {a' : Nat} (h : s.deallocPage a = .ok (a', s')) :
    s'.pgdir.lookup a = none := by
  cases ht : s.pgdir.table (pdx a) with
  | none =>
      simp only [deallocPage, ht, Except.ok.injEq, Prod.mk.injEq] at h
      rw [← h.2, Pgdir.lookup_of_table_none ht]
  | some t =>
      cases he : t.entry (ptx a) with
      | none =>
          simp only [deallocPage, ht, he, Except.ok.injEq, Prod.mk.injEq] at h
          rw [← h.2, Pgdir.lookup, ht, Option.bind_some, he]
      | some pte =>
          simp only [deallocPage, ht, he] at h
          split at h
          · cases h
          · split at h
            · cases h
            · simp only [Except.ok.injEq, Prod.mk.injEq] at h
              rw [← h.2, Pgdir.lookup_setEntry ht, if_pos rfl]

/-- The loop of `deallocuvm` touches only the pages between `a` and `oldsz`. -/
theorem deallocLoop_lookup {oldsz fuel : Nat} (hold : oldsz ≤ 0xFFC00000)
    (h : s.deallocLoop oldsz fuel a = .ok s') (halign : a % 4096 = 0)
    (hb : ∀ c, a ≤ c → c < oldsz → c % 4096 = 0 → pageOf b ≠ pageOf c) :
    s'.pgdir.lookup b = s.pgdir.lookup b := by
  induction fuel generalizing a s with
  | zero => simp [deallocLoop] at h
  | succ fuel ih =>
      by_cases hlt : a < oldsz
      case neg =>
        simp only [deallocLoop, hlt, if_false, Except.ok.injEq] at h
        rw [h]
      case pos =>
        simp only [deallocLoop, hlt, if_true] at h
        cases hturn : s.deallocPage a with
        | error e => simp [hturn] at h
        | ok r =>
            obtain ⟨a', s1⟩ := r
            simp only [hturn] at h
            obtain ⟨hnext, hlookup⟩ := deallocPage_eq_ok hturn
            have hup : a < a' ∧ a' % 4096 = 0 := by
              rcases hnext with ⟨hjump, -⟩ | hstep
              · simp only [nextTable, pdx, uint] at hjump
                omega
              · simp only [uint] at hstep
                omega
            rw [ih h hup.2 fun c hc => hb c (by omega), hlookup b (hb a le_rfl hlt halign)]

theorem dealloc_lookup {oldsz newsz : Nat} (hold : newsz < oldsz → oldsz ≤ 0xFFC00000)
    (h : s.dealloc oldsz newsz = .ok s')
    (hb : ∀ c, pgRoundUp newsz ≤ c → c < oldsz → c % 4096 = 0 → pageOf b ≠ pageOf c) :
    s'.pgdir.lookup b = s.pgdir.lookup b := by
  by_cases hle : oldsz ≤ newsz
  · simp only [dealloc, hle, if_true, Except.ok.injEq] at h
    rw [h]
  · simp only [dealloc, hle, if_false] at h
    refine deallocLoop_lookup (hold (Nat.lt_of_not_le hle)) h ?_ hb
    simp only [pgRoundUp, pgSize]
    omega

end Space

/-! ## Free regions -/

theorem Pgdir.allAbsent_iff {d : Pgdir} {a n : Nat} :
    d.allAbsent a n = true ↔ ∀ i, i < n → d.lookup (a + i * 4096) = none := by
  induction n generalizing a with
  | zero => simp [allAbsent]
  | succ n ih =>
      simp only [allAbsent, Bool.and_eq_true, ih, present, Bool.not_eq_true',
        Option.isSome_eq_false_iff, Option.isNone_iff_eq_none, pgSize]
      constructor
      · rintro ⟨h0, hrest⟩ i hi
        cases i with
        | zero => simpa using h0
        | succ i =>
            have := hrest i (by omega)
            rwa [show a + 4096 + i * 4096 = a + (i + 1) * 4096 by omega] at this
      · intro h
        refine ⟨by simpa using h 0 (by omega), fun i hi => ?_⟩
        rw [show a + 4096 + i * 4096 = a + (i + 1) * 4096 by omega]
        exact h (i + 1) (by omega)

end OSProjects.Xv6
