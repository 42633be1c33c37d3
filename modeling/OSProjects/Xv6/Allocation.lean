import Mathlib.Data.Finset.Card
import Mathlib.Data.Finset.Image
import Mathlib.Data.List.Perm.Basic
import OSProjects.Xv6.PageTables

/-!
# The frames that the page-table operations take and give back

`PageTaken` is a page that has been mapped, with the frames that left the free list for
it. `PagesTaken` is a range of them, and `PagesFreed` is what `deallocuvm` makes of it.
Frames of page tables are never given back before `freevm`.
-/

namespace OSProjects.Xv6

open ByteMemory

/-! ## The tables of a page directory -/

namespace Pgdir

variable (d : Pgdir) (i j va : Nat)

/-- The frame of the table with index `i`. -/
def tableFrame : Option Nat := (d.table i).map PageTable.frame

theorem tableFrame_eq_none : d.tableFrame i = none ↔ d.table i = none := by
  simp [tableFrame]

theorem tableFrame_setTable (t : PageTable) :
    (d.setTable i t).tableFrame j = if j = i then some t.frame else d.tableFrame j := by
  by_cases h : j = i
  · simp [tableFrame, setTable, h]
  · simp [tableFrame, setTable, h]

@[simp] theorem tableFrame_setEntry (e : Option Pte) :
    (d.setEntry va e).tableFrame j = d.tableFrame j := by
  cases ht : d.table (pdx va) with
  | none => simp [setEntry, ht]
  | some t =>
      simp only [setEntry, ht, tableFrame_setTable]
      split
      case isTrue h => simp [tableFrame, h, ht]
      case isFalse => rfl

end Pgdir

/-! ## The allocator -/

/-- Every free frame can be given to `kfree` again, and none is the null page. -/
structure Mem.Sound (m : Mem) : Prop where
  image : 0 < m.imageEnd
  freeable : ∀ f ∈ m.freelist, m.Freeable f

namespace Mem

variable {m m' : Mem} {f pa : Nat}

theorem Freeable.congr (h : m.Freeable f) (he : m'.imageEnd = m.imageEnd) : m'.Freeable f := by
  rwa [Freeable, he]

theorem Freeable.ne_zero (h : m.Freeable f) (h0 : 0 < m.imageEnd) : f ≠ 0 := by
  have := h.2.1
  omega

theorem kalloc_cons {rest : List Nat} (h : m.freelist = f :: rest) :
    m.kalloc = some (f, { m with freelist := rest }) := by simp [kalloc, h]

theorem kalloc_nil (h : m.freelist = []) : m.kalloc = none := by simp [kalloc, h]

theorem kalloc_eq_none : m.kalloc = none ↔ m.freelist = [] := by
  cases h : m.freelist with
  | nil => simp [kalloc, h]
  | cons f rest => simp [kalloc, h]

/-- What `kfree` leaves behind. -/
structure Freed (m : Mem) (pa : Nat) (m' : Mem) : Prop where
  freelist : m'.freelist = pa :: m.freelist
  imageEnd : m'.imageEnd = m.imageEnd
  phys : ∀ b, b < pa ∨ pa + pgSize ≤ b → m'.phys b = m.phys b

theorem kfree_eq_ok (h : m.kfree pa = .ok m') : m.Freeable pa ∧ Freed m pa m' := by
  rw [kfree] at h
  split at h
  case isFalse => cases h
  case isTrue hfree =>
    obtain rfl := Except.ok.inj h
    refine ⟨hfree, rfl, rfl, fun b hb => ?_⟩
    have hout : b < pa ∨ pa + 4 ≤ b := by
      simp only [pgSize] at hb
      omega
    calc Store.apply ⟨pa, wordBytes 4 m.nextFree⟩ (fill m.phys pa pgSize 1) b
        = fill m.phys pa pgSize 1 b := by
          rcases hout with hlt | hge
          · exact Store.apply_of_lt _ _ hlt
          · exact Store.apply_of_stop_le _ _ (by simpa [Store.stop] using hge)
      _ = m.phys b := fill_of_outside hb

theorem exists_kfree (h : m.Freeable pa) : ∃ m', m.kfree pa = .ok m' := by
  simp [kfree, h]

end Mem

/-! ## Mapping one page -/

namespace Space

variable {s s' : Space} {a pa perm : Nat}

theorem walkAlloc_eq_none :
    s.walkAlloc a = none ↔ s.pgdir.table (pdx a) = none ∧ s.mem.kalloc = none := by
  cases ht : s.pgdir.table (pdx a) with
  | some t => simp [Space.walkAlloc, ht]
  | none =>
      cases hk : s.mem.kalloc with
      | none => simp [Space.walkAlloc, ht, hk]
      | some r => simp [Space.walkAlloc, ht, hk]

/-- A page is not mapped only for want of a page table. -/
theorem mapPage_false (h : s.mapPage a pa perm = .ok (s', false)) :
    s.pgdir.table (pdx a) = none ∧ s.mem.freelist = [] := by
  rw [mapPage] at h
  split at h
  case h_1 hw =>
    rw [walkAlloc_eq_none, Mem.kalloc_eq_none] at hw
    exact hw
  case h_2 => split at h <;> simp at h

theorem mapPage_of_present (h : s.pgdir.present a = true) : s.mapPage a pa perm = .error .remap := by
  obtain ⟨e, he⟩ := Option.isSome_iff_exists.mp h
  obtain ⟨t, ht⟩ := Pgdir.exists_table_of_lookup he
  simp [mapPage, walkAlloc, ht, h]

/-- `mappages` over a range that starts on such a page. -/
theorem mappages_of_present {size : Nat} (h : s.pgdir.present a = true) :
    s.mappages a size pa perm = .error .remap := by
  rw [← Pgdir.present_congr _ (pageOf_pgRoundDown a)] at h
  rw [mappages, show allPages = 2 ^ 20 + 1 from rfl, mapLoop, mapPage_of_present h]

theorem mapPage_of_table {t : PageTable} (ht : s.pgdir.table (pdx a) = some t)
    (habsent : s.pgdir.lookup a = none) :
    s.mapPage a pa perm = .ok (⟨s.mem, s.pgdir.setEntry a (some ⟨pa, perm⟩)⟩, true) := by
  simp [mapPage, walkAlloc, ht, Pgdir.present, habsent]

theorem mapPage_of_kalloc {f : Nat} {m : Mem} (ht : s.pgdir.table (pdx a) = none)
    (hk : s.mem.kalloc = some (f, m)) :
    s.mapPage a pa perm = .ok (⟨m, (s.pgdir.setTable (pdx a) ⟨f, fun _ => none⟩).setEntry a
      (some ⟨pa, perm⟩)⟩, true) := by
  simp [mapPage, walkAlloc, ht, hk, Pgdir.present, Pgdir.lookup, Pgdir.setTable]

theorem mapPage_of_none (ht : s.pgdir.table (pdx a) = none) (hk : s.mem.kalloc = none) :
    s.mapPage a pa perm = .ok (s, false) := by
  simp [mapPage, walkAlloc, ht, hk]

end Space

/-- The page at `va`, which was absent, lies in `frame`; `tables` is the frame of its page
table if that was missing. -/
structure PageTaken (s : Space) (va frame perm : Nat) (tables : List Nat) (s' : Space) :
    Prop where
  absent : s.pgdir.lookup va = none
  lookup : ∀ b, s'.pgdir.lookup b =
    if pageOf b = pageOf va then some ⟨frame, perm⟩ else s.pgdir.lookup b
  freelist : s.mem.freelist = frame :: tables ++ s'.mem.freelist
  imageEnd : s'.mem.imageEnd = s.mem.imageEnd
  kept : ∀ i f, s.pgdir.tableFrame i = some f → s'.pgdir.tableFrame i = some f
  new : ∀ f ∈ tables, s.pgdir.tableFrame (pdx va) = none ∧
    s'.pgdir.tableFrame (pdx va) = some f
  missing : ∀ i, s'.pgdir.tableFrame i = none ↔ s.pgdir.tableFrame i = none ∧ i ≠ pdx va
  few : tables.length = if s.pgdir.tableFrame (pdx va) = none then 1 else 0

/-- The frame of a page that is mapped, and the page table it needs. -/
theorem PageTaken.of_mapPage {s : Space} {mem : Mem} {va frame perm : Nat} {s' : Space}
    (hfree : s.mem.freelist = frame :: mem.freelist) (hend : mem.imageEnd = s.mem.imageEnd)
    (h : Space.mapPage ⟨mem, s.pgdir⟩ va frame perm = .ok (s', true)) :
    ∃ tables, PageTaken s va frame perm tables s' := by
  obtain ⟨habsent, hlookup, -⟩ := Space.mapPage_eq_true h
  cases ht : s.pgdir.table (pdx va) with
  | some t =>
      have hframe : s.pgdir.tableFrame (pdx va) = some t.frame := by simp [Pgdir.tableFrame, ht]
      rw [Space.mapPage_of_table (s := ⟨mem, s.pgdir⟩) ht habsent] at h
      simp only [Except.ok.injEq, Prod.mk.injEq, and_true] at h
      subst h
      refine ⟨[], habsent, hlookup, by simpa using hfree, hend, by simp, by simp, fun i => ?_,
        by simp [hframe]⟩
      rw [Pgdir.tableFrame_setEntry]
      refine ⟨fun hi => ⟨hi, fun hva => ?_⟩, fun hi => hi.1⟩
      rw [hva, hframe] at hi
      cases hi
  | none =>
      have hframe : s.pgdir.tableFrame (pdx va) = none := by simp [Pgdir.tableFrame, ht]
      cases hl : mem.freelist with
      | nil =>
          rw [Space.mapPage_of_none (s := ⟨mem, s.pgdir⟩) ht (Mem.kalloc_nil hl)] at h
          simp at h
      | cons g rest =>
          rw [Space.mapPage_of_kalloc (s := ⟨mem, s.pgdir⟩) ht (Mem.kalloc_cons hl)] at h
          simp only [Except.ok.injEq, Prod.mk.injEq, and_true] at h
          subst h
          refine ⟨[g], habsent, hlookup, by simp [hfree, hl], hend, fun i f hi => ?_, ?_,
            fun i => ?_, by simp [hframe]⟩
          · rw [Pgdir.tableFrame_setEntry, Pgdir.tableFrame_setTable, if_neg, hi]
            rintro rfl
            rw [hframe] at hi
            cases hi
          · intro f hf
            obtain rfl := List.mem_singleton.mp hf
            rw [Pgdir.tableFrame_setEntry, Pgdir.tableFrame_setTable, if_pos rfl]
            exact ⟨hframe, rfl⟩
          · rw [Pgdir.tableFrame_setEntry, Pgdir.tableFrame_setTable]
            by_cases hi : i = pdx va
            · simp [hi]
            · simp [hi]

/-- The frames that it takes to map the absent page at `va`. -/
def pageNeeds (d : Pgdir) (va : Nat) : Nat :=
  1 + if d.tableFrame (pdx va) = none then 1 else 0

theorem exists_mapPage {s : Space} {va : Nat} (perm : Nat) (habsent : s.pgdir.lookup va = none)
    (h : pageNeeds s.pgdir va ≤ s.mem.freelist.length) :
    ∃ frame mem s', s.mem.kalloc = some (frame, mem) ∧
      Space.mapPage ⟨mem.zeroPage frame, s.pgdir⟩ va frame perm = .ok (s', true) := by
  cases hl : s.mem.freelist with
  | nil =>
      rw [hl, pageNeeds, List.length_nil] at h
      omega
  | cons frame rest =>
      refine ⟨frame, { s.mem with freelist := rest }, ?_⟩
      cases ht : s.pgdir.table (pdx va) with
      | some t => exact ⟨_, Mem.kalloc_cons hl, Space.mapPage_of_table (s := ⟨_, s.pgdir⟩) ht habsent⟩
      | none =>
          cases hrest : rest with
          | nil =>
              rw [hl, pageNeeds, if_pos ((s.pgdir.tableFrame_eq_none _).mpr ht), hrest] at h
              simp at h
          | cons g rest' =>
              exact ⟨_, by rw [← hrest]; exact Mem.kalloc_cons hl,
                Space.mapPage_of_kalloc ht (Mem.kalloc_cons rfl)⟩

/-- Where the frames do not suffice, `kalloc` fails for the page or for its table. -/
theorem lt_pageNeeds_cases {s : Space} {va : Nat}
    (h : s.mem.freelist.length < pageNeeds s.pgdir va) :
    s.mem.freelist = [] ∨ ∃ f, s.mem.freelist = [f] ∧ s.pgdir.table (pdx va) = none := by
  cases hl : s.mem.freelist with
  | nil => exact Or.inl rfl
  | cons f rest =>
      rw [hl, pageNeeds, List.length_cons] at h
      split at h
      case isTrue hnone =>
        obtain rfl : rest = [] := List.length_eq_zero_iff.mp (by omega)
        exact Or.inr ⟨f, rfl, (s.pgdir.tableFrame_eq_none _).mp hnone⟩
      case isFalse => omega

/-! ## Mapping a range -/

theorem getElem?_concat_cases {α : Type} {l : List α} {x y : α} {m : Nat}
    (h : (l ++ [x])[m]? = some y) :
    (m < l.length ∧ l[m]? = some y) ∨ (m = l.length ∧ y = x) := by
  rcases Nat.lt_or_ge m l.length with hlt | hge
  · rw [List.getElem?_append_left hlt] at h
    exact Or.inl ⟨hlt, h⟩
  · have hbound := (List.getElem?_eq_some_iff.mp h).1
    simp only [List.length_append, List.length_singleton] at hbound
    obtain rfl : m = l.length := by omega
    rw [List.getElem?_concat_length, Option.some.injEq] at h
    exact Or.inr ⟨rfl, h.symm⟩

/-- The indices of the tables that are missing for `n` pages from `addr` on. -/
def missingTables (d : Pgdir) (addr n : Nat) : Finset Nat :=
  ((Finset.range n).image fun m => pdx (addr + m * 4096)).filter fun i => d.tableFrame i = none

/-- The frames that it takes to map `n` absent pages from `addr` on. -/
def framesNeeded (d : Pgdir) (addr n : Nat) : Nat := n + (missingTables d addr n).card

theorem mem_missingTables {d : Pgdir} {addr n i : Nat} : i ∈ missingTables d addr n ↔
    (∃ m, m < n ∧ pdx (addr + m * 4096) = i) ∧ d.tableFrame i = none := by
  simp [missingTables]

theorem missingTables_succ (d : Pgdir) (addr n : Nat) : missingTables d addr (n + 1) =
    if d.tableFrame (pdx (addr + n * 4096)) = none then
      insert (pdx (addr + n * 4096)) (missingTables d addr n)
    else missingTables d addr n := by
  simp only [missingTables, Finset.range_add_one, Finset.image_insert, Finset.filter_insert]

theorem framesNeeded_lt {d : Pgdir} {addr m n : Nat} (h : m < n) :
    framesNeeded d addr m < framesNeeded d addr n := by
  have hsub : missingTables d addr m ⊆ missingTables d addr n := fun i hi => by
    obtain ⟨⟨j, hj, hpdx⟩, hnone⟩ := mem_missingTables.mp hi
    exact mem_missingTables.mpr ⟨⟨j, by omega, hpdx⟩, hnone⟩
  have hcard := Finset.card_le_card hsub
  simp only [framesNeeded]
  omega

/-- The absent pages from `addr` on lie in `frames`; `tables` are the frames of the page
tables that were missing. -/
structure PagesTaken (s : Space) (addr perm : Nat) (frames tables : List Nat) (s' : Space) :
    Prop where
  absent : ∀ m, m < frames.length → s.pgdir.lookup (addr + m * 4096) = none
  mapped : ∀ m f, frames[m]? = some f → s'.pgdir.lookup (addr + m * 4096) = some ⟨f, perm⟩
  other : ∀ b, (∀ m, m < frames.length → pageOf b ≠ pageOf (addr + m * 4096)) →
    s'.pgdir.lookup b = s.pgdir.lookup b
  freelist : s.mem.freelist.Perm (frames ++ (tables ++ s'.mem.freelist))
  imageEnd : s'.mem.imageEnd = s.mem.imageEnd
  kept : ∀ i f, s.pgdir.tableFrame i = some f → s'.pgdir.tableFrame i = some f
  new : ∀ f ∈ tables, ∃ i, i < 1024 ∧ s.pgdir.tableFrame i = none ∧
    s'.pgdir.tableFrame i = some f
  missing : ∀ i, s'.pgdir.tableFrame i = none ↔
    s.pgdir.tableFrame i = none ∧ ∀ m, m < frames.length → i ≠ pdx (addr + m * 4096)
  few : tables.length = (missingTables s.pgdir addr frames.length).card

namespace PagesTaken

variable {s s' s'' : Space} {addr perm : Nat} {frames tables : List Nat}

theorem nil (s : Space) (addr perm : Nat) : PagesTaken s addr perm [] [] s where
  absent := by simp
  mapped := by simp
  other := fun _ _ => rfl
  freelist := List.Perm.refl _
  imageEnd := rfl
  kept := fun _ _ h => h
  new := by simp
  missing := by simp
  few := by simp [missingTables]

/-- Only the bytes of the memory may change besides. -/
theorem congr (h : PagesTaken s addr perm frames tables s') (hd : s''.pgdir = s'.pgdir)
    (hf : s''.mem.freelist = s'.mem.freelist) (hi : s''.mem.imageEnd = s'.mem.imageEnd) :
    PagesTaken s addr perm frames tables s'' where
  absent := h.absent
  mapped := by simpa only [hd] using h.mapped
  other := by simpa only [hd] using h.other
  freelist := by simpa only [hf] using h.freelist
  imageEnd := hi.trans h.imageEnd
  kept := by simpa only [hd] using h.kept
  new := by simpa only [hd] using h.new
  missing := by simpa only [hd] using h.missing
  few := h.few

theorem framesNeeded_succ (h : PagesTaken s addr perm frames tables s') :
    framesNeeded s.pgdir addr (frames.length + 1) =
      framesNeeded s.pgdir addr frames.length +
        pageNeeds s'.pgdir (addr + frames.length * 4096) := by
  have hcard : (missingTables s.pgdir addr (frames.length + 1)).card =
      (missingTables s.pgdir addr frames.length).card +
        if s'.pgdir.tableFrame (pdx (addr + frames.length * 4096)) = none then 1 else 0 := by
    rw [missingTables_succ]
    by_cases hs : s.pgdir.tableFrame (pdx (addr + frames.length * 4096)) = none
    case neg =>
      rw [if_neg hs, if_neg, Nat.add_zero]
      exact fun h0 => hs ((h.missing _).mp h0).1
    case pos =>
      rw [if_pos hs]
      by_cases hbefore : ∃ m, m < frames.length ∧
          pdx (addr + m * 4096) = pdx (addr + frames.length * 4096)
      · obtain ⟨m, hm, hpdx⟩ := hbefore
        rw [Finset.insert_eq_of_mem (mem_missingTables.mpr ⟨⟨m, hm, hpdx⟩, hs⟩), if_neg,
          Nat.add_zero]
        exact fun h0 => ((h.missing _).mp h0).2 m hm hpdx.symm
      · have hnew : pdx (addr + frames.length * 4096) ∉
            missingTables s.pgdir addr frames.length := fun hmem =>
          hbefore (mem_missingTables.mp hmem).1
        rw [Finset.card_insert_of_notMem hnew, if_pos]
        exact (h.missing _).mpr ⟨hs, fun m hm heq => hbefore ⟨m, hm, heq.symm⟩⟩
  simp only [framesNeeded, pageNeeds, hcard]
  omega

/-- One more page behind the range. -/
theorem snoc {frame : Nat} {tables' : List Nat} (h : PagesTaken s addr perm frames tables s')
    (hp : PageTaken s' (addr + frames.length * 4096) frame perm tables' s'')
    (halign : addr % 4096 = 0) (hlen : frames.length < 2 ^ 20) :
    PagesTaken s addr perm (frames ++ [frame]) (tables ++ tables') s'' := by
  have hapart : ∀ m, m < frames.length →
      pageOf (addr + m * 4096) ≠ pageOf (addr + frames.length * 4096) := fun m hm heq =>
    absurd ((pageOf_add halign (by omega) hlen).mp heq) (by omega)
  refine ⟨fun m hm => ?_, fun m f hm => ?_, fun b hb => ?_, ?_, hp.imageEnd.trans h.imageEnd,
    fun i f hi => hp.kept i f (h.kept i f hi), fun f hf => ?_, fun i => ?_, ?_⟩
  · rw [List.length_append, List.length_singleton] at hm
    rcases Nat.lt_succ_iff_lt_or_eq.mp hm with hlt | rfl
    · exact h.absent m hlt
    · rw [← h.other _ fun m hm heq => hapart m hm heq.symm, hp.absent]
  · rw [hp.lookup]
    rcases getElem?_concat_cases hm with ⟨hlt, hm⟩ | ⟨rfl, rfl⟩
    · rw [if_neg (hapart m hlt), h.mapped m f hm]
    · rw [if_pos rfl]
  · simp only [List.length_append, List.length_singleton] at hb
    rw [hp.lookup, if_neg (hb _ (by omega)), h.other b fun m hm => hb m (by omega)]
  · have hstep : (tables ++ s'.mem.freelist).Perm
        (frame :: (tables ++ (tables' ++ s''.mem.freelist))) := by
      rw [hp.freelist, List.cons_append]
      exact List.perm_middle
    refine h.freelist.trans ((hstep.append_left frames).trans (List.Perm.of_eq ?_))
    simp
  · rcases List.mem_append.mp hf with hf | hf
    · obtain ⟨i, hi, hnone, hsome⟩ := h.new f hf
      exact ⟨i, hi, hnone, hp.kept i f hsome⟩
    · obtain ⟨hnone, hsome⟩ := hp.new f hf
      exact ⟨_, Nat.mod_lt _ (by decide), ((h.missing _).mp hnone).1, hsome⟩
  · rw [hp.missing, h.missing, List.length_append, List.length_singleton]
    constructor
    · rintro ⟨⟨hs, hbefore⟩, hne⟩
      refine ⟨hs, fun m hm => ?_⟩
      rcases Nat.lt_succ_iff_lt_or_eq.mp hm with hlt | rfl
      · exact hbefore m hlt
      · exact hne
    · rintro ⟨hs, hall⟩
      exact ⟨⟨hs, fun m hm => hall m (by omega)⟩, hall _ (by omega)⟩
  · have hlength : (frames ++ [frame]).length = frames.length + 1 := by simp
    have hneeded := h.framesNeeded_succ
    have hhere := hp.few
    have hbefore := h.few
    simp only [framesNeeded, pageNeeds] at hneeded
    rw [hlength, List.length_append]
    omega

theorem freeable (h : PagesTaken s addr perm frames tables s') (hs : s.mem.Sound) :
    ∀ f ∈ frames, s'.mem.Freeable f := fun f hf =>
  (hs.freeable f (h.freelist.mem_iff.mpr (List.mem_append_left _ hf))).congr h.imageEnd

theorem length_freelist (h : PagesTaken s addr perm frames tables s') :
    s.mem.freelist.length = framesNeeded s.pgdir addr frames.length + s'.mem.freelist.length := by
  have hlen := h.freelist.length_eq
  have hfew := h.few
  simp only [List.length_append] at hlen
  rw [framesNeeded]
  omega

end PagesTaken

/-! ## Unmapping a range -/

/-- The pages from `addr` on are gone, and their frames are free. -/
structure PagesFreed (s : Space) (addr : Nat) (frames : List Nat) (s' : Space) : Prop where
  absent : ∀ m, m < frames.length → s'.pgdir.lookup (addr + m * 4096) = none
  other : ∀ b, (∀ m, m < frames.length → pageOf b ≠ pageOf (addr + m * 4096)) →
    s'.pgdir.lookup b = s.pgdir.lookup b
  freelist : s'.mem.freelist = frames.reverse ++ s.mem.freelist
  imageEnd : s'.mem.imageEnd = s.mem.imageEnd
  tableFrame : ∀ i, s'.pgdir.tableFrame i = s.pgdir.tableFrame i
  phys : ∀ b, (∀ f ∈ frames, b < f ∨ f + pgSize ≤ b) → s'.mem.phys b = s.mem.phys b

namespace Space

variable {s : Space} {a : Nat}

theorem deallocPage_of_table_none (ht : s.pgdir.table (pdx a) = none) :
    s.deallocPage a = .ok (nextTable a, s) := by
  simp [deallocPage, ht]

theorem deallocPage_of_absent (h : s.pgdir.lookup a = none) :
    ∃ a', s.deallocPage a = .ok (a', s) ∧ (a' = nextTable a ∨ a' = uint (a + 4096)) := by
  cases ht : s.pgdir.table (pdx a) with
  | none => exact ⟨_, deallocPage_of_table_none ht, Or.inl rfl⟩
  | some t =>
      have he : t.entry (ptx a) = none := by simpa [Pgdir.lookup, ht] using h
      exact ⟨_, by simp [deallocPage, ht, he], Or.inr rfl⟩

theorem deallocPage_of_lookup {e : Pte} (h : s.pgdir.lookup a = some e)
    (hfree : s.mem.Freeable e.pa) (hne : e.pa ≠ 0) :
    ∃ mem, Mem.Freed s.mem e.pa mem ∧
      s.deallocPage a = .ok (uint (a + 4096), ⟨mem, s.pgdir.setEntry a none⟩) := by
  obtain ⟨t, ht⟩ := Pgdir.exists_table_of_lookup h
  have he : t.entry (ptx a) = some e := by simpa [Pgdir.lookup, ht] using h
  obtain ⟨mem, hmem⟩ := Mem.exists_kfree hfree
  exact ⟨mem, (Mem.kfree_eq_ok hmem).2, by simp [deallocPage, ht, he, hne, hmem]⟩

/-- The loop of `deallocuvm` over pages that are present. -/
theorem deallocLoop_pages {addr oldsz : Nat} {frames : List Nat} (halign : addr % 4096 = 0)
    (hold : oldsz < 2 ^ 32) (hle : addr + frames.length * 4096 ≤ oldsz)
    (hpages : ∀ m f, frames[m]? = some f →
      (s.pgdir.lookup (addr + m * 4096)).map Pte.pa = some f)
    (hfree : ∀ f ∈ frames, s.mem.Freeable f ∧ f ≠ 0) :
    ∃ s', PagesFreed s addr frames s' ∧ ∀ fuel,
      s.deallocLoop oldsz (frames.length + fuel) addr =
        s'.deallocLoop oldsz fuel (addr + frames.length * 4096) := by
  induction frames generalizing addr s with
  | nil => exact ⟨s, ⟨by simp, fun _ _ => rfl, rfl, rfl, fun _ => rfl, fun _ _ => rfl⟩, by simp⟩
  | cons f rest ih =>
      rw [List.length_cons] at hle
      obtain ⟨e, he, hpa⟩ := Option.map_eq_some_iff.mp (hpages 0 f rfl)
      rw [Nat.zero_mul, Nat.add_zero] at he
      subst hpa
      obtain ⟨hfreeable, hne⟩ := hfree e.pa List.mem_cons_self
      obtain ⟨mem, hfreed, hturn⟩ := deallocPage_of_lookup he hfreeable hne
      obtain ⟨t, ht⟩ := Pgdir.exists_table_of_lookup he
      have hlookup := Pgdir.lookup_setEntry ht none
      have hapart : ∀ m, m < rest.length →
          pageOf (addr + 4096 + m * 4096) ≠ pageOf addr := fun m hm heq => by
        simp only [pageOf] at heq
        omega
      have hshift : ∀ m, addr + (m + 1) * 4096 = addr + 4096 + m * 4096 := fun m => by omega
      obtain ⟨s', hrest, hloop⟩ := @ih ⟨mem, s.pgdir.setEntry addr none⟩
        (addr + 4096) (by omega) (by omega)
        (fun m g hm => by
          have hlt := (List.getElem?_eq_some_iff.mp hm).1
          rw [hlookup, if_neg (hapart m hlt), ← hshift]
          exact hpages (m + 1) g hm)
        (fun g hg => ⟨(hfree g (List.mem_cons_of_mem _ hg)).1.congr hfreed.imageEnd,
          (hfree g (List.mem_cons_of_mem _ hg)).2⟩)
      refine ⟨s', ⟨fun m hm => ?_, fun b hb => ?_, ?_, hrest.imageEnd.trans hfreed.imageEnd,
        fun i => ?_, fun b hb => ?_⟩, fun fuel => ?_⟩
      · cases m with
        | zero =>
            rw [Nat.zero_mul, Nat.add_zero, hrest.other _ fun m hm heq => hapart m hm heq.symm,
              hlookup, if_pos rfl]
        | succ m =>
            rw [hshift]
            exact hrest.absent m (by simpa using hm)
      · rw [hrest.other b fun m hm => hshift m ▸ hb (m + 1) (by simpa using hm), hlookup,
          if_neg (by simpa using hb 0 (by simp))]
      · rw [hrest.freelist, hfreed.freelist]
        simp
      · rw [hrest.tableFrame, Pgdir.tableFrame_setEntry]
      · rw [hrest.phys b fun g hg => hb g (List.mem_cons_of_mem _ hg),
          hfreed.phys b (hb e.pa List.mem_cons_self)]
      · have hlt : addr < oldsz := by omega
        have hva : uint (addr + 4096) = addr + 4096 := by
          simp only [uint]
          omega
        rw [List.length_cons, Nat.add_right_comm, deallocLoop, if_pos hlt, hturn]
        simp only [hva]
        rw [hloop, Nat.add_assoc, Nat.add_comm 4096, ← Nat.succ_mul]

/-- The loop stops at a page without a table that is the last one. -/
theorem deallocLoop_stop {oldsz fuel : Nat} (ha : a < 0xFFC00000) (hold : oldsz ≤ a + 4096)
    (h : a < oldsz → s.pgdir.table (pdx a) = none) (halign : a % 4096 = 0) :
    s.deallocLoop oldsz (fuel + 2) a = .ok s := by
  rw [deallocLoop]
  by_cases hlt : a < oldsz
  case neg => rw [if_neg hlt]
  case pos =>
    have hnext : ¬nextTable a < oldsz := by
      simp only [nextTable, pdx, uint]
      omega
    rw [if_pos hlt, deallocPage_of_table_none (h hlt)]
    simp only [deallocLoop, if_neg hnext]

/-- `deallocuvm` over a range of present pages, and perhaps one page behind it that has no
page table. -/
theorem dealloc_pages {addr oldsz : Nat} {frames : List Nat} (halign : addr % 4096 = 0)
    (hle : addr + frames.length * 4096 ≤ oldsz)
    (hend : oldsz ≤ addr + frames.length * 4096 + 4096)
    (hbound : addr + frames.length * 4096 < 0xFFC00000)
    (hlast : addr + frames.length * 4096 < oldsz →
      s.pgdir.table (pdx (addr + frames.length * 4096)) = none)
    (hpages : ∀ m f, frames[m]? = some f →
      (s.pgdir.lookup (addr + m * 4096)).map Pte.pa = some f)
    (hfree : ∀ f ∈ frames, s.mem.Freeable f ∧ f ≠ 0) :
    ∃ s', s.dealloc oldsz addr = .ok s' ∧ PagesFreed s addr frames s' := by
  obtain ⟨s', hfreed, hloop⟩ := deallocLoop_pages halign (by omega) hle hpages hfree
  refine ⟨s', ?_, hfreed⟩
  by_cases hempty : oldsz ≤ addr
  · have hnil : frames = [] := List.length_eq_zero_iff.mp (by omega)
    subst hnil
    have h0 := hloop 1
    simp only [List.length_nil, Nat.zero_mul, Nat.add_zero, deallocLoop,
      if_neg (Nat.not_lt.mpr hempty), Except.ok.injEq] at h0
    rw [dealloc, if_pos hempty, h0]
  · have hup : pgRoundUp addr = addr := by
      simp only [pgRoundUp, pgSize, uint]
      omega
    have hfuel : allPages = frames.length + ((allPages - frames.length - 2) + 2) := by
      simp only [allPages]
      omega
    rw [dealloc, if_neg hempty, hup, hfuel, hloop,
      deallocLoop_stop hbound hend (fun hlt => ?_) (by omega)]
    rw [← Pgdir.tableFrame_eq_none, hfreed.tableFrame, Pgdir.tableFrame_eq_none]
    exact hlast hlt

end Space

end OSProjects.Xv6
