import Mathlib.Order.Fin.Basic
import OSProjects.Xv6.Boot

/-!
# What a child inherits

`fork` copies the address space twice: `copyuvm` copies the pages below `sz`, and `copy_vma`
the valid records.
-/

namespace OSProjects.Xv6

open ByteMemory

/-! ## The pages that `copyuvm` copies -/

/-- The free frames are distinct, lie on page boundaries and back no user page of `d`. -/
structure FreeApart (m : Mem) (d : Pgdir) : Prop where
  nodup : m.freelist.Nodup
  aligned : ∀ f ∈ m.freelist, f % 4096 = 0
  user : ∀ b e, b < kernBase → d.lookup b = some e → e.pa % 4096 = 0 ∧ e.pa ∉ m.freelist

/-- The pages below `i` have been copied from `parent` to frames among `taken`. -/
structure CopiedBelow (parent : Pgdir) (s0 : Space) (i : Nat) (taken : List Nat) (s : Space) :
    Prop where
  freelist : s0.mem.freelist = taken ++ s.mem.freelist
  phys : ∀ a, (∀ f ∈ taken, a < f ∨ f + 4096 ≤ a) → s.mem.phys a = s0.mem.phys a
  page : ∀ b, b < i → ∃ e f, parent.lookup b = some e ∧
    s.pgdir.lookup b = some ⟨f, e.perm⟩ ∧ f ∈ taken ∧
      ∀ off, off < 4096 → s.mem.phys (f + off) = s0.mem.phys (e.pa + off)
  other : ∀ b, i ≤ b → b < 2 ^ 32 → s.pgdir.lookup b = s0.pgdir.lookup b

section Copying

variable {parent : Pgdir} {s0 s s' : Space} {i : Nat} {taken : List Nat}

/-- Different frames do not meet. -/
theorem outside_frame {f g off : Nat} (hf : f % 4096 = 0) (hg : g % 4096 = 0) (hne : f ≠ g)
    (hoff : off < 4096) : f + off < g ∨ g + 4096 ≤ f + off := by
  omega

theorem CopiedBelow.start (s0 : Space) : CopiedBelow parent s0 0 [] s0 where
  freelist := rfl
  phys := fun _ _ => rfl
  page := fun b hb => absurd hb (Nat.not_lt_zero b)
  other := fun _ _ _ => rfl

/-- A page is copied into a frame that was free. -/
theorem copyPage_eq_true (h : copyPage parent i s = .ok (s', true)) :
    ∃ e f mem, parent.lookup i = some e ∧ s.mem.kalloc = some (f, mem) ∧
      Space.mappages ⟨mem.copyPage f e.pa, s.pgdir⟩ i pgSize f e.perm = .ok (s', true) := by
  rw [copyPage] at h
  split at h
  case h_1 => cases h
  case h_2 t ht =>
    split at h
    case h_1 => cases h
    case h_2 e he =>
      split at h
      case h_1 => cases h
      case h_2 f mem hk =>
        have hlookup : parent.lookup i = some e := by rw [Pgdir.lookup, ht, Option.bind_some, he]
        refine ⟨e, f, mem, hlookup, hk, ?_⟩
        split at h
        case h_1 => cases h
        case h_2 s1 hmap =>
          cases h
          exact hmap
        case h_3 => split at h <;> cases h

/-- One turn of the loop of `copyuvm`. -/
theorem CopiedBelow.next (hc : CopiedBelow parent s0 i taken s) (hbase : KernelHalf s0.pgdir)
    (hapart : FreeApart s0.mem parent) (hi : i % 4096 = 0) (hle : i ≤ kernBase)
    (h : copyPage parent i s = .ok (s', true)) :
    i < kernBase ∧ ∃ taken', CopiedBelow parent s0 (i + 4096) taken' s' := by
  obtain ⟨e, f, mem, hparent, hk, hmap⟩ := copyPage_eq_true h
  have hbound : kernBase < 2 ^ 32 := by decide
  rw [Space.mappages_aligned hi (by omega)] at hmap
  obtain ⟨habsent, hlookup, tables, htook⟩ := Space.mapPage_eq_true hmap
  have hlt : i < kernBase := by
    rcases Nat.lt_or_eq_of_le hle with hlt | heq
    · exact hlt
    · have hpresent := hbase.base
      rw [Pgdir.present, ← heq, ← hc.other i le_rfl (by omega)] at hpresent
      rw [habsent] at hpresent
      cases hpresent
  refine ⟨hlt, taken ++ f :: tables, ?_⟩
  have hframe := Mem.kalloc_eq_some hk
  have hfree : s0.mem.freelist = (taken ++ f :: tables) ++ s'.mem.freelist := by
    have hrest : mem.freelist = tables ++ s'.mem.freelist := htook.freelist
    rw [hc.freelist, hframe.freelist, hrest]
    simp
  have hnodup : (taken ++ f :: tables).Nodup := (List.nodup_append.mp (hfree ▸ hapart.nodup)).1
  have hphys : s'.mem.phys = move s.mem.phys f e.pa 4096 := by
    rw [htook.phys, ← hframe.phys]
    rfl
  have hmem : ∀ g ∈ taken ++ f :: tables, g ∈ s0.mem.freelist :=
    fun g hg => hfree ▸ List.mem_append_left _ hg
  have hf := hapart.aligned f (hmem f (by simp))
  obtain ⟨hpa, hnotfree⟩ := hapart.user i e hlt hparent
  constructor
  case freelist => exact hfree
  case phys =>
    intro a ha
    rw [hphys, move_of_outside (ha f (by simp))]
    exact hc.phys a fun g hg => ha g (List.mem_append_left _ hg)
  case page =>
    intro b hb
    by_cases hbi : b < i
    · obtain ⟨e', g, hparent', hchild, hg, hbytes⟩ := hc.page b hbi
      have hpage : pageOf b ≠ pageOf i := by
        simp only [pageOf]
        omega
      have hne : g ≠ f := by
        rintro rfl
        exact (List.nodup_append.mp hnodup).2.2 g hg g List.mem_cons_self rfl
      refine ⟨e', g, hparent', ?_, List.mem_append_left _ hg, fun off hoff => ?_⟩
      · rw [hlookup, if_neg hpage]
        exact hchild
      · have hgalign := hapart.aligned g (hmem g (List.mem_append_left _ hg))
        rw [hphys, move_of_outside (outside_frame hgalign hf hne hoff)]
        exact hbytes off hoff
    · have hpage : pageOf b = pageOf i := by
        simp only [pageOf]
        omega
      refine ⟨e, f, ?_, ?_, by simp, fun off hoff => ?_⟩
      · rw [Pgdir.lookup_congr _ hpage]
        exact hparent
      · rw [hlookup, if_pos hpage]
      · rw [hphys, move_at hoff]
        apply hc.phys
        intro g hg
        have hg' := hmem g (List.mem_append_left _ hg)
        apply outside_frame hpa (hapart.aligned g hg') _ hoff
        rintro rfl
        exact hnotfree hg'
  case other =>
    intro b hb hb'
    have hpage : pageOf b ≠ pageOf i := by
      simp only [pageOf]
      omega
    rw [hlookup, if_neg hpage]
    exact hc.other b (by omega) hb'

/-- The loop of `copyuvm`. -/
theorem CopiedBelow.loop {n : Nat} (hc : CopiedBelow parent s0 i taken s)
    (hbase : KernelHalf s0.pgdir) (hapart : FreeApart s0.mem parent) (hi : i % 4096 = 0)
    (hle : i ≤ kernBase) (h : copyLoop parent n i s = .ok (s', true)) :
    i + n * 4096 ≤ kernBase ∧ ∃ taken', CopiedBelow parent s0 (i + n * 4096) taken' s' := by
  induction n generalizing i s taken with
  | zero =>
      rw [copyLoop] at h
      cases h
      exact ⟨by simpa using hle, taken, by simpa using hc⟩
  | succ n ih =>
      rw [copyLoop] at h
      split at h
      case h_1 => cases h
      case h_2 => cases h
      case h_3 s1 hpage =>
        obtain ⟨hlt, taken1, hc1⟩ := hc.next hbase hapart hi hle hpage
        have hbase1 : i + 4096 ≤ kernBase := by
          have hdiv : kernBase % 4096 = 0 := by decide
          omega
        have hsum : i + (n + 1) * 4096 = i + 4096 + n * 4096 := by
          rw [Nat.succ_mul, Nat.add_assoc, Nat.add_comm 4096]
        rw [hsum]
        exact ih hc1 (by omega) hbase1 h

end Copying

section Space

variable {m m' : Mem} {d parent : Pgdir}

/-- Taking frames leaves the others apart. -/
theorem FreeApart.took {taken : List Nat} (h : FreeApart m d) (ht : m.Took m' taken) :
    FreeApart m' d where
  nodup := (List.nodup_append.mp (ht.freelist ▸ h.nodup)).2.1
  aligned := fun f hf => h.aligned f (ht.freelist ▸ List.mem_append_right taken hf)
  user := fun b e hb he =>
    ⟨(h.user b e hb he).1, fun hmem => (h.user b e hb he).2
      (ht.freelist ▸ List.mem_append_right taken hmem)⟩

theorem Mem.Took.trans {m'' : Mem} {taken taken' : List Nat} (h : m.Took m' taken)
    (h' : m'.Took m'' taken') : m.Took m'' (taken ++ taken') where
  freelist := by rw [h.freelist, h'.freelist, List.append_assoc]
  phys := h'.phys.trans h.phys
  imageEnd := h'.imageEnd.trans h.imageEnd

/-- Installing the kernel half takes frames and leaves the other tables alone. -/
theorem mapKernel_took {s s' : Space} {is : List Nat} (h : s.mapKernel is = (s', true)) :
    (∃ taken, s.mem.Took s'.mem taken) ∧
      ∀ i, i ∉ is → s'.pgdir.table i = s.pgdir.table i := by
  induction is generalizing s with
  | nil =>
      rw [Space.mapKernel] at h
      cases h
      exact ⟨⟨[], Mem.Took.refl _⟩, fun _ _ => rfl⟩
  | cons i rest ih =>
      rw [Space.mapKernel] at h
      split at h
      case h_1 => cases h
      case h_2 f mem hk =>
        obtain ⟨⟨taken, htook⟩, htable⟩ := ih h
        refine ⟨⟨[f] ++ taken, (Mem.kalloc_eq_some hk).trans htook⟩, fun j hj => ?_⟩
        rw [List.mem_cons, not_or] at hj
        rw [htable j hj.2]
        exact Function.update_of_ne hj.1 _ _

/-- A new page table has the kernel half, and no user page. -/
theorem setupkvm_user (h : setupkvm m = .ok (m', some d)) :
    (∃ taken, m.Took m' taken) ∧ ∀ b, b < kernBase → d.lookup b = none := by
  rw [setupkvm] at h
  split at h
  case h_1 => cases h
  case h_2 f m1 hk =>
    split at h
    case h_1 s hmap =>
      cases h
      obtain ⟨⟨taken, htook⟩, htable⟩ := mapKernel_took hmap
      refine ⟨⟨[f] ++ taken, (Mem.kalloc_eq_some hk).trans htook⟩, fun b hb => ?_⟩
      apply Pgdir.lookup_of_table_none
      apply htable
      simp only [kernelTables, kernBase, physTop, devSpace, pdx, List.mem_append,
        List.mem_range'_1] at hb ⊢
      omega
    case h_2 => split at h <;> cases h

/-- What `copyuvm` gives a child: the pages below `sz`, and no other user page. -/
structure CopiedSpace (m : Mem) (parent : Pgdir) (sz : Nat) (m' : Mem) (child : Pgdir) : Prop where
  bound : sz ≤ kernBase
  /-- The contents of the parent's pages stay. -/
  phys : ∀ b e off, b < kernBase → parent.lookup b = some e → off < 4096 →
    m'.phys (e.pa + off) = m.phys (e.pa + off)
  page : ∀ b, pgRoundDown b < sz → ∃ e f, parent.lookup b = some e ∧
    child.lookup b = some ⟨f, e.perm⟩ ∧ f ∈ m.freelist ∧
      ∀ off, off < 4096 → m'.phys (f + off) = m.phys (e.pa + off)
  absent : ∀ b, sz ≤ pgRoundDown b → b < kernBase → child.lookup b = none

theorem copyuvm_eq_some {child : Pgdir} {sz : Nat} (hapart : FreeApart m parent)
    (h : copyuvm m parent sz = .ok (m', some child)) : CopiedSpace m parent sz m' child := by
  rw [copyuvm] at h
  split at h
  case h_1 => cases h
  case h_2 => cases h
  case h_3 m1 d0 hsetup =>
    split at h
    case h_1 => cases h
    case h_3 => split at h <;> cases h
    case h_2 s hloop =>
      cases h
      obtain ⟨⟨taken0, htook⟩, huser⟩ := setupkvm_user hsetup
      have hbase := setupkvm_kernelHalf hsetup
      have hstart : CopiedBelow parent ⟨m1, d0⟩ 0 [] ⟨m1, d0⟩ := CopiedBelow.start ⟨m1, d0⟩
      obtain ⟨hbound, taken, hc⟩ :=
        hstart.loop hbase (hapart.took htook) rfl (Nat.zero_le _) hloop
      rw [Nat.zero_add] at hbound hc
      have hfree : ∀ f ∈ taken, f ∈ m.freelist := fun f hf =>
        htook.freelist ▸ List.mem_append_right taken0 (hc.freelist ▸ List.mem_append_left _ hf)
      have hpages : ∀ b, pgRoundDown b < sz ↔ b < (sz + (pgSize - 1)) / pgSize * 4096 := by
        intro b
        simp only [pgRoundDown, pgSize]
        omega
      constructor
      case bound =>
        simp only [pgSize] at hbound
        omega
      case phys =>
        intro b e off hb he hoff
        obtain ⟨hpa, hnotfree⟩ := hapart.user b e hb he
        rw [hc.phys]
        · exact congrFun htook.phys _
        · intro f hf
          apply outside_frame hpa (hapart.aligned f (hfree f hf)) _ hoff
          rintro rfl
          exact hnotfree (hfree _ hf)
      case page =>
        intro b hb
        obtain ⟨e, f, hparent, hchild, hf, hbytes⟩ := hc.page b ((hpages b).mp hb)
        refine ⟨e, f, hparent, hchild, hfree f hf, fun off hoff => ?_⟩
        rw [hbytes off hoff]
        exact congrFun htook.phys _
      case absent =>
        intro b hb hlt
        have hnot := fun h => Nat.not_lt.mpr hb ((hpages b).mpr h)
        have hword : kernBase < 2 ^ 32 := by decide
        rw [hc.other b (Nat.not_lt.mp hnot) (by omega)]
        exact huser b hlt

end Space

/-! ## The kernel behind `fork` -/

/-- Of the processes only the child has changed, and its address space has not. -/
structure ChildOnly (np : Fin nProc) (k k' : Kernel) : Prop where
  mem : k'.mem = k.mem
  others : ∀ q, q ≠ np → k'.procs q = k.procs q
  pgdir : (k'.procs np).pgdir = (k.procs np).pgdir
  sz : (k'.procs np).sz = (k.procs np).sz

section Loops

variable {k k' k'' : Kernel} {p np : Fin nProc}

theorem ChildOnly.refl (k : Kernel) : ChildOnly np k k := ⟨rfl, fun _ _ => rfl, rfl, rfl⟩

theorem ChildOnly.trans (h : ChildOnly np k k') (h' : ChildOnly np k' k'') :
    ChildOnly np k k'' where
  mem := h'.mem.trans h.mem
  others := fun q hq => (h'.others q hq).trans (h.others q hq)
  pgdir := h'.pgdir.trans h.pgdir
  sz := h'.sz.trans h.sz

theorem filedup_childOnly {f : Fin nFile} (h : k.filedup f = .ok k') :
    k'.mem = k.mem ∧ k'.procs = k.procs := by
  rw [Kernel.filedup] at h
  split at h
  case isTrue => cases h
  case isFalse =>
    cases h
    exact ⟨rfl, rfl⟩

/-- An update of the child alone. -/
theorem ChildOnly.of_update {x : Proc} (hmem : k'.mem = k.mem)
    (hprocs : k'.procs = Function.update k.procs np x) (hpgdir : x.pgdir = (k.procs np).pgdir)
    (hsz : x.sz = (k.procs np).sz) : ChildOnly np k k' where
  mem := hmem
  others := fun q hq => by rw [hprocs, Function.update_of_ne hq]
  pgdir := by rw [hprocs, Function.update_self, hpgdir]
  sz := by rw [hprocs, Function.update_self, hsz]

theorem forkFile_childOnly {i : Fin nOfile} (h : k.forkFile p np i = .ok k') :
    ChildOnly np k k' ∧ (k'.procs np).vmas = (k.procs np).vmas := by
  rw [Kernel.forkFile] at h
  split at h
  case h_1 =>
    cases h
    exact ⟨ChildOnly.refl k, rfl⟩
  case h_2 f _ =>
    split at h
    case h_1 => cases h
    case h_2 k1 hdup =>
      cases h
      obtain ⟨hmem, hprocs⟩ := filedup_childOnly hdup
      have hupdate : (k1.setOfile np i (some f)).procs = Function.update k.procs np
          { k1.procs np with ofile := Function.update (k1.procs np).ofile i (some f) } := by
        rw [Kernel.setOfile, Kernel.procs_setProc, hprocs]
      refine ⟨ChildOnly.of_update hmem hupdate ?_ ?_, ?_⟩
      · rw [hprocs]
      · rw [hprocs]
      · rw [hupdate, Function.update_self, hprocs]

/-- The child gets a valid record of the parent in the same slot. -/
theorem forkVma_childOnly {i : Fin nVma} (h : k.forkVma p np i = .ok k') :
    ChildOnly np k k' ∧ (k'.procs np).vmas =
      if ((k.procs p).vmas i).valid then
        Function.update (k.procs np).vmas i ((k.procs p).vmas i)
      else (k.procs np).vmas := by
  rw [Kernel.forkVma] at h
  split at h
  case isFalse hvalid =>
    cases h
    exact ⟨ChildOnly.refl k, by rw [if_neg hvalid]⟩
  case isTrue hvalid =>
    rw [if_pos hvalid]
    rw [Kernel.copyVma] at h
    split at h
    case h_1 hpf =>
      cases h
      have hrecord : { (k.procs p).vmas i with valid := true } = (k.procs p).vmas i := by
        rw [← hvalid]
      rw [hrecord]
      exact ⟨ChildOnly.of_update rfl rfl rfl rfl, by simp [Kernel.setVma]⟩
    case h_2 f hpf =>
      split at h
      case h_1 => cases h
      case h_2 k1 hdup =>
        cases h
        obtain ⟨hmem, hprocs⟩ := filedup_childOnly hdup
        have hrecord : { (k.procs p).vmas i with pf := some f, valid := true } =
            (k.procs p).vmas i := by
          rw [← hvalid, ← hpf]
        have hupdate : (k1.setVma np i ((k.procs p).vmas i)).procs =
            Function.update k.procs np { k.procs np with
              vmas := Function.update (k.procs np).vmas i ((k.procs p).vmas i) } := by
          simp [Kernel.setVma, hprocs]
        rw [hrecord]
        refine ⟨ChildOnly.of_update hmem hupdate rfl rfl, ?_⟩
        rw [hupdate, Function.update_self]

theorem forkFiles_childOnly {l : List (Fin nOfile)} (h : l.foldlM (Kernel.forkFile p np) k = .ok k') :
    ChildOnly np k k' ∧ (k'.procs np).vmas = (k.procs np).vmas := by
  induction l generalizing k with
  | nil =>
      cases h
      exact ⟨ChildOnly.refl _, rfl⟩
  | cons i l ih =>
      rw [List.foldlM_cons] at h
      cases hturn : k.forkFile p np i with
      | error e =>
          rw [hturn] at h
          cases h
      | ok k1 =>
          rw [hturn] at h
          obtain ⟨hchild, hvmas⟩ := forkFile_childOnly hturn
          obtain ⟨hchild', hvmas'⟩ := ih h
          exact ⟨hchild.trans hchild', hvmas'.trans hvmas⟩

theorem forkVmas_childOnly (hne : p ≠ np) {l : List (Fin nVma)}
    (h : l.foldlM (Kernel.forkVma p np) k = .ok k') :
    ChildOnly np k k' ∧ ∀ j, (k'.procs np).vmas j =
      if j ∈ l ∧ ((k.procs p).vmas j).valid then (k.procs p).vmas j else (k.procs np).vmas j := by
  induction l generalizing k with
  | nil =>
      cases h
      exact ⟨ChildOnly.refl _, fun j => by simp⟩
  | cons i l ih =>
      rw [List.foldlM_cons] at h
      cases hturn : k.forkVma p np i with
      | error e =>
          rw [hturn] at h
          cases h
      | ok k1 =>
          rw [hturn] at h
          obtain ⟨hchild, hvmas⟩ := forkVma_childOnly hturn
          obtain ⟨hchild', hvmas'⟩ := ih h
          refine ⟨hchild.trans hchild', fun j => ?_⟩
          rw [hvmas' j, hchild.others p hne, hvmas]
          by_cases hj : j = i
          · subst hj
            by_cases hvalid : ((k.procs p).vmas j).valid = true <;> simp [hvalid]
          · by_cases hvalid : ((k.procs p).vmas i).valid = true <;> simp [hvalid, hj]

end Loops

/-- A fork that has returned a child: `np` is `p`'s child. -/
structure Forked (k : Kernel) (p np : Fin nProc) (k' : Kernel) : Prop where
  unused : k.findUnused = some np
  copied : ∃ stack m, k.mem.kalloc = some (stack, m) ∧
    copyuvm m (k.procs p).pgdir (k.procs p).sz = .ok (k'.mem, some (k'.procs np).pgdir)
  vmas : ∀ j, (k'.procs np).vmas j =
    if ((k.procs p).vmas j).valid then (k.procs p).vmas j else (k.procs np).vmas j
  others : ∀ q, q ≠ np → k'.procs q = k.procs q
  state : (k'.procs np).state = .runnable

theorem findUnused_state {k : Kernel} {np : Fin nProc} (h : k.findUnused = some np) :
    (k.procs np).state = .unused := by
  simpa using List.find?_some h

/-- `allocproc` with a kernel stack changes the slot that it has found. -/
theorem allocproc_eq_true {k k1 : Kernel} {np : Fin nProc} (h : k.allocproc np = (k1, true)) :
    ∃ stack m, k.mem.kalloc = some (stack, m) ∧ k1.mem = m ∧
      (∀ q, q ≠ np → k1.procs q = k.procs q) ∧ (k1.procs np).vmas = (k.procs np).vmas ∧
      (k1.procs np).pgdir = (k.procs np).pgdir := by
  rw [Kernel.allocproc] at h
  dsimp only at h
  split at h
  case h_1 => cases h
  case h_2 stack m hk =>
    cases h
    refine ⟨stack, m, hk, rfl, fun q hq => ?_, ?_, ?_⟩
    · rw [Kernel.procs_setProc, Function.update_of_ne hq]
    · rw [Kernel.procs_setProc, Function.update_self]
    · rw [Kernel.procs_setProc, Function.update_self]

/-- Giving a kernel stack back leaves the address spaces, records and states. -/
theorem freeStack_tables {k k' : Kernel} {p : Fin nProc} (h : k.freeStack p = .ok k')
    (q : Fin nProc) : (k'.procs q).pgdir = (k.procs q).pgdir ∧
      (k'.procs q).vmas = (k.procs q).vmas ∧ (k'.procs q).state = (k.procs q).state := by
  rw [Kernel.freeStack] at h
  split at h
  case h_1 => cases h
  case h_2 =>
    split at h
    case h_1 => cases h
    case h_2 =>
      cases h
      rcases eq_or_ne q p with rfl | hne
      · rw [Kernel.procs_setProc, Function.update_self]
        exact ⟨rfl, rfl, rfl⟩
      · rw [Kernel.procs_setProc, Function.update_of_ne hne]
        exact ⟨rfl, rfl, rfl⟩

/-- A fork that has not returned a child leaves the address spaces, records and states. -/
def ForkFailed (k k' : Kernel) : Prop :=
  ∀ q, (k'.procs q).pgdir = (k.procs q).pgdir ∧ (k'.procs q).vmas = (k.procs q).vmas ∧
    (k'.procs q).state = (k.procs q).state

theorem allocproc_eq_false {k k1 : Kernel} {np : Fin nProc}
    (hunused : (k.procs np).state = .unused) (h : k.allocproc np = (k1, false)) :
    ForkFailed k k1 := by
  rw [Kernel.allocproc] at h
  dsimp only at h
  split at h
  case h_1 =>
    cases h
    intro q
    rcases eq_or_ne q np with rfl | hne
    · rw [Kernel.procs_setProc, Function.update_self]
      exact ⟨rfl, rfl, hunused.symm⟩
    · rw [Kernel.procs_setProc, Function.update_of_ne hne]
      exact ⟨rfl, rfl, rfl⟩
  case h_2 => cases h

/-- `fork` returns -1 or a child. -/
theorem fork_outcome {k k' : Kernel} {p : Fin nProc} {r : Int}
    (hp : (k.procs p).state ≠ .unused) (h : k.fork p = .ok (k', r)) :
    (r = -1 ∧ ForkFailed k k') ∨ ∃ np, Forked k p np k' := by
  rw [Kernel.fork] at h
  split at h
  case h_1 =>
    cases h
    exact Or.inl ⟨rfl, fun q => ⟨rfl, rfl, rfl⟩⟩
  case h_2 np hfound =>
    have hunused := findUnused_state hfound
    have hne : p ≠ np := by
      rintro rfl
      exact hp hunused
    split at h
    case h_1 halloc =>
      cases h
      exact Or.inl ⟨rfl, allocproc_eq_false hunused halloc⟩
    case h_2 k1 halloc =>
      obtain ⟨stack, m, hk, hmem, hothers, hvmas, hpgdir⟩ := allocproc_eq_true halloc
      split at h
      case h_1 => cases h
      case h_2 mem _ =>
        split at h
        case h_1 => cases h
        case h_2 k2 hstack =>
          cases h
          refine Or.inl ⟨rfl, fun q => ?_⟩
          have hsame := freeStack_tables hstack
          dsimp only at hsame
          rcases eq_or_ne q np with rfl | hq
          · rw [Kernel.procs_setProc, Function.update_self]
            exact ⟨(hsame q).1.trans hpgdir, (hsame q).2.1.trans hvmas, hunused.symm⟩
          · rw [Kernel.procs_setProc, Function.update_of_ne hq, ← hothers q hq]
            exact hsame q
      case h_3 mem d hcopy =>
        dsimp only at h
        split at h
        case h_1 => cases h
        case h_2 k3 hfiles =>
          split at h
          case h_1 => cases h
          case h_2 k4 hvmas4 =>
            cases h
            obtain ⟨hchild3, hsame3⟩ := forkFiles_childOnly hfiles
            obtain ⟨hchild4, hsame4⟩ := forkVmas_childOnly hne hvmas4
            have hchild := hchild3.trans hchild4
            rw [hmem, hothers p hne] at hcopy
            have hparent : k3.procs p = k.procs p := by
              rw [hchild3.others p hne, Kernel.procs_setProc, Function.update_of_ne hne]
              exact hothers p hne
            refine Or.inr ⟨np, hfound, ⟨stack, m, hk, ?_⟩, fun j => ?_, fun q hq => ?_, ?_⟩
            · have hpgdir := hchild.pgdir
              rw [Kernel.procs_setProc, Function.update_self] at hpgdir
              rw [Kernel.mem_setProc, hchild.mem, Kernel.procs_setProc, Function.update_self,
                hpgdir]
              exact hcopy
            · rw [Kernel.procs_setProc, Function.update_self]
              rw [hsame4 j, hparent, hsame3, Kernel.procs_setProc, Function.update_self]
              simp only [List.mem_finRange, true_and, hvmas]
            · rw [Kernel.procs_setProc, Function.update_of_ne hq, hchild.others q hq,
                Kernel.procs_setProc, Function.update_of_ne hq]
              exact hothers q hq
            · rw [Kernel.procs_setProc, Function.update_self]

theorem fork_eq_ok {k k' : Kernel} {p : Fin nProc} {r : Int}
    (hp : (k.procs p).state ≠ .unused) (h : k.fork p = .ok (k', r)) (hr : r ≠ -1) :
    ∃ np, Forked k p np k' := by
  rcases fork_outcome hp h with ⟨hfailed, -⟩ | hforked
  · exact absurd hfailed hr
  · exact hforked

end OSProjects.Xv6
