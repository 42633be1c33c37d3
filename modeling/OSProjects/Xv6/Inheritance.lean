import OSProjects.Xv6.Fork
import OSProjects.Xv6.References

/-!
# Mappings across `fork`

When the pages of the parent's records reach the child: `copyuvm` copies what lies below
`sz`, and it copies every page to a frame of the child's own.
-/

namespace OSProjects.Xv6

/-- What a child should have of its parent's mappings. -/
structure Inherits (k : Kernel) (p np : Fin nProc) (k' : Kernel) : Prop where
  record : ∀ j, ((k.procs p).vmas j).valid = true →
    (k'.procs np).vmas j = (k.procs p).vmas j
  /-- Shared pages lie in the parent's frames, private ones in frames that were free. -/
  page : ∀ j b, ((k.procs p).vmas j).valid = true → ((k.procs p).vmas j).Covers b →
    ∃ e e', (k.procs p).pgdir.lookup b = some e ∧ (k'.procs np).pgdir.lookup b = some e' ∧
      (has ((k.procs p).vmas j).flags mapShared = true → e'.pa = e.pa) ∧
      (has ((k.procs p).vmas j).flags mapPrivate = true → e'.pa ∈ k.mem.freelist ∧
        ∀ off, off < 4096 → k'.mem.phys (e'.pa + off) = k.mem.phys (e.pa + off))
  absent : ∀ b, b < kernBase → (k.procs p).sz ≤ pgRoundDown b →
    (∀ j c, ((k.procs p).vmas j).valid = true → ((k.procs p).vmas j).Covers c →
      pgRoundDown c ≠ pgRoundDown b) → (k'.procs np).pgdir.lookup b = none

/-- The valid records lie in user memory. -/
def VmasBelow (vmas : Fin nVma → Vma) : Prop :=
  ∀ j, (vmas j).valid = true → (vmas j).endAddr ≤ kernBase

/-- The pages of the valid records are in the page table. -/
def VmasPresent (x : Proc) : Prop :=
  ∀ j b, (x.vmas j).valid = true → (x.vmas j).Covers b → x.pgdir.present b = true

/-- The valid records lie on pages below `sz`, and none of them is shared. -/
def WithinSize (x : Proc) : Prop :=
  ∀ j b, (x.vmas j).valid = true → (x.vmas j).Covers b →
    pgRoundDown b < x.sz ∧ has (x.vmas j).flags mapShared = false

section Inheritance

variable {k k' : Kernel} {p np : Fin nProc}

/-- The child's address space, by what was free before the call. -/
theorem Forked.copiedSpace (h : Forked k p np k') (hapart : FreeApart k.mem (k.procs p).pgdir) :
    CopiedSpace k.mem (k.procs p).pgdir (k.procs p).sz k'.mem (k'.procs np).pgdir := by
  obtain ⟨stack, m, hk, hcopy⟩ := h.copied
  have htook := Mem.kalloc_eq_some hk
  have hspace := copyuvm_eq_some (hapart.took htook) hcopy
  constructor
  case bound => exact hspace.bound
  case phys =>
    intro b e off hb he hoff
    rw [hspace.phys b e off hb he hoff, htook.phys]
  case page =>
    intro b hb
    obtain ⟨e, f, he, hf, hfree, hbytes⟩ := hspace.page b hb
    refine ⟨e, f, he, hf, htook.freelist ▸ List.mem_append_right _ hfree, fun off hoff => ?_⟩
    rw [hbytes off hoff, htook.phys]
  case absent => exact hspace.absent

/-- A child inherits the mappings of its parent exactly when they lie below `sz` and none of
them is shared. -/
theorem fork_inherits_iff {r : Int} (hp : k.Runs p)
    (hapart : FreeApart k.mem (k.procs p).pgdir) (hbelow : VmasBelow (k.procs p).vmas)
    (hnp : k.findUnused = some np) (h : k.fork p = .ok (k', r)) (hr : r ≠ -1) :
    Inherits k p np k' ↔ WithinSize (k.procs p) := by
  have hused : (k.procs p).state ≠ .unused := fun hs => hp.not_dead (Or.inl hs)
  obtain ⟨child, hforked⟩ := fork_eq_ok hused h hr
  obtain rfl : np = child := Option.some.inj (hnp.symm.trans hforked.unused)
  have hspace := hforked.copiedSpace hapart
  constructor
  · intro hinherits j b hvalid hcovers
    obtain ⟨e, e', he, he', hshared, -⟩ := hinherits.page j b hvalid hcovers
    have hb : b < kernBase := lt_of_lt_of_le hcovers.2 (hbelow j hvalid)
    have hsize : pgRoundDown b < (k.procs p).sz := by
      by_contra hnot
      rw [hspace.absent b (Nat.not_lt.mp hnot) hb] at he'
      cases he'
    refine ⟨hsize, ?_⟩
    by_contra hflag
    obtain ⟨e1, f, -, hf, hfree, -⟩ := hspace.page b hsize
    have hsame := hshared (Bool.eq_true_of_not_eq_false hflag)
    rw [he'] at hf
    rw [Option.some.inj hf] at hsame
    exact (hapart.user b e hb he).2 (hsame ▸ hfree)
  · intro hwithin
    constructor
    case record =>
      intro j hvalid
      rw [hforked.vmas j, if_pos hvalid]
    case page =>
      intro j b hvalid hcovers
      obtain ⟨hsize, hshared⟩ := hwithin j b hvalid hcovers
      obtain ⟨e, f, he, hf, hfree, hbytes⟩ := hspace.page b hsize
      refine ⟨e, ⟨f, e.perm⟩, he, hf, fun hflag => ?_, fun _ => ⟨hfree, hbytes⟩⟩
      rw [hshared] at hflag
      cases hflag
    case absent => exact fun b hb hsize _ => hspace.absent b hsize hb

end Inheritance

/-! ## Two forks -/

/-- The frame of a user page is aligned and not free. -/
def entryApart (m : Mem) (t : PageTable) : Bool :=
  (List.range 1024).all fun x => (t.entry x).all fun e => e.pa % 4096 == 0 && !m.freelist.contains e.pa

def freeApartCheck (m : Mem) (d : Pgdir) : Bool :=
  decide m.freelist.Nodup && m.freelist.all (fun f => f % 4096 == 0) &&
    (List.range 512).all fun i => (d.table i).all (entryApart m)

theorem freeApart_of_check {m : Mem} {d : Pgdir} (h : freeApartCheck m d = true) :
    FreeApart m d := by
  rw [freeApartCheck, Bool.and_eq_true, Bool.and_eq_true, decide_eq_true_eq,
    List.all_eq_true, List.all_eq_true] at h
  obtain ⟨⟨hnodup, haligned⟩, htables⟩ := h
  refine ⟨hnodup, fun f hf => by simpa using haligned f hf, fun b e hb he => ?_⟩
  obtain ⟨t, ht, hentry⟩ := Option.bind_eq_some_iff.mp he
  have hpdx : pdx b ∈ List.range 512 := by
    simp only [List.mem_range, pdx, kernBase] at hb ⊢
    omega
  have hptx : ptx b ∈ List.range 1024 := by
    simp only [List.mem_range, ptx]
    omega
  have htable := htables _ hpdx
  rw [ht, Option.all_some, entryApart, List.all_eq_true] at htable
  have hcheck := htable _ hptx
  rw [hentry, Option.all_some] at hcheck
  simpa using hcheck

/-- A private record of the first page, which lies below `sz` after boot. -/
def lowRecord : Vma := { Vma.zero with endAddr := 4096, flags := mapPrivate, valid := true }

theorem fork_inherits_iff_low : ∃ k0 k' r, bootKernel 150 [] = .ok k0 ∧
    (k0.setVma k0.initproc 0 lowRecord).fork k0.initproc = .ok (k', r) ∧
      Inherits (k0.setVma k0.initproc 0 lowRecord) k0.initproc 1 k' := by
  obtain ⟨k0, hboot, hcheck⟩ := @exists_ok _ (bootKernel 150 []) (fun k0 =>
    let k := k0.setVma k0.initproc 0 lowRecord
    decide (k.Runs k0.initproc ∧ (k.procs k0.initproc).sz = 4096 ∧ k.findUnused = some 1) &&
      freeApartCheck k.mem (k.procs k0.initproc).pgdir &&
      okWith (k.fork k0.initproc) fun x => x.2 != -1) (by decide +kernel)
  dsimp only at hcheck
  rw [Bool.and_eq_true, Bool.and_eq_true, decide_eq_true_eq] at hcheck
  obtain ⟨⟨⟨hruns, hsz, hnp⟩, hapart⟩, hfork⟩ := hcheck
  obtain ⟨⟨k', r⟩, hok, hreturn⟩ := exists_ok hfork
  have hr : r ≠ -1 := by simpa using hreturn
  have hno : (k0.procs k0.initproc).vmas = fun _ => Vma.zero := (userinit_eq_ok hboot).2
  have hvmas : ((k0.setVma k0.initproc 0 lowRecord).procs k0.initproc).vmas =
      Function.update (fun _ => Vma.zero) 0 lowRecord := by
    simp [Kernel.setVma, hno]
  have hfirst : ∀ j : Fin nVma,
      (Function.update (fun _ : Fin nVma => Vma.zero) 0 lowRecord j).valid = true → j = 0 := by
    intro j hvalid
    by_contra hne
    rw [Function.update_of_ne hne] at hvalid
    cases hvalid
  refine ⟨k0, k', r, hboot, hok,
    (fork_inherits_iff hruns (freeApart_of_check hapart) ?_ hnp hok hr).mpr ?_⟩
  · intro j hvalid
    rw [hvmas] at hvalid ⊢
    rw [hfirst j hvalid, Function.update_self]
    decide
  · intro j b hvalid hcovers
    rw [hvmas] at hvalid hcovers ⊢
    rw [hfirst j hvalid, Function.update_self] at hcovers ⊢
    have hb : b < 4096 := hcovers.2
    rw [hsz]
    refine ⟨?_, by decide⟩
    simp only [pgRoundDown, pgSize]
    omega

/-- The page that a process has mapped is missing in its child. -/
theorem mapped_page_missing :
    ¬∀ (k k' : Kernel) (p np : Fin nProc) (r : Int), k.Runs p →
      FreeApart k.mem (k.procs p).pgdir → VmasBelow (k.procs p).vmas →
      VmasPresent (k.procs p) → k.findUnused = some np → k.fork p = .ok (k', r) → r ≠ -1 →
        Inherits k p np k' := by
  intro h
  obtain ⟨k0, hboot, hcheck⟩ := @exists_ok _ (bootKernel 150 []) (fun k0 =>
    okWith (k0.mmap 0 onePage) fun x =>
      let k := x.1
      decide (k.Runs 0 ∧ k.findUnused = some 1 ∧
          (∀ j, ((k.procs 0).vmas j).valid = true → j = 0) ∧
          ((k.procs 0).vmas 0).addr = 0x60000000 ∧ ((k.procs 0).vmas 0).endAddr = 0x60001000 ∧
          ((k.procs 0).vmas 0).valid = true ∧
          (k.procs 0).pgdir.present 0x60000000 = true) &&
        freeApartCheck k.mem (k.procs 0).pgdir &&
        okWith (k.fork 0) fun y => y.2 != -1 && !(y.1.procs 1).pgdir.present 0x60000000)
    (by decide +kernel)
  obtain ⟨⟨k, _⟩, -, hcheck⟩ := exists_ok hcheck
  dsimp only at hcheck
  rw [Bool.and_eq_true, Bool.and_eq_true, decide_eq_true_eq] at hcheck
  obtain ⟨⟨⟨hruns, hnp, hfirst, haddr, hend, hvalid, hpresent⟩, hapart⟩, hfork⟩ := hcheck
  obtain ⟨⟨k', r⟩, hok, hreturn⟩ := exists_ok hfork
  rw [Bool.and_eq_true] at hreturn
  have hr : r ≠ -1 := by simpa using hreturn.1
  have hbelow : VmasBelow (k.procs 0).vmas := by
    intro j hj
    rw [hfirst j hj, hend]
    decide
  have hmapped : VmasPresent (k.procs 0) := by
    intro j b hj hcovers
    rw [hfirst j hj] at hcovers
    obtain ⟨hlow, hhigh⟩ := hcovers
    have hpage : pageOf b = pageOf 0x60000000 := by
      simp only [pageOf]
      omega
    rw [Pgdir.present_congr _ hpage]
    exact hpresent
  have hinherits := h k k' 0 1 r hruns (freeApart_of_check hapart) hbelow hmapped hnp hok hr
  have hcovers : ((k.procs 0).vmas 0).Covers 0x60000000 := by
    rw [Vma.Covers, haddr, hend]
    decide
  obtain ⟨-, e', -, he', -⟩ := hinherits.page 0 0x60000000 hvalid hcovers
  have hgone : (k'.procs 1).pgdir.present 0x60000000 = false := by simpa using hreturn.2
  rw [Pgdir.present, he'] at hgone
  cases hgone

end OSProjects.Xv6
