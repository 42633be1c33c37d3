import OSProjects.Xv6.Mapping
import OSProjects.Xv6.Proc

/-!
# The first process

The tables of the kernel start out as zeros. `userinit` makes the first process, and
every page table that `setupkvm` builds has the kernel half.
-/

namespace OSProjects.Xv6

/-! ## Zeroed tables -/

def Vma.zero : Vma := ⟨0, 0, 0, 0, 0, 0, none, false, 0⟩

def Proc.zero : Proc where
  sz := 0
  pgdir := ⟨0, fun _ => none⟩
  kstack := none
  state := .unused
  pid := 0
  parent := none
  killed := false
  ofile := fun _ => none
  vmas := fun _ => Vma.zero

def File.zero : File := ⟨.none, 0, false, false, 0, 0⟩

/-- The kernel before the first process, with its memory, inodes, free blocks and devices. -/
def Kernel.zero (mem : Mem) (inodes : Nat → Inode) (freeBlocks : Nat)
    (devsw : Nat → Option Devsw) : Kernel where
  procs := fun _ => Proc.zero
  initproc := ⟨0, by decide⟩
  nextpid := 1
  ftable := fun _ => File.zero
  leftover := fun _ => none
  inodes := inodes
  freeBlocks := freeBlocks
  devsw := devsw
  mem := mem

/-- `inituvm` with the bytes of the program; the source does not check `kalloc`. -/
def Space.inituvm (s : Space) (init : List UInt8) : Result Space :=
  match s.mem.kalloc with
  | none => .error .kernelFault
  | some (frame, mem) =>
      match Space.mappages ⟨mem.zeroPage frame, s.pgdir⟩ 0 pgSize frame (pteW ||| pteU) with
      | .error h => .error h
      | .ok (s, _) => .ok { s with mem := s.mem.storeBytes frame init }

/-- `userinit`. The panics for want of memory at this point are all `kernelFault`. -/
def Kernel.userinit (k : Kernel) (init : List UInt8) : Result Kernel :=
  match k.findUnused with
  | none => .error .kernelFault
  | some p =>
      match k.allocproc p with
      | (_, false) => .error .kernelFault
      | (k, true) =>
          match setupkvm k.mem with
          | .error h => .error h
          | .ok (_, none) => .error .kernelFault
          | .ok (mem, some d) =>
              match Space.inituvm ⟨mem, d⟩ init with
              | .error h => .error h
              | .ok s =>
                  let k := { k.setSpace p s with initproc := p }
                  .ok (k.setProc p { k.procs p with sz := pgSize, state := .runnable })

/-! ## The kernel half -/

/-- A table of the kernel half is the one that `kmap` asks for. -/
def HasKernelTables (d : Pgdir) (is : List Nat) : Prop :=
  ∀ i ∈ is, ∃ m f, d.table i = some (kernelTable m i f)

theorem mapKernel_tables {s s' : Space} {is done : List Nat} (h0 : HasKernelTables s.pgdir done)
    (h : s.mapKernel is = (s', true)) : HasKernelTables s'.pgdir (done ++ is) := by
  induction is generalizing s done with
  | nil =>
      simp only [Space.mapKernel, Prod.mk.injEq, and_true] at h
      rwa [List.append_nil, ← h]
  | cons i rest ih =>
      rw [Space.mapKernel] at h
      split at h
      · simp at h
      case h_2 f mem _ =>
        have hstep : HasKernelTables s'.pgdir (done ++ [i] ++ rest) := ih (fun j hj => ?_) h
        · rwa [List.append_assoc] at hstep
        · rcases eq_or_ne j i with rfl | hne
          · exact ⟨mem, f, Function.update_self _ _ _⟩
          · obtain ⟨m, g, hg⟩ := h0 j (by simpa [hne] using hj)
            exact ⟨m, g, (Function.update_of_ne hne _ _).trans hg⟩

theorem mem_kernelTables {i : Nat} (h : (512 ≤ i ∧ i < 568) ∨ (1016 ≤ i ∧ i < 1024)) :
    i ∈ kernelTables := by
  simp only [kernelTables, kernBase, physTop, devSpace, List.mem_append, List.mem_range'_1]
  omega

theorem kernelPte_isSome {m : Mem} {va : Nat} (h : va < 0x8E000000 ∨ 0xFE000000 ≤ va) :
    (kernelPte m va).isSome = true := by
  rw [kernelPte]
  by_cases hlow : va < kernBase + physTop
  · rw [if_pos hlow]
    rfl
  · have hhigh : devSpace ≤ va := by
      simp only [kernBase, physTop, devSpace] at hlow ⊢
      omega
    rw [if_neg hlow, if_pos hhigh]
    rfl

/-- In a table of the kernel half, every page is the one that `kmap` asks for. -/
theorem HasKernelTables.lookup {d : Pgdir} (h : HasKernelTables d kernelTables) {va : Nat}
    (hlt : va < 2 ^ 32)
    (hrange : (0x80000000 ≤ va ∧ va < 0x8E000000) ∨ 0xFE000000 ≤ va) :
    ∃ m, d.lookup va = kernelPte m (va / 4096 * 4096) := by
  have hmem : pdx va ∈ kernelTables := by
    refine mem_kernelTables ?_
    simp only [pdx]
    omega
  have hpage : pdx va * 2 ^ 22 + ptx va * 2 ^ 12 = va / 4096 * 4096 := by
    simp only [pdx, ptx]
    omega
  obtain ⟨m, f, ht⟩ := h _ hmem
  refine ⟨m, ?_⟩
  rw [Pgdir.lookup, ht, Option.bind_some, kernelTable_entry, hpage]

theorem HasKernelTables.present {d : Pgdir} (h : HasKernelTables d kernelTables) {va : Nat}
    (hlt : va < 2 ^ 32)
    (hrange : (0x80000000 ≤ va ∧ va < 0x8E000000) ∨ 0xFE000000 ≤ va) : d.present va = true := by
  obtain ⟨m, hlookup⟩ := h.lookup hlt hrange
  rw [Pgdir.present, hlookup]
  exact kernelPte_isSome (by omega)

theorem KernelHalf.of_tables {d : Pgdir} (h : HasKernelTables d kernelTables) :
    KernelHalf d := by
  refine ⟨h.present ?_ ?_, fun va hva hlt => h.present hlt (Or.inr ?_)⟩
  · simp only [kernBase]
    omega
  · simp only [kernBase]
    omega
  · simpa only [devSpace] using hva

theorem setupkvm_tables {m m' : Mem} {d : Pgdir} (h : setupkvm m = .ok (m', some d)) :
    HasKernelTables d kernelTables := by
  rw [setupkvm] at h
  split at h
  case h_1 => cases h
  case h_2 f m1 _ =>
    split at h
    case h_1 s hmap =>
      cases h
      have hnil : HasKernelTables (Pgdir.mk f fun _ => none) [] := fun _ h => by simp at h
      simpa using mapKernel_tables hnil hmap
    case h_2 => split at h <;> cases h

theorem setupkvm_kernelHalf {m m' : Mem} {d : Pgdir} (h : setupkvm m = .ok (m', some d)) :
    KernelHalf d :=
  .of_tables (setupkvm_tables h)

/-! ## What `userinit` establishes -/

/-- The process has no mapping, and no slot has ever held one. -/
def NoMapping (k : Kernel) (p : Fin nProc) : Prop := (k.procs p).vmas = fun _ => Vma.zero

/-- A page is mapped only where none is present. -/
theorem Space.mapPage_keeps {s s' : Space} {a pa perm : Nat} {r : Bool}
    (h : s.mapPage a pa perm = .ok (s', r)) : s.pgdir.Keeps s'.pgdir := by
  cases r with
  | false =>
      obtain ⟨rfl, -⟩ := Space.mapPage_eq_false h
      exact Pgdir.Keeps.refl _
  | true =>
      obtain ⟨habsent, hlookup, -⟩ := Space.mapPage_eq_true h
      intro b e hb
      have hne : pageOf b ≠ pageOf a := by
        intro hpage
        rw [Pgdir.lookup_congr _ hpage, habsent] at hb
        cases hb
      rw [hlookup, if_neg hne, hb]

theorem inituvm_keeps {s s' : Space} {init : List UInt8} (h : s.inituvm init = .ok s') :
    s.pgdir.Keeps s'.pgdir := by
  rw [Space.inituvm] at h
  split at h
  · simp at h
  case h_2 frame m _ =>
    split at h
    · simp at h
    case h_2 s1 r hmap =>
      obtain rfl := Except.ok.inj h
      rw [Space.mappages_aligned rfl (by decide)] at hmap
      have hkeeps := Space.mapPage_keeps hmap
      exact hkeeps

/-- After `userinit` the first process has the kernel half and no mapping. -/
theorem userinit_eq_ok {mem : Mem} {inodes : Nat → Inode} {blocks : Nat}
    {devsw : Nat → Option Devsw} {init : List UInt8} {k : Kernel}
    (h : (Kernel.zero mem inodes blocks devsw).userinit init = .ok k) :
    KernelHalf (k.procs k.initproc).pgdir ∧ NoMapping k k.initproc := by
  rw [Kernel.userinit] at h
  split at h
  · simp at h
  case h_2 p hp =>
    split at h
    · simp at h
    case h_2 k1 halloc =>
      have hvmas : (k1.procs p).vmas = fun _ => Vma.zero := by
        rw [Kernel.allocproc] at halloc
        split at halloc
        · simp at halloc
        · simp only [Prod.mk.injEq, and_true] at halloc
          rw [← halloc]
          simp [Kernel.zero, Proc.zero]
      split at h
      · simp at h
      · simp at h
      case h_3 m d hkvm =>
        split at h
        · simp at h
        case h_2 s hinit =>
          obtain rfl := Except.ok.inj h
          have hhalf := (inituvm_keeps hinit).kernelHalf (setupkvm_kernelHalf hkvm)
          have hno : ∀ k2 : Kernel, (k2.procs p).vmas = (k1.procs p).vmas → NoMapping k2 p :=
            fun k2 hk2 => hk2.trans hvmas
          simp only [Kernel.setProc]
          exact ⟨by simpa using hhalf, hno _ (by simp)⟩

/-! ## A machine to run on -/

/-- `n` free frames above a kernel that ends at 4 MB. -/
def freeMem (n : Nat) : Mem where
  freelist := (List.range n).map fun i => 0x400000 + i * pgSize
  phys := fun _ => 0
  imageEnd := 0x400000
  dataStart := 0x200000

/-- A disk on which every inode is a regular file with the same contents. -/
def plainInodes (data : List UInt8) : Nat → Inode := fun _ =>
  ⟨.file, 0, data.length, fun i => data.getD i 0⟩

/-- The kernel after `userinit` on a machine with `n` free frames and 500 free blocks, on which
every file holds the same bytes. -/
def bootKernel (n : Nat) (data : List UInt8) : Result Kernel :=
  (Kernel.zero (freeMem n) (plainInodes data) 500 fun _ => none).userinit []

/-- A check of what a call returns. -/
def okWith {α : Type} (r : Result α) (P : α → Bool) : Bool :=
  match r with
  | .ok a => P a
  | .error _ => false

/-- A result that evaluation has found, with a checked property of it. -/
theorem exists_ok {α : Type} {r : Result α} {P : α → Bool} (h : okWith r P = true) :
    ∃ a, r = .ok a ∧ P a = true := by
  cases r with
  | error e => cases h
  | ok a => exact ⟨a, rfl, h⟩

/-- A check that a call ends in this way. -/
def haltsWith {α : Type} (r : Result α) (halt : Halt) : Bool :=
  match r with
  | .ok _ => false
  | .error e => e == halt

theorem error_of_check {α : Type} {r : Result α} {halt : Halt} (h : haltsWith r halt = true) :
    r = .error halt := by
  cases r with
  | error e => exact congrArg Except.error (beq_iff_eq.mp h)
  | ok a => cases h

end OSProjects.Xv6
