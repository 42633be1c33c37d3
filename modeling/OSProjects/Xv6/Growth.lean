import OSProjects.Xv6.Placement
import OSProjects.Xv6.References

/-!
# Growth in the page-fault handler

The handler finds the record to grow by its end, which is not rounded up to a page, and
gives up at the first slot two places ahead that is in use. The new page is recorded in
the slot behind, whatever that slot holds.
-/

namespace OSProjects.Xv6

open StepSystem

variable {k k' : Kernel} {p : Fin nProc} {addr : Nat}

/-! ## The record that is grown -/

/-- The fault address lies less than a page behind the end of the record. -/
def Vma.EndsBefore (v : Vma) (addr : Nat) : Prop :=
  v.endAddr ≤ addr ∧ addr < uint (v.endAddr + pgSize)

instance (v : Vma) (addr : Nat) : Decidable (v.EndsBefore addr) :=
  inferInstanceAs (Decidable (_ ∧ _))

/-- The slot behind, or the slot itself if it is the last one. -/
def slotBehind (i : Fin nVma) : Fin nVma :=
  if h : i.val + 1 < nVma then ⟨i.val + 1, h⟩ else i

/-- Slot `i` holds the first record that ends before the fault, and no slot from 2 to
`i + 2` is in use. -/
structure Selected (vmas : Fin nVma → Vma) (addr : Nat) (i : Fin nVma) : Prop where
  ends : (vmas i).EndsBefore addr
  first : ∀ j, j < i → ¬(vmas j).EndsBefore addr
  unused : ∀ m : Fin nVma, 2 ≤ m.val → m.val ≤ i.val + 2 → (vmas m).valid = false

/-- What the search selects from slot `n` on. -/
structure SelectedFrom (vmas : Fin nVma → Vma) (addr n : Nat) (i : Fin nVma) : Prop where
  le : n ≤ i.val
  ends : (vmas i).EndsBefore addr
  first : ∀ j : Fin nVma, n ≤ j.val → j < i → ¬(vmas j).EndsBefore addr
  unused : ∀ m : Fin nVma, n + 2 ≤ m.val → m.val ≤ i.val + 2 → (vmas m).valid = false

namespace SelectedFrom

variable {vmas : Fin nVma → Vma} {n : Nat} {c i m : Fin nVma}

theorem iff_here (hc : c.val = n) (hends : (vmas c).EndsBefore addr)
    (hguard : ∀ m : Fin nVma, m.val = n + 2 → (vmas m).valid = false) :
    SelectedFrom vmas addr n i ↔ i = c := by
  constructor
  · intro h
    by_contra hne
    have hval : i.val ≠ c.val := fun heq => hne (Fin.ext heq)
    have := h.le
    exact h.first c (by omega) (Fin.lt_def.mpr (by omega)) hends
  · rintro rfl
    constructor
    case le => exact hc.ge
    case ends => exact hends
    case first =>
      intro j hj hlt
      have := Fin.lt_def.mp hlt
      omega
    case unused =>
      intro m hge hle
      exact hguard m (by omega)

theorem iff_next (hc : c.val = n) (hends : ¬(vmas c).EndsBefore addr)
    (hguard : ∀ m : Fin nVma, m.val = n + 2 → (vmas m).valid = false) :
    SelectedFrom vmas addr n i ↔ SelectedFrom vmas addr (n + 1) i := by
  constructor
  · intro h
    have hne : i ≠ c := by
      rintro rfl
      exact hends h.ends
    have hval : i.val ≠ c.val := fun heq => hne (Fin.ext heq)
    have := h.le
    exact ⟨by omega, h.ends, fun j hj => h.first j (by omega), fun m hm => h.unused m (by omega)⟩
  · intro h
    constructor
    case le => exact Nat.le_of_succ_le h.le
    case ends => exact h.ends
    case first =>
      intro j hj hlt
      rcases Nat.eq_or_lt_of_le hj with heq | hgt
      · rwa [show j = c from Fin.ext (by omega)]
      · exact h.first j hgt hlt
    case unused =>
      intro m hge hle
      rcases Nat.eq_or_lt_of_le hge with heq | hgt
      · exact hguard m heq.symm
      · exact h.unused m (by omega) hle

theorem false_of_used (hm : m.val = n + 2) (hvalid : (vmas m).valid = true) :
    ¬SelectedFrom vmas addr n i := by
  intro h
  have := h.le
  rw [h.unused m (by omega) (by omega)] at hvalid
  cases hvalid

end SelectedFrom

theorem drop_finRange {n : Nat} (hn : n < nVma) :
    (List.finRange nVma).drop n = ⟨n, hn⟩ :: (List.finRange nVma).drop (n + 1) := by
  rw [List.drop_eq_getElem_cons (by simpa using hn)]
  simp

/-- The search from slot `n` on. -/
theorem growSearch_iff {vmas : Fin nVma → Vma} {n : Nat} {next i target : Fin nVma}
    (hn : n ≤ nVma) (hnext : 0 < n → n < nVma → next.val = n) :
    growSearch vmas addr ((List.finRange nVma).drop n) next = some (target, i) ↔
      target = slotBehind i ∧ SelectedFrom vmas addr n i := by
  induction hd : nVma - n generalizing n next with
  | zero =>
      have hall : (List.finRange nVma).drop n = [] := List.drop_eq_nil_of_le (by simp; omega)
      rw [hall, growSearch]
      constructor
      · intro h
        cases h
      · rintro ⟨-, h⟩
        have := h.le
        have := i.isLt
        omega
  | succ d ih =>
      have hlt : n < nVma := by omega
      have hbehind : (if h : n + 1 < nVma then (⟨n + 1, h⟩ : Fin nVma) else next) =
          slotBehind ⟨n, hlt⟩ := by
        rw [slotBehind]
        split
        · rfl
        case isFalse hlast =>
          ext
          exact hnext (by simp only [nVma] at hlast ⊢; omega) hlt
      have hstep : (growSearch vmas addr ((List.finRange nVma).drop (n + 1))
          (slotBehind ⟨n, hlt⟩) = some (target, i) ↔
            target = slotBehind i ∧ SelectedFrom vmas addr (n + 1) i) :=
        ih (by omega) (fun _ h => by simp [slotBehind, h]) (by omega)
      -- Both branches compare the end once the slot two places ahead is unused.
      have hpassed : (∀ m : Fin nVma, m.val = n + 2 → (vmas m).valid = false) →
          ((if (vmas ⟨n, hlt⟩).EndsBefore addr then some (slotBehind ⟨n, hlt⟩, ⟨n, hlt⟩)
            else growSearch vmas addr ((List.finRange nVma).drop (n + 1))
              (slotBehind ⟨n, hlt⟩)) = some (target, i) ↔
            target = slotBehind i ∧ SelectedFrom vmas addr n i) := by
        intro hguard
        by_cases hends : (vmas ⟨n, hlt⟩).EndsBefore addr
        · rw [if_pos hends, SelectedFrom.iff_here rfl hends hguard]
          constructor
          · intro h
            obtain ⟨rfl, rfl⟩ := Prod.mk.inj (Option.some.inj h)
            exact ⟨rfl, rfl⟩
          · rintro ⟨rfl, rfl⟩
            rfl
        · rw [if_neg hends, hstep, SelectedFrom.iff_next rfl hends hguard]
      rw [drop_finRange hlt, growSearch]
      simp only [hbehind]
      split
      case isTrue h2 =>
        split
        case isTrue hvalid =>
          constructor
          · intro h
            cases h
          · rintro ⟨-, h⟩
            exact absurd h (SelectedFrom.false_of_used rfl hvalid)
        case isFalse hvalid =>
          apply hpassed
          intro m hm
          rw [show m = ⟨n + 2, h2⟩ from Fin.ext hm]
          simpa using hvalid
      case isFalse h2 =>
        apply hpassed
        intro m hm
        exact absurd (hm ▸ m.isLt) h2

/-- The handler grows the record in the selected slot, and records the page in the slot
behind. -/
theorem growTarget_iff {vmas : Fin nVma → Vma} {i target : Fin nVma} :
    growTarget vmas addr = some (target, i) ↔ target = slotBehind i ∧ Selected vmas addr i := by
  have h := @growSearch_iff addr vmas 0 0 i target (Nat.zero_le _)
    (fun h => absurd h (lt_irrefl 0))
  rw [List.drop_zero] at h
  rw [growTarget, h]
  constructor
  · rintro ⟨htarget, h⟩
    exact ⟨htarget, h.ends, fun j hj => h.first j (Nat.zero_le _) hj, h.unused⟩
  · rintro ⟨htarget, h⟩
    exact ⟨htarget, Nat.zero_le _, h.ends, fun j _ hj => h.first j hj, h.unused⟩

/-! ## The handler -/

/-- The tests that the handler makes before it looks for a record. -/
structure PassesChecks (k : Kernel) (p : Fin nProc) (addr : Nat) : Prop where
  start : vmaStart ≤ addr
  stop : uint (addr + pgSize) ≤ vmaEnd
  guard : isRegionFree (k.procs p).pgdir (uint (addr + pgSize)) pgSize = true
  mapped : isRegionFree (k.procs p).pgdir (uint (addr + (2 ^ 32 - pgSize))) pgSize = false

/-- The handler gets as far as growing the record in slot `i`, and has a frame for it. -/
structure GrowsSlot (k : Kernel) (p : Fin nProc) (addr : Nat) (i : Fin nVma) : Prop where
  checks : PassesChecks k p addr
  selected : Selected (k.procs p).vmas addr i
  growsup : has ((k.procs p).vmas i).flags mapGrowsup = true
  frame : k.mem.freelist ≠ []

/-- The handler has nothing to grow: the process is killed, and nothing else happens. -/
theorem pageFault_segfault (h : ∀ i, ¬GrowsSlot k p addr i) :
    k.pageFault p addr = .ok (k.segfault p) := by
  by_cases hchecks : PassesChecks k p addr
  case neg =>
    rw [Kernel.pageFault]
    dsimp only
    split
    · rfl
    case isFalse hrange =>
      split
      · rfl
      case isFalse hguard =>
        split
        · rfl
        case isFalse hmapped =>
          rw [not_or, Nat.not_lt, Nat.not_lt] at hrange
          exact absurd ⟨hrange.1, hrange.2, by simpa using hguard, by simpa using hmapped⟩ hchecks
  case pos =>
    rw [Kernel.pageFault]
    dsimp only
    rw [if_neg (by have := hchecks.start; have := hchecks.stop; omega),
      if_neg (by rw [hchecks.guard]; decide), if_neg (by rw [hchecks.mapped]; decide)]
    split
    · rfl
    case h_2 target i htarget =>
      obtain ⟨-, hselected⟩ := growTarget_iff.mp htarget
      split
      · rfl
      case isFalse hgrowsup =>
        split
        · rfl
        case h_2 frame mem hk =>
          have hframe : k.mem.freelist ≠ [] := by
            intro hnil
            rw [Mem.kalloc_nil hnil] at hk
            cases hk
          exact absurd ⟨hchecks, hselected, by simpa using hgrowsup, hframe⟩ (h i)

/-- The process after the handler has recorded the new page. -/
def Kernel.recordGrowth (k : Kernel) (p : Fin nProc) (i : Fin nVma) (s : Space) : Kernel :=
  (k.setSpace p s).setProc p { (k.setSpace p s).procs p with
    vmas := updateVmaStructure (k.procs p).vmas (slotBehind i) i }

/-- What the handler does with a record to grow. -/
theorem pageFault_grows {i : Fin nVma} {frame : Nat} {mem : Mem} (h : GrowsSlot k p addr i)
    (hk : k.mem.kalloc = some (frame, mem)) : k.pageFault p addr =
      match Space.mappages ⟨mem.zeroPage frame, (k.procs p).pgdir⟩ (pgRoundDown addr) pgSize frame
          (pteW ||| pteU) with
      | .error e => .error e
      | .ok (s, _) =>
          if has ((k.procs p).vmas i).flags mapAnonymous then .ok (k.recordGrowth p i s)
          else (k.recordGrowth p i s).mmapRead p ((k.procs p).vmas i).fd pgSize frame := by
  have htarget := growTarget_iff.mpr ⟨rfl, h.selected⟩
  have hnext : ∀ vmas : Fin nVma → Vma,
      (updateVmaStructure vmas (slotBehind i) i (slotBehind i)).flags = (vmas i).flags ∧
        (updateVmaStructure vmas (slotBehind i) i (slotBehind i)).fd = (vmas i).fd := by
    intro vmas
    simp [updateVmaStructure]
  rw [Kernel.pageFault]
  dsimp only
  rw [if_neg (by have := h.checks.start; have := h.checks.stop; omega),
    if_neg (by rw [h.checks.guard]; decide), if_neg (by rw [h.checks.mapped]; decide), htarget]
  dsimp only
  rw [if_neg (by simp [h.growsup]), hk]
  dsimp only
  cases Space.mappages ⟨mem.zeroPage frame, (k.procs p).pgdir⟩ (pgRoundDown addr) pgSize frame
      (pteW ||| pteU) with
  | error e => rfl
  | ok r =>
      obtain ⟨s, b⟩ := r
      simp only [Kernel.recordGrowth, Kernel.procs_setSpace, Function.update_self, (hnext _).1,
        (hnext _).2]

/-! ## A page that is added -/

/-- The arguments under which the page of a record is read. -/
def Vma.args (v : Vma) : MmapArgs := ⟨v.addr, 0, v.prot, v.flags, v.fd, v.offset⟩

section Record

variable {i : Fin nVma} {s : Space}

@[simp] theorem pgdir_recordGrowth : ((k.recordGrowth p i s).procs p).pgdir = s.pgdir := by
  simp [Kernel.recordGrowth]

@[simp] theorem vmas_recordGrowth : ((k.recordGrowth p i s).procs p).vmas =
    updateVmaStructure (k.procs p).vmas (slotBehind i) i := by
  simp [Kernel.recordGrowth]

@[simp] theorem killed_recordGrowth :
    ((k.recordGrowth p i s).procs p).killed = (k.procs p).killed := by
  simp [Kernel.recordGrowth]

@[simp] theorem mem_recordGrowth : (k.recordGrowth p i s).mem = s.mem := rfl

@[simp] theorem ipOf_recordGrowth (f : Fin nFile) : (k.recordGrowth p i s).ipOf f = k.ipOf f := rfl

@[simp] theorem ofileAt_recordGrowth (fd : Int) :
    (k.recordGrowth p i s).ofileAt p fd = k.ofileAt p fd := by
  simp [Kernel.recordGrowth, Kernel.ofileAt]

theorem setMem_recordGrowth (m : Mem) :
    { k.recordGrowth p i s with mem := m } = k.recordGrowth p i ⟨m, s.pgdir⟩ := by
  simp [Kernel.recordGrowth, Kernel.setSpace, Kernel.setProc]

end Record

/-- The frame of an absent page, given the memory for it. -/
theorem exists_faultPage (habsent : (k.procs p).pgdir.lookup addr = none)
    (hmemory : pageNeeds (k.procs p).pgdir addr ≤ k.mem.freelist.length) :
    ∃ frame mem s, k.mem.kalloc = some (frame, mem) ∧
      Space.mapPage ⟨mem.zeroPage frame, (k.procs p).pgdir⟩ (pgRoundDown addr) frame
        (pteW ||| pteU) = .ok (s, true) := by
  have hpage : pageOf (pgRoundDown addr) = pageOf addr := pageOf_pgRoundDown addr
  have hpdx : pdx (pgRoundDown addr) = pdx addr := (pageOf_eq_iff.mp hpage).1
  have habsent' : (k.space p).pgdir.lookup (pgRoundDown addr) = none := by
    rw [Pgdir.lookup_congr _ hpage]
    exact habsent
  have hmemory' : pageNeeds (k.space p).pgdir (pgRoundDown addr) ≤
      (k.space p).mem.freelist.length := by
    rw [pageNeeds, hpdx]
    exact hmemory
  exact exists_mapPage (pteW ||| pteU) habsent' hmemory'

/-- The page of the fault is added and filled, and the slot behind records it. -/
theorem pageFault_adds {i : Fin nVma} {frame : Nat} {mem : Mem} {s : Space}
    (h : GrowsSlot k p addr i) (hfile : k.HasFile p ((k.procs p).vmas i).args)
    (hword : addr < 2 ^ 32) (hk : k.mem.kalloc = some (frame, mem))
    (hm : Space.mapPage ⟨mem.zeroPage frame, (k.procs p).pgdir⟩ (pgRoundDown addr) frame
      (pteW ||| pteU) = .ok (s, true)) :
    k.pageFault p addr = .ok (k.recordGrowth p i
      ⟨s.mem.storeBytes frame (k.mmapBytes p ((k.procs p).vmas i).args pgSize), s.pgdir⟩) := by
  have halign : pgRoundDown addr % 4096 = 0 := by
    simp only [pgRoundDown, pgSize]
    omega
  have hlt : pgRoundDown addr < 2 ^ 32 := by
    simp only [pgRoundDown, pgSize]
    omega
  rw [pageFault_grows h hk, Space.mappages_aligned halign hlt, hm]
  dsimp only
  cases hanon : has ((k.procs p).vmas i).flags mapAnonymous with
  | true => simp [Kernel.mmapBytes, Vma.args, hanon]
  | false =>
      obtain ⟨f, ip, hf, hip⟩ : ∃ f ip, k.ofileAt p ((k.procs p).vmas i).fd = .ok (some f) ∧
          k.ipOf f = some ip := by
        simpa [Kernel.HasFile, Vma.args, hanon] using hfile
      simp only [Bool.false_eq_true, if_false, Kernel.mmapRead, ofileAt_recordGrowth, hf,
        ipOf_recordGrowth, hip,
        setMem_recordGrowth, mem_recordGrowth, Kernel.mmapBytes, Vma.args, hanon]
      rfl

/-- Without a file to read from, the handler does not return. -/
theorem pageFault_noFile {i : Fin nVma} (h : GrowsSlot k p addr i)
    (hfile : ¬k.HasFile p ((k.procs p).vmas i).args) : k.pageFault p addr ≠ .ok k' := by
  obtain ⟨frame, rest, hl⟩ := List.exists_cons_of_ne_nil h.frame
  obtain ⟨hanon, hnone⟩ : has ((k.procs p).vmas i).flags mapAnonymous = false ∧
      ∀ f, k.ofileAt p ((k.procs p).vmas i).fd = .ok (some f) → k.ipOf f = none := by
    simpa [Kernel.HasFile, Vma.args, ← Option.eq_none_iff_forall_ne_some] using hfile
  intro hcall
  rw [pageFault_grows h (Mem.kalloc_cons hl)] at hcall
  split at hcall
  · cases hcall
  · simp only [hanon, Bool.false_eq_true, if_false, Kernel.mmapRead, ofileAt_recordGrowth]
      at hcall
    split at hcall
    · cases hcall
    · cases hcall
    case h_3 f hf =>
      rw [ipOf_recordGrowth, hnone f hf] at hcall
      cases hcall

/-- A page that is there already is mapped again. -/
theorem pageFault_remap {i : Fin nVma} (h : GrowsSlot k p addr i)
    (hpresent : (k.procs p).pgdir.lookup addr ≠ none) : k.pageFault p addr = .error .remap := by
  obtain ⟨frame, rest, hl⟩ := List.exists_cons_of_ne_nil h.frame
  rw [pageFault_grows h (Mem.kalloc_cons hl), Space.mappages_of_present]
  rw [Pgdir.present_congr _ (pageOf_pgRoundDown addr)]
  exact Option.isSome_iff_ne_none.mpr hpresent

/-- Where there is no frame for the page table, the handler goes on as if the page had been
mapped. -/
theorem pageFault_short {i : Fin nVma} (h : GrowsSlot k p addr i) (hword : addr < 2 ^ 32)
    (hshort : k.mem.freelist.length < pageNeeds (k.procs p).pgdir addr)
    (hcall : k.pageFault p addr = .ok k') :
    (∀ b, (k'.procs p).pgdir.lookup b = (k.procs p).pgdir.lookup b) ∧ k'.mem.freelist = [] := by
  have hcases : k.mem.freelist = [] ∨ ∃ f, k.mem.freelist = [f] ∧
      (k.procs p).pgdir.table (pdx addr) = none := lt_pageNeeds_cases (s := k.space p) hshort
  obtain ⟨frame, hl, htable⟩ := hcases.resolve_left h.frame
  have halign : pgRoundDown addr % 4096 = 0 := by
    simp only [pgRoundDown, pgSize]
    omega
  have hlt : pgRoundDown addr < 2 ^ 32 := by
    simp only [pgRoundDown, pgSize]
    omega
  have hpdx := (pageOf_eq_iff.mp (pageOf_pgRoundDown addr)).1
  have hk : k.mem.kalloc = some (frame, { k.mem with freelist := [] }) := Mem.kalloc_cons hl
  generalize hmem : ({ k.mem with freelist := [] } : Mem) = mem at hk
  have hnil : (mem.zeroPage frame).freelist = [] := by
    rw [← hmem]
    rfl
  rw [pageFault_grows h hk, Space.mappages_aligned halign hlt, Space.mapPage_of_none
    (s := ⟨mem.zeroPage frame, (k.procs p).pgdir⟩) (hpdx ▸ htable) (Mem.kalloc_nil hnil)]
    at hcall
  dsimp only at hcall
  split at hcall
  · obtain rfl := Except.ok.inj hcall
    simp [hnil]
  · obtain ⟨bytes, hk'⟩ := Kernel.mmapRead_eq hcall
    rw [hk']
    simp [Mem.storeBytes, hnil]

end OSProjects.Xv6
