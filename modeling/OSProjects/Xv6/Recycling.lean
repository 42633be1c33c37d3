import OSProjects.Xv6.Acts
import OSProjects.Xv6.Growth

/-!
# Tables of new address spaces

A slot of the process table keeps its records when its process is gone: `clean_vma` only marks
them invalid, `fork` writes those of the parent over them, and `exec` does not look at them.
-/

namespace OSProjects.Xv6

open StepSystem

/-! ## Records that are out of use -/

/-- What the addresses of a record can be. -/
inductive Vma.Sound (v : Vma) : Prop
  | unused (haddr : v.addr = 0) (hend : v.endAddr = 0)
  | ordered (hlow : vmaStart ≤ v.addr) (hle : v.addr ≤ v.endAddr) (hlt : v.endAddr < 2 ^ 32)
  /-- The length was so long that rounding it up overflowed, and no page was mapped. -/
  | oversized (l : Nat) (haddr : v.addr < 2 ^ 32) (hlong : 0x7FFFF000 < l) (hword : l < 2 ^ 31)
      (hend : v.endAddr = uint (v.addr + l))

/-- The page-fault handler selects the slot for some fault in the window. -/
def Selectable (vmas : Fin nVma → Vma) (j : Fin nVma) : Prop :=
  ∃ addr next, vmaStart ≤ addr ∧ uint (addr + pgSize) ≤ vmaEnd ∧
    growTarget vmas addr = some (next, j)

section Slots

variable {vmas : Fin nVma → Vma} {v : Vma} {j next grow : Fin nVma} {addr : Nat}

theorem endsBefore_of_growTarget (h : growTarget vmas addr = some (next, j)) :
    (vmas j).EndsBefore addr :=
  (growTarget_iff.mp h).2.ends

/-- A slot that is free for `mmap` is not selected. -/
theorem Vma.Sound.not_selectable (h : (vmas j).Sound) (hfree : (vmas j).addr = 0) :
    ¬Selectable vmas j := by
  rintro ⟨addr, next, hlow, hhigh, htarget⟩
  obtain ⟨hle, hlt⟩ := endsBefore_of_growTarget htarget
  simp only [vmaStart] at hlow
  simp only [uint, pgSize] at hlt
  cases h with
  | unused haddr hend =>
      rw [hend] at hlt
      omega
  | ordered hstart =>
      rw [hfree] at hstart
      exact absurd hstart (by decide)
  | oversized l haddr hlong hword hend =>
      rw [hfree, Nat.zero_add] at hend
      simp only [uint] at hend
      simp only [uint, pgSize, vmaEnd] at hhigh
      omega

theorem Vma.Sound.congr {w : Vma} (h : v.Sound) (haddr : w.addr = v.addr)
    (hend : w.endAddr = v.endAddr) : w.Sound := by
  cases h with
  | unused h1 h2 => exact .unused (haddr.trans h1) (hend.trans h2)
  | ordered h1 h2 h3 =>
      rw [← haddr] at h1 h2
      rw [← hend] at h2 h3
      exact .ordered h1 h2 h3
  | oversized l h1 h2 h3 h4 =>
      rw [← haddr] at h1 h4
      rw [← hend] at h4
      exact .oversized l h1 h2 h3 h4

/-- The record of a page by which a sound record grows. -/
theorem Vma.Sound.grown {w : Vma} (h : v.Sound) (hends : v.EndsBefore addr)
    (hlow : vmaStart ≤ addr) (hhigh : addr < devSpace) (haddr : w.addr = uint (v.addr + pgSize))
    (hend : w.endAddr = uint (v.endAddr + pgSize)) : w.Sound := by
  obtain ⟨hle, hlt⟩ := hends
  simp only [vmaStart, devSpace] at hlow hhigh
  simp only [uint, pgSize] at haddr hend hlt
  cases h with
  | unused h1 h2 => omega
  | ordered h1 h2 h3 =>
      simp only [vmaStart] at h1
      refine .ordered ?_ (by omega) (by omega)
      simp only [vmaStart]
      omega
  | oversized l h1 h2 h3 h4 =>
      refine .oversized l (by omega) h2 h3 ?_
      simp only [uint] at h4 ⊢
      omega

/-- Growth leaves sound records. -/
theorem updateVmaStructure_sound (h : ∀ j, (vmas j).Sound)
    (hends : (vmas grow).EndsBefore addr) (hlow : vmaStart ≤ addr) (hhigh : addr < devSpace)
    (j : Fin nVma) : (updateVmaStructure vmas next grow j).Sound := by
  rw [updateVmaStructure]
  dsimp only
  rcases eq_or_ne j next with rfl | hnext
  · rw [Function.update_self]
    refine (h grow).grown hends hlow hhigh ?_ ?_
    · rw [Function.update_self]
    · rw [Function.update_self]
  · rw [Function.update_of_ne hnext]
    rcases eq_or_ne j grow with rfl | hgrow
    · rw [Function.update_self]
      exact (h j).congr rfl rfl
    · rw [Function.update_of_ne hgrow]
      exact h j

end Slots

/-! ## The record of a mapping -/

section Mappings

variable {k k' : Kernel} {p : Fin nProc} {a : MmapArgs} {addr n i : Nat}

/-- A present page is where `mmap` panics. -/
theorem mmapPage_absent (h : k.mmapPage p a addr i = .ok (k', true)) :
    (k.procs p).pgdir.lookup (uint (addr + i)) = none := by
  rw [Kernel.mmapPage] at h
  split at h
  case h_1 => split at h <;> cases h
  case h_2 =>
    split at h
    case h_1 => cases h
    case h_2 =>
      split at h
      case h_1 => cases h
      case h_2 => split at h <;> cases h
    case h_3 hmap =>
      have habsent := Space.mappages_absent hmap
      rwa [Pgdir.lookup_congr _ (pageOf_pgRoundDown _)] at habsent

theorem PinnedHalf.lt_devSpace {d : Pgdir} {va : Nat} (hd : PinnedHalf d) (hlt : va < 2 ^ 32)
    (habsent : d.lookup va = none) : va < devSpace := by
  by_contra hge
  obtain ⟨e, he, -⟩ := hd.devices va (Nat.not_lt.mp hge) hlt
  rw [habsent] at he
  cases he

/-- A loop that ends well has not reached the devices. -/
theorem mmapLoop_below (hd : PinnedHalf (k.procs p).pgdir) (hlt : addr + i < 2 ^ 32)
    (h : k.mmapLoop p a addr n i = .ok (k', true)) :
    n = 0 ∨ addr + i + n * 4096 < devSpace + 4096 := by
  induction n generalizing k i with
  | zero => exact Or.inl rfl
  | succ n ih =>
      rw [Kernel.mmapLoop] at h
      split at h
      case h_1 => cases h
      case h_2 => cases h
      case h_3 k1 hturn =>
        have habsent := mmapPage_absent hturn
        rw [uint, Nat.mod_eq_of_lt hlt] at habsent
        have hhere := hd.lt_devSpace hlt habsent
        have hd1 := ((SameTables.of_mmapPage hturn).pgdir p).pinnedHalf hd
        simp only [devSpace, pgSize] at hhere ih h ⊢
        rcases ih hd1 (by omega) h with rfl | hrest <;> omega

theorem mmapRecord_sound {k1 : Kernel} {v : Vma} {f : Option (Fin nFile)} (hwords : a.Words)
    (hd : PinnedHalf (k.procs p).pgdir) (hlength : 0 < a.length)
    (haddr : mmapAddr (k.procs p).pgdir a = some addr)
    (hloop : k.mmapLoop p a addr ((pgRoundUpInt a.length).toNat / 4096) 0 = .ok (k1, true)) :
    Vma.Sound { mmapRecord a addr v with pf := f } := by
  obtain ⟨hlow, -, hplace⟩ := mmapAddr_eq_some haddr
  have hword : addr < 2 ^ 32 := by
    split at hplace
    case isTrue =>
      rw [hplace.1]
      exact hwords.1
    case isFalse => omega
  have hlen := hwords.2
  have hofInt : ofInt a.length = a.length.toNat := by
    rw [ofInt]
    omega
  by_cases hlong : a.length ≤ 0x7FFFF000
  · rw [pgRoundUpInt_of_le hlength hlong] at hloop
    have hbelow := mmapLoop_below hd hword hloop
    simp only [devSpace] at hbelow
    have hend : uint (addr + ofInt a.length) = addr + a.length.toNat := by
      rw [hofInt, uint]
      omega
    refine .ordered hlow ?_ ?_
    · simp only [mmapRecord]
      omega
    · simp only [mmapRecord]
      omega
  · refine .oversized a.length.toNat hword (by omega) (by omega) ?_
    simp only [mmapRecord]
    rw [hofInt]

end Mappings

/-! ## All tables -/

/-- The arguments of a mapping are machine words. -/
def Act.Words : Act → Prop
  | .call (.mmap a) => a.Words
  | _ => True

/-- Every record is sound, and those of a process that has left are not valid. -/
structure TablesSound (k : Kernel) : Prop where
  halved : k.Halved
  sound : ∀ q j, ((k.procs q).vmas j).Sound
  invalid : ∀ q, (k.procs q).state.Dead → ∀ j, ((k.procs q).vmas j).valid = false

section Invariant

variable {k k' : Kernel} {p : Fin nProc}

theorem SameTables.tablesSound (h : SameTables k k') (hk : TablesSound k) : TablesSound k' where
  halved := h.halved hk.halved
  sound q j := by
    rw [h.vmas]
    exact hk.sound q j
  invalid q hq j := by
    rw [h.vmas]
    exact hk.invalid q ((h.dead q).mp hq) j

/-- Writing the records of a process that has not left. -/
theorem TablesSound.setVmas {vmas : Fin nVma → Vma} (hk : TablesSound k)
    (hp : ¬(k.procs p).state.Dead) (h : ∀ j, (vmas j).Sound) :
    TablesSound (k.setProc p { k.procs p with vmas := vmas }) where
  halved q hq := by
    rcases eq_or_ne q p with rfl | hne
    · rw [Kernel.procs_setProc, Function.update_self]
      exact hk.halved q hp
    · rw [Kernel.procs_setProc, Function.update_of_ne hne] at hq ⊢
      exact hk.halved q hq
  sound q j := by
    rcases eq_or_ne q p with rfl | hne
    · rw [Kernel.procs_setProc, Function.update_self]
      exact h j
    · rw [Kernel.procs_setProc, Function.update_of_ne hne]
      exact hk.sound q j
  invalid q hq j := by
    rcases eq_or_ne q p with rfl | hne
    · rw [Kernel.procs_setProc, Function.update_self] at hq
      exact absurd hq hp
    · rw [Kernel.procs_setProc, Function.update_of_ne hne] at hq ⊢
      exact hk.invalid q hq j

theorem Left.tablesSound (h : Left k p k') (hk : TablesSound k) : TablesSound k' where
  halved := h.halved hk.halved
  sound q j := by
    rcases eq_or_ne q p with rfl | hne
    · exact (hk.sound q j).congr (h.fields j).1 (h.fields j).2
    · rw [h.vmas q hne]
      exact hk.sound q j
  invalid q hq j := by
    rcases eq_or_ne q p with rfl | hne
    · exact h.invalid j
    · rw [h.vmas q hne]
      exact hk.invalid q ((h.dead q hne).mp hq) j

theorem Forked.tablesSound {np : Fin nProc} (h : Forked k p np k') (hk : TablesSound k)
    (hhalved : k'.Halved) : TablesSound k' where
  halved := hhalved
  sound q j := by
    rcases eq_or_ne q np with rfl | hne
    · rw [h.vmas j]
      split
      · exact hk.sound p j
      · exact hk.sound q j
    · rw [h.others q hne]
      exact hk.sound q j
  invalid q hq j := by
    rcases eq_or_ne q np with rfl | hne
    · rw [h.state] at hq
      rcases hq with hq | hq <;> cases hq
    · rw [h.others q hne] at hq ⊢
      exact hk.invalid q hq j

theorem TableStep.tablesSound {c : Act} (h : TableStep p k c k') (hc : c.Words)
    (hp : ¬(k.procs p).state.Dead) (hk : TablesSound k) : TablesSound k' := by
  have hd := hk.halved p hp
  cases h with
  | same h => exact h.tablesSound hk
  | @mapped k1 a addr j f hlength haddr hslot hloop =>
      have hsame := SameTables.of_mmapLoop hloop
      refine (hsame.tablesSound hk).setVmas (mt (hsame.dead p).mp hp) fun m => ?_
      rcases eq_or_ne m j with rfl | hne
      · rw [Function.update_self]
        exact mmapRecord_sound hc hd hlength haddr hloop
      · rw [Function.update_of_ne hne]
        exact (hsame.tablesSound hk).sound p m
  | @grown k1 _ addr next grow hlow htarget habsent hsame hsame' =>
      have hends := endsBefore_of_growTarget htarget
      have hword : addr < 2 ^ 32 := hends.2.trans (Nat.mod_lt _ (by decide))
      have hhigh := hd.lt_devSpace hword habsent
      have hk1 := hsame.tablesSound hk
      rw [← hsame.vmas p] at hends
      exact hsame'.tablesSound (hk1.setVmas (mt (hsame.dead p).mp hp)
        (updateVmaStructure_sound (hk1.sound p) hends hlow hhigh))
  | forked h => exact h.tablesSound hk ((TableStep.forked h).halved hk.halved)
  | left h => exact h.tablesSound hk
  | @loaded path argv mem d sz hpinned =>
      have hsame : ∀ q, (({ k with mem := mem }.setProc p
          { k.procs p with pgdir := d, sz := sz }).procs q).vmas = (k.procs q).vmas ∧
          (({ k with mem := mem }.setProc p
          { k.procs p with pgdir := d, sz := sz }).procs q).state = (k.procs q).state := by
        intro q
        rcases eq_or_ne q p with rfl | hne
        · rw [Kernel.procs_setProc, Function.update_self]
          exact ⟨rfl, rfl⟩
        · rw [Kernel.procs_setProc, Function.update_of_ne hne]
          exact ⟨rfl, rfl⟩
      have hloaded := @TableStep.loaded p k path argv mem d sz hpinned
      refine ⟨hloaded.halved hk.halved, fun q j => ?_, fun q hq j => ?_⟩
      · rw [(hsame q).1]
        exact hk.sound q j
      · rw [(hsame q).2] at hq
        rw [(hsame q).1]
        exact hk.invalid q hq j

end Invariant

/-- After boot, no slot has held a record. -/
theorem userinit_vmas {mem : Mem} {inodes : Nat → Inode} {blocks : Nat}
    {devsw : Nat → Option Devsw} {init : List UInt8} {k0 : Kernel}
    (h : (Kernel.zero mem inodes blocks devsw).userinit init = .ok k0) (q : Fin nProc) :
    (k0.procs q).vmas = fun _ => Vma.zero := by
  rw [Kernel.userinit] at h
  split at h
  case h_1 => cases h
  case h_2 p _ =>
    split at h
    case h_1 => cases h
    case h_2 k1 halloc =>
      obtain ⟨-, -, -, -, hothers, hvmas, -⟩ := allocproc_eq_true halloc
      split at h
      case h_1 => cases h
      case h_2 => cases h
      case h_3 =>
        split at h
        case h_1 => cases h
        case h_2 =>
          cases h
          rcases eq_or_ne q p with rfl | hne
          · simp only [Kernel.procs_setProc, Function.update_self, Kernel.procs_setSpace, hvmas]
            rfl
          · have hq := hothers q hne
            simp only [Kernel.procs_setProc, Function.update_of_ne hne, Kernel.procs_setSpace, hq]
            rfl

theorem tablesSound_of_run {mem : Mem} {inodes : Nat → Inode} {blocks : Nat}
    {devsw : Nat → Option Devsw} {init : List UInt8} {k0 k : Kernel} {acts : List (Fin nProc × Act)}
    (hboot : (Kernel.zero mem inodes blocks devsw).userinit init = .ok k0)
    (hwords : ∀ a ∈ acts, a.2.Words) (hrun : Run ActStep k0 acts k) : TablesSound k := by
  refine hrun.invariant_of_mem (fun k a k' ha hk hstep => ?_) ?_
  · obtain ⟨k1, k2, hfirst, hleft, hprocs⟩ := hstep.tables
    refine (SameTables.of_procs hprocs).tablesSound ?_
    rcases hleft with rfl | hleft
    · exact hfirst.tablesSound (hwords a ha) hstep.1.not_dead hk
    · exact hleft.tablesSound (hfirst.tablesSound (hwords a ha) hstep.1.not_dead hk)
  · refine ⟨userinit_halved hboot, fun q j => ?_, fun q _ j => ?_⟩
    · rw [userinit_vmas hboot]
      exact .unused rfl rfl
    · rw [userinit_vmas hboot]
      rfl

/-! ## The law -/

/-- The process has no valid record. -/
def NoRecord (k : Kernel) (p : Fin nProc) : Prop := ∀ j, ((k.procs p).vmas j).valid = false

/-- The valid records of the child are those of its parent; its other slots are free for `mmap`,
and the page-fault handler does not select them. -/
structure FreshChild (k : Kernel) (p np : Fin nProc) (k' : Kernel) : Prop where
  inherited : ∀ j, ((k.procs p).vmas j).valid = true →
    (k'.procs np).vmas j = (k.procs p).vmas j
  invalid : ∀ j, ((k.procs p).vmas j).valid = false → ((k'.procs np).vmas j).valid = false
  free : ∀ j, ((k.procs p).vmas j).valid = false → ((k'.procs np).vmas j).addr = 0
  unselected : ∀ j, ((k.procs p).vmas j).valid = false → ¬Selectable (k'.procs np).vmas j

/-- The act is an `exec` that returns 0 and leaves the kernel `k'`. -/
def Executes (k : Kernel) (p : Fin nProc) (act : Act) (k' : Kernel) : Prop :=
  (k.procs p).killed = false ∧
    ∃ path argv, act = .exec path argv ∧ k.exec p path argv = .ok (k', 0)

/-- The act is a `fork` that returns the child `np` and leaves the kernel `k'`. -/
def ForksTo (k : Kernel) (p : Fin nProc) (act : Act) (np : Fin nProc) (k' : Kernel) : Prop :=
  (k.procs p).killed = false ∧ act = .call .fork ∧ k.findUnused = some np ∧
    ∃ r, r ≠ -1 ∧ k.fork p = .ok (k', r)

/-- The law of new address spaces, for every `exec` and every `fork` among the acts. -/
def FreshLaw (k0 : Kernel) (acts : List (Fin nProc × Act)) : Prop :=
  ∀ pre p act k, pre ++ [(p, act)] <+: acts → Run ActStep k0 pre k → k.Runs p →
    (∀ k', Executes k p act k' → NoRecord k' p) ∧
      ∀ np k', ForksTo k p act np k' → FreshChild k p np k'

/-- Every `exec` is made without a valid record, and every `fork` gets a slot in which no record
has been written where the parent has no valid one. -/
def StartsClean (k0 : Kernel) (acts : List (Fin nProc × Act)) : Prop :=
  ∀ pre p act k, pre ++ [(p, act)] <+: acts → Run ActStep k0 pre k → k.Runs p →
    (∀ k', Executes k p act k' → NoRecord k p) ∧
      ∀ np k', ForksTo k p act np k' → ∀ j, ((k.procs p).vmas j).valid = false →
        ((k.procs np).vmas j).addr = 0

section Law

variable {k k' : Kernel} {p np : Fin nProc} {act : Act}

/-- `exec` leaves the records. -/
theorem exec_vmas {path : Option Nat} {argv : List (List UInt8)} {r : Int}
    (h : k.exec p path argv = .ok (k', r)) (q : Fin nProc) :
    (k'.procs q).vmas = (k.procs q).vmas := by
  cases exec_outcome h with
  | failed mem => rfl
  | loaded hd =>
      rcases eq_or_ne q p with rfl | hne
      · rw [Kernel.procs_setProc, Function.update_self]
      · rw [Kernel.procs_setProc, Function.update_of_ne hne]

theorem Executes.noRecord_iff (h : Executes k p act k') : NoRecord k' p ↔ NoRecord k p := by
  obtain ⟨-, path, argv, -, hexec⟩ := h
  rw [NoRecord, NoRecord, exec_vmas hexec]

theorem ForksTo.forked (h : ForksTo k p act np k') (hp : k.Runs p) : Forked k p np k' := by
  obtain ⟨-, -, hfound, r, hr, hfork⟩ := h
  have hused : (k.procs p).state ≠ .unused := fun hunused => hp.not_dead (Or.inl hunused)
  obtain ⟨np', hforked⟩ := fork_eq_ok hused hfork hr
  obtain rfl : np = np' := Option.some.inj (hfound.symm.trans hforked.unused)
  exact hforked

/-- A child is fresh exactly when the stale slots it keeps are free. -/
theorem Forked.freshChild_iff (h : Forked k p np k') (hk : TablesSound k) (hk' : TablesSound k') :
    FreshChild k p np k' ↔
      ∀ j, ((k.procs p).vmas j).valid = false → ((k.procs np).vmas j).addr = 0 := by
  have hstale : ∀ j, ((k.procs p).vmas j).valid = false →
      (k'.procs np).vmas j = (k.procs np).vmas j := by
    intro j hj
    rw [h.vmas j, hj]
    rfl
  constructor
  · intro hfresh j hj
    rw [← hstale j hj]
    exact hfresh.free j hj
  · intro hfree
    have haddr : ∀ j, ((k.procs p).vmas j).valid = false → ((k'.procs np).vmas j).addr = 0 := by
      intro j hj
      rw [hstale j hj]
      exact hfree j hj
    constructor
    case inherited =>
      intro j hj
      rw [h.vmas j, if_pos hj]
    case invalid =>
      intro j hj
      rw [hstale j hj]
      exact hk.invalid np (Or.inl (findUnused_state h.unused)) j
    case free => exact haddr
    case unselected => exact fun j hj => (hk'.sound np j).not_selectable (haddr j hj)

end Law

/-- Along every sequence of acts after boot, new address spaces start with fresh tables exactly
when every `exec` is made without a valid record and every `fork` gets a clean slot. -/
theorem fresh_tables_iff {mem : Mem} {inodes : Nat → Inode} {blocks : Nat}
    {devsw : Nat → Option Devsw} {init : List UInt8} {k0 : Kernel} {acts : List (Fin nProc × Act)}
    (hboot : (Kernel.zero mem inodes blocks devsw).userinit init = .ok k0)
    (hwords : ∀ a ∈ acts, a.2.Words) : FreshLaw k0 acts ↔ StartsClean k0 acts := by
  have hstep : ∀ pre p act k, pre ++ [(p, act)] <+: acts → Run ActStep k0 pre k → k.Runs p →
      (((∀ k', Executes k p act k' → NoRecord k' p) ∧
          ∀ np k', ForksTo k p act np k' → FreshChild k p np k') ↔
        ((∀ k', Executes k p act k' → NoRecord k p) ∧
          ∀ np k', ForksTo k p act np k' → ∀ j, ((k.procs p).vmas j).valid = false →
            ((k.procs np).vmas j).addr = 0)) := by
    intro pre p act k hpre hrun hp
    have hk : TablesSound k := tablesSound_of_run hboot
      (fun a ha => hwords a (hpre.subset (List.mem_append_left _ ha))) hrun
    refine and_congr (forall₂_congr fun k' hexec => ?_) (forall₃_congr fun np k' hfork => ?_)
    · exact hexec.noRecord_iff
    · have hforked := hfork.forked hp
      have hk' := hforked.tablesSound hk ((TableStep.forked hforked).halved hk.halved)
      exact hforked.freshChild_iff hk hk'
  constructor
  · intro hlaw pre p act k hpre hrun hp
    exact (hstep pre p act k hpre hrun hp).mp (hlaw pre p act k hpre hrun hp)
  · intro hclean pre p act k hpre hrun hp
    exact (hstep pre p act k hpre hrun hp).mpr (hclean pre p act k hpre hrun hp)

/-- A program of one section with one byte, to be loaded at address 0. -/
def tinyElf : List UInt8 :=
  [0x7F, 0x45, 0x4C, 0x46] ++ List.replicate 24 0 ++ [52, 0, 0, 0] ++ List.replicate 12 0 ++
    [1, 0] ++ List.replicate 6 0 ++
    [1, 0, 0, 0, 84, 0, 0, 0, 0, 0, 0, 0, 0, 0, 0, 0, 1, 0, 0, 0, 1, 0, 0, 0] ++
    List.replicate 8 0 ++ [7]

/-- The first process loads a program and has a child. -/
theorem fresh_tables_iff_run : ∃ k0, bootKernel 150 tinyElf = .ok k0 ∧
    FreshLaw k0 [(0, .exec (some 0) [[65]]), (0, .call .fork)] := by
  obtain ⟨k0, hboot, -⟩ :=
    @exists_ok _ (bootKernel 150 tinyElf) (fun _ => true) (by decide +kernel)
  refine ⟨k0, hboot, (fresh_tables_iff hboot fun a ha => ?_).mpr fun pre p act k hpre hrun _ => ?_⟩
  · simp only [List.mem_cons, List.not_mem_nil, or_false] at ha
    rcases ha with rfl | rfl
    · trivial
    · trivial
  · -- Neither act is made after a record has been written.
    have hzero : ∀ q, (k.procs q).vmas = fun _ => Vma.zero := by
      intro q
      obtain ⟨t, ht⟩ := hpre
      cases pre with
      | nil =>
          rw [hrun.eq_of_nil]
          exact userinit_vmas hboot q
      | cons x pre =>
          cases pre with
          | nil =>
              obtain rfl : (0, Act.exec (some 0) [[65]]) = x := (List.cons.inj ht).1.symm
              obtain ⟨-, k1, ⟨leftover, blocks, rfl⟩, -, r, hexec⟩ := hrun.step_of_single
              exact (exec_vmas hexec q).trans (userinit_vmas hboot q)
          | cons y pre => simp at ht
    refine ⟨fun _ _ j => ?_, fun np _ _ j _ => ?_⟩
    · rw [hzero]
      rfl
    · rw [hzero]
      rfl

/-- The first process maps a page and loads a program, whose table still holds the record. -/
theorem record_outlives_exec : ¬∀ mem inodes blocks devsw init k0 acts,
    (Kernel.zero mem inodes blocks devsw).userinit init = .ok k0 → (∀ a ∈ acts, a.2.Words) →
    FreshLaw k0 acts := by
  intro hlaw
  obtain ⟨k0, hboot, hcalls⟩ := @exists_ok _ (bootKernel 150 tinyElf) (fun k0 =>
    (runCalls k0 [(0, .mmap onePage)]).any fun k : Kernel =>
      decide (k.Runs 0) && decide ((k.procs 0).killed = false) &&
        okWith (k.exec 0 (some 0) [[65]]) fun x => x.2 == 0 && ((x.1.procs 0).vmas 0).valid)
    (by decide +kernel)
  obtain ⟨k, hk, hcheck⟩ := (Option.any_eq_true _ _).mp hcalls
  simp only [Bool.and_eq_true, decide_eq_true_eq] at hcheck
  obtain ⟨⟨hp, hkilled⟩, hexec⟩ := hcheck
  obtain ⟨⟨k', r⟩, hk', hreturn⟩ := exists_ok hexec
  simp only [Bool.and_eq_true, beq_iff_eq] at hreturn
  obtain ⟨rfl, hvalid⟩ := hreturn
  have hfresh := hlaw _ _ _ _ _ k0 [(0, .call (.mmap onePage)), (0, .exec (some 0) [[65]])] hboot
    (fun a ha => by
      simp only [List.mem_cons, List.not_mem_nil, or_false] at ha
      rcases ha with rfl | rfl
      · exact ⟨by decide, by decide⟩
      · trivial)
  have hnone := (hfresh [(0, .call (.mmap onePage))] 0 _ k (List.prefix_refl _)
    (run_acts (run_of_runCalls hk)) hp).1 k' ⟨hkilled, _, _, rfl, hk'⟩
  rw [hnone 0] at hvalid
  cases hvalid

end OSProjects.Xv6
