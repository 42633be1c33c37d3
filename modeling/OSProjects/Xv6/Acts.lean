import OSProjects.Foundation.Loop
import OSProjects.Xv6.Fork
import OSProjects.Xv6.Pinned
import OSProjects.Xv6.References

/-!
# What processes do to their tables

A process calls the kernel, faults or loads a program. For each of these the page tables, the
records and the states of all processes behind it are described once. Every page table in use
keeps the pinned pages of the kernel half.
-/

namespace OSProjects.Xv6

open StepSystem Loop

/-- A call, or the loading of a program. -/
inductive Act
  | call (c : Call)
  | exec (path : Option Nat) (argv : List (List UInt8))

/-- An act of one of the processes that returns. -/
def ActStep (k : Kernel) (a : Fin nProc × Act) (k' : Kernel) : Prop :=
  k.Runs a.1 ∧ ∃ k1, k1.Meanwhile k' ∧
    match a.2 with
    | .call c => ∃ r, c.trap k a.1 = .ok (k1, r)
    | .exec path argv => (k.procs a.1).killed = false ∧ ∃ r, k.exec a.1 path argv = .ok (k1, r)

/-- A run of calls is a run of acts. -/
theorem run_acts {k k' : Kernel} {calls : List ProcCall} (h : Run CallStep k calls k') :
    Run ActStep k (calls.map fun c => (c.1, .call c.2)) k' := by
  induction h with
  | nil => exact Run.nil
  | @concat calls k1 c k2 hrun hstep ih =>
      obtain ⟨hp, k2, r, hr, hmeanwhile⟩ := hstep
      rw [List.map_append]
      exact ih.concat ⟨hp, k2, hmeanwhile, r, hr⟩

/-- No record has changed, nobody has come or gone, and pinned pages have stayed. -/
structure SameTables (k k' : Kernel) : Prop where
  pgdir : ∀ q, (k.procs q).pgdir.KeepsPinned (k'.procs q).pgdir
  vmas : ∀ q, (k'.procs q).vmas = (k.procs q).vmas
  dead : ∀ q, (k'.procs q).state.Dead ↔ (k.procs q).state.Dead

namespace SameTables

variable {k k' k'' : Kernel} {p : Fin nProc}

theorem of_procs (h : k'.procs = k.procs) : SameTables k k' := by
  constructor
  · intro q
    rw [h]
    exact Pgdir.KeepsPinned.refl _
  · intro q
    rw [h]
  · intro q
    rw [h]

theorem refl (k : Kernel) : SameTables k k := of_procs rfl

theorem trans (h : SameTables k k') (h' : SameTables k' k'') : SameTables k k'' where
  pgdir q := (h.pgdir q).trans (h'.pgdir q)
  vmas q := (h'.vmas q).trans (h.vmas q)
  dead q := (h'.dead q).trans (h.dead q)

/-- Only the entry of `p` has been written. -/
theorem of_update {x : Proc} (h : k'.procs = Function.update k.procs p x)
    (hpgdir : (k.procs p).pgdir.KeepsPinned x.pgdir) (hvmas : x.vmas = (k.procs p).vmas)
    (hdead : x.state.Dead ↔ (k.procs p).state.Dead) : SameTables k k' := by
  constructor
  · intro q
    rcases eq_or_ne q p with rfl | hne
    · rwa [h, Function.update_self]
    · rw [h, Function.update_of_ne hne]
      exact Pgdir.KeepsPinned.refl _
  · intro q
    rcases eq_or_ne q p with rfl | hne
    · rwa [h, Function.update_self]
    · rw [h, Function.update_of_ne hne]
  · intro q
    rcases eq_or_ne q p with rfl | hne
    · rwa [h, Function.update_self]
    · rw [h, Function.update_of_ne hne]

theorem setSpace {s : Space} (h : (k.procs p).pgdir.KeepsPinned s.pgdir) :
    SameTables k (k.setSpace p s) :=
  of_update rfl h rfl Iff.rfl

theorem setOfile (k : Kernel) (p : Fin nProc) (fd : Fin nOfile) (f : Option (Fin nFile)) :
    SameTables k (k.setOfile p fd f) :=
  of_update rfl (Pgdir.KeepsPinned.refl _) rfl Iff.rfl

theorem segfault (k : Kernel) (p : Fin nProc) : SameTables k (k.segfault p) :=
  of_update rfl (Pgdir.KeepsPinned.refl _) rfl Iff.rfl

theorem of_filesOnly (h : FilesOnly k k') : SameTables k k' := by
  obtain ⟨inodes, blocks, rfl⟩ := h
  exact of_procs rfl

/-! ## Files -/

theorem of_filedup {f : Fin nFile} (h : k.filedup f = .ok k') : SameTables k k' :=
  of_procs (filedup_childOnly h).2

theorem of_fileclose {f : Fin nFile} (h : k.fileclose f = .ok k') : SameTables k k' := by
  rw [Kernel.fileclose] at h
  split at h
  case isTrue => cases h
  case isFalse =>
    split at h
    · cases h
      exact of_procs rfl
    · cases h
      exact of_procs rfl

theorem of_fdalloc {f : Fin nFile} {fd : Fin nOfile} (h : k.fdalloc p f = some (fd, k')) :
    SameTables k k' := by
  rw [Kernel.fdalloc] at h
  split at h
  · cases h
  · cases h
    exact setOfile _ _ _ _

theorem of_sysDup {fd r : Int} (h : k.sysDup p fd = .ok (k', r)) : SameTables k k' := by
  rw [Kernel.sysDup] at h
  split at h
  case h_1 =>
    cases h
    exact refl _
  case h_2 =>
    split at h
    case h_1 =>
      cases h
      exact refl _
    case h_2 hfd =>
      split at h
      case h_1 => cases h
      case h_2 hdup =>
        cases h
        exact (of_fdalloc hfd).trans (of_filedup hdup)

theorem of_sysClose {fd r : Int} (h : k.sysClose p fd = .ok (k', r)) : SameTables k k' := by
  rw [Kernel.sysClose] at h
  split at h
  case h_1 =>
    cases h
    exact refl _
  case h_2 =>
    split at h
    case h_1 => cases h
    case h_2 hclose =>
      cases h
      exact (setOfile _ _ _ _).trans (of_fileclose hclose)

theorem of_sysOpen {ip : Option Nat} {omode : Nat} {r : Int}
    (h : k.sysOpen p ip omode = .ok (k', r)) : SameTables k k' := by
  unfold Kernel.sysOpen at h
  split at h
  case h_1 =>
    cases h
    exact refl _
  case h_2 ip =>
    split at h
    case isTrue =>
      cases h
      exact refl _
    case isFalse =>
      split at h
      case h_1 =>
        cases h
        exact refl _
      case h_2 f k1 halloc =>
        obtain rfl := (filealloc_eq_some halloc).2
        have h1 : SameTables k (k.setFile f { k.ftable f with ref := 1 }) := of_procs rfl
        split at h
        case h_1 =>
          split at h
          case h_1 => cases h
          case h_2 hclose =>
            cases h
            exact h1.trans (of_fileclose hclose)
        case h_2 hfd =>
          cases h
          exact (h1.trans (of_fdalloc hfd)).trans (of_procs rfl)

/-! ## Memory -/

theorem of_dealloc {oldsz newsz : Nat} (h : k.dealloc p oldsz newsz = .ok k') :
    SameTables k k' := by
  rw [Kernel.dealloc] at h
  split at h
  case h_1 => cases h
  case h_2 hd =>
    cases h
    exact setSpace (Space.dealloc_keepsPinned hd)

theorem of_mmapRead {fd : Int} {i frame : Nat} (h : k.mmapRead p fd i frame = .ok k') :
    SameTables k k' := by
  obtain ⟨bytes, rfl⟩ := Kernel.mmapRead_eq h
  exact setSpace (Pgdir.KeepsPinned.refl _)

theorem of_mmapPage {a : MmapArgs} {addr i : Nat} {b : Bool}
    (h : k.mmapPage p a addr i = .ok (k', b)) : SameTables k k' := by
  rw [Kernel.mmapPage] at h
  split at h
  case h_1 =>
    split at h
    case h_1 => cases h
    case h_2 hd =>
      cases h
      exact setSpace (Space.dealloc_keepsPinned hd)
  case h_2 frame mem _ =>
    split at h
    case h_1 => cases h
    case h_2 s hmap =>
      have hkept := Pgdir.KeepsPinned.of_keeps (Space.mappages_keeps hmap)
      split at h
      case h_1 => cases h
      case h_2 hd =>
        split at h
        case h_1 => cases h
        case h_2 =>
          cases h
          have hfreed := Space.dealloc_keepsPinned hd
          exact setSpace (hkept.trans hfreed)
    case h_3 s hmap =>
      have hmapped : SameTables k (k.setSpace p s) :=
        setSpace (Pgdir.KeepsPinned.of_keeps (Space.mappages_keeps hmap))
      split at h
      case isTrue =>
        cases h
        exact hmapped
      case isFalse =>
        split at h
        case h_1 => cases h
        case h_2 hread =>
          cases h
          exact hmapped.trans (of_mmapRead hread)

theorem of_mmapLoop {a : MmapArgs} {addr n i : Nat} {b : Bool}
    (h : k.mmapLoop p a addr n i = .ok (k', b)) : SameTables k k' := by
  induction n generalizing k i with
  | zero =>
      cases h
      exact refl _
  | succ n ih =>
      rw [Kernel.mmapLoop] at h
      split at h
      case h_1 => cases h
      case h_2 hturn =>
        cases h
        exact of_mmapPage hturn
      case h_3 hturn => exact (of_mmapPage hturn).trans (ih h)

theorem of_munmap {addr : Nat} {length r : Int} (h : k.munmap p addr length = .ok (k', r)) :
    SameTables k k' :=
  Unmapping.munmap ⟨refl, fun h h' => h.trans h', fun h => of_filesOnly (.of_writeBack h),
    fun h => of_dealloc h⟩ h

/-! ## Processes -/

theorem of_forkFailed (h : ForkFailed k k') : SameTables k k' := by
  constructor
  · intro q
    rw [(h q).1]
    exact Pgdir.KeepsPinned.refl _
  · exact fun q => (h q).2.1
  · intro q
    rw [(h q).2.2]

theorem of_wait {r : Int} (h : k.wait p = .ok (k', r)) : SameTables k k' := by
  rw [Kernel.wait] at h
  split at h
  case h_1 =>
    split at h
    · cases h
    · cases h
      exact refl _
  case h_2 q hfind =>
    have hzombie : (k.procs q).state = .zombie := by
      have hq := List.find?_some hfind
      rw [decide_eq_true_eq] at hq
      exact hq.2
    split at h
    case h_1 => cases h
    case h_2 k1 hstack =>
      have h1 := of_forkFailed (freeStack_tables hstack)
      split at h
      case h_1 => cases h
      case h_2 =>
        cases h
        have hdead : (k1.procs q).state.Dead := (h1.dead q).mpr (Or.inr hzombie)
        exact h1.trans (of_update rfl (Pgdir.KeepsPinned.refl _) rfl
          (iff_of_true (Or.inl rfl) hdead))

theorem of_reparent (k : Kernel) (p : Fin nProc) : SameTables k (k.reparent p) := by
  have hsame : ∀ q, ((k.reparent p).procs q).pgdir = (k.procs q).pgdir ∧
      ((k.reparent p).procs q).vmas = (k.procs q).vmas ∧
      ((k.reparent p).procs q).state = (k.procs q).state := by
    intro q
    rw [Kernel.reparent]
    dsimp only
    split <;> exact ⟨rfl, rfl, rfl⟩
  constructor
  · intro q
    rw [(hsame q).1]
    exact Pgdir.KeepsPinned.refl _
  · exact fun q => (hsame q).2.1
  · intro q
    rw [(hsame q).2.2]

theorem of_exitFile {fd : Fin nOfile} (h : k.exitFile p fd = .ok k') : SameTables k k' := by
  rw [Kernel.exitFile] at h
  split at h
  case h_1 =>
    cases h
    exact refl _
  case h_2 =>
    split at h
    case h_1 => cases h
    case h_2 hclose =>
      cases h
      exact (of_fileclose hclose).trans (setOfile _ _ _ _)

end SameTables

/-! ## Calls that change records -/

section Records

variable {k k' : Kernel} {p q np : Fin nProc}

/-- `p` has left: its records are no longer valid, and the other tables are as they were. -/
structure Left (k : Kernel) (p : Fin nProc) (k' : Kernel) : Prop where
  pgdir : ∀ q, (k.procs q).pgdir.KeepsPinned (k'.procs q).pgdir
  vmas : ∀ q, q ≠ p → (k'.procs q).vmas = (k.procs q).vmas
  dead : ∀ q, q ≠ p → ((k'.procs q).state.Dead ↔ (k.procs q).state.Dead)
  zombie : (k'.procs p).state = .zombie
  invalid : ∀ j, ((k'.procs p).vmas j).valid = false
  fields : ∀ j, ((k'.procs p).vmas j).addr = ((k.procs p).vmas j).addr ∧
    ((k'.procs p).vmas j).endAddr = ((k.procs p).vmas j).endAddr

/-- One turn of `clean_vma`. -/
theorem cleanSlot_eq_ok {j : Fin nVma} (h : k.cleanSlot p j = .ok k') :
    ∃ v : Vma, k'.procs = (k.setVma p j v).procs ∧ v.valid = false ∧
      v.addr = ((k.procs p).vmas j).addr ∧ v.endAddr = ((k.procs p).vmas j).endAddr := by
  unfold Kernel.cleanSlot at h
  dsimp only at h
  split at h
  case isTrue =>
    split at h
    case h_1 =>
      cases h
      exact ⟨_, rfl, rfl, rfl, rfl⟩
    case h_2 f _ =>
      split at h
      case h_1 => cases h
      case h_2 k1 hclose =>
        cases h
        have hprocs : k1.procs = k.procs := by
          rw [Kernel.fileclose] at hclose
          split at hclose
          · cases hclose
          · split at hclose
            · cases hclose
              rfl
            · cases hclose
              rfl
        refine ⟨{ (k.procs p).vmas j with pf := none, valid := false }, ?_, rfl, rfl, rfl⟩
        rw [Kernel.setVma, Kernel.setVma, Kernel.procs_setProc, Kernel.procs_setProc, hprocs]
  case isFalse hvalid =>
    cases h
    refine ⟨(k.procs p).vmas j, ?_, by simpa using hvalid, rfl, rfl⟩
    rw [Kernel.setVma, Kernel.procs_setProc, Function.update_eq_self, Function.update_eq_self]

theorem cleanVma_eq_ok {l : List (Fin nVma)} (h : l.foldlM (Kernel.cleanSlot p) k = .ok k') :
    (∀ q, q ≠ p → k'.procs q = k.procs q) ∧ (k'.procs p).pgdir = (k.procs p).pgdir ∧
      ∀ j, ((k'.procs p).vmas j).addr = ((k.procs p).vmas j).addr ∧
        ((k'.procs p).vmas j).endAddr = ((k.procs p).vmas j).endAddr ∧
        (((k'.procs p).vmas j).valid = true →
          ((k.procs p).vmas j).valid = true ∧ j ∉ l) := by
  induction l generalizing k with
  | nil =>
      cases h
      exact ⟨fun _ _ => rfl, rfl, fun j => ⟨rfl, rfl, fun hv => ⟨hv, List.not_mem_nil⟩⟩⟩
  | cons i rest ih =>
      rw [List.foldlM_cons] at h
      cases hturn : k.cleanSlot p i with
      | error e =>
          rw [hturn] at h
          cases h
      | ok k1 =>
          rw [hturn] at h
          obtain ⟨v, hprocs, hinvalid, haddr, hend⟩ := cleanSlot_eq_ok hturn
          obtain ⟨hothers, hpgdir, hslots⟩ := ih h
          rw [Kernel.setVma, Kernel.procs_setProc] at hprocs
          refine ⟨fun q hq => ?_, ?_, fun j => ?_⟩
          · rw [hothers q hq, hprocs, Function.update_of_ne hq]
          · rw [hpgdir, hprocs, Function.update_self]
          · have hj := hslots j
            rw [hprocs, Function.update_self] at hj
            dsimp only at hj
            rcases eq_or_ne j i with rfl | hne
            · rw [Function.update_self, haddr, hend, hinvalid] at hj
              refine ⟨hj.1, hj.2.1, fun hv => ?_⟩
              have habsurd := (hj.2.2 hv).1
              cases habsurd
            · rw [Function.update_of_ne hne] at hj
              refine ⟨hj.1, hj.2.1, fun hv => ⟨(hj.2.2 hv).1, ?_⟩⟩
              rw [List.mem_cons, not_or]
              exact ⟨hne, (hj.2.2 hv).2⟩

theorem exit_left (h : k.exit p = .ok k') : Left k p k' := by
  rw [Kernel.exit] at h
  split at h
  case isTrue => cases h
  case isFalse =>
    split at h
    case h_1 => cases h
    case h_2 k1 hfiles =>
      have hsame : SameTables k (k1.reparent p) :=
        (foldlM_relates SameTables.refl (fun _ _ _ h h' => h.trans h')
          (fun _ _ _ h => SameTables.of_exitFile h) hfiles).trans (SameTables.of_reparent k1 p)
      split at h
      case h_1 => cases h
      case h_2 k2 hclean =>
        cases h
        rw [Kernel.cleanVma] at hclean
        obtain ⟨hothers, hpgdir, hslots⟩ := cleanVma_eq_ok hclean
        rw [hsame.vmas] at hslots
        constructor
        case pgdir =>
          intro q
          have hq := hsame.pgdir q
          rcases eq_or_ne q p with rfl | hne
          · rwa [Kernel.procs_setProc, Function.update_self, hpgdir]
          · rwa [Kernel.procs_setProc, Function.update_of_ne hne, hothers q hne]
        case vmas =>
          intro q hne
          rw [Kernel.procs_setProc, Function.update_of_ne hne, hothers q hne, hsame.vmas]
        case dead =>
          intro q hne
          rw [Kernel.procs_setProc, Function.update_of_ne hne, hothers q hne, hsame.dead]
        case zombie => rw [Kernel.procs_setProc, Function.update_self]
        case invalid =>
          intro j
          rw [Kernel.procs_setProc, Function.update_self]
          by_contra hvalid
          exact ((hslots j).2.2 (by simpa using hvalid)).2 (List.mem_finRange j)
        case fields =>
          intro j
          rw [Kernel.procs_setProc, Function.update_self]
          exact ⟨(hslots j).1, (hslots j).2.1⟩

/-! ## Page tables of children -/

theorem copyLoop_keepsPinned {parent : Pgdir} {s s' : Space} {n i : Nat}
    (h : copyLoop parent n i s = .ok (s', true)) : s.pgdir.KeepsPinned s'.pgdir := by
  induction n generalizing i s with
  | zero =>
      cases h
      exact Pgdir.KeepsPinned.refl _
  | succ n ih =>
      rw [copyLoop] at h
      split at h
      case h_1 => cases h
      case h_2 => cases h
      case h_3 s1 hpage =>
        obtain ⟨e, f, mem, -, -, hmap⟩ := copyPage_eq_true hpage
        have hkept := Space.mappages_keeps hmap
        exact (Pgdir.KeepsPinned.of_keeps hkept).trans (ih h)

theorem copyuvm_pinnedHalf {m m' : Mem} {parent child : Pgdir} {sz : Nat}
    (h : copyuvm m parent sz = .ok (m', some child)) : PinnedHalf child := by
  rw [copyuvm] at h
  split at h
  case h_1 => cases h
  case h_2 => cases h
  case h_3 m1 d hsetup =>
    split at h
    case h_1 => cases h
    case h_3 => split at h <;> cases h
    case h_2 s hloop =>
      cases h
      exact (copyLoop_keepsPinned hloop).pinnedHalf (setupkvm_pinnedHalf hsetup)

/-! ## One step of the tables -/

/-- What `p` does to the tables with an act. -/
inductive TableStep (p : Fin nProc) (k : Kernel) : Act → Kernel → Prop
  | same {c} {k' : Kernel} (h : SameTables k k') : TableStep p k c k'
  | mapped {k1 : Kernel} {a addr j f} (hlength : 0 < a.length)
      (haddr : mmapAddr (k.procs p).pgdir a = some addr)
      (hslot : mmapSlot (k.procs p).vmas = some j)
      (hloop : k.mmapLoop p a addr ((pgRoundUpInt a.length).toNat / 4096) 0 = .ok (k1, true)) :
      TableStep p k (.call (.mmap a))
        (k1.setVma p j { mmapRecord a addr ((k1.procs p).vmas j) with pf := f })
  | grown {k1 k' : Kernel} {addr next grow} (hlow : vmaStart ≤ addr)
      (htarget : growTarget (k.procs p).vmas addr = some (next, grow))
      (habsent : (k.procs p).pgdir.lookup addr = none) (h : SameTables k k1)
      (h' : SameTables (k1.setProc p { k1.procs p with
        vmas := updateVmaStructure (k1.procs p).vmas next grow }) k') :
      TableStep p k (.call (.fault addr)) k'
  | forked {np : Fin nProc} {k' : Kernel} (h : Forked k p np k') :
      TableStep p k (.call .fork) k'
  | left {c} {k' : Kernel} (h : Left k p k') : TableStep p k c k'
  | loaded {path argv mem d sz} (hd : PinnedHalf d) :
      TableStep p k (.exec path argv)
        ({ k with mem := mem }.setProc p { k.procs p with pgdir := d, sz := sz })

theorem mmap_tables {a : MmapArgs} {r : Int} (h : k.mmap p a = .ok (k', r)) :
    TableStep p k (.call (.mmap a)) k' := by
  cases mmap_outcome h with
  | refused => exact .same (SameTables.refl k)
  | gaveUp _ _ _ hloop => exact .same (SameTables.of_mmapLoop hloop)
  | mapped hlength haddr hslot hloop hf => exact .mapped hlength haddr hslot hloop

theorem pageFault_tables {addr : Nat} (h : k.pageFault p addr = .ok k') :
    TableStep p k (.call (.fault addr)) k' := by
  rw [Kernel.pageFault] at h
  dsimp only at h
  have hkilled : ∀ k1, Except.ok (k.segfault p) = (Except.ok k1 : Result Kernel) →
      TableStep p k (.call (.fault addr)) k1 := by
    intro k1 h1
    cases h1
    exact .same (SameTables.segfault k p)
  split at h
  case isTrue => exact hkilled _ h
  case isFalse hwindow =>
    split at h
    case isTrue => exact hkilled _ h
    case isFalse =>
      split at h
      case isTrue => exact hkilled _ h
      case isFalse =>
        split at h
        case h_1 => exact hkilled _ h
        case h_2 next grow htarget =>
          split at h
          case isTrue => exact hkilled _ h
          case isFalse =>
            split at h
            case h_1 => exact hkilled _ h
            case h_2 frame mem _ =>
              split at h
              case h_1 => cases h
              case h_2 s b hmap =>
                have hkept := Space.mappages_keeps hmap
                have habsent := Space.mappages_absent hmap
                rw [Pgdir.lookup_congr _ (pageOf_pgRoundDown _),
                  Pgdir.lookup_congr _ (pageOf_pgRoundDown _)] at habsent
                refine .grown (Nat.not_lt.mp fun hlow => hwindow (Or.inl hlow)) htarget habsent
                  (SameTables.setSpace (s := s) (Pgdir.KeepsPinned.of_keeps hkept)) ?_
                split at h
                case isTrue =>
                  cases h
                  exact SameTables.refl _
                case isFalse => exact SameTables.of_mmapRead h

theorem Call.serve_tables {c : Call} {r : Int} (hp : (k.procs p).state ≠ .unused)
    (h : c.serve k p = .ok (k', r)) : TableStep p k (.call c) k' := by
  cases c with
  | sysOpen ip omode => exact .same (SameTables.of_sysOpen h)
  | dup fd => exact .same (SameTables.of_sysDup h)
  | close fd => exact .same (SameTables.of_sysClose h)
  | mmap args => exact mmap_tables h
  | munmap addr length => exact .same (SameTables.of_munmap h)
  | fork =>
      rcases fork_outcome hp h with ⟨-, hfailed⟩ | ⟨np, hforked⟩
      · exact .same (SameTables.of_forkFailed hfailed)
      · exact .forked hforked
  | wait => exact .same (SameTables.of_wait h)
  | exit =>
      rw [Call.serve] at h
      cases hexit : k.exit p with
      | error e =>
          rw [hexit] at h
          cases h
      | ok k1 =>
          rw [hexit] at h
          cases h
          exact .left (exit_left hexit)
  | fault addr =>
      rw [Call.serve] at h
      cases hfault : k.pageFault p addr with
      | error e =>
          rw [hfault] at h
          cases h
      | ok k1 =>
          rw [hfault] at h
          cases h
          exact pageFault_tables hfault

/-- A process that has been killed leaves, and nothing happens to one that has not. -/
theorem exitIfKilled_left {r r' : Int} (h : k.exitIfKilled p r = .ok (k', r')) :
    k' = k ∨ Left k p k' := by
  rw [Kernel.exitIfKilled] at h
  split at h
  case isTrue =>
    split at h
    case h_1 => cases h
    case h_2 hexit =>
      cases h
      exact Or.inr (exit_left hexit)
  case isFalse =>
    cases h
    exact Or.inl rfl

theorem exec_tables {path : Option Nat} {argv : List (List UInt8)} {r : Int}
    (h : k.exec p path argv = .ok (k', r)) : TableStep p k (.exec path argv) k' := by
  cases exec_outcome h with
  | failed mem => exact .same (SameTables.of_procs rfl)
  | loaded hd => exact .loaded hd

theorem Call.trap_tables {c : Call} {r : Int} (hp : (k.procs p).state ≠ .unused)
    (h : c.trap k p = .ok (k', r)) :
    ∃ k1, TableStep p k (.call c) k1 ∧ (k' = k1 ∨ Left k1 p k') := by
  have hserved : ∀ k1 r1, c.serve k p = .ok (k1, r1) → k1.exitIfKilled p r1 = .ok (k', r) →
      ∃ k1, TableStep p k (.call c) k1 ∧ (k' = k1 ∨ Left k1 p k') :=
    fun k1 r1 hserve hexit => ⟨k1, serve_tables hp hserve, exitIfKilled_left hexit⟩
  unfold Call.trap at h
  split at h
  case h_1 =>
    split at h
    case h_1 => cases h
    case h_2 k1 r1 hserve => exact hserved k1 r1 hserve h
  case h_2 => exact ⟨k', serve_tables hp h, Or.inl rfl⟩
  case h_3 =>
    split at h
    case isTrue =>
      cases hexit : k.exit p with
      | error e =>
          rw [hexit] at h
          cases h
      | ok k1 =>
          rw [hexit] at h
          cases h
          exact ⟨k', .left (exit_left hexit), Or.inl rfl⟩
    case isFalse =>
      split at h
      case h_1 => cases h
      case h_2 k1 r1 hserve => exact hserved k1 r1 hserve h

/-- An act is a step of the tables, and perhaps the end of the process. -/
theorem ActStep.tables {a : Fin nProc × Act} (h : ActStep k a k') :
    ∃ k1 k2, TableStep a.1 k a.2 k1 ∧ (k2 = k1 ∨ Left k1 a.1 k2) ∧ k'.procs = k2.procs := by
  obtain ⟨p, a⟩ := a
  obtain ⟨hruns, k2, ⟨leftover, blocks, rfl⟩, hact⟩ := h
  have hp : (k.procs p).state ≠ .unused := fun hunused => hruns.not_dead (Or.inl hunused)
  cases a with
  | call c =>
      obtain ⟨r, hcall⟩ := hact
      obtain ⟨k1, hstep, hleft⟩ := Call.trap_tables hp hcall
      exact ⟨k1, k2, hstep, hleft, rfl⟩
  | exec path argv =>
      obtain ⟨-, r, hexec⟩ := hact
      exact ⟨k2, k2, exec_tables hexec, Or.inl rfl, rfl⟩

/-! ## The kernel half -/

/-- The page table of everyone who has not left has the pinned pages. -/
def Kernel.Halved (k : Kernel) : Prop :=
  ∀ q, ¬(k.procs q).state.Dead → PinnedHalf (k.procs q).pgdir

theorem SameTables.halved (h : SameTables k k') (hk : k.Halved) : k'.Halved :=
  fun q hq => (h.pgdir q).pinnedHalf (hk q (mt (h.dead q).mpr hq))

theorem Left.halved (h : Left k p k') (hk : k.Halved) : k'.Halved := by
  intro q hq
  have hne : q ≠ p := by
    rintro rfl
    exact hq (Or.inr h.zombie)
  exact (h.pgdir q).pinnedHalf (hk q (mt (h.dead q hne).mpr hq))

theorem TableStep.halved {c : Act} (h : TableStep p k c k') (hk : k.Halved) : k'.Halved := by
  -- Writing the records of a process leaves its page table and its state.
  have hrecords : ∀ (k1 : Kernel) (vmas : Fin nVma → Vma), k1.Halved →
      (k1.setProc p { k1.procs p with vmas := vmas }).Halved := by
    intro k1 vmas h1 q hq
    rcases eq_or_ne q p with rfl | hne
    · rw [Kernel.procs_setProc, Function.update_self] at hq ⊢
      exact h1 q hq
    · rw [Kernel.procs_setProc, Function.update_of_ne hne] at hq ⊢
      exact h1 q hq
  cases h with
  | same h => exact h.halved hk
  | mapped _ _ _ hloop => exact hrecords _ _ ((SameTables.of_mmapLoop hloop).halved hk)
  | grown _ _ _ h h' => exact h'.halved (hrecords _ _ (h.halved hk))
  | @forked np _ h =>
      intro q hq
      rcases eq_or_ne q np with rfl | hne
      · obtain ⟨stack, m, -, hcopy⟩ := h.copied
        exact copyuvm_pinnedHalf hcopy
      · rw [h.others q hne] at hq ⊢
        exact hk q hq
  | left h => exact h.halved hk
  | loaded hd =>
      intro q hq
      rcases eq_or_ne q p with rfl | hne
      · rwa [Kernel.procs_setProc, Function.update_self]
      · rw [Kernel.procs_setProc, Function.update_of_ne hne] at hq ⊢
        exact hk q hq

end Records

/-- After boot, every page table in use has the pinned pages. -/
theorem userinit_halved {mem : Mem} {inodes : Nat → Inode} {blocks : Nat}
    {devsw : Nat → Option Devsw} {init : List UInt8} {k0 : Kernel}
    (h : (Kernel.zero mem inodes blocks devsw).userinit init = .ok k0) : k0.Halved := by
  rw [Kernel.userinit] at h
  split at h
  case h_1 => cases h
  case h_2 p _ =>
    split at h
    case h_1 => cases h
    case h_2 k1 halloc =>
      obtain ⟨-, -, -, -, hothers, -, -⟩ := allocproc_eq_true halloc
      split at h
      case h_1 => cases h
      case h_2 => cases h
      case h_3 mem d hsetup =>
        split at h
        case h_1 => cases h
        case h_2 s hinit =>
          cases h
          intro q hq
          rcases eq_or_ne q p with rfl | hne
          · have hkept := inituvm_keeps hinit
            have hhalf := (Pgdir.KeepsPinned.of_keeps hkept).pinnedHalf
              (setupkvm_pinnedHalf hsetup)
            simpa using hhalf
          · rw [Kernel.procs_setProc, Function.update_of_ne hne] at hq
            have hzero : (k1.procs q).state = .unused := by
              rw [hothers q hne]
              rfl
            simp [hne, hzero, ProcState.Dead] at hq

/-- Along every run after boot, every page table in use has the pinned pages. -/
theorem halved_of_run {mem : Mem} {inodes : Nat → Inode} {blocks : Nat}
    {devsw : Nat → Option Devsw} {init : List UInt8} {k0 k : Kernel} {acts : List (Fin nProc × Act)}
    (hboot : (Kernel.zero mem inodes blocks devsw).userinit init = .ok k0)
    (hrun : Run ActStep k0 acts k) : k.Halved := by
  refine hrun.invariant (fun k a k' hk hstep => ?_) (userinit_halved hboot)
  obtain ⟨k1, k2, hfirst, hleft, hprocs⟩ := hstep.tables
  refine (SameTables.of_procs hprocs).halved ?_
  rcases hleft with rfl | hleft
  · exact hfirst.halved hk
  · exact hleft.halved (hfirst.halved hk)

end OSProjects.Xv6
