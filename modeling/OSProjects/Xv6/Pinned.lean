import OSProjects.Xv6.Allocation
import OSProjects.Xv6.Exec

/-!
# Pages that stay

`kfree` panics for a frame outside the memory that the allocator owns, and `mappages` for a
page that is present. So an entry with such a frame, like those of the device pages, stays in
its page table through every operation of `vm.c` that returns.
-/

namespace OSProjects.Xv6

/-- A frame that `deallocuvm` cannot give back. -/
def Pte.Pinned (e : Pte) : Prop := e.pa = 0 ∨ physTop ≤ e.pa

/-- The page is present, and its frame is pinned. -/
def Pgdir.PinnedAt (d : Pgdir) (va : Nat) : Prop := ∃ e, d.lookup va = some e ∧ e.Pinned

/-- Every pinned page of the first table is one of the second. -/
def Pgdir.KeepsPinned (d d' : Pgdir) : Prop := ∀ va, d.PinnedAt va → d'.PinnedAt va

/-- The pages of `KernelHalf` are pinned. -/
structure PinnedHalf (d : Pgdir) : Prop where
  base : d.PinnedAt kernBase
  devices : ∀ va, devSpace ≤ va → va < 2 ^ 32 → d.PinnedAt va

section Tables

variable {d d' d'' : Pgdir} {va : Nat}

theorem Pgdir.PinnedAt.present (h : d.PinnedAt va) : d.present va = true := by
  obtain ⟨e, he, -⟩ := h
  rw [Pgdir.present, he]
  rfl

namespace Pgdir.KeepsPinned

theorem refl (d : Pgdir) : d.KeepsPinned d := fun _ h => h

theorem trans (h : d.KeepsPinned d') (h' : d'.KeepsPinned d'') : d.KeepsPinned d'' :=
  fun va hva => h' va (h va hva)

theorem of_keeps (h : d.Keeps d') : d.KeepsPinned d' :=
  fun va ⟨e, he, hpinned⟩ => ⟨e, h va e he, hpinned⟩

theorem pinnedHalf (h : d.KeepsPinned d') (hd : PinnedHalf d) : PinnedHalf d' :=
  ⟨h _ hd.base, fun va hva hlt => h _ (hd.devices va hva hlt)⟩

end Pgdir.KeepsPinned

end Tables

theorem kernelPte_pinned {m : Mem} {va : Nat} (h : va = kernBase ∨ devSpace ≤ va) :
    ∃ e, kernelPte m va = some e ∧ e.Pinned := by
  rw [kernelPte]
  rcases h with rfl | hdevice
  · exact ⟨_, if_pos (by decide), Or.inl (Nat.sub_self _)⟩
  · have hhigh : ¬va < kernBase + physTop := by
      simp only [kernBase, physTop, devSpace] at hdevice ⊢
      omega
    rw [if_neg hhigh, if_pos hdevice]
    refine ⟨_, rfl, Or.inr (le_trans ?_ hdevice)⟩
    decide

theorem setupkvm_pinnedHalf {m m' : Mem} {d : Pgdir} (h : setupkvm m = .ok (m', some d)) :
    PinnedHalf d := by
  have hpinned : ∀ va, va < 2 ^ 32 → (va = kernBase ∨ devSpace ≤ va) → d.PinnedAt va := by
    intro va hlt hva
    obtain ⟨m, hlookup⟩ := (setupkvm_tables h).lookup hlt (by
      simp only [kernBase, devSpace] at hva
      omega)
    have hpage : va / 4096 * 4096 = kernBase ∨ devSpace ≤ va / 4096 * 4096 := by
      simp only [kernBase, devSpace] at hva ⊢
      omega
    obtain ⟨e, he, hpin⟩ := kernelPte_pinned (m := m) hpage
    exact ⟨e, hlookup.trans he, hpin⟩
  refine ⟨hpinned _ (by decide) (Or.inl rfl), fun va hva hlt => hpinned va hlt (Or.inr hva)⟩

/-! ## The operations of `vm.c` -/

namespace Space

variable {s s' : Space} {a pa perm va size oldsz newsz : Nat} {r : Bool}

theorem mapLoop_keeps {last fuel : Nat} (h : mapLoop last perm fuel a pa s = .ok (s', r)) :
    s.pgdir.Keeps s'.pgdir := by
  induction fuel generalizing a pa s with
  | zero => cases h
  | succ fuel ih =>
      rw [mapLoop] at h
      split at h
      case h_1 => cases h
      case h_2 s1 hturn =>
        cases h
        exact mapPage_keeps hturn
      case h_3 s1 hturn =>
        split at h
        case isTrue =>
          cases h
          exact mapPage_keeps hturn
        case isFalse => exact (mapPage_keeps hturn).trans (ih h)

theorem mappages_keeps (h : s.mappages va size pa perm = .ok (s', r)) :
    s.pgdir.Keeps s'.pgdir :=
  mapLoop_keeps h

/-- The first page of the range was absent. -/
theorem mappages_absent (h : s.mappages va size pa perm = .ok (s', r)) :
    s.pgdir.lookup (pgRoundDown va) = none := by
  have hfuel : allPages = 2 ^ 20 + 1 := rfl
  rw [mappages, hfuel, mapLoop] at h
  split at h
  case h_1 => cases h
  case h_2 s1 hturn => exact (mapPage_eq_false hturn).2
  case h_3 s1 hturn => exact (mapPage_eq_true hturn).1

/-- `deallocuvm` panics at a page whose frame is pinned. -/
theorem deallocPage_keepsPinned {a' : Nat} (h : s.deallocPage a = .ok (a', s')) :
    s.pgdir.KeepsPinned s'.pgdir := by
  rintro va ⟨e, he, hpinned⟩
  by_cases hpage : pageOf va = pageOf a
  case neg => exact ⟨e, ((deallocPage_eq_ok h).2 va hpage).trans he, hpinned⟩
  case pos =>
    rw [Pgdir.lookup_congr _ hpage] at he
    obtain ⟨t, ht, hentry⟩ := Option.bind_eq_some_iff.mp he
    rw [deallocPage, ht] at h
    simp only [hentry] at h
    split at h
    case isTrue => cases h
    case isFalse hzero =>
      split at h
      case h_1 => cases h
      case h_2 mem hfree =>
        obtain ⟨hfreeable, -⟩ := Mem.kfree_eq_ok hfree
        rcases hpinned with hpa | hpa
        · exact absurd hpa hzero
        · exact absurd hfreeable.2.2 (Nat.not_lt.mpr hpa)

/-- What every turn keeps, the loop keeps. -/
theorem deallocLoop_keeps {P : Space → Prop}
    {fuel : Nat} (hturn : ∀ {a a' s s'}, Space.deallocPage s a = .ok (a', s') → P s → P s')
    (h : s.deallocLoop oldsz fuel a = .ok s') (hs : P s) : P s' := by
  induction fuel generalizing a s with
  | zero => cases h
  | succ fuel ih =>
      rw [deallocLoop] at h
      split at h
      case isFalse =>
        cases h
        exact hs
      case isTrue =>
        split at h
        case h_1 => cases h
        case h_2 hpage => exact ih h (hturn hpage hs)

theorem deallocLoop_keepsPinned {fuel : Nat} (h : s.deallocLoop oldsz fuel a = .ok s') :
    s.pgdir.KeepsPinned s'.pgdir :=
  deallocLoop_keeps (P := fun x => s.pgdir.KeepsPinned x.pgdir)
    (fun hturn hx => hx.trans (deallocPage_keepsPinned hturn)) h (Pgdir.KeepsPinned.refl _)

theorem dealloc_keepsPinned (h : s.dealloc oldsz newsz = .ok s') :
    s.pgdir.KeepsPinned s'.pgdir := by
  rw [dealloc] at h
  split at h
  case isTrue =>
    cases h
    exact Pgdir.KeepsPinned.refl _
  case isFalse => exact deallocLoop_keepsPinned h

theorem allocLoop_keepsPinned {fuel sz : Nat}
    (h : allocLoop oldsz newsz fuel a s = .ok (s', sz)) : s.pgdir.KeepsPinned s'.pgdir := by
  induction fuel generalizing a s with
  | zero => cases h
  | succ fuel ih =>
      rw [allocLoop] at h
      split at h
      case isFalse =>
        cases h
        exact Pgdir.KeepsPinned.refl _
      case isTrue =>
        split at h
        case h_1 =>
          split at h
          case h_1 => cases h
          case h_2 s1 hd =>
            cases h
            exact dealloc_keepsPinned hd
        case h_2 frame mem _ =>
          split at h
          case h_1 => cases h
          case h_2 s1 hmap =>
            split at h
            case h_1 => cases h
            case h_2 s2 hd =>
              split at h
              case h_1 => cases h
              case h_2 mem' _ =>
                cases h
                have hfreed := dealloc_keepsPinned hd
                exact (Pgdir.KeepsPinned.of_keeps (mappages_keeps hmap)).trans hfreed
          case h_3 s1 hmap =>
            exact (Pgdir.KeepsPinned.of_keeps (mappages_keeps hmap)).trans (ih h)

theorem allocuvm_keepsPinned {sz : Nat} (h : s.allocuvm oldsz newsz = .ok (s', sz)) :
    s.pgdir.KeepsPinned s'.pgdir := by
  rw [allocuvm] at h
  split at h
  case isTrue =>
    cases h
    exact Pgdir.KeepsPinned.refl _
  case isFalse =>
    split at h
    case isTrue =>
      cases h
      exact Pgdir.KeepsPinned.refl _
    case isFalse => exact allocLoop_keepsPinned h

/-- Clearing a permission leaves the frame. -/
theorem clearpteu_keepsPinned (h : s.clearpteu a = .ok s') : s.pgdir.KeepsPinned s'.pgdir := by
  rw [clearpteu] at h
  split at h
  case h_1 => cases h
  case h_2 t ht =>
    cases h
    rintro va ⟨e, he, hpinned⟩
    by_cases hpage : pageOf va = pageOf a
    case pos =>
      rw [Pgdir.lookup_congr _ hpage, Pgdir.lookup, ht, Option.bind_some] at he
      refine ⟨e.clearU, ?_, hpinned⟩
      rw [Pgdir.lookup_setEntry ht, if_pos hpage, he]
      rfl
    case neg =>
      refine ⟨e, ?_, hpinned⟩
      rw [Pgdir.lookup_setEntry ht, if_neg hpage, he]

/-- `copyout` changes memory only. -/
theorem copyoutLoop_pgdir {fuel : Nat} {bytes : List UInt8}
    (h : copyoutLoop fuel va bytes s = .ok (s', r)) : s'.pgdir = s.pgdir := by
  induction fuel generalizing va bytes s with
  | zero =>
      cases h
      rfl
  | succ fuel ih =>
      rw [copyoutLoop] at h
      split at h
      case isTrue =>
        cases h
        rfl
      case isFalse =>
        dsimp only at h
        split at h
        case h_1 => cases h
        case h_2 t _ =>
          split at h
          case h_1 =>
            cases h
            rfl
          case h_2 e _ =>
            split at h
            case isTrue =>
              cases h
              rfl
            case isFalse =>
              have hrest := ih h
              exact hrest

theorem pushArgs_pgdir {argv : List (List UInt8)} {argc sp : Nat} {args : List Nat}
    {x : Option (Nat × List Nat)} (h : pushArgs argv argc sp args s = .ok (s', x)) :
    s'.pgdir = s.pgdir := by
  induction argv generalizing argc sp args s with
  | nil =>
      cases h
      rfl
  | cons arg rest ih =>
      rw [pushArgs] at h
      split at h
      case isTrue =>
        cases h
        rfl
      case isFalse =>
        dsimp only at h
        split at h
        case h_1 => cases h
        case h_2 s1 hcopy =>
          cases h
          exact copyoutLoop_pgdir hcopy
        case h_3 s1 hcopy => exact (ih h).trans (copyoutLoop_pgdir hcopy)

theorem pushStack_keepsPinned {sz : Nat} {argv : List (List UInt8)} {x : Option Nat}
    (h : s.pushStack sz argv = .ok (s', x)) : s.pgdir.KeepsPinned s'.pgdir := by
  unfold pushStack at h
  split at h
  case h_1 => cases h
  case h_2 s1 sz1 halloc =>
    have h1 := allocuvm_keepsPinned halloc
    split at h
    case isTrue =>
      cases h
      exact h1
    case isFalse =>
      split at h
      case h_1 => cases h
      case h_2 s2 hclear =>
        have h2 := h1.trans (clearpteu_keepsPinned hclear)
        split at h
        case h_1 => cases h
        case h_2 s3 hargs =>
          cases h
          rwa [pushArgs_pgdir hargs]
        case h_3 s3 sp args hargs =>
          have h3 : s.pgdir.KeepsPinned s3.pgdir := by rwa [pushArgs_pgdir hargs]
          split at h
          case h_1 => cases h
          case h_2 s4 hcopy =>
            cases h
            rwa [copyoutLoop_pgdir hcopy]
          case h_3 s4 hcopy =>
            cases h
            rwa [copyoutLoop_pgdir hcopy]

end Space

/-! ## Images -/

section Images

variable {k : Kernel} {s s' : Space} {ip : Inode}

theorem loadLoop_pgdir {addr offset sz n i : Nat} {r : Bool}
    (h : k.loadLoop ip addr offset sz n i s = .ok (s', r)) : s'.pgdir = s.pgdir := by
  induction n generalizing i s with
  | zero =>
      cases h
      rfl
  | succ n ih =>
      rw [Kernel.loadLoop] at h
      split at h
      case h_1 => cases h
      case h_2 e _ =>
        dsimp only at h
        split at h
        case isTrue =>
          have hrest := ih h
          exact hrest
        case isFalse =>
          cases h
          rfl

theorem loaduvm_pgdir {addr offset sz : Nat} {r : Bool}
    (h : k.loaduvm s addr ip offset sz = .ok (s', r)) : s'.pgdir = s.pgdir := by
  rw [Kernel.loaduvm] at h
  split at h
  case isTrue => cases h
  case isFalse => exact loadLoop_pgdir h

theorem loadSegment_keepsPinned {ph : Proghdr} {sz : Nat} {x : Option Nat}
    (h : k.loadSegment ip ph sz s = .ok (s', x)) : s.pgdir.KeepsPinned s'.pgdir := by
  rw [Kernel.loadSegment] at h
  split at h
  case isTrue =>
    cases h
    exact Pgdir.KeepsPinned.refl _
  case isFalse =>
    split at h
    case isTrue =>
      cases h
      exact Pgdir.KeepsPinned.refl _
    case isFalse =>
      split at h
      case h_1 => cases h
      case h_2 s1 sz1 halloc =>
        have h1 := Space.allocuvm_keepsPinned halloc
        split at h
        case isTrue =>
          cases h
          exact h1
        case isFalse =>
          split at h
          case h_1 => cases h
          case h_2 s2 hload =>
            cases h
            rwa [loaduvm_pgdir hload]
          case h_3 s2 hload =>
            cases h
            rwa [loaduvm_pgdir hload]

theorem loadSegments_keepsPinned {n off sz : Nat} {x : Option Nat}
    (h : k.loadSegments ip n off sz s = .ok (s', x)) : s.pgdir.KeepsPinned s'.pgdir := by
  induction n generalizing off sz s with
  | zero =>
      cases h
      exact Pgdir.KeepsPinned.refl _
  | succ n ih =>
      rw [Kernel.loadSegments] at h
      split at h
      case h_1 =>
        cases h
        exact Pgdir.KeepsPinned.refl _
      case h_2 ph _ =>
        split at h
        case h_1 => cases h
        case h_2 s1 hseg =>
          cases h
          exact loadSegment_keepsPinned hseg
        case h_3 s1 sz1 hseg => exact (loadSegment_keepsPinned hseg).trans (ih h)

theorem buildImage_keepsPinned {elf : Elfhdr} {argv : List (List UInt8)} {x : Option Nat}
    (h : k.buildImage ip elf argv s = .ok (s', x)) : s.pgdir.KeepsPinned s'.pgdir := by
  rw [Kernel.buildImage] at h
  split at h
  case h_1 => cases h
  case h_2 s1 hsegs =>
    cases h
    exact loadSegments_keepsPinned hsegs
  case h_3 s1 sz hsegs => exact (loadSegments_keepsPinned hsegs).trans (Space.pushStack_keepsPinned h)

/-- What a call of `exec` changes: nothing but memory, or the address space of the process. -/
inductive ExecOutcome (k : Kernel) (p : Fin nProc) : Kernel → Int → Prop
  | failed (mem) : ExecOutcome k p { k with mem := mem } (-1)
  | loaded {mem d sz} (hd : PinnedHalf d) :
      ExecOutcome k p ({ k with mem := mem }.setProc p { k.procs p with pgdir := d, sz := sz }) 0

theorem exec_outcome {k' : Kernel} {p : Fin nProc} {path : Option Nat}
    {argv : List (List UInt8)} {r : Int} (h : k.exec p path argv = .ok (k', r)) :
    ExecOutcome k p k' r := by
  unfold Kernel.exec at h
  split at h
  case h_1 =>
    cases h
    exact .failed k.mem
  case h_2 i =>
    split at h
    case h_1 =>
      cases h
      exact .failed k.mem
    case h_2 elf _ =>
      split at h
      case isTrue =>
        cases h
        exact .failed k.mem
      case isFalse =>
        split at h
        case h_1 => cases h
        case h_2 mem _ =>
          cases h
          exact .failed mem
        case h_3 mem d hsetup =>
          split at h
          case h_1 => cases h
          case h_2 s _ =>
            split at h
            case h_1 => cases h
            case h_2 mem' _ =>
              cases h
              exact .failed mem'
          case h_3 s sz himage =>
            split at h
            case h_1 => cases h
            case h_2 mem' _ =>
              cases h
              exact .loaded ((buildImage_keepsPinned himage).pinnedHalf
                (setupkvm_pinnedHalf hsetup))

end Images

end OSProjects.Xv6
