import OSProjects.Xv6.Growth
import OSProjects.Xv6.SafeUnmap

/-!
# What acts leave of the files

Only `munmap` writes to a file. No act changes the type of an inode or makes a file longer
than the largest one.
-/

namespace OSProjects.Xv6

open Loop StepSystem

/-- Every inode has its type, and none has grown longer than `MAXFILE` blocks. -/
structure KeepsFiles (k k' : Kernel) : Prop where
  type : ∀ i, (k'.inodes i).type = (k.inodes i).type
  size : ∀ i, (k.inodes i).size ≤ maxFile * bSize → (k'.inodes i).size ≤ maxFile * bSize

namespace KeepsFiles

variable {k k' k'' : Kernel} {p np : Fin nProc}

theorem of_inodes (h : k'.inodes = k.inodes) : KeepsFiles k k' := by
  constructor
  · intro i
    rw [h]
  · intro i hi
    rwa [h]

theorem refl (k : Kernel) : KeepsFiles k k := of_inodes rfl

theorem setProc (k : Kernel) (p : Fin nProc) (x : Proc) : KeepsFiles k (k.setProc p x) :=
  of_inodes rfl

theorem setMem (k : Kernel) (mem : Mem) : KeepsFiles k { k with mem := mem } := of_inodes rfl

theorem trans (h : KeepsFiles k k') (h' : KeepsFiles k' k'') : KeepsFiles k k'' :=
  ⟨fun i => (h'.type i).trans (h.type i), fun i hi => h'.size i (h.size i hi)⟩

/-! ## Writing back -/

theorem writeBytes_type {node node' : Inode} {src : Option (List UInt8)} {off n : Nat} {r : Int}
    (h : k.writeBytes node src off n = .ok (node', r)) : node'.type = node.type := by
  unfold Kernel.writeBytes at h
  split at h
  · split at h
    · cases h
      rfl
    · split at h
      · cases h
      · cases h
        rfl
  · split at h
    · cases h
      rfl
    · split at h
      · cases h
      · cases h
        rfl

theorem of_writei {i : Nat} {node : Inode} {src : Option (List UInt8)} {off n : Nat} {r : Int}
    (h : k.writei (k.inodes i) src off n = .ok (node, r)) : KeepsFiles k (k.putInode i node) := by
  constructor
  · intro j
    rcases eq_or_ne j i with rfl | hne
    · rw [Kernel.putInode_self]
      exact writeBytes_type (Kernel.writei_eq_ok h).1
    · rw [Kernel.putInode_of_ne _ _ _ hne]
  · intro j hj
    rcases eq_or_ne j i with rfl | hne
    · rw [Kernel.putInode_self]
      exact Kernel.writei_size_le h hj
    · rwa [Kernel.putInode_of_ne _ _ _ hne]

theorem of_writeoffLoop {ip data size fuel written w : Nat} {offset : Int}
    (h : Kernel.writeoffLoop p ip data size fuel written offset k = .ok (k', w)) :
    KeepsFiles k k' := by
  induction fuel generalizing k written offset with
  | zero =>
      cases h
      exact refl _
  | succ fuel ih =>
      rw [Kernel.writeoffLoop] at h
      split at h
      case isFalse =>
        cases h
        exact refl _
      case isTrue =>
        dsimp only at h
        split at h
        case h_1 => cases h
        case h_2 hwrite =>
          split at h
          · cases h
            exact of_writei hwrite
          · exact (of_writei hwrite).trans (ih h)

theorem of_writeBack {v : Vma} {data : Nat} {size offset : Int}
    (h : k.writeBack p v data size offset = .ok k') : KeepsFiles k k' := by
  rw [Kernel.writeBack] at h
  split at h
  · cases h
  · split at h
    · cases h
    case h_2 hcall =>
      cases h
      rw [Kernel.filewriteoff] at hcall
      split at hcall
      · cases hcall
        exact refl _
      · split at hcall
        · split at hcall
          · cases hcall
          case h_2 hloop =>
            cases hcall
            exact of_writeoffLoop hloop
        · cases hcall

theorem of_dealloc {oldsz newsz : Nat} (h : k.dealloc p oldsz newsz = .ok k') :
    KeepsFiles k k' := by
  rw [Kernel.dealloc] at h
  split at h
  · cases h
  · cases h
    exact of_inodes rfl

theorem of_munmap {addr : Nat} {length r : Int} (h : k.munmap p addr length = .ok (k', r)) :
    KeepsFiles k k' :=
  Unmapping.munmap ⟨refl, fun h h' => h.trans h', fun h => of_writeBack h,
    fun h => of_dealloc h⟩ h

/-! ## Descriptors -/

theorem of_filedup {f : Fin nFile} (h : k.filedup f = .ok k') : KeepsFiles k k' := by
  rw [Kernel.filedup] at h
  split at h
  · cases h
  · cases h
    exact of_inodes rfl

theorem of_fileclose {f : Fin nFile} (h : k.fileclose f = .ok k') : KeepsFiles k k' := by
  rw [Kernel.fileclose] at h
  split at h
  · cases h
  · split at h <;>
      · cases h
        exact of_inodes rfl

theorem of_fdalloc {f : Fin nFile} {fd : Fin nOfile} (h : k.fdalloc p f = some (fd, k')) :
    KeepsFiles k k' := by
  rw [Kernel.fdalloc] at h
  split at h
  · cases h
  · cases h
    exact of_inodes rfl

theorem of_sysDup {fd r : Int} (h : k.sysDup p fd = .ok (k', r)) : KeepsFiles k k' := by
  rw [Kernel.sysDup] at h
  split at h
  · cases h
    exact refl _
  · split at h
    · cases h
      exact refl _
    case h_2 hfd =>
      split at h
      · cases h
      case h_2 hdup =>
        cases h
        exact (of_fdalloc hfd).trans (of_filedup hdup)

theorem of_sysClose {fd r : Int} (h : k.sysClose p fd = .ok (k', r)) : KeepsFiles k k' := by
  rw [Kernel.sysClose] at h
  split at h
  · cases h
    exact refl _
  · split at h
    · cases h
    case h_2 fd _ hclose =>
      cases h
      have hcleared : ∀ fd, KeepsFiles k (k.setOfile p fd none) := fun _ => of_inodes rfl
      exact (hcleared _).trans (of_fileclose hclose)

theorem of_sysOpen {ip : Option Nat} {omode : Nat} {r : Int}
    (h : k.sysOpen p ip omode = .ok (k', r)) : KeepsFiles k k' := by
  unfold Kernel.sysOpen at h
  split at h
  · cases h
    exact refl _
  case h_2 ip =>
    split at h
    · cases h
      exact refl _
    · split at h
      · cases h
        exact refl _
      case h_2 f k1 halloc =>
        obtain rfl := (filealloc_eq_some halloc).2
        have h1 : KeepsFiles k (k.setFile f { k.ftable f with ref := 1 }) := of_inodes rfl
        split at h
        · split at h
          · cases h
          case h_2 hclose =>
            cases h
            exact h1.trans (of_fileclose hclose)
        case h_2 hfd =>
          cases h
          exact (h1.trans (of_fdalloc hfd)).trans (of_inodes rfl)

/-! ## Memory and processes -/

theorem of_mmap {a : MmapArgs} {r : Int} (h : k.mmap p a = .ok (k', r)) : KeepsFiles k k' := by
  cases mmap_outcome h with
  | refused => exact refl k
  | gaveUp _ _ _ hloop =>
      obtain ⟨s, rfl⟩ := mmapLoop_space hloop
      exact of_inodes rfl
  | mapped _ _ _ hloop =>
      obtain ⟨s, rfl⟩ := mmapLoop_space hloop
      exact of_inodes rfl

theorem of_pageFault {addr : Nat} (h : k.pageFault p addr = .ok k') : KeepsFiles k k' := by
  by_cases hgrows : ∃ i, GrowsSlot k p addr i
  case neg =>
    rw [not_exists] at hgrows
    obtain rfl := Except.ok.inj ((pageFault_segfault hgrows).symm.trans h)
    exact of_inodes rfl
  case pos =>
    obtain ⟨i, hi⟩ := hgrows
    obtain ⟨frame, rest, hl⟩ := List.exists_cons_of_ne_nil hi.frame
    rw [pageFault_grows hi (Mem.kalloc_cons hl)] at h
    split at h
    · cases h
    · split at h
      · cases h
        exact of_inodes rfl
      · obtain ⟨bytes, rfl⟩ := Kernel.mmapRead_eq h
        exact of_inodes rfl

theorem of_freeStack (h : k.freeStack p = .ok k') : KeepsFiles k k' := by
  rw [Kernel.freeStack] at h
  split at h
  · cases h
  · split at h
    · cases h
    · cases h
      exact of_inodes rfl

theorem of_wait {r : Int} (h : k.wait p = .ok (k', r)) : KeepsFiles k k' := by
  rw [Kernel.wait] at h
  split at h
  · split at h
    · cases h
    · cases h
      exact refl _
  · split at h
    · cases h
    case h_2 hstack =>
      split at h
      · cases h
      · cases h
        exact (of_freeStack hstack).trans (of_inodes rfl)

theorem of_forkFile {i : Fin nOfile} (h : k.forkFile p np i = .ok k') : KeepsFiles k k' := by
  rw [Kernel.forkFile] at h
  split at h
  · cases h
    exact refl _
  · split at h
    · cases h
    case h_2 hdup =>
      cases h
      exact (of_filedup hdup).trans (of_inodes rfl)

theorem of_forkVma {i : Fin nVma} (h : k.forkVma p np i = .ok k') : KeepsFiles k k' := by
  rw [Kernel.forkVma] at h
  split at h
  · rw [Kernel.copyVma] at h
    split at h
    · cases h
      exact of_inodes rfl
    · split at h
      · cases h
      case h_2 hdup =>
        cases h
        have hrecorded : KeepsFiles k (k.setVma np i ((k.procs p).vmas i)) := of_inodes rfl
        exact (hrecorded.trans (of_filedup hdup)).trans (of_inodes rfl)
  · cases h
    exact refl _

theorem of_fork {r : Int} (h : k.fork p = .ok (k', r)) : KeepsFiles k k' := by
  have halloc : ∀ {np k1 b}, k.allocproc np = (k1, b) → KeepsFiles k k1 := by
    intro np k1 b h1
    rw [Kernel.allocproc] at h1
    split at h1 <;>
      · cases h1
        exact of_inodes rfl
  rw [Kernel.fork] at h
  split at h
  · cases h
    exact refl _
  · split at h
    case h_1 hfirst =>
      cases h
      exact halloc hfirst
    case h_2 hfirst =>
      split at h
      · cases h
      · split at h
        · cases h
        case h_2 hstack =>
          cases h
          exact (((halloc hfirst).trans (setMem _ _)).trans (of_freeStack hstack)).trans
            (setProc _ _ _)
      · dsimp only at h
        split at h
        · cases h
        case h_2 hfiles =>
          split at h
          · cases h
          case h_2 hvmas =>
            cases h
            have h1 := foldlM_relates refl (fun _ _ _ h h' => h.trans h')
              (fun _ _ _ h => of_forkFile h) hfiles
            have h2 := foldlM_relates refl (fun _ _ _ h h' => h.trans h')
              (fun _ _ _ h => of_forkVma h) hvmas
            exact (((((halloc hfirst).trans (setMem _ _)).trans (setProc _ _ _)).trans h1).trans
              h2).trans (setProc _ _ _)

theorem of_exitFile {fd : Fin nOfile} (h : k.exitFile p fd = .ok k') : KeepsFiles k k' := by
  rw [Kernel.exitFile] at h
  split at h
  · cases h
    exact refl _
  · split at h
    · cases h
    case h_2 hclose =>
      cases h
      exact (of_fileclose hclose).trans (of_inodes rfl)

theorem of_cleanSlot {j : Fin nVma} (h : k.cleanSlot p j = .ok k') : KeepsFiles k k' := by
  unfold Kernel.cleanSlot at h
  dsimp only at h
  split at h
  · split at h
    · cases h
      exact of_inodes rfl
    · split at h
      · cases h
      case h_2 hclose =>
        cases h
        exact (of_fileclose hclose).trans (of_inodes rfl)
  · cases h
    exact refl _

theorem of_exit (h : k.exit p = .ok k') : KeepsFiles k k' := by
  rw [Kernel.exit] at h
  split at h
  · cases h
  · split at h
    · cases h
    case h_2 k1 hfiles =>
      split at h
      · cases h
      case h_2 hclean =>
        cases h
        have h1 := foldlM_relates refl (fun _ _ _ h h' => h.trans h')
          (fun _ _ _ h => of_exitFile h) hfiles
        have h2 := foldlM_relates refl (fun _ _ _ h h' => h.trans h')
          (fun _ _ _ h => of_cleanSlot h) hclean
        have hreparent : KeepsFiles k1 (k1.reparent p) := of_inodes rfl
        exact ((h1.trans hreparent).trans h2).trans (of_inodes rfl)

theorem of_exec {path : Option Nat} {argv : List (List UInt8)} {r : Int}
    (h : k.exec p path argv = .ok (k', r)) : KeepsFiles k k' := by
  cases exec_outcome h with
  | failed mem => exact of_inodes rfl
  | loaded hd => exact of_inodes rfl

/-! ## Acts -/

theorem of_serve {c : Call} {r : Int} (h : c.serve k p = .ok (k', r)) : KeepsFiles k k' := by
  have hmap : ∀ {m : Result Kernel}, (m.map fun k => (k, (0 : Int))) = .ok (k', r) →
      m = .ok k' := by
    intro m hm
    cases m with
    | error e => cases hm
    | ok k1 =>
        cases hm
        rfl
  cases c with
  | sysOpen ip omode => exact of_sysOpen h
  | dup fd => exact of_sysDup h
  | close fd => exact of_sysClose h
  | mmap args => exact of_mmap h
  | munmap addr length => exact of_munmap h
  | fork => exact of_fork h
  | wait => exact of_wait h
  | exit => exact of_exit (hmap h)
  | fault addr => exact of_pageFault (hmap h)

theorem of_exitIfKilled {r r' : Int} (h : k.exitIfKilled p r = .ok (k', r')) :
    KeepsFiles k k' := by
  rw [Kernel.exitIfKilled] at h
  split at h
  · split at h
    · cases h
    case h_2 hexit =>
      cases h
      exact of_exit hexit
  · cases h
    exact refl _

theorem of_trap {c : Call} {r : Int} (h : c.trap k p = .ok (k', r)) : KeepsFiles k k' := by
  have hserved : ∀ {k1 r1}, c.serve k p = .ok (k1, r1) → k1.exitIfKilled p r1 = .ok (k', r) →
      KeepsFiles k k' := fun hserve hexit => (of_serve hserve).trans (of_exitIfKilled hexit)
  unfold Call.trap at h
  split at h
  · split at h
    · cases h
    case h_2 hserve => exact hserved hserve h
  · exact of_serve h
  · split at h
    · cases hexit : k.exit p with
      | error e =>
          rw [hexit] at h
          cases h
      | ok k1 =>
          rw [hexit] at h
          cases h
          exact of_exit hexit
    · split at h
      · cases h
      case h_2 hserve => exact hserved hserve h

theorem of_step {a : Fin nProc × Act} (h : ActStep k a k') : KeepsFiles k k' := by
  obtain ⟨p, a⟩ := a
  obtain ⟨-, k1, ⟨leftover, blocks, rfl⟩, hact⟩ := h
  have hlast : KeepsFiles k1 { k1 with leftover := leftover, freeBlocks := blocks } :=
    of_inodes rfl
  cases a with
  | call c =>
      obtain ⟨r, hcall⟩ := hact
      exact (of_trap hcall).trans hlast
  | exec path argv =>
      obtain ⟨-, r, hexec⟩ := hact
      exact (of_exec hexec).trans hlast

end KeepsFiles

/-- Along every run of acts the files are of their types and not too long. -/
theorem keepsFiles_of_run {k k' : Kernel} {acts : List (Fin nProc × Act)}
    (h : Run ActStep k acts k') : KeepsFiles k k' :=
  h.invariant (fun _ _ _ h1 hstep => h1.trans (.of_step hstep)) (.refl k)

end OSProjects.Xv6
