import OSProjects.Xv6.Proc

/-!
# Panics about reference counts

Only `filedup` and `fileclose` raise them. Every function that calls neither is quiet.
-/

namespace OSProjects.Xv6

/-- `panic("filedup")` and `panic("fileclose")`. -/
def Halt.counts : Halt → Bool
  | .filedup | .fileclose => true
  | _ => false

/-- The result is not a panic about reference counts. -/
def Quiet {α : Type} : Result α → Prop
  | .ok _ => True
  | .error h => h.counts = false

namespace Quiet

variable {α β : Type} {r : Result α} {h : Halt}

@[simp] theorem ok (a : α) : Quiet (.ok a : Result α) := trivial

theorem error (hr : Quiet r) (he : r = .error h) : Quiet (.error h : Result β) := by
  subst he
  exact hr

theorem ne_fileclose (hr : Quiet r) : r ≠ .error .fileclose := by
  rintro rfl
  cases hr

/-! ## Memory -/

theorem kfree (m : Mem) (pa : Nat) : Quiet (m.kfree pa) := by
  rw [Mem.kfree]
  split
  · exact ok _
  · rfl

theorem mapPage (s : Space) (a pa perm : Nat) : Quiet (s.mapPage a pa perm) := by
  rw [Space.mapPage]
  split
  · exact ok _
  · split
    · rfl
    · exact ok _

theorem mapLoop (last perm fuel a pa : Nat) (s : Space) :
    Quiet (s.mapLoop last perm fuel a pa) := by
  induction fuel generalizing a pa s with
  | zero => rfl
  | succ fuel ih =>
      rw [Space.mapLoop]
      split
      case h_1 he => exact (mapPage _ _ _ _).error he
      · exact ok _
      · split
        · exact ok _
        · exact ih _ _ _

theorem mappages (s : Space) (va size pa perm : Nat) : Quiet (s.mappages va size pa perm) :=
  mapLoop _ _ _ _ _ _

theorem deallocPage (s : Space) (a : Nat) : Quiet (s.deallocPage a) := by
  rw [Space.deallocPage]
  split
  · exact ok _
  · split
    · exact ok _
    · split
      · rfl
      · split
        case h_1 he => exact (kfree _ _).error he
        · exact ok _

theorem deallocLoop (oldsz fuel a : Nat) (s : Space) : Quiet (s.deallocLoop oldsz fuel a) := by
  induction fuel generalizing a s with
  | zero => rfl
  | succ fuel ih =>
      rw [Space.deallocLoop]
      split
      · split
        case h_1 he => exact (deallocPage _ _).error he
        · exact ih _ _
      · exact ok _

theorem dealloc (s : Space) (oldsz newsz : Nat) : Quiet (s.dealloc oldsz newsz) := by
  rw [Space.dealloc]
  split
  · exact ok _
  · exact deallocLoop _ _ _ _

theorem freeTables (d : Pgdir) (is : List Nat) (m : Mem) :
    Quiet (OSProjects.Xv6.freeTables d is m) := by
  induction is generalizing m with
  | nil => exact ok _
  | cons i rest ih =>
      rw [OSProjects.Xv6.freeTables]
      split
      · exact ih _
      · split
        case h_1 he => exact (kfree _ _).error he
        · exact ih _

theorem free (s : Space) : Quiet s.free := by
  rw [Space.free]
  split
  case h_1 he => exact (dealloc _ _ _).error he
  · split
    case h_1 he => exact (freeTables _ _ _).error he
    · exact kfree _ _

theorem setupkvm (m : Mem) : Quiet (OSProjects.Xv6.setupkvm m) := by
  rw [OSProjects.Xv6.setupkvm]
  split
  · exact ok _
  · split
    · exact ok _
    · split
      case h_1 he => exact (free _).error he
      · exact ok _

theorem copyPage (d : Pgdir) (i : Nat) (s : Space) : Quiet (OSProjects.Xv6.copyPage d i s) := by
  rw [OSProjects.Xv6.copyPage]
  split
  · rfl
  · split
    · rfl
    · split
      · exact ok _
      · split
        case h_1 he => exact (mappages _ _ _ _ _).error he
        · exact ok _
        · split
          case h_1 he => exact (kfree _ _).error he
          · exact ok _

theorem copyLoop (d : Pgdir) (n i : Nat) (s : Space) :
    Quiet (OSProjects.Xv6.copyLoop d n i s) := by
  induction n generalizing i s with
  | zero => exact ok _
  | succ n ih =>
      rw [OSProjects.Xv6.copyLoop]
      split
      case h_1 he => exact (copyPage _ _ _).error he
      · exact ok _
      · exact ih _ _

theorem copyuvm (m : Mem) (d : Pgdir) (sz : Nat) : Quiet (OSProjects.Xv6.copyuvm m d sz) := by
  rw [OSProjects.Xv6.copyuvm]
  split
  case h_1 he => exact (setupkvm _).error he
  · exact ok _
  · split
    case h_1 he => exact (copyLoop _ _ _ _).error he
    · exact ok _
    · split
      case h_1 he => exact (free _).error he
      · exact ok _

/-! ## Files and mappings -/

section Kernel

variable (k : Kernel) (p : Fin nProc)

theorem writeBytes (ip : Inode) (src : Option (List UInt8)) (off n : Nat) :
    Quiet (k.writeBytes ip src off n) := by
  unfold Kernel.writeBytes
  split
  · split
    · exact ok _
    · split
      · rfl
      · exact ok _
  · split
    · exact ok _
    · split
      · rfl
      · exact ok _

theorem writei (ip : Inode) (src : Option (List UInt8)) (off n : Nat) :
    Quiet (k.writei ip src off n) := by
  rw [Kernel.writei]
  split
  case h_1 he => exact (writeBytes _ _ _ _ _).error he
  · split
    · rfl
    · exact ok _

theorem writeoffLoop (ip data size fuel written : Nat) (offset : Int) :
    Quiet (Kernel.writeoffLoop p ip data size fuel written offset k) := by
  induction fuel generalizing k written offset with
  | zero => exact ok _
  | succ fuel ih =>
      rw [Kernel.writeoffLoop]
      split
      · dsimp only
        split
        case h_1 he => exact (writei _ _ _ _ _).error he
        · split
          · exact ok _
          · exact ih _ _ _
      · exact ok _

theorem filewriteoff (f : Fin nFile) (data : Nat) (size offset : Int) :
    Quiet (k.filewriteoff p f data size offset) := by
  rw [Kernel.filewriteoff]
  split
  · exact ok _
  · split
    · split
      case h_1 he => exact (writeoffLoop _ _ _ _ _ _ _ _).error he
      · exact ok _
    · rfl

theorem ofileAt (fd : Int) : Quiet (k.ofileAt p fd) := by
  rw [Kernel.ofileAt]
  split
  · exact ok _
  · rfl

theorem mmapRead (fd : Int) (i frame : Nat) : Quiet (k.mmapRead p fd i frame) := by
  rw [Kernel.mmapRead]
  split
  case h_1 he => exact (ofileAt _ _ _).error he
  · rfl
  · split
    · rfl
    · exact ok _

theorem mmapPage (a : MmapArgs) (addr i : Nat) : Quiet (k.mmapPage p a addr i) := by
  rw [Kernel.mmapPage]
  split
  · split
    case h_1 he => exact (dealloc _ _ _).error he
    · exact ok _
  · split
    case h_1 he => exact (mappages _ _ _ _ _).error he
    · split
      case h_1 he => exact (dealloc _ _ _).error he
      · split
        case h_1 he => exact (kfree _ _).error he
        · exact ok _
    · split
      · exact ok _
      · split
        case h_1 he => exact (mmapRead _ _ _ _ _).error he
        · exact ok _

theorem mmapLoop (a : MmapArgs) (addr n i : Nat) : Quiet (k.mmapLoop p a addr n i) := by
  induction n generalizing k i with
  | zero => exact ok _
  | succ n ih =>
      rw [Kernel.mmapLoop]
      split
      case h_1 he => exact (mmapPage _ _ _ _ _).error he
      · exact ok _
      · exact ih _ _

theorem mmap (a : MmapArgs) : Quiet (k.mmap p a) := by
  rw [Kernel.mmap]
  split
  · exact ok _
  · split
    · exact ok _
    · split
      · exact ok _
      · split
        case h_1 he => exact (mmapLoop _ _ _ _ _ _).error he
        · exact ok _
        · dsimp only
          split
          · exact ok _
          · split
            case h_1 he => exact (ofileAt _ _ _).error he
            · exact ok _

theorem writeBack (v : Vma) (data : Nat) (size offset : Int) :
    Quiet (k.writeBack p v data size offset) := by
  rw [Kernel.writeBack]
  split
  · rfl
  · split
    case h_1 he => exact (filewriteoff _ _ _ _ _ _).error he
    · exact ok _

theorem written (c : Bool) (v : Vma) (data : Nat) (size offset : Int) :
    Quiet (if c then k.writeBack p v data size offset else .ok k) := by
  split
  · exact writeBack _ _ _ _ _ _
  · exact ok _

theorem kernelDealloc (oldsz newsz : Nat) : Quiet (k.dealloc p oldsz newsz) := by
  rw [Kernel.dealloc]
  split
  case h_1 he => exact (dealloc _ _ _).error he
  · exact ok _

theorem munmapFirst (v : Vma) (addr : Nat) (length : Int) :
    Quiet (k.munmapFirst p v addr length) := by
  rw [Kernel.munmapFirst]
  split
  · exact ok _
  · dsimp only
    split
    case h_1 he => exact (written _ _ _ _ _ _ _).error he
    · split
      case h_1 he => exact (kernelDealloc _ _ _ _).error he
      · exact ok _

theorem munmapPage (v : Vma) (addr : Nat) (length off : Int) :
    Quiet (k.munmapPage p v addr length off) := by
  rw [Kernel.munmapPage]
  split
  case h_1 he => exact (written _ _ _ _ _ _ _).error he
  · exact kernelDealloc _ _ _ _

theorem munmapLoop (fuel : Nat) (j : Fin nVma) (addr : Nat) (length off : Int) :
    Quiet (k.munmapLoop p fuel j addr length off) := by
  induction fuel generalizing k j addr length off with
  | zero => rfl
  | succ fuel ih =>
      rw [Kernel.munmapLoop]
      split
      · dsimp only
        split
        case h_1 he => exact (munmapPage _ _ _ _ _ _).error he
        · exact ih _ _ _ _ _
      · exact ok _

theorem munmap (addr : Nat) (length : Int) : Quiet (k.munmap p addr length) := by
  rw [Kernel.munmap]
  split
  · rfl
  · dsimp only
    split
    case h_1 he => exact (munmapFirst _ _ _ _ _).error he
    · split
      · split
        case h_1 he => exact (munmapLoop _ _ _ _ _ _ _).error he
        · exact ok _
      · exact ok _

theorem pageFault (addr : Nat) : Quiet (k.pageFault p addr) := by
  rw [Kernel.pageFault]
  dsimp only
  split
  · exact ok _
  · split
    · exact ok _
    · split
      · exact ok _
      · split
        · exact ok _
        · split
          · exact ok _
          · split
            · exact ok _
            · split
              case h_1 he => exact (mappages _ _ _ _ _).error he
              · split
                · exact ok _
                · exact mmapRead _ _ _ _ _

theorem freeStack : Quiet (k.freeStack p) := by
  rw [Kernel.freeStack]
  split
  · rfl
  · split
    case h_1 he => exact (kfree _ _).error he
    · exact ok _

theorem wait : Quiet (k.wait p) := by
  rw [Kernel.wait]
  split
  · split
    · rfl
    · exact ok _
  · split
    case h_1 he => exact (freeStack _ _).error he
    · split
      case h_1 he => exact (free _).error he
      · exact ok _

end Kernel

end Quiet

end OSProjects.Xv6
