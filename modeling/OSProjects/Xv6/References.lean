import Mathlib.Data.Fintype.Prod
import OSProjects.Foundation.Loop
import OSProjects.Foundation.ReferenceCount
import OSProjects.Xv6.Panics
import OSProjects.Xv6.VmaTable

/-!
# Reference counts of open files

Descriptors and mappings refer to entries of the file table. As long as no mapping of a
file has been recorded, every count is the number of descriptors, and no call panics.
-/

namespace OSProjects.Xv6

open ReferenceCount StepSystem Loop

/-- The references from descriptors. -/
def Kernel.ofiles (k : Kernel) : Fin nProc × Fin nOfile → Option (Fin nFile) :=
  fun s => (k.procs s.1).ofile s.2

/-- The references from valid records. -/
def Kernel.pfs (k : Kernel) : Fin nProc × Fin nVma → Option (Fin nFile) :=
  fun s => if ((k.procs s.1).vmas s.2).valid then ((k.procs s.1).vmas s.2).pf else none

def Kernel.refCount (k : Kernel) (f : Fin nFile) : Nat := (k.ftable f).ref

/-- What the reference counts promise. -/
structure RefCounted (k : Kernel) : Prop where
  counted : ∀ f, k.refCount f = refs k.ofiles f + refs k.pfs f
  /-- A record never refers to a closed entry, -/
  open_ : ∀ s f, k.pfs s = some f → 0 < k.refCount f
  /-- nor to one that `filealloc` is about to hand out. -/
  kept : ∀ f k', k.filealloc = some (f, k') → ∀ s, k.pfs s ≠ some f

/-- The process may enter the kernel. -/
def Kernel.Runs (k : Kernel) (p : Fin nProc) : Prop :=
  (k.procs p).state = .runnable ∨ (k.procs p).state = .running

/-- A call by one of the processes. -/
abbrev ProcCall := Fin nProc × Call

def CallStep (k : Kernel) (c : ProcCall) (k' : Kernel) : Prop :=
  k.Runs c.1 ∧ ∃ k1 r, c.2.trap k c.1 = .ok (k1, r) ∧ k1.Meanwhile k'

/-- The law of reference counts, in every state that the calls lead through. -/
def RefLaw (k0 : Kernel) (calls : List ProcCall) : Prop :=
  ∀ pre k, pre <+: calls → Run CallStep k0 pre k →
    RefCounted k ∧ ∀ c : ProcCall, k.Runs c.1 → Quiet (c.2.trap k c.1)

/-- The call maps a file, and gets as far as recording the mapping. -/
def RecordsFile (k : Kernel) (p : Fin nProc) : Call → Prop
  | .mmap a =>
      (k.procs p).killed = false ∧ has a.flags mapAnonymous = false ∧ 0 < a.length ∧
        ∃ addr j k1 f, mmapAddr (k.procs p).pgdir a = some addr ∧
          mmapSlot (k.procs p).vmas = some j ∧
          k.mmapLoop p a addr ((pgRoundUpInt a.length).toNat / pgSize) 0 = .ok (k1, true) ∧
          k.ofileAt p a.fd = .ok (some f)
  | _ => False

/-! ## Counting descriptors -/

/-- A slot of the process table whose owner has left. -/
def ProcState.Dead (s : ProcState) : Prop := s = .unused ∨ s = .zombie

/-- Descriptors are counted, records hold no file, and who has left holds no descriptor. -/
structure FilesCounted (k : Kernel) : Prop where
  counted : Counted k.refCount k.ofiles
  noPf : ∀ p j, ((k.procs p).vmas j).pf = none
  closed : ∀ p, (k.procs p).state.Dead → ∀ fd, (k.procs p).ofile fd = none

section Counting

variable {k k' : Kernel} {p np : Fin nProc}

theorem ofiles_setOfile (fd : Fin nOfile) (x : Option (Fin nFile)) :
    (k.setOfile p fd x).ofiles = Function.update k.ofiles (p, fd) x := by
  ext1 ⟨q, i⟩
  rcases eq_or_ne q p with rfl | hq
  · rcases eq_or_ne i fd with rfl | hi
    · simp [Kernel.ofiles, Kernel.setOfile]
    · simp [Kernel.ofiles, Kernel.setOfile, hi]
  · simp [Kernel.ofiles, Kernel.setOfile, hq]

theorem refCount_setFile (f : Fin nFile) (y : File) :
    (k.setFile f y).refCount = Function.update k.refCount f y.ref := by
  ext1 g
  rcases eq_or_ne g f with rfl | hne
  · simp [Kernel.refCount]
  · simp [Kernel.refCount, hne]

namespace FilesCounted

theorem pos (h : FilesCounted k) {fd : Fin nOfile} {f : Fin nFile}
    (hf : (k.procs p).ofile fd = some f) : 0 < (k.ftable f).ref :=
  h.counted.pos (i := (p, fd)) hf

theorem pfs_eq_none (h : FilesCounted k) (s : Fin nProc × Fin nVma) : k.pfs s = none := by
  rw [Kernel.pfs, h.noPf, ite_self]

theorem refs_pfs (h : FilesCounted k) (f : Fin nFile) : refs k.pfs f = 0 :=
  refs_eq_zero fun s => by simp [h.pfs_eq_none s]

theorem refCounted (h : FilesCounted k) : RefCounted k := by
  refine ⟨fun f => ?_, fun s f hs => ?_, fun f k' _ s hs => ?_⟩
  · rw [h.refs_pfs, Nat.add_zero]
    exact h.counted f
  · rw [h.pfs_eq_none] at hs
    cases hs
  · rw [h.pfs_eq_none] at hs
    cases hs

/-- Whatever leaves descriptors and counts alone and stores no file pointer. -/
theorem of_same (h : FilesCounted k) (hofile : ∀ q, (k'.procs q).ofile = (k.procs q).ofile)
    (href : k'.refCount = k.refCount) (hpf : ∀ q j, ((k'.procs q).vmas j).pf = none)
    (hdead : ∀ q, (k'.procs q).state.Dead →
      (k.procs q).state.Dead ∨ ∀ fd, (k.procs q).ofile fd = none) : FilesCounted k' := by
  have hofiles : k'.ofiles = k.ofiles := funext fun s => by simp only [Kernel.ofiles, hofile]
  refine ⟨by rw [hofiles, href]; exact h.counted, hpf, fun q hq fd => ?_⟩
  rw [hofile]
  rcases hdead q hq with hq | hnone
  · exact h.closed q hq fd
  · exact hnone fd

/-- An update of one process. -/
theorem setProc (h : FilesCounted k) {x : Proc} (hofile : x.ofile = (k.procs p).ofile)
    (hpf : ∀ j, (x.vmas j).pf = none)
    (hdead : x.state.Dead → (k.procs p).state.Dead ∨ ∀ fd, (k.procs p).ofile fd = none) :
    FilesCounted (k.setProc p x) := by
  refine h.of_same (fun q => ?_) rfl (fun q j => ?_) fun q hq => ?_
  · rcases eq_or_ne q p with rfl | hne
    · simpa using hofile
    · simp [hne]
  · rcases eq_or_ne q p with rfl | hne
    · simpa using hpf j
    · simpa [hne] using h.noPf q j
  · rcases eq_or_ne q p with rfl | hne
    · exact hdead (by simpa using hq)
    · exact Or.inl (by simpa [hne] using hq)

theorem setMem (h : FilesCounted k) (m : Mem) : FilesCounted { k with mem := m } :=
  ⟨h.counted, h.noPf, h.closed⟩

theorem setSpace (h : FilesCounted k) (s : Space) : FilesCounted (k.setSpace p s) :=
  (h.setProc (p := p) (x := { k.procs p with pgdir := s.pgdir }) rfl (h.noPf p)
    fun hd => Or.inl hd).setMem s.mem

theorem setVma (h : FilesCounted k) {j : Fin nVma} {v : Vma} (hv : v.pf = none) :
    FilesCounted (k.setVma p j v) := by
  refine h.setProc rfl (fun i => ?_) fun hd => Or.inl hd
  rcases eq_or_ne i j with rfl | hne
  · simpa using hv
  · simpa [hne] using h.noPf p i

theorem spaceAndFiles (h : FilesCounted k) (hs : SpaceAndFiles p k k') : FilesCounted k' := by
  obtain ⟨s, inodes, blocks, rfl⟩ := hs
  have := h.setSpace (p := p) s
  exact ⟨this.counted, this.noPf, this.closed⟩

/-- A reference is taken and stored in an empty descriptor. -/
theorem fill (h : FilesCounted k) {fd : Fin nOfile} {f : Fin nFile} {y : File}
    (hnone : (k.procs p).ofile fd = none) (hlive : ¬(k.procs p).state.Dead)
    (hy : y.ref = (k.ftable f).ref + 1) :
    FilesCounted ((k.setFile f y).setOfile p fd (some f)) := by
  have hcounted := h.counted.fill (i := (p, fd)) (a := f) hnone
  refine ⟨?_, fun q j => ?_, fun q hq i => ?_⟩
  · rw [ofiles_setOfile]
    have href : ((k.setFile f y).setOfile p fd (some f)).refCount =
        Function.update k.refCount f (k.refCount f + 1) := by
      have hset := refCount_setFile (k := k) f y
      rw [hy] at hset
      exact hset
    rw [href]
    exact hcounted
  · rcases eq_or_ne q p with rfl | hne
    · simpa [Kernel.setOfile] using h.noPf q j
    · simpa [Kernel.setOfile, hne] using h.noPf q j
  · rcases eq_or_ne q p with rfl | hne
    · exact absurd (by simpa [Kernel.setOfile] using hq) hlive
    · have hq' : (k.procs q).state.Dead := by simpa [Kernel.setOfile, hne] using hq
      simpa [Kernel.setOfile, hne] using h.closed q hq' i

/-- A descriptor is emptied and its reference given back. -/
theorem empty (h : FilesCounted k) {fd : Fin nOfile} {f : Fin nFile} {y : File}
    (hf : (k.procs p).ofile fd = some f) (hy : y.ref = (k.ftable f).ref - 1) :
    FilesCounted ((k.setFile f y).setOfile p fd none) := by
  have hcounted := h.counted.empty (i := (p, fd)) (a := f) hf
  refine ⟨?_, fun q j => ?_, fun q hq i => ?_⟩
  · rw [ofiles_setOfile]
    have href : ((k.setFile f y).setOfile p fd none).refCount =
        Function.update k.refCount f (k.refCount f - 1) := by
      have hset := refCount_setFile (k := k) f y
      rw [hy] at hset
      exact hset
    rw [href]
    exact hcounted
  · rcases eq_or_ne q p with rfl | hne
    · simpa [Kernel.setOfile] using h.noPf q j
    · simpa [Kernel.setOfile, hne] using h.noPf q j
  · rcases eq_or_ne q p with rfl | hne
    · rcases eq_or_ne i fd with rfl | hi
      · simp [Kernel.setOfile]
      · have hq' : (k.procs q).state.Dead := by simpa [Kernel.setOfile] using hq
        simpa [Kernel.setOfile, hi] using h.closed q hq' i
    · have hq' : (k.procs q).state.Dead := by simpa [Kernel.setOfile, hne] using hq
      simpa [Kernel.setOfile, hne] using h.closed q hq' i

end FilesCounted

theorem Kernel.Runs.not_dead (h : k.Runs p) : ¬(k.procs p).state.Dead := by
  rintro (hd | hd)
  · rcases h with h | h <;> simp [hd] at h
  · rcases h with h | h <;> simp [hd] at h

/-- `filedup` of an open entry. -/
theorem filedup_eq_ok {f : Fin nFile} (h : 0 < (k.ftable f).ref) :
    k.filedup f = .ok (k.setFile f { k.ftable f with ref := (k.ftable f).ref + 1 }) := by
  rw [Kernel.filedup, if_neg (by omega)]

/-- `fileclose` of an open entry. -/
theorem fileclose_eq_ok {f : Fin nFile} (h : 0 < (k.ftable f).ref) :
    ∃ y : File, y.ref = (k.ftable f).ref - 1 ∧ k.fileclose f = .ok (k.setFile f y) := by
  rw [Kernel.fileclose, if_neg (by omega)]
  by_cases hlast : 0 < (k.ftable f).ref - 1
  · rw [if_pos hlast]
    exact ⟨_, rfl, rfl⟩
  · rw [if_neg hlast]
    refine ⟨_, ?_, rfl⟩
    simp only
    omega

/-! ## The operations -/

/-- The call does not panic about a count, and if it returns the counts are right. -/
def Counts : Result (Kernel × Int) → Prop
  | .ok (k, _) => FilesCounted k
  | .error h => h.counts = false

theorem Counts.of_quiet {r : Result (Kernel × Int)} (hquiet : Quiet r)
    (hok : ∀ k v, r = .ok (k, v) → FilesCounted k) : Counts r := by
  cases r with
  | error h => exact hquiet
  | ok x => exact hok x.1 x.2 rfl

theorem Counts.quiet {r : Result (Kernel × Int)} (h : Counts r) : Quiet r := by
  cases r with
  | error h' => exact h
  | ok x => exact Quiet.ok x

theorem argfd_eq_some {fd : Int} {x : Fin nOfile × Fin nFile} (h : k.argfd p fd = some x) :
    (k.procs p).ofile x.1 = some x.2 := by
  rw [Kernel.argfd] at h
  split at h
  · obtain ⟨f, hf, rfl⟩ := Option.map_eq_some_iff.mp h
    exact hf
  · cases h

theorem fdalloc_eq_some {f : Fin nFile} {fd : Fin nOfile} (h : k.fdalloc p f = some (fd, k')) :
    (k.procs p).ofile fd = none ∧ k' = k.setOfile p fd (some f) := by
  rw [Kernel.fdalloc] at h
  split at h
  · cases h
  case h_2 fd' hfind =>
    simp only [Option.some.injEq, Prod.mk.injEq] at h
    obtain ⟨rfl, rfl⟩ := h
    exact ⟨by simpa using List.find?_some hfind, rfl⟩

theorem filealloc_eq_some {f : Fin nFile} (h : k.filealloc = some (f, k')) :
    (k.ftable f).ref = 0 ∧ k' = k.setFile f { k.ftable f with ref := 1 } := by
  rw [Kernel.filealloc] at h
  split at h
  · cases h
  case h_2 f' hfind =>
    simp only [Option.some.injEq, Prod.mk.injEq] at h
    obtain ⟨rfl, rfl⟩ := h
    exact ⟨by simpa using List.find?_some hfind, rfl⟩

namespace FilesCounted

theorem sysDup (h : FilesCounted k) (hp : k.Runs p) (fd : Int) : Counts (k.sysDup p fd) := by
  rw [Kernel.sysDup]
  split
  · exact h
  case h_2 old f harg =>
    split
    · exact h
    case h_2 newfd k1 halloc =>
      obtain ⟨hnone, rfl⟩ := fdalloc_eq_some halloc
      rw [filedup_eq_ok (k := k.setOfile p newfd (some f)) (h.pos (argfd_eq_some harg))]
      exact h.fill (y := { k.ftable f with ref := (k.ftable f).ref + 1 }) hnone hp.not_dead rfl

theorem sysClose (h : FilesCounted k) (fd : Int) : Counts (k.sysClose p fd) := by
  rw [Kernel.sysClose]
  split
  · exact h
  case h_2 old f harg =>
    have hold := argfd_eq_some harg
    obtain ⟨y, hy, hclose⟩ := fileclose_eq_ok (k := k.setOfile p old none) (h.pos hold)
    rw [hclose]
    exact h.empty hold hy

theorem sysOpen (h : FilesCounted k) (hp : k.Runs p) (ip : Option Nat) (omode : Nat) :
    Counts (k.sysOpen p ip omode) := by
  unfold Kernel.sysOpen
  split
  · exact h
  · split
    · exact h
    · split
      · exact h
      case h_2 f k1 halloc =>
        obtain ⟨hzero, rfl⟩ := filealloc_eq_some halloc
        split
        · -- No descriptor is free: the entry is closed again.
          obtain ⟨y, hy, hclose⟩ := fileclose_eq_ok (f := f)
            (k := k.setFile f { k.ftable f with ref := 1 }) (by simp)
          rw [hclose]
          refine h.of_same (fun _ => rfl) ?_ h.noPf fun q hq => Or.inl hq
          rw [Kernel.ftable_setFile, Function.update_self] at hy
          rw [refCount_setFile, refCount_setFile, Function.update_idem]
          refine Function.update_eq_self_iff.mpr ?_
          rw [hy]
          exact hzero.symm
        case h_2 fd k2 hfd =>
          obtain ⟨hnone, rfl⟩ := fdalloc_eq_some hfd
          have hfill := h.fill (f := f) (y := { k.ftable f with ref := 1 }) hnone hp.not_dead
            (by simp only [hzero])
          refine hfill.of_same (fun _ => rfl) ?_ hfill.noPf fun q hq => Or.inl hq
          rw [refCount_setFile]
          exact Function.update_eq_self_iff.mpr rfl

theorem segfault (h : FilesCounted k) : FilesCounted (k.segfault p) :=
  h.setProc rfl (h.noPf p) fun hd => Or.inl hd

theorem mmapRead (h : FilesCounted k) {fd : Int} {i frame : Nat}
    (hr : k.mmapRead p fd i frame = .ok k') : FilesCounted k' := by
  obtain ⟨bytes, rfl⟩ := Kernel.mmapRead_eq hr
  exact h.setSpace _

/-- The table after a growth holds no file pointer either. -/
theorem updateVmaStructure_pf {vmas : Fin nVma → Vma} (h : ∀ j, (vmas j).pf = none)
    (next grow j : Fin nVma) : (updateVmaStructure vmas next grow j).pf = none := by
  simp only [updateVmaStructure]
  rcases eq_or_ne j next with rfl | hj
  · rw [Function.update_self, Function.update_self]
    exact h grow
  · rw [Function.update_of_ne hj]
    rcases eq_or_ne j grow with rfl | hg
    · rw [Function.update_self]
      exact h j
    · rw [Function.update_of_ne hg]
      exact h j

theorem pageFault (h : FilesCounted k) {addr : Nat} (hf : k.pageFault p addr = .ok k') :
    FilesCounted k' := by
  rw [Kernel.pageFault] at hf
  dsimp only at hf
  split at hf
  · exact Except.ok.inj hf ▸ h.segfault
  · split at hf
    · exact Except.ok.inj hf ▸ h.segfault
    · split at hf
      · exact Except.ok.inj hf ▸ h.segfault
      · split at hf
        · exact Except.ok.inj hf ▸ h.segfault
        case h_2 next grow _ =>
          split at hf
          · exact Except.ok.inj hf ▸ h.segfault
          · split at hf
            · exact Except.ok.inj hf ▸ h.segfault
            · split at hf
              · cases hf
              case h_2 s _ _ =>
                have hgrown := (h.setSpace (p := p) s).setProc (p := p)
                  (x := { (k.setSpace p s).procs p with
                    vmas := updateVmaStructure ((k.setSpace p s).procs p).vmas next grow })
                  rfl (updateVmaStructure_pf ((h.setSpace s).noPf p) next grow)
                  fun hd => Or.inl hd
                split at hf
                · exact Except.ok.inj hf ▸ hgrown
                · exact hgrown.mmapRead hf

/-- A call of `mmap` that records no file. -/
theorem mmap (h : FilesCounted k) {a : MmapArgs}
    (hno : has a.flags mapAnonymous = false → 0 < a.length →
      ¬∃ addr j k1 f, mmapAddr (k.procs p).pgdir a = some addr ∧
        mmapSlot (k.procs p).vmas = some j ∧
        k.mmapLoop p a addr ((pgRoundUpInt a.length).toNat / pgSize) 0 = .ok (k1, true) ∧
        k.ofileAt p a.fd = .ok (some f)) : Counts (k.mmap p a) := by
  refine Counts.of_quiet (Quiet.mmap k p a) fun k' v hk' => ?_
  cases mmap_outcome hk' with
  | refused => exact h
  | gaveUp _ _ _ hloop =>
      obtain ⟨s, rfl⟩ := mmapLoop_space hloop
      exact h.setSpace s
  | @mapped addr j k1 f hlength haddr hslot hloop hf =>
      obtain ⟨s, rfl⟩ := mmapLoop_space hloop
      refine (h.setSpace (p := p) s).setVma ?_
      by_cases hanon : has a.flags mapAnonymous = true
      · rw [if_pos hanon] at hf
        rw [hf]
        exact (h.setSpace s).noPf p j
      · rw [if_neg hanon] at hf
        have hof : k.ofileAt p a.fd = .ok f := by
          simpa [Kernel.ofileAt] using hf
        cases f with
        | none => rfl
        | some f =>
            exact absurd ⟨addr, j, _, f, haddr, hslot, hloop, hof⟩
              (hno (by simpa using hanon) hlength)

theorem munmap (h : FilesCounted k) (addr : Nat) (length : Int) :
    Counts (k.munmap p addr length) :=
  Counts.of_quiet (Quiet.munmap k p addr length) fun _ _ hk' =>
    h.spaceAndFiles (SpaceAndFiles.of_munmap hk')

theorem freeStack (h : FilesCounted k) (hs : k.freeStack p = .ok k') :
    FilesCounted k' ∧ ∀ q, (k'.procs q).state = (k.procs q).state ∧
      (k'.procs q).ofile = (k.procs q).ofile := by
  rw [Kernel.freeStack] at hs
  split at hs
  · cases hs
  · split at hs
    · cases hs
    case h_2 mem _ =>
      obtain rfl := Except.ok.inj hs
      refine ⟨(h.setMem mem).setProc rfl (h.noPf p) fun hd => Or.inl hd, fun q => ?_⟩
      rcases eq_or_ne q p with rfl | hne
      · simp
      · simp [hne]

theorem wait (h : FilesCounted k) : Counts (k.wait p) := by
  refine Counts.of_quiet (Quiet.wait k p) fun k' v hk' => ?_
  rw [Kernel.wait] at hk'
  split at hk'
  · split at hk'
    · cases hk'
    · simp only [Except.ok.injEq, Prod.mk.injEq] at hk'
      exact hk'.1 ▸ h
  case h_2 q hfind =>
    have hzombie : (k.procs q).state = .zombie := by
      have := List.find?_some hfind
      simp only [decide_eq_true_eq] at this
      exact this.2
    split at hk'
    · cases hk'
    case h_2 k1 hstack =>
      obtain ⟨h1, hstate⟩ := h.freeStack hstack
      split at hk'
      · cases hk'
      case h_2 mem _ =>
        simp only [Except.ok.injEq, Prod.mk.injEq] at hk'
        rw [← hk'.1]
        refine (h1.setMem mem).setProc rfl (h1.noPf q) fun _ => Or.inl (Or.inr ?_)
        rw [(hstate q).1, hzombie]

/-- One turn of the loop of `exit` empties a descriptor. -/
theorem exitFile (h : FilesCounted k) (fd : Fin nOfile) :
    ∃ k', Kernel.exitFile p k fd = .ok k' ∧ FilesCounted k' ∧
      ∀ i, (k'.procs p).ofile i = if i = fd then none else (k.procs p).ofile i := by
  cases hf : (k.procs p).ofile fd with
  | none =>
      refine ⟨k, by rw [Kernel.exitFile, hf], h, fun i => ?_⟩
      rcases eq_or_ne i fd with rfl | hne
      · rw [hf, if_pos rfl]
      · rw [if_neg hne]
  | some f =>
      obtain ⟨y, hy, hclose⟩ := fileclose_eq_ok (h.pos hf)
      refine ⟨_, by rw [Kernel.exitFile, hf]; simp only [hclose], h.empty hf hy,
        fun i => ?_⟩
      rcases eq_or_ne i fd with rfl | hne
      · simp [Kernel.setOfile]
      · simp [Kernel.setOfile, hne]

/-- One turn of `clean_vma` invalidates a record. -/
theorem cleanSlot (h : FilesCounted k) (j : Fin nVma) :
    ∃ k', Kernel.cleanSlot p k j = .ok k' ∧ FilesCounted k' ∧
      (k'.procs p).ofile = (k.procs p).ofile := by
  unfold Kernel.cleanSlot
  dsimp only
  split
  · rw [h.noPf p j]
    exact ⟨_, rfl, h.setVma rfl, by simp [Kernel.setVma]⟩
  · exact ⟨k, rfl, h, rfl⟩

theorem reparent (h : FilesCounted k) : FilesCounted (k.reparent p) := by
  have hsame : ∀ q, ((k.reparent p).procs q).ofile = (k.procs q).ofile ∧
      ((k.reparent p).procs q).vmas = (k.procs q).vmas ∧
      ((k.reparent p).procs q).state = (k.procs q).state := by
    intro q
    simp only [Kernel.reparent]
    split <;> exact ⟨rfl, rfl, rfl⟩
  refine h.of_same (fun q => (hsame q).1) rfl (fun q j => ?_) fun q hq => Or.inl ?_
  · rw [(hsame q).2.1]
    exact h.noPf q j
  · rwa [(hsame q).2.2] at hq

theorem exit (h : FilesCounted k) (r : Int) : Counts ((k.exit p).map fun k => (k, r)) := by
  rw [Kernel.exit]
  split
  · rfl
  · obtain ⟨k1, hfold, h1, -, hclosed⟩ := foldlM_total (Kernel.exitFile p)
      (P := fun rest k1 => FilesCounted k1 ∧ rest.Nodup ∧
        ∀ fd, fd ∉ rest → (k1.procs p).ofile fd = none)
      (fun fd rest k1 ⟨h1, hnodup, hclosed⟩ => by
        obtain ⟨k2, hk2, h2, hofile⟩ := h1.exitFile (p := p) fd
        refine ⟨k2, hk2, h2, (List.nodup_cons.mp hnodup).2, fun i hi => ?_⟩
        rw [hofile]
        split
        · rfl
        case isFalse hne => exact hclosed i (by simp [hne, hi]))
      (List.finRange nOfile) k
      ⟨h, List.nodup_finRange _, fun fd hfd => absurd (List.mem_finRange fd) hfd⟩
    obtain ⟨k2, hclean, h2, hclosed2⟩ := foldlM_total (Kernel.cleanSlot p)
      (P := fun _ k2 => FilesCounted k2 ∧ ∀ fd, (k2.procs p).ofile fd = none)
      (fun j _ k2 ⟨h2, hclosed2⟩ => by
        obtain ⟨k3, hk3, h3, hofile⟩ := h2.cleanSlot (p := p) j
        exact ⟨k3, hk3, h3, fun fd => by rw [hofile]; exact hclosed2 fd⟩)
      (List.finRange nVma) (k1.reparent p)
      ⟨h1.reparent, fun fd => by
        have hfd := hclosed fd (by simp)
        simp only [Kernel.reparent]
        split <;> exact hfd⟩
    rw [hfold]
    dsimp only
    rw [Kernel.cleanVma, hclean]
    exact h2.setProc rfl (h2.noPf p) fun _ => Or.inr hclosed2

/-- One turn of the loop of `fork` over the descriptors. -/
theorem forkFile (h : FilesCounted k) (hstate : (k.procs np).state = .embryo) {i : Fin nOfile}
    (hnone : (k.procs np).ofile i = none) :
    ∃ k', Kernel.forkFile p np k i = .ok k' ∧ FilesCounted k' ∧
      (k'.procs np).state = .embryo ∧
        ∀ fd, fd ≠ i → (k'.procs np).ofile fd = (k.procs np).ofile fd := by
  cases hf : (k.procs p).ofile i with
  | none => exact ⟨k, by rw [Kernel.forkFile, hf], h, hstate, fun _ _ => rfl⟩
  | some f =>
      refine ⟨_, by rw [Kernel.forkFile, hf]; simp only [filedup_eq_ok (h.pos hf)]; rfl,
        h.fill hnone (by simp [hstate, ProcState.Dead]) rfl, ?_, fun fd hne => ?_⟩
      · simpa [Kernel.setOfile] using hstate
      · simp [Kernel.setOfile, hne]

/-- One turn of the loop of `fork` over the mappings. -/
theorem forkVma (h : FilesCounted k) (hstate : (k.procs np).state = .embryo) (i : Fin nVma) :
    ∃ k', Kernel.forkVma p np k i = .ok k' ∧ FilesCounted k' ∧
      (k'.procs np).state = .embryo := by
  unfold Kernel.forkVma
  split
  · rw [Kernel.copyVma, h.noPf p i]
    exact ⟨_, rfl, h.setVma rfl, by simpa [Kernel.setVma] using hstate⟩
  · exact ⟨k, rfl, h, hstate⟩

/-- What `allocproc` leaves for a slot that was not in use. -/
theorem allocproc (h : FilesCounted k) (hunused : (k.procs np).state = .unused) {b : Bool}
    (ha : k.allocproc np = (k', b)) :
    FilesCounted k' ∧ (∀ fd, (k'.procs np).ofile fd = none) ∧
      (b = true → (k'.procs np).state = .embryo) := by
  have hclosed := h.closed np (Or.inl hunused)
  rw [Kernel.allocproc] at ha
  dsimp only at ha
  split at ha
  · simp only [Prod.mk.injEq] at ha
    obtain ⟨rfl, rfl⟩ := ha
    have hpid : FilesCounted { k with nextpid := k.nextpid + 1 } :=
      ⟨h.counted, h.noPf, h.closed⟩
    exact ⟨hpid.setProc rfl (h.noPf np) fun _ => Or.inr hclosed,
      fun fd => by simpa using hclosed fd, by simp⟩
  case h_2 stack mem _ =>
    simp only [Prod.mk.injEq] at ha
    obtain ⟨rfl, rfl⟩ := ha
    have hpid : FilesCounted { k with nextpid := k.nextpid + 1, mem := mem } :=
      ⟨h.counted, h.noPf, h.closed⟩
    exact ⟨hpid.setProc rfl (h.noPf np) (by simp [ProcState.Dead]),
      fun fd => by simpa using hclosed fd, by simp⟩

theorem fork (h : FilesCounted k) : Counts (k.fork p) := by
  rw [Kernel.fork]
  split
  · exact h
  case h_2 np hfind =>
    have hunused : (k.procs np).state = .unused := by simpa using List.find?_some hfind
    split
    case h_1 k1 ha => exact (h.allocproc hunused ha).1
    case h_2 k1 ha =>
      obtain ⟨h1, hclosed, hembryo⟩ := h.allocproc hunused ha
      split
      case h_1 e he => exact Quiet.error (Quiet.copyuvm _ _ _) he (β := Kernel × Int)
      case h_2 mem _ =>
        split
        case h_1 e he => exact Quiet.error (Quiet.freeStack _ _) he (β := Kernel × Int)
        case h_2 k2 hstack =>
          obtain ⟨h2, hsame⟩ := (h1.setMem mem).freeStack hstack
          refine h2.setProc rfl (h2.noPf np) fun _ => Or.inr fun fd => ?_
          rw [(hsame np).2]
          exact hclosed fd
      case h_3 mem d _ =>
        dsimp only
        have h2 := (h1.setMem mem).setProc (p := np) (x := { k1.procs np with
          pgdir := d, sz := (k1.procs p).sz, parent := some p }) rfl (h1.noPf np)
          fun hd => Or.inl hd
        obtain ⟨k3, hfiles, h3, -, hembryo3, -⟩ := foldlM_total (Kernel.forkFile p np)
          (P := fun rest k3 => FilesCounted k3 ∧ rest.Nodup ∧ (k3.procs np).state = .embryo ∧
            ∀ i ∈ rest, (k3.procs np).ofile i = none)
          (fun i rest k3 ⟨h3, hnodup, hstate, hnone⟩ => by
            obtain ⟨hi, hrest⟩ := List.nodup_cons.mp hnodup
            obtain ⟨k4, hk4, h4, hstate4, hofile⟩ :=
              h3.forkFile (p := p) hstate (hnone i List.mem_cons_self)
            refine ⟨k4, hk4, h4, hrest, hstate4, fun j hj => ?_⟩
            rw [hofile j (fun hji => hi (hji ▸ hj))]
            exact hnone j (List.mem_cons_of_mem _ hj))
          (List.finRange nOfile) _
          ⟨h2, List.nodup_finRange _, by simpa using hembryo rfl,
            fun i _ => by simpa using hclosed i⟩
        obtain ⟨k4, hvmas, h4, hembryo4⟩ := foldlM_total (Kernel.forkVma p np)
          (P := fun _ k4 => FilesCounted k4 ∧ (k4.procs np).state = .embryo)
          (fun i _ k4 ⟨h4, hstate⟩ => h4.forkVma hstate i)
          (List.finRange nVma) k3 ⟨h3, hembryo3⟩
        rw [hfiles]
        dsimp only
        rw [hvmas]
        exact h4.setProc rfl (h4.noPf np) (by simp [ProcState.Dead])

/-! ## Whole calls -/

theorem exitIfKilled (h : FilesCounted k) (r : Int) : Counts (k.exitIfKilled p r) := by
  rw [Kernel.exitIfKilled]
  split
  · have hexit := h.exit (p := p) r
    cases he : k.exit p with
    | error e =>
        rw [he] at hexit
        exact hexit
    | ok k1 =>
        rw [he] at hexit
        exact hexit
  · exact h

theorem serve (h : FilesCounted k) (hp : k.Runs p) {c : Call}
    (hkilled : ∀ a, c = .mmap a → (k.procs p).killed = false)
    (hno : ¬RecordsFile k p c) : Counts (c.serve k p) := by
  cases c with
  | sysOpen ip omode => exact h.sysOpen hp ip omode
  | dup fd => exact h.sysDup hp fd
  | close fd => exact h.sysClose fd
  | mmap a => exact h.mmap fun hanon hlength hrec => hno ⟨hkilled a rfl, hanon, hlength, hrec⟩
  | munmap addr length => exact h.munmap addr length
  | fork => exact h.fork
  | wait => exact h.wait
  | exit => exact h.exit 0
  | fault addr =>
      refine Counts.of_quiet ?_ fun k' v hk' => ?_
      · rw [Call.serve]
        cases hf : k.pageFault p addr with
        | error e => exact (Quiet.pageFault k p addr).error hf
        | ok k1 => exact Quiet.ok _
      · rw [Call.serve] at hk'
        cases hf : k.pageFault p addr with
        | error e => simp [hf, Except.map] at hk'
        | ok k1 =>
            simp only [hf, Except.map, Except.ok.injEq, Prod.mk.injEq] at hk'
            exact hk'.1 ▸ h.pageFault hf

/-- A call that records no file keeps the counts right, whatever becomes of the process. -/
theorem trap (h : FilesCounted k) (hp : k.Runs p) {c : Call} (hno : ¬RecordsFile k p c) :
    Counts (c.trap k p) := by
  -- Both kinds of calls that return go on with the result of `serve`.
  have hserved {t : Result (Kernel × Int)} (hkilled : ∀ a, c = .mmap a → (k.procs p).killed = false)
      (herror : ∀ e, c.serve k p = .error e → t = .error e)
      (hok : ∀ x, c.serve k p = .ok x → t = x.1.exitIfKilled p x.2) : Counts t := by
    have hserve := h.serve hp hkilled hno
    cases hs : c.serve k p with
    | error e =>
        rw [hs] at hserve
        rw [herror e hs]
        exact hserve
    | ok x =>
        rw [hs] at hserve
        rw [hok x hs]
        exact hserve.exitIfKilled x.2
  unfold Call.trap
  split
  · exact hserved (fun a ha => by cases ha) (fun e he => by rw [he]) fun x hx => by rw [hx]
  · exact h.serve hp (fun a ha => by cases ha) hno
  · split
    · exact h.exit 0
    case isFalse hkilled =>
      exact hserved (fun _ _ => by simpa using hkilled) (fun e he => by rw [he])
        fun x hx => by rw [hx]

end FilesCounted

theorem CallStep.filesCounted {c : ProcCall} (h : FilesCounted k) (hstep : CallStep k c k')
    (hno : ¬RecordsFile k c.1 c.2) : FilesCounted k' := by
  obtain ⟨hp, k1, r, hr, leftover, blocks, rfl⟩ := hstep
  have hcounts := h.trap hp hno
  rw [hr] at hcounts
  exact ⟨hcounts.counted, hcounts.noPf, hcounts.closed⟩

/-- The record of a file holds a reference that nobody has counted. -/
theorem FilesCounted.setVma_unbalanced (h : FilesCounted k) {j : Fin nVma} {v : Vma}
    {f : Fin nFile} (hvalid : v.valid = true) (hpf : v.pf = some f) :
    ¬RefCounted (k.setVma p j v) := by
  intro hcounted
  have hofiles : (k.setVma p j v).ofiles = k.ofiles := by
    ext1 ⟨q, i⟩
    rcases eq_or_ne q p with rfl | hq
    · simp [Kernel.ofiles, Kernel.setVma]
    · simp [Kernel.ofiles, Kernel.setVma, hq]
  have hpos : 0 < refs (k.setVma p j v).pfs f :=
    refs_pos (i := (p, j)) (by simp [Kernel.pfs, Kernel.setVma, hvalid, hpf])
  have hlt : (k.setVma p j v).refCount f < (k.setVma p j v).refCount f :=
    calc (k.setVma p j v).refCount f = refs k.ofiles f := h.counted f
      _ < refs k.ofiles f + refs (k.setVma p j v).pfs f := Nat.lt_add_of_pos_right hpos
      _ = (k.setVma p j v).refCount f := by rw [hcounted.counted f, hofiles]
  exact lt_irrefl _ hlt

theorem FilesCounted.records_unbalanced (h : FilesCounted k) {c : ProcCall} (hp : k.Runs c.1)
    (hrec : RecordsFile k c.1 c.2) : ∃ k', CallStep k c k' ∧ ¬RefCounted k' := by
  obtain ⟨p, c⟩ := c
  cases c with
  | mmap a =>
      obtain ⟨hkilled, hanon, hlength, addr, j, k1, f, haddr, hslot, hloop, hf⟩ := hrec
      obtain ⟨s, rfl⟩ := mmapLoop_space hloop
      have hof : (k.setSpace p s).ofileAt p a.fd = .ok (some f) := by
        rw [← hf]
        simp [Kernel.ofileAt]
      have hcall : ∃ v, v.valid = true ∧ v.pf = some f ∧
          k.mmap p a = .ok ((k.setSpace p s).setVma p j v, addr) := by
        refine ⟨{ mmapRecord a addr (((k.setSpace p s).procs p).vmas j) with pf := some f },
          rfl, rfl, ?_⟩
        rw [Kernel.mmap, if_neg (by omega), haddr, hslot]
        simp only [hloop, hanon, hof, Bool.false_eq_true, if_false]
      obtain ⟨v, hvalid, hpf, hcall⟩ := hcall
      have hstep : CallStep k (p, .mmap a) ((k.setSpace p s).setVma p j v) := by
        refine ⟨hp, _, addr, ?_, .refl _⟩
        simp only at hkilled ⊢
        simp only [Call.trap, Call.serve, hkilled, hcall, Bool.false_eq_true, if_false]
        exact if_neg (by simp [Kernel.setVma, hkilled])
      exact ⟨_, hstep, (h.setSpace s).setVma_unbalanced hvalid hpf⟩
  | _ => exact hrec.elim

/-- From counted descriptors no call panics about a count, a recording one included. -/
theorem FilesCounted.quiet (h : FilesCounted k) {c : ProcCall} (hp : k.Runs c.1) :
    Quiet (c.2.trap k c.1) := by
  by_cases hrec : RecordsFile k c.1 c.2
  · obtain ⟨-, ⟨-, k', r, hr, -⟩, -⟩ := h.records_unbalanced hp hrec
    rw [hr]
    exact Quiet.ok _
  · exact (h.trap hp hrec).quiet

/-! ## After boot -/

theorem Kernel.zero_filesCounted (mem : Mem) (inodes : Nat → Inode) (blocks : Nat)
    (devsw : Nat → Option Devsw) : FilesCounted (Kernel.zero mem inodes blocks devsw) := by
  have hnone : ∀ s, (Kernel.zero mem inodes blocks devsw).ofiles s = none := fun _ => rfl
  refine ⟨fun f => ?_, fun _ _ => rfl, fun _ _ _ => rfl⟩
  rw [refs_eq_zero fun s => by simp [hnone s]]
  rfl

theorem FilesCounted.userinit {k0 : Kernel} (h0 : FilesCounted k0) {init : List UInt8}
    (h : k0.userinit init = .ok k) : FilesCounted k := by
  rw [Kernel.userinit] at h
  split at h
  · cases h
  case h_2 np hfind =>
    have hunused : (k0.procs np).state = .unused := by simpa using List.find?_some hfind
    split at h
    · cases h
    case h_2 k1 ha =>
      obtain ⟨h1, -, -⟩ := h0.allocproc hunused ha
      split at h
      · cases h
      · cases h
      · split at h
        · cases h
        case h_2 s _ =>
          obtain rfl := Except.ok.inj h
          have hspace := h1.setSpace (p := np) s
          have hinit : FilesCounted { k1.setSpace np s with initproc := np } :=
            ⟨hspace.counted, hspace.noPf, hspace.closed⟩
          refine hinit.setProc ?_ ?_ ?_
          · rfl
          · exact hinit.noPf np
          · simp [ProcState.Dead]

/-! ## Runs -/

/-- A run none of whose calls records a file keeps descriptors counted. -/
theorem FilesCounted.run {k0 : Kernel} {calls : List ProcCall} (h0 : FilesCounted k0)
    (hno : ∀ pre c k, pre ++ [c] <+: calls → Run CallStep k0 pre k → k.Runs c.1 →
      ¬RecordsFile k c.1 c.2) (hrun : Run CallStep k0 calls k) : FilesCounted k := by
  induction hrun with
  | nil => exact h0
  | @concat pre k1 c k' hpre hstep ih =>
      have h1 := ih fun pre' c' k2 hpre' => hno pre' c' k2 (hpre'.trans (List.prefix_append _ _))
      exact hstep.filesCounted h1 (hno pre c k1 (List.prefix_refl _) hpre hstep.1)

/-- A run on which the law holds has recorded no file. -/
theorem FilesCounted.run_of_law {k0 : Kernel} {calls pre : List ProcCall}
    (h0 : FilesCounted k0) (hlaw : RefLaw k0 calls) (hpre : pre <+: calls)
    (hrun : Run CallStep k0 pre k) : FilesCounted k := by
  induction hrun with
  | nil => exact h0
  | @concat pre k1 c k' hpre' hstep ih =>
      have h1 := ih ((List.prefix_append _ _).trans hpre)
      refine hstep.filesCounted h1 fun hrec => ?_
      obtain ⟨k2, hstep2, hbad⟩ := h1.records_unbalanced hstep.1 hrec
      exact hbad (hlaw _ k2 hpre (hpre'.concat hstep2)).1

end Counting

instance (k : Kernel) (p : Fin nProc) : Decidable (k.Runs p) :=
  inferInstanceAs (Decidable (_ ∨ _))

/-- Serve one call of a process that may make it. -/
def stepCall (k : Kernel) (c : ProcCall) : Option Kernel :=
  if k.Runs c.1 then
    match c.2.trap k c.1 with
    | .error _ => none
    | .ok (k, _) => some k
  else none

def runCalls : Kernel → List ProcCall → Option Kernel
  | k, [] => some k
  | k, c :: rest => (stepCall k c).bind fun k => runCalls k rest

theorem run_of_runCalls {k k' : Kernel} {calls : List ProcCall} (h : runCalls k calls = some k') :
    Run CallStep k calls k' := by
  induction calls generalizing k with
  | nil =>
      obtain rfl := Option.some.inj h
      exact Run.nil
  | cons c rest ih =>
      obtain ⟨k1, hstep, hrest⟩ := Option.bind_eq_some_iff.mp h
      refine (Run.single ?_).append (ih hrest)
      unfold stepCall at hstep
      split at hstep
      case isTrue hp =>
        split at hstep
        · cases hstep
        case h_2 r hr =>
          obtain rfl := Option.some.inj hstep
          exact ⟨hp, _, r, hr, .refl _⟩
      case isFalse => cases hstep

/-! ## The law -/

/-- After boot, the law of reference counts holds along a sequence of calls exactly when
no call of it gets as far as recording a mapped file. -/
theorem reference_law_iff {mem : Mem} {inodes : Nat → Inode} {blocks : Nat}
    {devsw : Nat → Option Devsw} {init : List UInt8} {k0 : Kernel} {calls : List ProcCall}
    (hboot : (Kernel.zero mem inodes blocks devsw).userinit init = .ok k0) :
    RefLaw k0 calls ↔ ∀ pre c k, pre ++ [c] <+: calls → Run CallStep k0 pre k →
      k.Runs c.1 → ¬RecordsFile k c.1 c.2 := by
  have h0 := (Kernel.zero_filesCounted mem inodes blocks devsw).userinit hboot
  constructor
  · intro hlaw pre c k hpre hrun hp hrec
    have hk := h0.run_of_law hlaw ((List.prefix_append _ _).trans hpre) hrun
    obtain ⟨k', hstep, hbad⟩ := hk.records_unbalanced hp hrec
    exact hbad (hlaw _ k' hpre (hrun.concat hstep)).1
  · intro hno pre k hpre hrun
    have hk := h0.run (fun pre' c k' hpre' => hno pre' c k' (hpre'.trans hpre)) hrun
    exact ⟨hk.refCounted, fun c hp => hk.quiet hp⟩

/-- The first process opens a file, forks and closes it, and its child maps memory. -/
theorem reference_law_iff_run : ∃ k0, bootKernel 150 [7] = .ok k0 ∧
    RefLaw k0 [(0, .sysOpen (some 0) 0), (0, .fork), (0, .close 0), (1, .mmap onePage),
      (1, .exit), (0, .wait)] := by
  obtain ⟨k0, hboot, -⟩ := @exists_ok _ (bootKernel 150 [7]) (fun _ => true) (by decide +kernel)
  refine ⟨k0, hboot, (reference_law_iff hboot).mpr fun pre c k hpre _ _ => ?_⟩
  have hc := hpre.subset (List.mem_append_right pre (List.mem_singleton_self c))
  simp only [List.mem_cons, List.not_mem_nil, or_false] at hc
  rcases hc with rfl | rfl | rfl | rfl | rfl | rfl
  all_goals simp [RecordsFile, onePage, has, mapPrivate, mapAnonymous]

/-- The first page of the file behind descriptor 0, shared. -/
def filePage : MmapArgs := ⟨0, 4096, 3, mapShared, 0, 0⟩

/-- A child maps a file and closes its descriptor. Its exit closes the entry once more. -/
theorem mapped_file_panics : ¬∀ mem inodes blocks devsw init k0 calls,
    (Kernel.zero mem inodes blocks devsw).userinit init = .ok k0 → RefLaw k0 calls := by
  intro hlaw
  obtain ⟨k0, hboot, hrun⟩ := @exists_ok _ (bootKernel 150 [7])
    (fun k0 => (runCalls k0 [(0, .fork), (1, .sysOpen (some 0) 2), (1, .mmap filePage),
      (1, .close 0)]).any fun k : Kernel => decide (k.Runs 1) &&
        haltsWith (Call.trap k 1 .exit) .fileclose) (by decide +kernel)
  obtain ⟨k, hk, hpanic⟩ := (Option.any_eq_true _ _).mp hrun
  rw [Bool.and_eq_true, decide_eq_true_eq] at hpanic
  have hquiet := (hlaw _ _ _ _ _ k0 _ hboot _ k (List.prefix_refl _)
    (run_of_runCalls hk)).2 (1, .exit) hpanic.1
  exact hquiet.ne_fileclose (error_of_check hpanic.2)

end OSProjects.Xv6
