import OSProjects.Xv6.Machine

/-!
# The frame allocator and the page tables

`kalloc.c` and `vm.c`. Frames are named by their physical address. The kernel half
of a page table is the same in every process, so `setupkvm` installs it by formula.
-/

namespace OSProjects.Xv6

open ByteMemory

/-! ## kalloc.c -/

namespace Mem

/-- The frame can be given back to the allocator. -/
def Freeable (m : Mem) (pa : Nat) : Prop :=
  pa % pgSize = 0 ∧ m.imageEnd ≤ pa ∧ pa < physTop

instance (m : Mem) (pa : Nat) : Decidable (m.Freeable pa) :=
  inferInstanceAs (Decidable (_ ∧ _ ∧ _))

/-- The kernel address of the head of the free list, or null. -/
def nextFree (m : Mem) : Nat :=
  match m.freelist with
  | [] => 0
  | f :: _ => f + kernBase

def kalloc (m : Mem) : Option (Nat × Mem) :=
  match m.freelist with
  | [] => none
  | f :: rest => some (f, { m with freelist := rest })

/-- The page is filled with junk, and its first word links to the next free page. -/
def kfree (m : Mem) (pa : Nat) : Result Mem :=
  if m.Freeable pa then
    .ok { m with
      freelist := pa :: m.freelist
      phys := Store.apply ⟨pa, wordBytes 4 m.nextFree⟩ (fill m.phys pa pgSize 1) }
  else .error .kfree

/-- `memset(mem, 0, PGSIZE)`. -/
def zeroPage (m : Mem) (pa : Nat) : Mem := { m with phys := fill m.phys pa pgSize 0 }

/-- `memmove(dst, src, PGSIZE)`. -/
def copyPage (m : Mem) (dst src : Nat) : Mem := { m with phys := move m.phys dst src pgSize }

/-- Bytes stored from `pa` on. -/
def storeBytes (m : Mem) (pa : Nat) (bytes : List UInt8) : Mem :=
  { m with phys := Store.apply ⟨pa, bytes⟩ m.phys }

end Mem

/-! ## Page tables -/

def pdx (va : Nat) : Nat := va / 2 ^ 22 % 1024

def ptx (va : Nat) : Nat := va / 2 ^ 12 % 1024

/-- `PGADDR(PDX(va) + 1, 0, 0)`. -/
def nextTable (va : Nat) : Nat := uint ((pdx va + 1) * 2 ^ 22)

namespace Pgdir

/-- The entry that `walkpgdir` points to, if it is present. -/
def lookup (d : Pgdir) (va : Nat) : Option Pte :=
  (d.table (pdx va)).bind fun t => t.entry (ptx va)

/-- `walkpgdir(pgdir, va, 0)` is not null and the entry is present. -/
def present (d : Pgdir) (va : Nat) : Bool := (d.lookup va).isSome

def setTable (d : Pgdir) (i : Nat) (t : PageTable) : Pgdir :=
  { d with table := Function.update d.table i (some t) }

/-- Store an entry of a table that exists. -/
def setEntry (d : Pgdir) (va : Nat) (e : Option Pte) : Pgdir :=
  match d.table (pdx va) with
  | none => d
  | some t => d.setTable (pdx va) { t with entry := Function.update t.entry (ptx va) e }

end Pgdir

/-- `walkpgdir(pgdir, va, 1)`: make sure that the table for `va` exists. -/
def Space.walkAlloc (s : Space) (va : Nat) : Option Space :=
  match s.pgdir.table (pdx va) with
  | some _ => some s
  | none =>
      match s.mem.kalloc with
      | none => none
      | some (f, mem) => some ⟨mem, s.pgdir.setTable (pdx va) ⟨f, fun _ => none⟩⟩

/-- One turn of the loop of `mappages`. -/
def Space.mapPage (s : Space) (a pa perm : Nat) : Result (Space × Bool) :=
  match s.walkAlloc a with
  | none => .ok (s, false)
  | some s =>
      if s.pgdir.present a then .error .remap
      else .ok ({ s with pgdir := s.pgdir.setEntry a (some ⟨pa, perm⟩) }, true)

/-- Enough turns for every page of the address space. -/
def allPages : Nat := 2 ^ 20 + 1

/-- The loop of `mappages`, from page `a` to page `last`. -/
def Space.mapLoop (last perm : Nat) : Nat → Nat → Nat → Space → Result (Space × Bool)
  | 0, _, _, _ => .error .hang
  | fuel + 1, a, pa, s =>
      match s.mapPage a pa perm with
      | .error h => .error h
      | .ok (s, false) => .ok (s, false)
      | .ok (s, true) =>
          if a = last then .ok (s, true)
          else mapLoop last perm fuel (uint (a + pgSize)) (pa + pgSize) s

/-- `mappages`, whose result is false where the source returns -1. -/
def Space.mappages (s : Space) (va size pa perm : Nat) : Result (Space × Bool) :=
  s.mapLoop (pgRoundDown (uint (va + size - 1))) perm allPages (pgRoundDown va) pa

/-- One turn of the loop of `deallocuvm`: the next value of `a`. -/
def Space.deallocPage (s : Space) (a : Nat) : Result (Nat × Space) :=
  match s.pgdir.table (pdx a) with
  | none => .ok (nextTable a, s)
  | some t =>
      match t.entry (ptx a) with
      | none => .ok (uint (a + pgSize), s)
      | some pte =>
          if pte.pa = 0 then .error .kfree
          else
            match s.mem.kfree pte.pa with
            | .error h => .error h
            | .ok mem => .ok (uint (a + pgSize), ⟨mem, s.pgdir.setEntry a none⟩)

/-- The loop of `deallocuvm`, from page `a` on. -/
def Space.deallocLoop (oldsz : Nat) : Nat → Nat → Space → Result Space
  | 0, _, _ => .error .hang
  | fuel + 1, a, s =>
      if a < oldsz then
        match s.deallocPage a with
        | .error h => .error h
        | .ok (a, s) => deallocLoop oldsz fuel a s
      else .ok s

/-- `deallocuvm`. -/
def Space.dealloc (s : Space) (oldsz newsz : Nat) : Result Space :=
  if oldsz ≤ newsz then .ok s else s.deallocLoop oldsz allPages (pgRoundUp newsz)

/-- Free the frames of the tables with the given indices. -/
def freeTables (d : Pgdir) : List Nat → Mem → Result Mem
  | [], m => .ok m
  | i :: rest, m =>
      match d.table i with
      | none => freeTables d rest m
      | some t =>
          match m.kfree t.frame with
          | .error h => .error h
          | .ok m => freeTables d rest m

/-- `freevm`. -/
def Space.free (s : Space) : Result Mem :=
  match s.dealloc kernBase 0 with
  | .error h => .error h
  | .ok s =>
      match freeTables s.pgdir (List.range 1024) s.mem with
      | .error h => .error h
      | .ok m => m.kfree s.pgdir.frame

/-! ## The kernel half -/

/-- The entry that `kmap` gives the kernel address `va`. -/
def kernelPte (m : Mem) (va : Nat) : Option Pte :=
  if va < kernBase + physTop then
    some ⟨va - kernBase, if kernLink ≤ va ∧ va < m.dataStart + kernBase then 0 else pteW⟩
  else if devSpace ≤ va then some ⟨va, pteW⟩
  else none

/-- The table for the 4 MB of kernel addresses with index `i`. -/
def kernelTable (m : Mem) (i frame : Nat) : PageTable :=
  ⟨frame, fun t => kernelPte m (i * 2 ^ 22 + t * 2 ^ 12)⟩

theorem kernelTable_entry (m : Mem) (i frame t : Nat) :
    (kernelTable m i frame).entry t = kernelPte m (i * 2 ^ 22 + t * 2 ^ 12) := rfl

/-- The directory indices that `kmap` needs, in the order in which it maps them. -/
def kernelTables : List Nat :=
  List.range' (kernBase / 2 ^ 22) (physTop / 2 ^ 22) ++
    List.range' (devSpace / 2 ^ 22) ((2 ^ 32 - devSpace) / 2 ^ 22)

def Space.mapKernel (s : Space) : List Nat → Space × Bool
  | [] => (s, true)
  | i :: rest =>
      match s.mem.kalloc with
      | none => (s, false)
      | some (f, mem) =>
          Space.mapKernel ⟨mem, s.pgdir.setTable i (kernelTable mem i f)⟩ rest

/-- `setupkvm`. -/
def setupkvm (m : Mem) : Result (Mem × Option Pgdir) :=
  match m.kalloc with
  | none => .ok (m, none)
  | some (f, m) =>
      match Space.mapKernel ⟨m, ⟨f, fun _ => none⟩⟩ kernelTables with
      | (s, true) => .ok (s.mem, some s.pgdir)
      | (s, false) =>
          match s.free with
          | .error h => .error h
          | .ok m => .ok (m, none)

/-- One turn of the loop of `copyuvm`, for the page at `i`; false where it goes to `bad`. -/
def copyPage (parent : Pgdir) (i : Nat) (s : Space) : Result (Space × Bool) :=
  match parent.table (pdx i) with
  | none => .error .copyuvmNoPte
  | some t =>
      match t.entry (ptx i) with
      | none => .error .copyuvmNotPresent
      | some pte =>
          match s.mem.kalloc with
          | none => .ok (s, false)
          | some (f, mem) =>
              match Space.mappages ⟨mem.copyPage f pte.pa, s.pgdir⟩ i pgSize f pte.perm with
              | .error h => .error h
              | .ok (s, true) => .ok (s, true)
              | .ok (s, false) =>
                  match s.mem.kfree f with
                  | .error h => .error h
                  | .ok mem => .ok ({ s with mem := mem }, false)

/-- The loop of `copyuvm` for `n` pages from `i` on. -/
def copyLoop (parent : Pgdir) : Nat → Nat → Space → Result (Space × Bool)
  | 0, _, s => .ok (s, true)
  | n + 1, i, s =>
      match copyPage parent i s with
      | .error h => .error h
      | .ok (s, false) => .ok (s, false)
      | .ok (s, true) => copyLoop parent n (i + pgSize) s

/-- `copyuvm`. -/
def copyuvm (m : Mem) (parent : Pgdir) (sz : Nat) : Result (Mem × Option Pgdir) :=
  match setupkvm m with
  | .error h => .error h
  | .ok (m, none) => .ok (m, none)
  | .ok (m, some d) =>
      match copyLoop parent ((sz + (pgSize - 1)) / pgSize) 0 ⟨m, d⟩ with
      | .error h => .error h
      | .ok (s, true) => .ok (s.mem, some s.pgdir)
      | .ok (s, false) =>
          match s.free with
          | .error h => .error h
          | .ok m => .ok (m, none)

/-! ## Regions -/

/-- The pages at `a`, `a + PGSIZE`, … are absent. -/
def Pgdir.allAbsent (d : Pgdir) (a : Nat) : Nat → Bool
  | 0 => true
  | n + 1 => !d.present a && d.allAbsent (a + pgSize) n

/-- `is_region_free`. The loop cannot pass the end of the address space, because the
device pages there are present. -/
def isRegionFree (d : Pgdir) (va size : Nat) : Bool :=
  d.allAbsent va ((uint (va + size) - va + (pgSize - 1)) / pgSize)

end OSProjects.Xv6
