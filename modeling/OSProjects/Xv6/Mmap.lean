import OSProjects.Xv6.File

/-!
# Mappings

`mmap`, `munmap`, the copies and the clean-up of the VMA table in `proc.c`, and the
page-fault branch of `trap.c` that grows a mapping.
-/

namespace OSProjects.Xv6

open ByteMemory

/-- The arguments of `mmap`. -/
structure MmapArgs where
  addr : Nat
  length : Int
  prot : Int
  flags : Nat
  fd : Int
  offset : Int

/-! ## mmap -/

/-- The search for the first free region, over `n` pages from `addr` on. -/
def findRegion (d : Pgdir) (size : Nat) : Nat → Nat → Option Nat
  | _, 0 => none
  | addr, n + 1 =>
      if isRegionFree d addr size then some addr else findRegion d size (addr + pgSize) n

/-- The address at which `mmap` places the region. -/
def mmapAddr (d : Pgdir) (a : MmapArgs) : Option Nat :=
  let size := ofInt (pgRoundUpInt a.length)
  if has a.flags mapFixed then
    if a.addr < vmaStart ∨ vmaEnd < uint (a.addr + size) ∨ isRegionFree d a.addr size = false then
      none
    else some a.addr
  else findRegion d size vmaStart ((vmaEnd - vmaStart) / pgSize)

/-- The first slot whose `addr` is null. -/
def mmapSlot (vmas : Fin nVma → Vma) : Option (Fin nVma) :=
  (List.finRange nVma).find? fun j => (vmas j).addr = 0

/-- The page that `readi` delivers for offset `i` of the descriptor, behind `ilock`. The type of
the entry is not looked at. -/
def Kernel.mmapRead (k : Kernel) (p : Fin nProc) (fd : Int) (i frame : Nat) : Result Kernel :=
  match k.ofileAt p fd with
  | .error h => .error h
  | .ok none => .error .wildFile
  | .ok (some f) =>
      match k.ipOf f with
      | none => .error .ilock
      | some ip =>
          .ok { k with mem := k.mem.storeBytes frame (k.readi (k.inodes ip) i pgSize).2 }

/-- One turn of the page loop of `mmap`, for offset `i`; false where the source gives up. -/
def Kernel.mmapPage (k : Kernel) (p : Fin nProc) (a : MmapArgs) (addr i : Nat) :
    Result (Kernel × Bool) :=
  match k.mem.kalloc with
  | none =>
      match (k.space p).dealloc (uint (addr + i)) addr with
      | .error h => .error h
      | .ok s => .ok (k.setSpace p s, false)
  | some (frame, mem) =>
      match Space.mappages ⟨mem.zeroPage frame, (k.procs p).pgdir⟩ (uint (addr + i)) pgSize
          frame (pteW ||| pteU) with
      | .error h => .error h
      | .ok (s, false) =>
          match s.dealloc (uint (addr + i + pgSize)) addr with
          | .error h => .error h
          | .ok s =>
              match s.mem.kfree frame with
              | .error h => .error h
              | .ok mem => .ok (k.setSpace p { s with mem := mem }, false)
      | .ok (s, true) =>
          if has a.flags mapAnonymous then .ok (k.setSpace p s, true)
          else
            match (k.setSpace p s).mmapRead p a.fd i frame with
            | .error h => .error h
            | .ok k => .ok (k, true)

/-- The page loop of `mmap` for `n` pages from offset `i` on. -/
def Kernel.mmapLoop (p : Fin nProc) (a : MmapArgs) (addr : Nat) :
    Nat → Nat → Kernel → Result (Kernel × Bool)
  | 0, _, k => .ok (k, true)
  | n + 1, i, k =>
      match k.mmapPage p a addr i with
      | .error h => .error h
      | .ok (k, false) => .ok (k, false)
      | .ok (k, true) => mmapLoop p a addr n (i + pgSize) k

/-- The record that `mmap` leaves in the slot that held `v`. -/
def mmapRecord (a : MmapArgs) (addr : Nat) (v : Vma) : Vma :=
  { v with
    addr := addr
    endAddr := uint (addr + ofInt a.length)
    prot := a.prot
    flags := a.flags
    fd := a.fd
    offset := a.offset
    valid := true }

/-- `mmap`. -/
def Kernel.mmap (k : Kernel) (p : Fin nProc) (a : MmapArgs) : Result (Kernel × Int) :=
  if a.length ≤ 0 then .ok (k, -1)
  else
    match mmapAddr (k.procs p).pgdir a with
    | none => .ok (k, -1)
    | some addr =>
        match mmapSlot (k.procs p).vmas with
        | none => .ok (k, -1)
        | some j =>
            match k.mmapLoop p a addr ((pgRoundUpInt a.length).toNat / pgSize) 0 with
            | .error h => .error h
            | .ok (k, false) => .ok (k, -1)
            | .ok (k, true) =>
                let record := mmapRecord a addr ((k.procs p).vmas j)
                if has a.flags mapAnonymous then .ok (k.setVma p j record, addr)
                else
                  match k.ofileAt p a.fd with
                  | .error h => .error h
                  | .ok f => .ok (k.setVma p j { record with pf := f }, addr)

/-! ## munmap -/

/-- The record that `munmap` looks up for an address. -/
def munmapSlot (vmas : Fin nVma → Vma) (addr : Nat) : Option (Fin nVma) :=
  (List.finRange nVma).find? fun j =>
    (vmas j).valid && decide ((vmas j).addr ≤ addr ∧ addr < (vmas j).endAddr)

/-- Write to the file of a record. -/
def Kernel.writeBack (k : Kernel) (p : Fin nProc) (v : Vma) (data : Nat) (size offset : Int) :
    Result Kernel :=
  match v.pf with
  | none => .error .wildFile
  | some f =>
      match k.filewriteoff p f data size offset with
      | .error h => .error h
      | .ok (k, _) => .ok k

/-- `deallocuvm` in the space of process `p`. -/
def Kernel.dealloc (k : Kernel) (p : Fin nProc) (oldsz newsz : Nat) : Result Kernel :=
  match (k.space p).dealloc oldsz newsz with
  | .error h => .error h
  | .ok s => .ok (k.setSpace p s)

/-- `write_length`: how much of a page the length covers. -/
def pagePart (length : Int) : Int := if length > pgSize then pgSize else length

/-- What `length` becomes after a page. The last page is not taken off. -/
def restPart (length : Int) : Int := if length > pgSize then length - pgSize else length

/-- The part of `munmap` for the first page. -/
def Kernel.munmapFirst (k : Kernel) (p : Fin nProc) (v : Vma) (addr : Nat) (length : Int) :
    Result (Kernel × Int) :=
  match (k.procs p).pgdir.table (pdx addr) with
  | none => .ok (k, length)
  | some _ =>
      let written : Result Kernel :=
        if !has v.flags mapAnonymous && !has v.flags mapPrivate then
          k.writeBack p v addr (pagePart length) ((addr : Int) - v.addr)
        else .ok k
      match written with
      | .error h => .error h
      | .ok k =>
          match k.dealloc p (ofInt (addr + pagePart length)) addr with
          | .error h => .error h
          | .ok k => .ok (k, restPart length)

/-- One turn of the loop of `munmap` along the records of a grown mapping: the page at
`addr`, described by the record `v`. -/
def Kernel.munmapPage (k : Kernel) (p : Fin nProc) (v : Vma) (addr : Nat) (length off : Int) :
    Result Kernel :=
  let written : Result Kernel :=
    if !has v.flags mapAnonymous then k.writeBack p v addr (pagePart length) off else .ok k
  match written with
  | .error h => .error h
  | .ok k => k.dealloc p (ofInt (addr + pagePart length)) addr

/-- The loop of `munmap`, at the record in slot `j`. -/
def Kernel.munmapLoop (p : Fin nProc) :
    Nat → Fin nVma → Nat → Int → Int → Kernel → Result Kernel
  | 0, _, _, _, _, _ => .error .hang
  | fuel + 1, j, addr, length, off, k =>
      if ((k.procs p).vmas j).next ≠ 0 ∧ length > 0 then
        let j := ((k.procs p).vmas j).next
        let addr := uint (addr + pgSize)
        match k.munmapPage p ((k.procs p).vmas j) addr length off with
        | .error h => .error h
        | .ok k => munmapLoop p fuel j addr (restPart length) (off + pgSize) k
      else .ok k

/-- `munmap`. The loop never changes a record, so it visits at most `NVMA` of them or
does not end. -/
def Kernel.munmap (k : Kernel) (p : Fin nProc) (addr : Nat) (length : Int) :
    Result (Kernel × Int) :=
  match munmapSlot (k.procs p).vmas addr with
  | none => .error .noVmaFound
  | some j =>
      let v := (k.procs p).vmas j
      match k.munmapFirst p v addr length with
      | .error h => .error h
      | .ok (k, length) =>
          if has v.flags mapGrowsup && !has v.flags mapAnonymous && !has v.flags mapPrivate then
            match k.munmapLoop p (nVma + 1) j addr length pgSize with
            | .error h => .error h
            | .ok k => .ok (k, 0)
          else .ok (k, 0)

/-! ## Growth in the page-fault handler -/

/-- The search for the mapping to grow, from slot `i` on: the slot behind it and its own.
`next` is what the previous turns have left in `next_idx`. -/
def growSearch (vmas : Fin nVma → Vma) (addr : Nat) :
    List (Fin nVma) → Fin nVma → Option (Fin nVma × Fin nVma)
  | [], _ => none
  | i :: rest, next =>
      let next := if h : i.val + 1 < nVma then ⟨i.val + 1, h⟩ else next
      if h : i.val + 2 < nVma then
        if (vmas ⟨i.val + 2, h⟩).valid then none
        else if (vmas i).endAddr ≤ addr ∧ addr < uint ((vmas i).endAddr + pgSize) then
          some (next, i)
        else growSearch vmas addr rest next
      else if (vmas i).endAddr ≤ addr ∧ addr < uint ((vmas i).endAddr + pgSize) then
        some (next, i)
      else growSearch vmas addr rest next

/-- `next_idx` and the index of `grow`. -/
def growTarget (vmas : Fin nVma → Vma) (addr : Nat) : Option (Fin nVma × Fin nVma) :=
  growSearch vmas addr (List.finRange nVma) 0

/-- `update_vma_structure`. -/
def updateVmaStructure (vmas : Fin nVma → Vma) (next grow : Fin nVma) : Fin nVma → Vma :=
  let vmas := Function.update vmas grow { vmas grow with next := next }
  let v := vmas grow
  Function.update vmas next { vmas next with
    addr := uint (v.addr + pgSize)
    endAddr := uint (v.endAddr + pgSize)
    prot := v.prot
    flags := v.flags
    fd := v.fd
    offset := int32 (v.offset + pgSize)
    valid := true
    pf := v.pf }

/-- `handle_segmentation_fault`. -/
def Kernel.segfault (k : Kernel) (p : Fin nProc) : Kernel :=
  k.setProc p { k.procs p with killed := true }

/-- The `T_PGFLT` branch of `trap` for a fault at `addr`. -/
def Kernel.pageFault (k : Kernel) (p : Fin nProc) (addr : Nat) : Result Kernel :=
  let d := (k.procs p).pgdir
  if addr < vmaStart ∨ vmaEnd < uint (addr + pgSize) then .ok (k.segfault p)
  else if isRegionFree d (uint (addr + pgSize)) pgSize = false then .ok (k.segfault p)
  else if isRegionFree d (uint (addr + (2 ^ 32 - pgSize))) pgSize then .ok (k.segfault p)
  else
    match growTarget (k.procs p).vmas addr with
    | none => .ok (k.segfault p)
    | some (next, grow) =>
        if has ((k.procs p).vmas grow).flags mapGrowsup = false then .ok (k.segfault p)
        else
          match k.mem.kalloc with
          | none => .ok (k.segfault p)
          | some (frame, mem) =>
              -- The handler ignores the result of `mappages`.
              match Space.mappages ⟨mem.zeroPage frame, d⟩ (pgRoundDown addr) pgSize frame
                  (pteW ||| pteU) with
              | .error h => .error h
              | .ok (s, _) =>
                  let k := k.setSpace p s
                  let vmas := updateVmaStructure (k.procs p).vmas next grow
                  let k := k.setProc p { k.procs p with vmas := vmas }
                  if has (vmas next).flags mapAnonymous then .ok k
                  else k.mmapRead p (vmas next).fd pgSize frame

/-! ## The VMA table across `fork` and `exit` -/

/-- One turn of `clean_vma`. -/
def Kernel.cleanSlot (p : Fin nProc) (k : Kernel) (j : Fin nVma) : Result Kernel :=
  let v := (k.procs p).vmas j
  if v.valid then
    match v.pf with
    | none => .ok (k.setVma p j { v with valid := false })
    | some f =>
        match k.fileclose f with
        | .error h => .error h
        | .ok k => .ok (k.setVma p j { v with pf := none, valid := false })
  else .ok k

/-- `clean_vma`. -/
def Kernel.cleanVma (k : Kernel) (p : Fin nProc) : Result Kernel :=
  (List.finRange nVma).foldlM (Kernel.cleanSlot p) k

/-- `copy_vma` of a valid record into the same slot of the child. -/
def Kernel.copyVma (k : Kernel) (child : Fin nProc) (source : Vma) (j : Fin nVma) :
    Result Kernel :=
  match source.pf with
  | none => .ok (k.setVma child j { source with valid := true })
  | some f =>
      match (k.setVma child j source).filedup f with
      | .error h => .error h
      | .ok k => .ok (k.setVma child j { source with pf := some f, valid := true })

end OSProjects.Xv6
