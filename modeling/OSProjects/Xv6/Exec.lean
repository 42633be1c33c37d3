import OSProjects.Xv6.Boot

/-!
# Loading a program

`exec` of `exec.c`, with `allocuvm`, `loaduvm`, `clearpteu` and `copyout` of `vm.c`. The new
image is built in a page table of its own, which then replaces the old one. The table of
mappings belongs to the process and is not looked at.
-/

namespace OSProjects.Xv6

open ByteMemory

/-! ## vm.c -/

/-- `*pte &= ~PTE_U`. -/
def Pte.clearU (e : Pte) : Pte := { e with perm := e.perm &&& (2 ^ 32 - 1 - pteU) }

namespace Space

/-- The loop of `allocuvm` from page `a` on. The result is the new size, or 0. -/
def allocLoop (oldsz newsz : Nat) : Nat → Nat → Space → Result (Space × Nat)
  | 0, _, _ => .error .hang
  | fuel + 1, a, s =>
      if a < newsz then
        match s.mem.kalloc with
        | none =>
            match s.dealloc newsz oldsz with
            | .error h => .error h
            | .ok s => .ok (s, 0)
        | some (frame, mem) =>
            match mappages ⟨mem.zeroPage frame, s.pgdir⟩ a pgSize frame (pteW ||| pteU) with
            | .error h => .error h
            | .ok (s, false) =>
                match s.dealloc newsz oldsz with
                | .error h => .error h
                | .ok s =>
                    match s.mem.kfree frame with
                    | .error h => .error h
                    | .ok mem => .ok ({ s with mem := mem }, 0)
            | .ok (s, true) => allocLoop oldsz newsz fuel (uint (a + pgSize)) s
      else .ok (s, newsz)

/-- `allocuvm`. -/
def allocuvm (s : Space) (oldsz newsz : Nat) : Result (Space × Nat) :=
  if kernBase ≤ newsz then .ok (s, 0)
  else if newsz < oldsz then .ok (s, oldsz)
  else s.allocLoop oldsz newsz allPages (pgRoundUp oldsz)

/-- `clearpteu`. Its panic for a missing table is `kernelFault`. -/
def clearpteu (s : Space) (va : Nat) : Result Space :=
  match s.pgdir.table (pdx va) with
  | none => .error .kernelFault
  | some t =>
      .ok ⟨s.mem, s.pgdir.setEntry va ((t.entry (ptx va)).map Pte.clearU)⟩

/-- The loop of `copyout`; every turn copies at least one byte. `uva2ka` loads through a null
pointer where the table is missing. -/
def copyoutLoop : Nat → Nat → List UInt8 → Space → Result (Space × Bool)
  | 0, _, _, s => .ok (s, true)
  | fuel + 1, va, bytes, s =>
      if bytes = [] then .ok (s, true)
      else
        let va0 := pgRoundDown va
        match s.pgdir.table (pdx va0) with
        | none => .error .kernelFault
        | some t =>
            match t.entry (ptx va0) with
            | none => .ok (s, false)
            | some e =>
                if has e.perm pteU = false then .ok (s, false)
                else
                  let n := min (pgSize - (va - va0)) bytes.length
                  copyoutLoop fuel (uint (va0 + pgSize)) (bytes.drop n)
                    { s with mem := s.mem.storeBytes (e.pa + (va - va0)) (bytes.take n) }

/-- `copyout`, whose result is false where the source returns -1. -/
def copyout (s : Space) (va : Nat) (bytes : List UInt8) : Result (Space × Bool) :=
  copyoutLoop bytes.length va bytes s

end Space

/-- The loop of `loaduvm` for `n` pages from offset `i` on. A page that is missing, where the
source panics, is a `kernelFault`. -/
def Kernel.loadLoop (k : Kernel) (ip : Inode) (addr offset sz : Nat) :
    Nat → Nat → Space → Result (Space × Bool)
  | 0, _, s => .ok (s, true)
  | n + 1, i, s =>
      match s.pgdir.lookup (uint (addr + i)) with
      | none => .error .kernelFault
      | some e =>
          let size := min (sz - i) pgSize
          let r := k.readi ip (uint (offset + i)) size
          let s := { s with mem := s.mem.storeBytes e.pa r.2 }
          if r.1 = size then k.loadLoop ip addr offset sz n (i + pgSize) s else .ok (s, false)

/-- `loaduvm`, whose result is false where the source returns -1. -/
def Kernel.loaduvm (k : Kernel) (s : Space) (addr : Nat) (ip : Inode) (offset sz : Nat) :
    Result (Space × Bool) :=
  if addr % pgSize ≠ 0 then .error .kernelFault
  else k.loadLoop ip addr offset sz ((sz + (pgSize - 1)) / pgSize) 0 s

/-! ## exec.c -/

def elfMagic : Nat := 0x464C457F
def elfProgLoad : Nat := 1
def maxArg : Nat := 32

/-- A field of `width` bytes in a structure that has been read. -/
def field (bytes : List UInt8) (off width : Nat) : Nat := wordValue ((bytes.drop off).take width)

/-- The fields of the ELF header that `exec` reads, but for the entry point. -/
structure Elfhdr where
  magic : Nat
  phoff : Nat
  phnum : Nat

/-- The fields of a program section header that `exec` reads. -/
structure Proghdr where
  type : Nat
  off : Nat
  vaddr : Nat
  filesz : Nat
  memsz : Nat

/-- The ELF header of a file, if it is long enough. -/
def Kernel.readElfhdr (k : Kernel) (ip : Inode) : Option Elfhdr :=
  let r := k.readi ip 0 52
  if r.1 = 52 then some ⟨field r.2 0 4, field r.2 28 4, field r.2 44 2⟩ else none

def Kernel.readProghdr (k : Kernel) (ip : Inode) (off : Nat) : Option Proghdr :=
  let r := k.readi ip off 32
  if r.1 = 32 then
    some ⟨field r.2 0 4, field r.2 4 4, field r.2 8 4, field r.2 16 4, field r.2 20 4⟩
  else none

/-- One program section behind an image of `sz` bytes: the new size, or nothing where `exec`
goes to `bad`. -/
def Kernel.loadSegment (k : Kernel) (ip : Inode) (ph : Proghdr) (sz : Nat) (s : Space) :
    Result (Space × Option Nat) :=
  if ph.type ≠ elfProgLoad then .ok (s, some sz)
  else if ph.memsz < ph.filesz ∨ uint (ph.vaddr + ph.memsz) < ph.vaddr then .ok (s, none)
  else
    match s.allocuvm sz (uint (ph.vaddr + ph.memsz)) with
    | .error h => .error h
    | .ok (s, sz) =>
        if sz = 0 ∨ ph.vaddr % pgSize ≠ 0 then .ok (s, none)
        else
          match k.loaduvm s ph.vaddr ip ph.off ph.filesz with
          | .error h => .error h
          | .ok (s, false) => .ok (s, none)
          | .ok (s, true) => .ok (s, some sz)

/-- The loop over `n` program headers from offset `off` on. -/
def Kernel.loadSegments (k : Kernel) (ip : Inode) :
    Nat → Nat → Nat → Space → Result (Space × Option Nat)
  | 0, _, sz, s => .ok (s, some sz)
  | n + 1, off, sz, s =>
      match k.readProghdr ip off with
      | none => .ok (s, none)
      | some ph =>
          match k.loadSegment ip ph sz s with
          | .error h => .error h
          | .ok (s, none) => .ok (s, none)
          | .ok (s, some sz) => k.loadSegments ip n (uint (off + 32)) sz s

/-- Push the argument strings from number `argc` on: the stack pointer and the pointers to
the strings, or nothing where `exec` goes to `bad`. -/
def Space.pushArgs : List (List UInt8) → Nat → Nat → List Nat → Space →
    Result (Space × Option (Nat × List Nat))
  | [], _, sp, args, s => .ok (s, some (sp, args))
  | arg :: rest, argc, sp, args, s =>
      if maxArg ≤ argc then .ok (s, none)
      else
        let sp := ofInt ((sp : Int) - (arg.length + 1)) / 4 * 4
        match s.copyout sp (arg ++ [0]) with
        | .error h => .error h
        | .ok (s, false) => .ok (s, none)
        | .ok (s, true) => Space.pushArgs rest (argc + 1) sp (args ++ [sp]) s

/-- The bytes of `ustack`: a fake return address, `argc`, `argv` and the pointers. -/
def ustack (sp : Nat) (args : List Nat) : List UInt8 :=
  ([0xffffffff, args.length, ofInt ((sp : Int) - (args.length + 1) * 4)] ++ args ++ [0]).flatMap
    (wordBytes 4)

/-- The guard page and the stack page behind an image of `sz` bytes: the new size, or nothing
where `exec` goes to `bad`. -/
def Space.pushStack (s : Space) (sz : Nat) (argv : List (List UInt8)) :
    Result (Space × Option Nat) :=
  match s.allocuvm (pgRoundUp sz) (uint (pgRoundUp sz + 2 * pgSize)) with
  | .error h => .error h
  | .ok (s, sz) =>
      if sz = 0 then .ok (s, none)
      else
        match s.clearpteu (ofInt ((sz : Int) - 2 * pgSize)) with
        | .error h => .error h
        | .ok s =>
            match s.pushArgs argv 0 sz [] with
            | .error h => .error h
            | .ok (s, none) => .ok (s, none)
            | .ok (s, some (sp, args)) =>
                match s.copyout (ofInt ((sp : Int) - (3 + args.length + 1) * 4))
                    (ustack sp args) with
                | .error h => .error h
                | .ok (s, false) => .ok (s, none)
                | .ok (s, true) => .ok (s, some sz)

/-- The image of a program in a new page table: its size, or nothing where `exec` goes to
`bad`. -/
def Kernel.buildImage (k : Kernel) (ip : Inode) (elf : Elfhdr) (argv : List (List UInt8))
    (s : Space) : Result (Space × Option Nat) :=
  match k.loadSegments ip elf.phnum elf.phoff 0 s with
  | .error h => .error h
  | .ok (s, none) => .ok (s, none)
  | .ok (s, some sz) => s.pushStack sz argv

/-- `exec`, where `ip` is the inode that `namei` found for the path, without the trap frame
and the name. -/
def Kernel.exec (k : Kernel) (p : Fin nProc) (ip : Option Nat) (argv : List (List UInt8)) :
    Result (Kernel × Int) :=
  match ip with
  | none => .ok (k, -1)
  | some ip =>
      match k.readElfhdr (k.inodes ip) with
      | none => .ok (k, -1)
      | some elf =>
          if elf.magic ≠ elfMagic then .ok (k, -1)
          else
            match setupkvm k.mem with
            | .error h => .error h
            | .ok (mem, none) => .ok ({ k with mem := mem }, -1)
            | .ok (mem, some d) =>
                match k.buildImage (k.inodes ip) elf argv ⟨mem, d⟩ with
                | .error h => .error h
                | .ok (s, none) =>
                    match s.free with
                    | .error h => .error h
                    | .ok mem => .ok ({ k with mem := mem }, -1)
                | .ok (s, some sz) =>
                    match Space.free ⟨s.mem, (k.procs p).pgdir⟩ with
                    | .error h => .error h
                    | .ok mem =>
                        .ok ({ k with mem := mem }.setProc p
                          { k.procs p with pgdir := s.pgdir, sz := sz }, 0)

end OSProjects.Xv6
