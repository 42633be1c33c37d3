import OSProjects.Xv6.Vm

/-!
# Inodes, open files and descriptors

The parts of `fs.c`, `file.c` and `sysfile.c` that mappings use. Path lookup, the
cache of inodes and the log are outside the model, and free blocks are counted only.
-/

namespace OSProjects.Xv6

open ByteMemory

/-! ## fs.c -/

/-- `devsw[ip->major]`, when the driver exists. -/
def Kernel.driver (k : Kernel) (ip : Inode) : Option Devsw :=
  if 0 ≤ ip.major ∧ ip.major < nDev then k.devsw ip.major.toNat else none

/-- `readi`: the return value and the bytes stored at the destination. -/
def Kernel.readi (k : Kernel) (ip : Inode) (off n : Nat) : Int × List UInt8 :=
  if ip.type = .dev then
    match k.driver ip with
    | none => (-1, [])
    | some d => d.read n
  else if ip.size < off ∨ 2 ^ 32 ≤ off + n then (-1, [])
  else
    let n := min n (ip.size - off)
    (n, readBytes ip.data off n)

/-- `writei` as far as the bytes and the size of the file go, of `n` bytes, where `src` is what
a load of them from the source yields. -/
def Kernel.writeBytes (k : Kernel) (ip : Inode) (src : Option (List UInt8)) (off n : Nat) :
    Result (Inode × Int) :=
  if ip.type = .dev then
    match k.driver ip with
    | none => .ok (ip, -1)
    | some d =>
        match src with
        | none => .error .kernelFault
        | some bytes => .ok (ip, d.write bytes)
  else if ip.size < off ∨ 2 ^ 32 ≤ off + n ∨ maxFile * bSize < off + n then .ok (ip, -1)
  else
    match src with
    | none => .error .kernelFault
    | some bytes =>
        .ok ({ ip with
          data := Store.apply ⟨off, bytes⟩ ip.data
          size := if 0 < n ∧ ip.size < off + n then off + n else ip.size }, n)

/-- The blocks of a file of `size` bytes. Behind the twelve direct ones the block that lists
the others is one more. -/
def fileBlocks (size : Nat) : Nat :=
  let n := (size + (bSize - 1)) / bSize
  if 12 < n then n + 1 else n

/-- `writei`, which takes blocks for what the file grows by. A source that is not mapped is
reported first, also where the blocks would run out before it is read. -/
def Kernel.writei (k : Kernel) (ip : Inode) (src : Option (List UInt8)) (off n : Nat) :
    Result (Inode × Int) :=
  match k.writeBytes ip src off n with
  | .error h => .error h
  | .ok (node, r) =>
      if k.freeBlocks < fileBlocks node.size - fileBlocks ip.size then .error .balloc
      else .ok (node, r)

/-- The inode after a `writei`, with the blocks that it has taken. -/
def Kernel.putInode (k : Kernel) (i : Nat) (node : Inode) : Kernel :=
  { k.setInode i node with
    freeBlocks := k.freeBlocks - (fileBlocks node.size - fileBlocks (k.inodes i).size) }

/-- The inode that `ip` of an entry leads to, if `ilock` takes it. -/
def Kernel.ipOf (k : Kernel) (f : Fin nFile) : Option Nat :=
  if (k.ftable f).type = .inode then some (k.ftable f).ip else k.leftover f

/-! ## User memory -/

/-- The byte that the kernel loads at a virtual address. -/
def Space.load (s : Space) (va : Nat) : Option UInt8 :=
  (s.pgdir.lookup va).map fun e => s.mem.phys (e.pa + va % pgSize)

/-- `n` bytes from `va` on; nothing if a page among them is absent. -/
def Space.loadBytes (s : Space) : Nat → Nat → Option (List UInt8)
  | _, 0 => some []
  | va, n + 1 =>
      match s.load (uint va) with
      | none => none
      | some b => (s.loadBytes (va + 1) n).map (b :: ·)

/-! ## file.c -/

/-- `filealloc`. -/
def Kernel.filealloc (k : Kernel) : Option (Fin nFile × Kernel) :=
  match (List.finRange nFile).find? fun f => (k.ftable f).ref = 0 with
  | none => none
  | some f => some (f, k.setFile f { k.ftable f with ref := 1 })

/-- `filedup`. -/
def Kernel.filedup (k : Kernel) (f : Fin nFile) : Result Kernel :=
  if (k.ftable f).ref < 1 then .error .filedup
  else .ok (k.setFile f { k.ftable f with ref := (k.ftable f).ref + 1 })

/-- `fileclose`. What the last close does to the pipe or the inode is left out. -/
def Kernel.fileclose (k : Kernel) (f : Fin nFile) : Result Kernel :=
  if (k.ftable f).ref < 1 then .error .fileclose
  else if 0 < (k.ftable f).ref - 1 then
    .ok (k.setFile f { k.ftable f with ref := (k.ftable f).ref - 1 })
  else .ok (k.setFile f { k.ftable f with ref := 0, type := .none })

/-- `max_chunk_size` of `filewriteoff`. -/
def maxChunkSize : Nat := (maxOpBlocks - 1 - 1 - 2) / 2 * bSize

/-- The loop of `filewriteoff`; every turn but the last writes at least one byte. -/
def Kernel.writeoffLoop (p : Fin nProc) (ip data size : Nat) :
    Nat → Nat → Int → Kernel → Result (Kernel × Nat)
  | 0, written, _, k => .ok (k, written)
  | fuel + 1, written, offset, k =>
      if written < size then
        let chunk := min (size - written) maxChunkSize
        match k.writei (k.inodes ip) ((k.space p).loadBytes (data + written) chunk)
            (ofInt offset) chunk with
        | .error h => .error h
        | .ok (node, r) =>
            if r ≤ 0 then .ok (k.putInode ip node, written)
            else
              writeoffLoop p ip data size fuel (written + r.toNat) (offset + r)
                (k.putInode ip node)
      else .ok (k, written)

/-- `filewriteoff` with the page table of process `p`. -/
def Kernel.filewriteoff (k : Kernel) (p : Fin nProc) (f : Fin nFile) (data : Nat)
    (size offset : Int) : Result (Kernel × Int) :=
  if (k.ftable f).writable = false then .ok (k, -1)
  else if (k.ftable f).type = .inode then
    match k.writeoffLoop p (k.ftable f).ip data size.toNat size.toNat 0 offset with
    | .error h => .error h
    | .ok (k, written) => .ok (k, if (written : Int) = size then size else -1)
  else .error .filewriteoff

/-! ## sysfile.c -/

def oRdonly : Nat := 0x000
def oWronly : Nat := 0x001
def oRdwr : Nat := 0x002
def oCreate : Nat := 0x200

/-- `curproc->ofile[fd]`, with the descriptor as the caller passed it. -/
def Kernel.ofileAt (k : Kernel) (p : Fin nProc) (fd : Int) : Result (Option (Fin nFile)) :=
  if h : 0 ≤ fd ∧ fd.toNat < nOfile then .ok ((k.procs p).ofile ⟨fd.toNat, h.2⟩)
  else .error .wildFile

/-- `argfd`. -/
def Kernel.argfd (k : Kernel) (p : Fin nProc) (fd : Int) : Option (Fin nOfile × Fin nFile) :=
  if h : 0 ≤ fd ∧ fd.toNat < nOfile then
    ((k.procs p).ofile ⟨fd.toNat, h.2⟩).map fun f => (⟨fd.toNat, h.2⟩, f)
  else none

/-- `fdalloc`. -/
def Kernel.fdalloc (k : Kernel) (p : Fin nProc) (f : Fin nFile) : Option (Fin nOfile × Kernel) :=
  match (List.finRange nOfile).find? fun fd => ((k.procs p).ofile fd).isNone with
  | none => none
  | some fd => some (fd, k.setOfile p fd (some f))

def Kernel.sysDup (k : Kernel) (p : Fin nProc) (fd : Int) : Result (Kernel × Int) :=
  match k.argfd p fd with
  | none => .ok (k, -1)
  | some (_, f) =>
      match k.fdalloc p f with
      | none => .ok (k, -1)
      | some (newfd, k) =>
          match k.filedup f with
          | .error h => .error h
          | .ok k => .ok (k, newfd.val)

def Kernel.sysClose (k : Kernel) (p : Fin nProc) (fd : Int) : Result (Kernel × Int) :=
  match k.argfd p fd with
  | none => .ok (k, -1)
  | some (fd, f) =>
      match (k.setOfile p fd none).fileclose f with
      | .error h => .error h
      | .ok k => .ok (k, 0)

/-- `sys_open`, where `ip` is the inode that `namei` or `create` found for the path. -/
def Kernel.sysOpen (k : Kernel) (p : Fin nProc) (ip : Option Nat) (omode : Nat) :
    Result (Kernel × Int) :=
  match ip with
  | none => .ok (k, -1)
  | some ip =>
      if has omode oCreate = false ∧ (k.inodes ip).type = .dir ∧ omode ≠ oRdonly then .ok (k, -1)
      else
        match k.filealloc with
        | none => .ok (k, -1)
        | some (f, k) =>
            match k.fdalloc p f with
            | none =>
                match k.fileclose f with
                | .error h => .error h
                | .ok k => .ok (k, -1)
            | some (fd, k) =>
                .ok (k.setFile f { k.ftable f with
                  type := .inode
                  ip := ip
                  off := 0
                  readable := !has omode oWronly
                  writable := has omode oWronly || has omode oRdwr }, fd.val)

end OSProjects.Xv6
