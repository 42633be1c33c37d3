import OSProjects.Storage.MkfsFiles

/-!
# Directories

`dirlookup` and `dirlink` of `fs.c`, and what the calls of `sysfile.c` do to a directory that
they have locked. The inodes in memory are those on the disk.
-/

namespace OSProjects.Storage

open ByteMemory RedoLog Xv6

/-! ## Entries -/

def direntSize : Nat := 16
def dirSiz : Nat := 14

/-- `de.inum`, of the bytes of an entry. -/
def entryInum (de : List UInt8) : Nat := wordValue (de.take 2)

/-- `de.name`. -/
def entryName (de : List UInt8) : List UInt8 := de.drop 2

/-- What `strncmp` with `DIRSIZ` sees of a name. -/
def seenName (s : List UInt8) : List UInt8 := (s.take dirSiz).takeWhile (· ≠ 0)

/-- `namecmp(s, t) == 0`. -/
def namecmp (s t : List UInt8) : Bool := seenName s = seenName t

def dot : List UInt8 := [46]
def dotdot : List UInt8 := [46, 46]

/-- An entry in use. -/
def taken (de : List UInt8) : Bool := entryInum de ≠ 0

/-- An entry that `dirlookup` returns for a name. -/
def matching (name de : List UInt8) : Bool := taken de && namecmp name (entryName de)

/-- `short` arithmetic: `ip->nlink++` and `ip->nlink--`. -/
def incLink (n : Nat) : Nat := (n + 1) % 2 ^ 16
def decLink (n : Nat) : Nat := (n + (2 ^ 16 - 1)) % 2 ^ 16

section Functions

variable (sb : Superblock) (k : Kernel)

/-! ## fs.c -/

/-- Where a loop over a directory ends: the offset, the entry it stopped at, and what `readi`
leaves. -/
structure Scan where
  off : Nat
  de : Option (List UInt8)
  ip : Dinode
  disk : Disk Block

/-- `for(; off < size; off += sizeof(de))` with a break at an entry. Its panic is for a `readi`
that does not return a whole entry. -/
def scanDir (panic : FsPanic) (stop : List UInt8 → Bool) (size : Nat) (d : Disk Block)
    (ip : Dinode) (off : Nat) : Except FsPanic Scan :=
  if off < size then
    (readi sb k d ip off direntSize).bind fun r =>
      if r.result ≠ direntSize then .error panic
      else if stop r.bytes then .ok ⟨off, some r.bytes, r.ip, r.disk⟩
      else scanDir panic stop size r.disk r.ip (off + direntSize)
  else .ok ⟨off, none, ip, d⟩
termination_by size - off
decreasing_by
  change size - (off + 16) < size - off
  omega

def dirlookup (d : Disk Block) (ip : Dinode) (name : List UInt8) : Except FsPanic Scan :=
  if ip.type ≠ tDir then .error .notDir
  else scanDir sb k .dirlookupRead (matching name) ip.size d ip 0

/-- `dirlink` to the locked inode `i`. The `iput` of an entry that is there takes its lock. -/
def dirlink (d : Disk Block) (i : Nat) (ip : Dinode) (name : List UInt8) (inum : Nat) :
    Except FsPanic WriteDone :=
  (dirlookup sb k d ip name).bind fun s =>
    match s.de with
    | some de => if entryInum de = i then .error .selfLock else .ok ⟨-1, s.ip, s.disk⟩
    | none =>
        (scanDir sb k .dirlinkRead (fun de => !taken de) s.ip.size s.disk s.ip 0).bind fun s =>
          (writei sb k s.disk i s.ip s.off (Image.dirent inum name)).bind fun w =>
            if w.result ≠ direntSize then .error .dirlink else .ok ⟨0, w.ip, w.disk⟩

/-! ## sysfile.c -/

/-- `isdirempty` when no entry is left in the scan. -/
def isdirempty (d : Disk Block) (ip : Dinode) : Except FsPanic Scan :=
  scanDir sb k .isdirempty taken ip.size d ip (2 * direntSize)

/-- `sys_unlink` from its `memset` on: the entry at `off` of `dp`, the inode `i`, is that of the
inode `j`. -/
def eraseEntry (d : Disk Block) (off i : Nat) (dp : Dinode) (j : Nat) (ip : Dinode) :
    Except FsPanic (Option Nat × Disk Block) :=
  (writei sb k d i dp off (List.replicate direntSize 0)).bind fun w =>
    if w.result ≠ direntSize then .error .unlinkWritei
    else
      let d := if ip.type = tDir then
        sb.putDinode w.disk i { w.ip with nlink := decLink w.ip.nlink } else w.disk
      .ok (some j, sb.putDinode d j { ip with nlink := decLink ip.nlink })

/-- `sys_unlink` once the directory `i` is locked; nothing for its `bad`. -/
def unlink (d : Disk Block) (i : Nat) (name : List UInt8) :
    Except FsPanic (Option Nat × Disk Block) :=
  if namecmp name dot || namecmp name dotdot then .ok (none, d)
  else
    (dirlookup sb k d (sb.dinode d i) name).bind fun s =>
      match s.de with
      | none => .ok (none, s.disk)
      | some de =>
          let ip := sb.dinode s.disk (entryInum de)
          if entryInum de = i then .error .selfLock
          else if ip.type = 0 then .error .noType
          else if short ip.nlink < 1 then .error .unlinkNlink
          else if ip.type = tDir then
            (isdirempty sb k s.disk ip).bind fun e =>
              if e.de.isSome then .ok (none, e.disk)
              else eraseEntry sb k e.disk s.off i s.ip (entryInum de) e.ip
          else eraseEntry sb k s.disk s.off i s.ip (entryInum de) ip

/-- `// Create . and .. entries.` -/
def makeDots (d : Disk Block) (i : Nat) (dp : Dinode) (j : Nat) (ip : Dinode) :
    Except FsPanic (Dinode × Disk Block) :=
  let dp := { dp with nlink := incLink dp.nlink }
  (dirlink sb k (sb.putDinode d i dp) j ip dot j).bind fun w =>
    if w.result < 0 then .error .createDots
    else
      (dirlink sb k w.disk j w.ip dotdot i).bind fun w =>
        if w.result < 0 then .error .createDots else .ok (dp, w.disk)

/-- `create` once the directory `i` is locked; nothing if the name is there. -/
def create (d : Disk Block) (i : Nat) (name : List UInt8) (type major minor : Nat) :
    Except FsPanic (Option Nat × Disk Block) :=
  (dirlookup sb k d (sb.dinode d i) name).bind fun s =>
    if s.de.isSome then .ok (none, s.disk)
    else
      (ialloc sb s.disk type).bind fun r =>
        let ip := { sb.dinode r.2 r.1 with major := major, minor := minor, nlink := 1 }
        let d := sb.putDinode r.2 r.1 ip
        (if type = tDir then makeDots sb k d i s.ip r.1 ip else .ok (s.ip, d)).bind fun q =>
          (dirlink sb k q.2 i q.1 name r.1).bind fun w =>
            if w.result < 0 then .error .createDirlink else .ok (some r.1, w.disk)

end Functions

end OSProjects.Storage
