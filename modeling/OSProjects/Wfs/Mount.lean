import OSProjects.Foundation.CString
import OSProjects.Wfs.Layout

/-!
# The operations of `mount.wfs.c`

Each function of the server is translated statement by statement. A pointer to
a log entry is an offset in the image and `none` is NULL. The loops take fuel;
`LogView` proves that the fuel given here is never used up on a log that ends
at `sb->head`.
-/

namespace OSProjects.Wfs

open ByteMemory CString WfsM

/-- `MAX_PATH_LENGTH`. -/
def maxPathLength : Nat := 128

/-- `(unsigned long)-1`, the answer for a name that a directory does not hold. -/
def notFound : Nat := 2 ^ 64 - 1

/-- The loop of `get_log_entry`. The members are read in every iteration that the
short-circuit test of the source reads them in; `size` lies behind both. -/
def getLogEntryLoop (ino head : Nat) : Nat → Nat → Option Nat → WfsM (Option Nat)
  | 0, _, _ => fault
  | fuel + 1, log, res =>
      if log < head then do
        let number ← loadField log .inodeNumber
        let deleted ← loadField log .deleted
        let size ← loadField log .size
        getLogEntryLoop ino head fuel (log + (sizeofInode + size))
          (if number = ino ∧ deleted = 0 then some log else res)
      else pure res

/-- `get_log_entry`: the last entry of the log with this number that is not deleted. -/
def getLogEntry (ino : Nat) : WfsM (Option Nat) := do
  let head ← loadHead
  getLogEntryLoop ino head (head + 1) sizeofSb none

/-- The loop of `Max_InodeNum`. -/
def maxInodeNumLoop (head : Nat) : Nat → Nat → Nat → WfsM Nat
  | 0, _, _ => fault
  | fuel + 1, log, acc =>
      if log < head then do
        let number ← loadField log .inodeNumber
        let deleted ← loadField log .deleted
        let size ← loadField log .size
        maxInodeNumLoop head fuel (log + (sizeofInode + size))
          (if acc < number ∧ deleted = 0 then number else acc)
      else pure acc

/-- `Max_InodeNum`: the greatest number among the entries that are not deleted. -/
def maxInodeNum : WfsM Nat := do
  let head ← loadHead
  maxInodeNumLoop head (head + 1) sizeofSb 0

/-- The loop of `get_inode_number` over the directory entries before `endPtr`. -/
def getInodeNumberLoop (name : List UInt8) (endPtr : Nat) : Nat → Nat → WfsM Nat
  | 0, _ => fault
  | fuel + 1, cur =>
      if cur < endPtr then do
        let same ← strcmpEq name cur
        if same then load 8 (cur + maxFileNameLen)
        else getInodeNumberLoop name endPtr fuel (cur + sizeofDentry)
      else pure notFound

/-- `get_inode_number`: the number stored for `name` in a directory's data. -/
def getInodeNumber (name : List UInt8) : Option Nat → WfsM Nat
  | none => fault
  | some logEntry => do
      let size ← loadField logEntry .size
      let endPtr := logEntry + sizeofInode + size
      getInodeNumberLoop name endPtr (size + 1) (logEntry + sizeofInode)

/-- The token loop of `path_to_log_entry`. -/
def pathLoop : List (List UInt8) → Option Nat → WfsM (Option Nat)
  | [], cur => pure cur
  | _ :: _, none => pure none
  | token :: rest, some cur => do
      let inodeNum ← getInodeNumber token (some cur)
      if inodeNum = notFound then pure none
      else do
        -- The parameter of `get_log_entry` is an `unsigned int`.
        let next ← getLogEntry (inodeNum % 2 ^ 32)
        pathLoop rest next

/-- `path_to_log_entry`. -/
def pathToLogEntry (path : List UInt8) : WfsM (Option Nat) := do
  let root ← getLogEntry 0
  pathLoop (strtok slash path) root

/-- `find_parent_log_path`: the path is copied into a buffer of `MAX_PATH_LENGTH`
bytes and cut at the last slash of the copy. -/
def findParentLogPath (path : List UInt8) : WfsM (Option Nat) :=
  if path = [slash] ∨ path = [] then getLogEntry 0
  else
    let parentPath := path.take (maxPathLength - 1)
    match strrchr slash parentPath with
    | none => getLogEntry 0
    | some 0 => getLogEntry 0
    | some slashPosition => pathToLogEntry (parentPath.take slashPosition)

/-- The members of `struct stat` that `my_getattr` fills. -/
structure Stat where
  stSize : Nat
  stNlink : Nat
  stMode : Nat
  stMtime : Nat
  stGid : Nat
  stUid : Nat
  deriving DecidableEq, Repr

/-- `my_getattr`. -/
def myGetattr (path : List UInt8) : WfsM (Int × Stat) := do
  match ← pathToLogEntry path with
  | none => return (eNOENT, ⟨0, 0, 0, 0, 0, 0⟩)
  | some log =>
      let size ← loadField log .size
      let links ← loadField log .links
      let mode ← loadField log .mode
      let mtime ← loadField log .mtime
      let gid ← loadField log .gid
      let uid ← loadField log .uid
      return (0, ⟨size, links, mode, mtime, gid, uid⟩)

/-- What follows the last slash of a path, or the whole path. -/
def fileName (path : List UInt8) : List UInt8 :=
  match strrchr slash path with
  | some pos => path.drop (pos + 1)
  | none => path

/-- Append a copy of the directory at `parentLog` with one more entry, then move
`sb->head` behind it. -/
def appendParent (parentLog num : Nat) (name : List UInt8) : WfsM Unit := do
  let newP ← loadHead
  memcpy newP parentLog (sizeofInode + (← loadField parentLog .size))
  let newD := newP + sizeofInode + (← loadField newP .size)
  storeWord 8 (newD + maxFileNameLen) num
  strcpy newD name
  storeField newP .size ((← loadField newP .size) + sizeofDentry)
  storeHead ((← loadHead) + (sizeofInode + (← loadField newP .size)))

/-- Append an inode without data, its members assigned in the given order. -/
def appendInode (fields : List (InodeField × Nat)) : WfsM Unit := do
  let newF ← loadHead
  storeFields newF fields
  storeHead ((← loadHead) + sizeofInode)

/-- The common body of `my_mknod` and `my_mkdir`: they differ in the order and the
values of the assignments to the new inode. -/
def createEntry (path : List UInt8) (fields : Nat → List (InodeField × Nat)) : WfsM Int := do
  let parentLog ← findParentLogPath path
  let num := ((← maxInodeNum) + 1) % 2 ^ 32
  let found ← getInodeNumber (fileName path) parentLog
  if found ≠ notFound then return eEXIST
  else
    match parentLog with
    | none => fault
    | some parentLog =>
        appendParent parentLog num (fileName path)
        appendInode (fields num)
        return 0

/-- The assignments of `my_mknod` to its new inode; `t` is `time(NULL)`. -/
def mknodFields (mode uid t num : Nat) : List (InodeField × Nat) :=
  [(.inodeNumber, num), (.size, 0), (.links, 1), (.mode, mode ||| sIFREG), (.flags, 0),
    (.deleted, 0), (.gid, uid), (.uid, uid), (.atime, t), (.mtime, t), (.ctime, t)]

/-- The assignments of `my_mkdir` to its new inode. -/
def mkdirFields (mode uid t num : Nat) : List (InodeField × Nat) :=
  [(.inodeNumber, num), (.mode, sIFDIR ||| mode), (.links, 1), (.deleted, 0), (.size, 0),
    (.flags, 0), (.atime, t), (.mtime, t), (.ctime, t), (.gid, uid), (.uid, uid)]

/-- `my_mknod`; `none` is a NULL path. -/
def myMknod (path : Option (List UInt8)) (mode uid t : Nat) : WfsM Int :=
  match path with
  | none => return eINVAL
  | some path => createEntry path (mknodFields mode uid t)

/-- `my_mkdir`; `none` is a NULL path. -/
def myMkdir (path : Option (List UInt8)) (mode uid t : Nat) : WfsM Int :=
  match path with
  | none => return eINVAL
  | some path => createEntry path (mkdirFields mode uid t)

/-- A `size_t` returned as an `int`. -/
def toInt (n : Nat) : Int :=
  if n % 2 ^ 32 < 2 ^ 31 then (n % 2 ^ 32 : Nat) else (n % 2 ^ 32 : Nat) - (2 ^ 32 : Int)

/-- `my_read`: the bytes it copies into the caller's buffer come with the result. It copies
`size` bytes whatever is left of the file behind `offset`. -/
def myRead (path : List UInt8) (size : Nat) (offset : Int) : WfsM (Int × List UInt8) := do
  match ← pathToLogEntry path with
  | none => return (eNOENT, [])
  | some log =>
      let fileSize ← loadField log .size
      if offset < fileSize then
        if (log + sizeofInode : Nat) + offset < 0 then fault
        else do
          let bytes ← loadBytes ((log + sizeofInode : Nat) + offset).toNat size
          return (toInt size, bytes)
      else return (0, [])

/-- Raise the size of a new version to `stop` when the old size is smaller. -/
def growSize (newLogEntry oldSize stop : Nat) : WfsM Unit :=
  if oldSize < stop then storeField newLogEntry .size stop else pure ()

/-- Append a new version of the file at `cur` with `buffer` written at `writeOffset`.
The sum of the offset and the size is taken in 64 bits and stored in 32. -/
def appendVersion (cur : Nat) (buffer : List UInt8) (writeOffset t : Nat) : WfsM Unit := do
  let newLogEntry ← loadHead
  memcpy newLogEntry cur (sizeofInode + (← loadField cur .size))
  growSize newLogEntry (← loadField cur .size) ((writeOffset + buffer.length) % 2 ^ 64)
  store (newLogEntry + sizeofInode + writeOffset) buffer
  storeField newLogEntry .mtime t
  storeHead ((← loadHead) + (sizeofInode + (← loadField newLogEntry .size)))

/-- `my_write`. -/
def myWrite (path buffer : List UInt8) (writeOffset : Int) (t : Nat) : WfsM Int :=
  if writeOffset < 0 then return 0
  else do
    match ← pathToLogEntry path with
    | none => return eNOENT
    | some cur =>
        appendVersion cur buffer writeOffset.toNat t
        return toInt buffer.length

/-- `wfs_unlink`. -/
def wfsUnlink (path : List UInt8) : WfsM Int := do
  match ← pathToLogEntry path with
  | none => return eNOENT
  | some fileEntry =>
      let mode ← loadField fileEntry .mode
      if isDirMode mode then return eISDIR
      else
        storeField fileEntry .deleted 1
        return 0

end OSProjects.Wfs
