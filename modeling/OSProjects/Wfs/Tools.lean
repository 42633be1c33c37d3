import OSProjects.Wfs.Layout

/-!
# `mkfs.wfs.c` and `fsck.wfs.c`

The first program writes the superblock and the root directory; the second
compacts the log in place.
-/

namespace OSProjects.Wfs

open ByteMemory WfsM

/-- The `disk_size` of both programs, one megabyte. -/
def diskSize : Nat := 1048576

/-- The assignments of `init_wfs` to the root inode; `t` is `time(NULL)`. -/
def rootFields (t : Nat) : List (InodeField × Nat) :=
  [(.inodeNumber, 0), (.deleted, 0), (.mode, sIFDIR), (.uid, 0), (.gid, 0), (.flags, 0),
    (.size, 0), (.ctime, t), (.mtime, t), (.atime, t), (.links, 1)]

/-- `init_wfs` on the mapped disk file. -/
def initWfs (t : Nat) : WfsM Unit := do
  storeWord 4 0 wfsMagic
  storeHead sizeofSb
  let logEntry ← loadHead
  storeFields logEntry (rootFields t)
  storeHead ((← loadHead) + sizeofInode)

/-- The loop of `compact_entries`; it returns the final `write_offset`. -/
def compactLoop (diskSize : Nat) : Nat → Nat → Nat → WfsM Nat
  | 0, _, _ => fault
  | fuel + 1, readOffset, writeOffset =>
      if readOffset < diskSize then do
        let deleted ← loadField readOffset .deleted
        if deleted = 0 then
          if readOffset ≠ writeOffset then do
            memcpy writeOffset readOffset sizeofInode
            compactLoop diskSize fuel (readOffset + sizeofInode) (writeOffset + sizeofInode)
          else
            compactLoop diskSize fuel (readOffset + sizeofInode) (readOffset + sizeofInode)
        else compactLoop diskSize fuel (readOffset + sizeofInode) writeOffset
      else pure writeOffset

/-- `compact_entries`. -/
def compactEntries (diskSize : Nat) : WfsM Unit := do
  let writeOffset ← compactLoop diskSize (diskSize + 1) sizeofSb sizeofSb
  storeHead writeOffset

end OSProjects.Wfs
