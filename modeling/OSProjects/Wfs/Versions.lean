import OSProjects.Wfs.Effects

/-!
# New inodes, new file versions and deleted entries

The remaining effects: an inode without data, a file version with a buffer
written into it, and the one word that `wfs_unlink` stores.
-/

namespace OSProjects.Wfs

open ByteMemory VersionedLog CString WfsM

/-! ## A new inode -/

/-- The inode of a file or directory that was just created. -/
def freshInode (num mode uid t : Nat) : Inode
  | .inodeNumber => num % 2 ^ 32
  | .deleted => 0
  | .mode => mode % 2 ^ 32
  | .uid => uid % 2 ^ 32
  | .gid => uid % 2 ^ 32
  | .flags => 0
  | .size => 0
  | .atime => t % 2 ^ 32
  | .mtime => t % 2 ^ 32
  | .ctime => t % 2 ^ 32
  | .links => 1

/-- `my_mknod` assigns every member. -/
theorem assign_mknodFields (mode uid t num : Nat) (i : Inode) :
    assign (mknodFields mode uid t num) i = freshInode num (mode ||| sIFREG) uid t := by
  funext f
  cases f <;> simp [assign, mknodFields, freshInode, Function.update]

/-- `my_mkdir` assigns every member, in another order. -/
theorem assign_mkdirFields (mode uid t num : Nat) (i : Inode) :
    assign (mkdirFields mode uid t num) i = freshInode num (sIFDIR ||| mode) uid t := by
  funext f
  cases f <;> simp [assign, mkdirFields, freshInode, Function.update]

/-- `appendInode` assigns the members behind the old head and moves the head. -/
theorem exec_appendInode (fs : List (InodeField × Nat)) {img : Image} (h8 : sizeofSb ≤ img.head)
    (hfits : img.head + sizeofInode ≤ img.size) (hword : img.head + sizeofInode < 2 ^ 32) :
    ∃ img', exec (appendInode fs) img = some ((), img') ∧ img'.size = img.size ∧
      img'.head = img.head + sizeofInode ∧ SameOutside img.byte img'.byte img.head img'.head ∧
      inodeAt img'.byte img.head = assign fs (inodeAt img.byte img.head) := by
  simp only [sizeofSb] at h8
  obtain ⟨img1, hfields, hsize1, hinode1, hframe1⟩ := exec_storeFields fs hfits
  have hhead1 : img1.head = img.head := head_congr fun i _ hi' => hframe1 i (by omega)
  obtain ⟨img2, hmove, hsize2, hhead2, hframe2⟩ :=
    exec_storeHead (show sizeofSb ≤ img1.size by simp only [sizeofSb]; omega)
      (img.head + sizeofInode)
  rw [Nat.mod_eq_of_lt hword] at hhead2
  refine ⟨img2, ?_, hsize2.trans hsize1, hhead2, ?_, ?_⟩
  · have hload : exec loadHead img = some (img.head, img) :=
      exec_loadHead_of_le (by simp only [sizeofSb]; omega)
    have hload1 : exec loadHead img1 = some (img.head, img1) := by
      rw [exec_loadHead_of_le (by simp only [sizeofSb]; omega), hhead1]
    simp only [appendInode, exec_bind, hload, Option.bind_some, hfields, hload1, hmove]
  · intro i hi hout
    rw [hhead2] at hout
    rw [hframe2 i hi, hframe1 i hout]
  · rw [← hinode1]
    exact inodeAt_congr fun i hi _ => hframe2 i (by omega)

/-- The entry of a new inode has no data. -/
theorem entryAt_of_freshInode {m : Memory} {log num mode uid t : Nat}
    (h : inodeAt m log = freshInode num mode uid t) :
    entryAt m log = ⟨log, freshInode num mode uid t, []⟩ := by
  simp [entryAt, h, freshInode]

/-! ## A new version of a file -/

/-- The size of a file after a write of `len` bytes at `off`. -/
def writtenSize (size off len : Nat) : Nat := max size (off + len)

/-- The members that `appendVersion` changes. -/
def versionInode (i : Inode) (size t : Nat) : Inode :=
  Function.update (Function.update i .size size) .mtime (t % 2 ^ 32)

/-- `growSize` leaves the greater of the two sizes. -/
theorem exec_growSize {img : Image} {log old stop : Nat} (h : log + sizeofInode ≤ img.size)
    (hold : inodeAt img.byte log .size = old) (hstop : stop < 2 ^ 32) :
    ∃ img', exec (growSize log old stop) img = some ((), img') ∧ img'.size = img.size ∧
      inodeAt img'.byte log = Function.update (inodeAt img.byte log) .size (max old stop) ∧
      ∀ i, i < log + 24 ∨ log + 28 ≤ i → img'.byte i = img.byte i := by
  by_cases hlt : old < stop
  · obtain ⟨img', hexec, hsize, hinode, hframe⟩ := exec_storeField h .size stop
    refine ⟨img', by rw [growSize, if_pos hlt, hexec], hsize, ?_, hframe⟩
    rw [hinode, Nat.mod_eq_of_lt hstop, Nat.max_eq_right (by omega)]
  · refine ⟨img, by rw [growSize, if_neg hlt]; rfl, rfl, ?_, fun _ _ => rfl⟩
    rw [Nat.max_eq_left (by omega), ← hold, Function.update_eq_self]

/-- `appendVersion` leaves the file with the buffer written over its data; a gap between
the old end and the offset keeps the bytes that the disk held there. -/
theorem LogView.exec_appendVersion {img : Image} {es : List LogEntry} (h : LogView img es)
    {e : LogEntry} (he : e ∈ es) (buf : List UInt8) (off t : Nat)
    (hfits : img.head + (sizeofInode + writtenSize (e.inode .size) off buf.length) ≤ img.size)
    (hword : img.head + (sizeofInode + writtenSize (e.inode .size) off buf.length) < 2 ^ 32) :
    ∃ img', exec (appendVersion e.offset buf off t) img = some ((), img') ∧
      img'.size = img.size ∧
      img'.head = img.head + (sizeofInode + writtenSize (e.inode .size) off buf.length) ∧
      SameOutside img.byte img'.byte img.head img'.head ∧
      entryAt img'.byte img.head =
        ⟨img.head, versionInode e.inode (writtenSize (e.inode .size) off buf.length) t,
          overlay (fun i => img.byte (img.head + sizeofInode + i)) e.data off buf⟩ := by
  have hhead8 := h.entries.le
  have hdlen := h.entries.length_data he
  have hbounds := (h.bounds he).2
  have hold0 := (h.reads he).1
  simp only [LogEntry.stop] at hbounds
  have hmax : writtenSize (e.inode .size) off buf.length =
      max (e.inode .size) (off + buf.length) := rfl
  obtain ⟨img1, hcopy, hsize1, hinode1, hdata1, hframe1⟩ := h.exec_copyEntry he (by omega)
  generalize writtenSize (e.inode .size) off buf.length = n at *
  generalize hsz : e.inode .size = sz at *
  generalize hhd : img.head = hd at *
  simp only [sizeofInode, sizeofSb] at *
  -- The size, the buffer, the time and the head are stored in this order.
  obtain ⟨img2, hgrow, hsize2, hinode2, hframe2⟩ :=
    exec_growSize (show hd + sizeofInode ≤ img1.size by simp only [sizeofInode]; omega)
      (show inodeAt img1.byte hd .size = sz by rw [hinode1, hsz])
      (show off + buf.length < 2 ^ 32 by omega)
  rw [hinode1, ← hmax] at hinode2
  obtain ⟨img3, hbuf, hsize3, hbuf3, hframe3⟩ :=
    exec_store_frame (show hd + 44 + off + buf.length ≤ img2.size by omega)
  have hinode3 : inodeAt img3.byte hd = Function.update e.inode .size n := by
    rw [← hinode2]
    refine inodeAt_congr fun i hi hi' => hframe3 i ?_
    simp only [sizeofInode] at hi'
    omega
  obtain ⟨img4, hmtime, hsize4, hinode4, hframe4⟩ :=
    exec_storeField (show hd + sizeofInode ≤ img3.size by simp only [sizeofInode]; omega)
      .mtime t
  rw [hinode3] at hinode4
  simp only [InodeField.offset] at hframe4
  have hhead4 : img4.head = hd := by
    rw [← hhd]
    refine head_congr fun i hi hi' => ?_
    rw [hframe4 i (by omega), hframe3 i (by omega), hframe2 i (by omega), hframe1 i (by omega)]
  obtain ⟨img5, hmove, hsize5, hhead5, hframe5⟩ :=
    exec_storeHead (show sizeofSb ≤ img4.size by simp only [sizeofSb]; omega) (hd + (44 + n))
  rw [Nat.mod_eq_of_lt hword] at hhead5
  have hexec : exec (appendVersion e.offset buf off t) img = some ((), img5) := by
    have hload1 : exec (loadField e.offset .size) img1 = some (sz, img1) := by
      have hold : inodeAt img1.byte e.offset = e.inode := by
        refine Eq.trans (inodeAt_congr fun i hi hi' => hframe1 i ?_) hold0
        simp only [sizeofInode] at hi'
        omega
      rw [exec_loadField_of_le (by simp only [sizeofInode]; omega), hold, hsz]
    have hload4 : exec (loadField hd .size) img4 = some (n, img4) := by
      rw [exec_loadField_of_le (by simp only [sizeofInode]; omega), hinode4]
      rfl
    have hloadHead4 : exec loadHead img4 = some (hd, img4) := by
      rw [exec_loadHead_of_le (by simp only [sizeofSb]; omega), hhead4]
    have h64 : (off + buf.length) % 2 ^ 64 = off + buf.length := Nat.mod_eq_of_lt (by omega)
    simp only [appendVersion, exec_bind, h.exec_loadHead, h.exec_loadField he, hhd, hsz,
      Option.bind_some, sizeofInode, hcopy, hload1, h64, hgrow, hbuf, hmtime, hloadHead4, hload4,
      hmove]
  have hback : ∀ i, hd + 44 ≤ i → img5.byte i = img3.byte i := by
    intro i hi
    rw [hframe5 i (by omega), hframe4 i (by omega)]
  refine ⟨img5, hexec, by omega, hhead5, ?_, ?_⟩
  · intro i hi hout
    rw [hhead5] at hout
    rw [hframe5 i hi, hframe4 i (by omega), hframe3 i (by omega), hframe2 i (by omega),
      hframe1 i (by omega)]
  · have hinode5 : inodeAt img5.byte hd = versionInode e.inode n t := by
      refine Eq.trans (inodeAt_congr fun i hi _ => hframe5 i (by omega)) hinode4
    have hbody : readBytes img5.byte (hd + 44) n =
        overlay (fun i => img.byte (hd + 44 + i)) e.data off buf := by
      rw [hmax, ← hdlen]
      apply readBytes_overlay
      · rw [readBytes_congr fun i hi _ => hback i (by omega), hbuf3]
      · intro i hi hout
        rw [hback _ (by omega), hframe3 _ (by omega), hframe2 _ (by omega)]
        have hget := @getElem?_readBytes img1.byte (hd + 44) sz i (by omega)
        rw [hdata1] at hget
        rw [List.getD_eq_getElem?_getD, hget]
        rfl
      · intro i hi hlt
        rw [hback _ (by omega), hframe3 _ (by omega), hframe2 _ (by omega), hframe1 _ (by omega)]
    have hsizeField : versionInode e.inode n t .size = n := rfl
    simp only [entryAt, hinode5, hsizeField, sizeofInode, hbody]

/-! ## A deleted entry -/

/-- The entry after `wfs_unlink` has set its deleted word. -/
def LogEntry.kill (e : LogEntry) : LogEntry :=
  { e with inode := Function.update e.inode .deleted 1 }

@[simp] theorem LogEntry.kill_number (e : LogEntry) : e.kill.number = e.number := rfl

@[simp] theorem LogEntry.kill_isDir (e : LogEntry) : e.kill.isDir = e.isDir := rfl

@[simp] theorem LogEntry.kill_live (e : LogEntry) : e.kill.live = false := rfl

/-- The log with the entry at one offset deleted. -/
def markDeleted (off : Nat) (es : List LogEntry) : List LogEntry :=
  es.map fun e => if e.offset = off then e.kill else e

/-- Rewriting entries in place keeps the chain when no entry changes its length. -/
theorem LogFrom.map {m m' : Memory} {off stop : Nat} {es : List LogEntry}
    {g : LogEntry → LogEntry} (h : LogFrom m off es stop)
    (hg : ∀ e ∈ es, g e = entryAt m' e.offset ∧ (g e).stop = e.stop) :
    LogFrom m' off (es.map g) stop := by
  induction es generalizing off with
  | nil => exact h
  | cons e es ih =>
      obtain ⟨he, hrest⟩ := h
      obtain ⟨hentry, hstop⟩ := hg e (by simp)
      have hoff : e.offset = off := by rw [he]; rfl
      refine ⟨hoff ▸ hentry, ?_⟩
      rw [hstop]
      exact ih hrest fun f hf => hg f (List.mem_cons_of_mem e hf)

/-- Setting the deleted word of a listed entry. -/
theorem LogView.exec_kill {img : Image} {es : List LogEntry} (h : LogView img es)
    {e : LogEntry} (he : e ∈ es) :
    ∃ img', exec (storeField e.offset .deleted 1) img = some ((), img') ∧
      img'.size = img.size ∧ img'.head = img.head ∧
      inodeAt img'.byte e.offset = Function.update e.inode .deleted 1 ∧
      (∀ i, i < e.offset + 4 ∨ e.offset + 8 ≤ i → img'.byte i = img.byte i) ∧
      LogView img' (markDeleted e.offset es) := by
  obtain ⟨_, hsb, hstop⟩ := h.bounds he
  have hin := h.inside
  simp only [LogEntry.stop, sizeofSb] at hsb hstop
  obtain ⟨img', hexec, hsize, hinode, hframe⟩ :=
    exec_storeField (show e.offset + sizeofInode ≤ img.size by omega) .deleted 1
  rw [(h.reads he).1, Nat.mod_eq_of_lt (by norm_num : 1 < 2 ^ 32)] at hinode
  simp only [InodeField.offset] at hframe
  have hhead : img'.head = img.head :=
    head_congr fun i _ hi' => hframe i (by omega)
  refine ⟨img', hexec, hsize, hhead, hinode, hframe, ⟨?_, by omega⟩⟩
  rw [hhead]
  apply h.entries.map
  intro f hf
  split
  · next hoff =>
    -- The entry at this offset is the deleted one.
    have hfe : f = e := by rw [(h.bounds hf).1, hoff, ← (h.bounds he).1]
    subst hfe
    refine ⟨?_, rfl⟩
    have hdata : readBytes img'.byte (f.offset + sizeofInode) (f.inode .size) = f.data := by
      rw [← (h.reads hf).2]
      refine readBytes_congr fun i hi _ => hframe i (Or.inr ?_)
      simp only [sizeofInode] at hi
      omega
    have hsizeField : Function.update f.inode .deleted 1 .size = f.inode .size := rfl
    simp only [entryAt, hinode, hsizeField, hdata, LogEntry.kill]
  · next hoff =>
    refine ⟨?_, rfl⟩
    rcases h.entries.disjoint hf he with rfl | hdis | hdis
    · exact absurd rfl hoff
    all_goals
      conv => lhs; rw [(h.bounds hf).1]
      apply entryAt_congr
      intro i hi hi'
      rw [← (h.bounds hf).1] at hi'
      simp only [LogEntry.stop, sizeofInode] at hdis hi'
      exact (hframe i (by omega)).symm

end OSProjects.Wfs
