import OSProjects.Wfs.Path
import Mathlib.Logic.Function.Basic

/-!
# What the stores of an operation leave in the image

Every append is described by the entry it leaves behind the old head and by the
bytes it does not touch. The descriptions mention no intermediate image, so the
proofs about whole operations never look at single stores.
-/

namespace OSProjects.Wfs

open ByteMemory VersionedLog CString WfsM

/-- The two memories agree outside `sb->head` and the range from `a` to `b`. -/
def SameOutside (m m' : Memory) (a b : Nat) : Prop :=
  ∀ i, (i < 4 ∨ 8 ≤ i) → (i < a ∨ b ≤ i) → m' i = m i

theorem SameOutside.trans {m m' m'' : Memory} {a b c : Nat} (h : SameOutside m m' a b)
    (h' : SameOutside m' m'' b c) (hab : a ≤ b) (hbc : b ≤ c) : SameOutside m m'' a c := by
  intro i hi hout
  rw [h' i hi (by omega), h i hi (by omega)]

/-! ## Single stores and their frames -/

theorem apply_single_byte (img : Image) (s : Store) :
    (img.apply [s]).byte = s.apply img.byte := rfl

theorem head_congr {img img' : Image} (h : ∀ i, 4 ≤ i → i < 8 → img.byte i = img'.byte i) :
    img.head = img'.head :=
  readWord_congr h

theorem inodeAt_congr {m m' : Memory} {log : Nat}
    (h : ∀ i, log ≤ i → i < log + sizeofInode → m i = m' i) : inodeAt m log = inodeAt m' log := by
  funext f
  have hf := f.offset_le
  exact readWord_congr fun i hi hi' => h i (by omega) (by omega)

/-- A store leaves its bytes in place and every other byte unchanged. -/
theorem exec_store_frame {img : Image} {off : Nat} {bytes : List UInt8}
    (h : off + bytes.length ≤ img.size) :
    ∃ img', exec (store off bytes) img = some ((), img') ∧ img'.size = img.size ∧
      readBytes img'.byte off bytes.length = bytes ∧
      ∀ i, i < off ∨ off + bytes.length ≤ i → img'.byte i = img.byte i := by
  refine ⟨_, exec_store h, rfl, Store.readBytes_apply_self off bytes img.byte, ?_⟩
  intro i hi
  rcases hi with hi | hi
  · exact Store.apply_of_lt _ _ hi
  · exact Store.apply_of_stop_le _ _ hi

/-- A copy leaves the bytes of its source in place and every other byte unchanged. -/
theorem exec_memcpy_frame {img : Image} {dst src n : Nat} (hs : src + n ≤ img.size)
    (hd : dst + n ≤ img.size) :
    ∃ img', exec (memcpy dst src n) img = some ((), img') ∧ img'.size = img.size ∧
      readBytes img'.byte dst n = readBytes img.byte src n ∧
      ∀ i, i < dst ∨ dst + n ≤ i → img'.byte i = img.byte i := by
  have hlength : dst + (readBytes img.byte src n).length ≤ img.size := by
    rwa [length_readBytes]
  have hframe := exec_store_frame hlength
  rw [length_readBytes, exec_store hlength] at hframe
  rw [exec_memcpy hs hd]
  exact hframe

theorem exec_loadHead_of_le {img : Image} (h : sizeofSb ≤ img.size) :
    exec loadHead img = some (img.head, img) :=
  exec_load (by simpa [sizeofSb] using h)

/-- Assigning `sb->head`. -/
theorem exec_storeHead {img : Image} (h : sizeofSb ≤ img.size) (v : Nat) :
    ∃ img', exec (storeHead v) img = some ((), img') ∧ img'.size = img.size ∧
      img'.head = v % 2 ^ 32 ∧ ∀ i, i < 4 ∨ 8 ≤ i → img'.byte i = img.byte i := by
  obtain ⟨img', hexec, hsize, hread, hframe⟩ :=
    exec_store_frame (show 4 + (wordBytes 4 v).length ≤ img.size by simpa [sizeofSb] using h)
  rw [length_wordBytes] at hread hframe
  refine ⟨img', hexec, hsize, ?_, hframe⟩
  rw [Image.head, readWord, hread, wordValue_wordBytes]
  norm_num

/-! ## Inode members -/

/-- Assignments to inode members, each truncated to its word. -/
def assign (fs : List (InodeField × Nat)) (i : Inode) : Inode :=
  fs.foldl (fun i p => Function.update i p.1 (p.2 % 2 ^ 32)) i

theorem inodeAt_storeField (m : Memory) (log v : Nat) (f : InodeField) :
    inodeAt (Store.apply ⟨log + f.offset, wordBytes 4 v⟩ m) log =
      Function.update (inodeAt m log) f (v % 2 ^ 32) := by
  funext g
  by_cases hg : g = f
  · subst hg
    rw [Function.update_self]
    exact readWord_apply_self (log + g.offset) 4 v m
  · rw [Function.update_of_ne hg]
    have hdis := InodeField.offset_disjoint hg
    apply readWord_apply_disjoint
    simp only [Store.stop, length_wordBytes]
    omega

/-- Assigning one member of an inode. -/
theorem exec_storeField {img : Image} {log : Nat} (h : log + sizeofInode ≤ img.size)
    (f : InodeField) (v : Nat) :
    ∃ img', exec (storeField log f v) img = some ((), img') ∧ img'.size = img.size ∧
      inodeAt img'.byte log = Function.update (inodeAt img.byte log) f (v % 2 ^ 32) ∧
      ∀ i, i < log + f.offset ∨ log + f.offset + 4 ≤ i → img'.byte i = img.byte i := by
  have hf := f.offset_le
  have hin : log + f.offset + (wordBytes 4 v).length ≤ img.size := by
    rw [length_wordBytes]
    omega
  refine ⟨_, exec_store hin, rfl, inodeAt_storeField img.byte log v f, ?_⟩
  intro i hi
  rcases hi with hi | hi
  · exact Store.apply_of_lt _ _ hi
  · apply Store.apply_of_stop_le
    simpa only [Store.stop, length_wordBytes] using hi

/-- Assigning members one after the other. -/
theorem exec_storeFields (fs : List (InodeField × Nat)) {img : Image} {log : Nat}
    (h : log + sizeofInode ≤ img.size) :
    ∃ img', exec (storeFields log fs) img = some ((), img') ∧ img'.size = img.size ∧
      inodeAt img'.byte log = assign fs (inodeAt img.byte log) ∧
      ∀ i, i < log ∨ log + sizeofInode ≤ i → img'.byte i = img.byte i := by
  induction fs generalizing img with
  | nil => exact ⟨img, rfl, rfl, rfl, fun _ _ => rfl⟩
  | cons p rest ih =>
      obtain ⟨f, v⟩ := p
      obtain ⟨img1, hexec1, hsize1, hinode1, hframe1⟩ := exec_storeField h f v
      obtain ⟨img', hexec, hsize, hinode, hframe⟩ := @ih img1 (by omega)
      have hf := f.offset_le
      refine ⟨img', ?_, hsize.trans hsize1, ?_, ?_⟩
      · simp only [storeFields, exec_bind, hexec1, Option.bind_some, hexec]
      · rw [hinode, hinode1]
        rfl
      · intro i hi
        rw [hframe i hi, hframe1 i (by omega)]

/-! ## A new version of a directory -/

/-- The record that `strcpy` and the assignment of the number leave decodes to them. -/
theorem decodeDentry_of_reads {m : Memory} {off num : Nat} {name : List UInt8}
    (hnul : 0 ∉ name) (hlen : name.length < maxFileNameLen)
    (hname : readBytes m off (name.length + 1) = name ++ [0])
    (hnum : readWord m 8 (off + maxFileNameLen) = num) :
    0 ∈ (readBytes m off sizeofDentry).take maxFileNameLen ∧
      decodeDentry (readBytes m off sizeofDentry) = ⟨name, num⟩ := by
  have htake : (readBytes m off sizeofDentry).take maxFileNameLen =
      name ++ 0 :: readBytes m (off + (name.length + 1)) (maxFileNameLen - (name.length + 1)) := by
    have hsplit : maxFileNameLen = (name.length + 1) + (maxFileNameLen - (name.length + 1)) := by
      omega
    have h32 : (readBytes m off sizeofDentry).take maxFileNameLen =
        readBytes m off maxFileNameLen := take_readBytes m off maxFileNameLen 8
    rw [h32]
    conv => lhs; rw [hsplit]
    rw [readBytes_add, hname, List.append_assoc]
    rfl
  have hnumber : ((readBytes m off sizeofDentry).drop maxFileNameLen).take 8 =
      readBytes m (off + maxFileNameLen) 8 :=
    (readBytes_sub m off (by decide : maxFileNameLen + 8 ≤ sizeofDentry)).symm
  constructor
  · rw [htake]
    simp
  · have hall : ∀ b ∈ name, b ≠ 0 := fun b hb h0 => hnul (h0 ▸ hb)
    have hwhile : (name ++ 0 :: readBytes m (off + (name.length + 1))
        (maxFileNameLen - (name.length + 1))).takeWhile (· ≠ 0) = name := by
      rw [List.takeWhile_append_of_pos (by simpa using hall)]
      simp
    rw [decodeDentry, htake, hwhile, hnumber]
    exact congrArg (Dentry.mk name) hnum

/-- The inode and the data of a listed entry, read from the image. -/
theorem LogView.reads {img : Image} {es : List LogEntry} (h : LogView img es) {e : LogEntry}
    (he : e ∈ es) :
    inodeAt img.byte e.offset = e.inode ∧
      readBytes img.byte (e.offset + sizeofInode) (e.inode .size) = e.data := by
  have heq := (h.bounds he).1
  have hinode : inodeAt img.byte e.offset = e.inode := by
    conv => rhs; rw [heq]
    rfl
  refine ⟨hinode, ?_⟩
  conv => rhs; rw [heq]
  simp only [entryAt, hinode]

/-- Both appends begin by copying an entry behind the head. -/
theorem LogView.exec_copyEntry {img : Image} {es : List LogEntry} (h : LogView img es)
    {e : LogEntry} (he : e ∈ es) (hfits : img.head + (sizeofInode + e.inode .size) ≤ img.size) :
    ∃ img', exec (memcpy img.head e.offset (sizeofInode + e.inode .size)) img = some ((), img') ∧
      img'.size = img.size ∧ inodeAt img'.byte img.head = e.inode ∧
      readBytes img'.byte (img.head + sizeofInode) (e.inode .size) = e.data ∧
      ∀ i, i < img.head ∨ img.head + (sizeofInode + e.inode .size) ≤ i →
        img'.byte i = img.byte i := by
  obtain ⟨_, _, hstop⟩ := h.bounds he
  obtain ⟨hinode, hdata⟩ := h.reads he
  have hin := h.inside
  have hsrc : e.offset + (sizeofInode + e.inode .size) ≤ img.size := Nat.le_trans hstop hin
  obtain ⟨img', hexec, hsize, hcopy, hframe⟩ := exec_memcpy_frame hsrc hfits
  refine ⟨img', hexec, hsize, ?_, ?_, hframe⟩
  · rw [← hinode]
    funext f
    have hf := f.offset_le
    exact readWord_eq_of_readBytes hcopy (by omega)
  · rw [← hdata, readBytes_sub img'.byte img.head (Nat.le_refl _), hcopy,
      ← readBytes_sub img.byte e.offset (Nat.le_refl _)]

/-- What `appendParent` leaves, for a name of any length: the name is stored after the number,
and lies over it from the 33rd byte on. -/
theorem LogView.exec_appendRecord {img : Image} {es : List LogEntry} (h : LogView img es)
    {e : LogEntry} (he : e ∈ es) (name : List UInt8) (num : Nat)
    (hfits : img.head + (sizeofInode + (e.inode .size + sizeofDentry)) ≤ img.size)
    (hlong : img.head + (sizeofInode + (e.inode .size + (name.length + 1))) ≤ img.size)
    (hword : img.head + (sizeofInode + (e.inode .size + sizeofDentry)) < 2 ^ 32) :
    ∃ img', exec (appendParent e.offset num name) img = some ((), img') ∧
      img'.size = img.size ∧
      img'.head = img.head + (sizeofInode + (e.inode .size + sizeofDentry)) ∧
      inodeAt img'.byte img.head =
        Function.update e.inode .size (e.inode .size + sizeofDentry) ∧
      readBytes img'.byte (img.head + sizeofInode) (e.inode .size) = e.data ∧
      readBytes img'.byte (img.head + sizeofInode + e.inode .size) (name.length + 1) =
        name ++ [0] ∧
      (∀ i, i < 8 → name.length < maxFileNameLen + i →
        img'.byte (img.head + sizeofInode + e.inode .size + maxFileNameLen + i) =
          (wordBytes 8 num).getD i 0) ∧
      ∀ i, (i < 4 ∨ 8 ≤ i) →
        (i < img.head ∨ img.head + (sizeofInode + (e.inode .size + sizeofDentry)) ≤ i ∧
          img.head + (sizeofInode + (e.inode .size + (name.length + 1))) ≤ i) →
        img'.byte i = img.byte i := by
  have hhead8 := h.entries.le
  obtain ⟨img1, hcopy, hsize1, hinode1, hdata1, hframe1⟩ := h.exec_copyEntry he (by omega)
  generalize hsz : e.inode .size = sz at *
  generalize hhd : img.head = hd at *
  simp only [sizeofInode, sizeofSb, sizeofDentry, maxFileNameLen] at *
  -- The number, the name, the copied size and the head are stored in this order.
  obtain ⟨img2, hnumStore, hsize2, hnum2, hframe2⟩ :=
    exec_store_frame (show hd + 44 + sz + 32 + (wordBytes 8 num).length ≤ img1.size by
      rw [length_wordBytes]; omega)
  obtain ⟨img3, hnameStore, hsize3, hname3, hframe3⟩ :=
    exec_store_frame (show hd + 44 + sz + (name ++ [0]).length ≤ img2.size by
      rw [List.length_append, List.length_singleton]; omega)
  rw [length_wordBytes] at hnum2 hframe2
  rw [List.length_append, List.length_singleton] at hname3 hframe3
  have hinode3 : inodeAt img3.byte hd = e.inode := by
    rw [← hinode1]
    refine inodeAt_congr fun i hi hi' => ?_
    simp only [sizeofInode] at hi'
    rw [hframe3 i (by omega), hframe2 i (by omega)]
  obtain ⟨img4, hsizeStore, hsize4, hinode4, hframe4⟩ :=
    exec_storeField (show hd + sizeofInode ≤ img3.size by simp only [sizeofInode]; omega)
      .size (sz + 40)
  rw [hinode3, Nat.mod_eq_of_lt (by omega : sz + 40 < 2 ^ 32)] at hinode4
  simp only [InodeField.offset] at hframe4
  have hhead4 : img4.head = hd := by
    rw [← hhd]
    refine head_congr fun i hi hi' => ?_
    rw [hframe4 i (by omega), hframe3 i (by omega), hframe2 i (by omega), hframe1 i (by omega)]
  obtain ⟨img5, hheadStore, hsize5, hhead5, hframe5⟩ :=
    exec_storeHead (show sizeofSb ≤ img4.size by simp only [sizeofSb]; omega)
      (hd + (44 + (sz + 40)))
  rw [Nat.mod_eq_of_lt hword] at hhead5
  have hexec : exec (appendParent e.offset num name) img = some ((), img5) := by
    have hload1 : exec (loadField hd .size) img1 = some (sz, img1) := by
      rw [exec_loadField_of_le (by simp only [sizeofInode]; omega), hinode1, hsz]
    have hload3 : exec (loadField hd .size) img3 = some (sz, img3) := by
      rw [exec_loadField_of_le (by simp only [sizeofInode]; omega), hinode3, hsz]
    have hload4 : exec (loadField hd .size) img4 = some (sz + 40, img4) := by
      rw [exec_loadField_of_le (by simp only [sizeofInode]; omega), hinode4, Function.update_self]
    have hloadHead4 : exec loadHead img4 = some (hd, img4) := by
      rw [exec_loadHead_of_le (by simp only [sizeofSb]; omega), hhead4]
    simp only [appendParent, strcpy, storeWord, exec_bind, h.exec_loadHead, h.exec_loadField he,
      hhd, hsz, Option.bind_some, sizeofInode, sizeofDentry, maxFileNameLen, hcopy, hload1,
      hnumStore, hnameStore, hload3, hsizeStore, hloadHead4, hload4, hheadStore]
  have hback : ∀ i, hd + 44 + sz ≤ i → img5.byte i = img3.byte i := by
    intro i hi
    rw [hframe5 i (by omega), hframe4 i (by omega)]
  refine ⟨img5, hexec, by omega, hhead5, ?_, ?_, ?_, ?_, ?_⟩
  · rw [← hinode4]
    exact inodeAt_congr fun i hi _ => hframe5 i (by omega)
  · rw [← hdata1]
    refine readBytes_congr fun i hi hi' => ?_
    rw [hframe5 i (by omega), hframe4 i (by omega), hframe3 i (by omega), hframe2 i (by omega)]
  · rw [readBytes_congr fun i hi _ => hback i hi, hname3]
  · intro i hi hbehind
    rw [hback _ (by omega), hframe3 _ (by omega), ← hnum2, List.getD_eq_getElem?_getD,
      getElem?_readBytes _ hi, Option.getD_some]
  · intro i hi hout
    rw [hframe5 i hi, hframe4 i (by omega), hframe3 i (by omega), hframe2 i (by omega),
      hframe1 i (by omega)]

/-- `appendParent` leaves the directory with one more record behind the old head. -/
theorem LogView.exec_appendParent {img : Image} {es : List LogEntry} (h : LogView img es)
    {e : LogEntry} (he : e ∈ es) {name : List UInt8} (hnul : 0 ∉ name)
    (hlen : name.length < maxFileNameLen) {num : Nat} (hnum : num < 2 ^ 64)
    (hfits : img.head + (sizeofInode + (e.inode .size + sizeofDentry)) ≤ img.size)
    (hword : img.head + (sizeofInode + (e.inode .size + sizeofDentry)) < 2 ^ 32) :
    ∃ img' block, exec (appendParent e.offset num name) img = some ((), img') ∧
      img'.size = img.size ∧
      img'.head = img.head + (sizeofInode + (e.inode .size + sizeofDentry)) ∧
      SameOutside img.byte img'.byte img.head img'.head ∧
      block.length = sizeofDentry ∧ 0 ∈ block.take maxFileNameLen ∧
      decodeDentry block = ⟨name, num⟩ ∧
      entryAt img'.byte img.head =
        ⟨img.head, Function.update e.inode .size (e.inode .size + sizeofDentry),
          e.data ++ block⟩ := by
  have hshort : name.length + 1 ≤ sizeofDentry := by
    simp only [maxFileNameLen, sizeofDentry] at hlen ⊢
    omega
  obtain ⟨img', hexec, hsize, hhead, hinode, hdata, hname, hbytes, hframe⟩ :=
    h.exec_appendRecord he name num hfits (by omega) hword
  have hstored : readWord img'.byte 8
      (img.head + sizeofInode + e.inode .size + maxFileNameLen) = num := by
    have hall : readBytes img'.byte (img.head + sizeofInode + e.inode .size + maxFileNameLen) 8 =
        wordBytes 8 num := by
      have hget := readBytes_eq_of_getD img'.byte
        (img.head + sizeofInode + e.inode .size + maxFileNameLen) (wordBytes 8 num) fun i hi =>
          hbytes i (by rwa [length_wordBytes] at hi) (by omega)
      rwa [length_wordBytes] at hget
    rw [readWord, hall, wordValue_wordBytes]
    exact Nat.mod_eq_of_lt hnum
  obtain ⟨hzero, hdecode⟩ := decodeDentry_of_reads hnul hlen hname hstored
  refine ⟨img', readBytes img'.byte (img.head + sizeofInode + e.inode .size) sizeofDentry, hexec,
    hsize, hhead, ?_, length_readBytes _ _ _, hzero, hdecode, ?_⟩
  · intro i hi hout
    exact hframe i hi (by omega)
  · simp only [entryAt, hinode, Function.update_self, readBytes_add, hdata]

end OSProjects.Wfs
