import OSProjects.Wfs.Parents

/-!
# Names that fill their field

`strcpy` puts the NUL of a name of 32 bytes over the low byte of the number behind it. The
name is found again, with a number that ends in a zero byte.
-/

namespace OSProjects.Wfs

open ByteMemory VersionedLog CString WfsM StepSystem

/-! ## The stored record -/

/-- What a record keeps of a number behind a name of at most 32 bytes. -/
def storedNumber (name : List UInt8) (num : Nat) : Nat :=
  if name.length < maxFileNameLen then num else num / 256 * 256

theorem storedNumber_eq_iff {name : List UInt8} {num : Nat} :
    storedNumber name num = num ↔ name.length < maxFileNameLen ∨ num % 256 = 0 := by
  rw [storedNumber]
  split
  case isTrue hlt => exact iff_of_true rfl (Or.inl hlt)
  case isFalse hge => omega

/-- The record that `appendParent` leaves for a name of at most 32 bytes. -/
theorem decodeRecord_of_reads {m : Memory} {off num : Nat} {name : List UInt8} (hnul : 0 ∉ name)
    (hlen : name.length ≤ maxFileNameLen) (hnum : num < 2 ^ 64)
    (hname : readBytes m off (name.length + 1) = name ++ [0])
    (hbytes : ∀ i, i < 8 → name.length < maxFileNameLen + i →
      m (off + maxFileNameLen + i) = (wordBytes 8 num).getD i 0) :
    0 ∈ readBytes m off sizeofDentry ∧
      decodeRecord (readBytes m off sizeofDentry) = ⟨name, storedNumber name num⟩ := by
  simp only [maxFileNameLen] at hlen hbytes
  have hall : readBytes m off sizeofDentry =
      name ++ 0 :: readBytes m (off + (name.length + 1)) (sizeofDentry - (name.length + 1)) := by
    have hsplit : sizeofDentry = (name.length + 1) + (sizeofDentry - (name.length + 1)) := by
      simp only [sizeofDentry]
      omega
    conv => lhs; rw [hsplit]
    rw [readBytes_add, hname, List.append_assoc]
    rfl
  have hnumber : ((readBytes m off sizeofDentry).drop maxFileNameLen).take 8 =
      readBytes m (off + 32) 8 :=
    (readBytes_sub m off (by decide : maxFileNameLen + 8 ≤ sizeofDentry)).symm
  have hvalue : wordValue (readBytes m (off + 32) 8) = storedNumber name num := by
    rw [storedNumber, maxFileNameLen]
    split
    case isTrue hlt =>
      have hget := readBytes_eq_of_getD m (off + 32) (wordBytes 8 num)
        fun i hi => hbytes i (by rwa [length_wordBytes] at hi) (by omega)
      rw [length_wordBytes] at hget
      rw [hget, wordValue_wordBytes]
      exact Nat.mod_eq_of_lt hnum
    case isFalse hge =>
      -- The NUL lies over the low byte.
      have hfull : name.length = 32 := by omega
      have hzero : m (off + 32) = 0 := by
        have hlast : (readBytes m off (name.length + 1))[name.length]? =
            some (m (off + name.length)) := getElem?_readBytes m (by omega)
        rw [hname, hfull, ← hfull, List.getElem?_concat_length, Option.some.injEq] at hlast
        rw [← hfull, ← hlast]
      have hget := readBytes_eq_of_getD m (off + 32 + 1) (wordBytes 7 (num / 256))
        fun i hi => by
          rw [length_wordBytes] at hi
          rw [Nat.add_assoc (off + 32) 1 i, Nat.add_comm 1 i, hbytes (i + 1) (by omega) (by omega)]
          rfl
      rw [length_wordBytes] at hget
      rw [readBytes, hzero, hget, wordValue, wordValue_wordBytes, Nat.mod_eq_of_lt (by omega)]
      simp only [UInt8.toNat_zero]
      omega
  constructor
  · rw [hall]
    simp
  · have hwhile : (readBytes m off sizeofDentry).takeWhile (· ≠ 0) = name := by
      have hne : ∀ b ∈ name, b ≠ 0 := fun b hb h0 => hnul (h0 ▸ hb)
      rw [hall, List.takeWhile_append_of_pos (by simpa using hne)]
      simp
    rw [decodeRecord, hwhile, hnumber, hvalue]

/-! ## Lookups in a longer directory -/

theorem lookupNumber_eq_notFound {ds : List Dentry} {name : List UInt8}
    (h : ∀ r ∈ ds, r.name ≠ name) : lookupNumber ds name = notFound := by
  have hnone : ds.find? (fun d => d.name = name) = none := by simpa using h
  rw [lookupNumber, hnone]

/-- A record with a new name changes the lookup of that name alone. -/
theorem lookupNumber_concat_new {ds : List Dentry} {x : Dentry} (h : ∀ r ∈ ds, r.name ≠ x.name)
    (name : List UInt8) :
    lookupNumber (ds ++ [x]) name = if name = x.name then x.inodeNumber else lookupNumber ds name := by
  induction ds with
  | nil =>
      rw [List.nil_append, lookupNumber_cons]
      exact if_congr eq_comm rfl rfl
  | cons d ds ih =>
      obtain ⟨hd, hds⟩ := List.forall_mem_cons.mp h
      rw [List.cons_append, lookupNumber_cons, lookupNumber_cons, ih hds]
      by_cases hname : d.name = name
      · rw [if_pos hname, if_pos hname, if_neg (hname ▸ hd)]
      · rw [if_neg hname, if_neg hname]

/-! ## A creation with a name of at most 32 bytes -/

section Creation

variable {img : Image} {es : List LogEntry} {e : LogEntry} {ds : List Dentry} {path : List UInt8}

/-- The creation appends a version of the directory with one more record, and the records of
that version again end inside themselves. -/
theorem LogView.exec_handler_records (h : LogView img es) (he : e ∈ es)
    (hds : HoldsRecords ds e.data)
    (hfind : exec (findParentLogPath path) img = some (some e.offset, img))
    (hnul : 0 ∉ fileName path) (hlen : (fileName path).length ≤ maxFileNameLen)
    (hnew : ∀ r ∈ ds, r.name ≠ fileName path) (kind : Kind) (mode uid t : Nat)
    (hroom : img.Room (sizeofInode + (e.inode .size + sizeofDentry) + sizeofInode)) :
    ∃ img' data, exec (kind.handler path mode uid t) img = some (0, img') ∧
      HoldsRecords (ds ++ [⟨fileName path,
        storedNumber (fileName path) ((maxNumber es + 1) % 2 ^ 32)⟩]) data ∧
      inodeAt img'.byte img.head .size = data.length ∧
      img.head + sizeofInode + data.length ≤ img'.size ∧
      readBytes img'.byte (img.head + sizeofInode) data.length = data := by
  obtain ⟨hin, hword⟩ := hroom
  have hlarge : (fileName path).length + 1 ≤ sizeofDentry := by
    simp only [maxFileNameLen, sizeofDentry] at hlen ⊢
    omega
  have hsb := h.entries.le
  have hdatalen := h.entries.length_data he
  obtain ⟨fields, hfields⟩ := kind.handler_eq path mode uid t
  generalize hnum : (maxNumber es + 1) % 2 ^ 32 = num
  have hsmall : num < 2 ^ 64 := by omega
  have hlookup := h.exec_getInodeNumber_records he hds hnul
  rw [lookupNumber_eq_notFound hnew] at hlookup
  obtain ⟨img1, hexec1, hsize1, hhead1, hinode1, hdata1, hname1, hbytes1, -⟩ :=
    h.exec_appendRecord he (fileName path) num (by omega) (by omega) (by omega)
  obtain ⟨img2, hexec2, hsize2, -, hframe2, -⟩ :=
    @exec_appendInode (fields num) img1 (by omega) (by omega) (by omega)
  obtain ⟨hzero, hdecode⟩ := decodeRecord_of_reads hnul hlen hsmall hname1 hbytes1
  have hsame : ∀ i, img.head ≤ i → i < img1.head → img2.byte i = img1.byte i := by
    intro i hi hlt
    refine hframe2 i (Or.inr ?_) (Or.inl hlt)
    simp only [sizeofSb] at hsb
    omega
  refine ⟨img2, e.data ++ readBytes img1.byte (img.head + sizeofInode + e.inode .size) sizeofDentry,
    ?_, ?_, ?_, ?_, ?_⟩
  · rw [hfields]
    simp only [createEntry, exec_bind, hfind, Option.bind_some, h.exec_maxInodeNum, hnum, hlookup,
      exec_ite, ne_eq, not_true_eq_false, if_false, hexec1, hexec2, exec_pure]
  · have hblock := HoldsRecords.single (length_readBytes _ _ _) hzero
    rw [hdecode] at hblock
    exact hds.append hblock
  · rw [List.length_append, length_readBytes, hdatalen]
    have hinode2 : inodeAt img2.byte img.head = inodeAt img1.byte img.head :=
      inodeAt_congr fun i hi hi' => hsame i hi (by omega)
    rw [hinode2, hinode1, Function.update_self]
  · rw [List.length_append, length_readBytes, hdatalen]
    omega
  · rw [List.length_append, length_readBytes, hdatalen, ← hdata1]
    rw [readBytes_congr fun i hi hi' => hsame i (by omega) (by omega), readBytes_add]

/-- What the new version of the directory finds. -/
theorem LogView.exec_handler_lookup (h : LogView img es) (he : e ∈ es)
    (hds : HoldsRecords ds e.data)
    (hfind : exec (findParentLogPath path) img = some (some e.offset, img))
    (hnul : 0 ∉ fileName path) (hlen : (fileName path).length ≤ maxFileNameLen)
    (hnew : ∀ r ∈ ds, r.name ≠ fileName path) (kind : Kind) (mode uid t : Nat)
    (hroom : img.Room (sizeofInode + (e.inode .size + sizeofDentry) + sizeofInode)) :
    ∃ img', exec (kind.handler path mode uid t) img = some (0, img') ∧
      ∀ name, 0 ∉ name → exec (getInodeNumber name (some img.head)) img' =
        some (if name = fileName path then
          storedNumber (fileName path) ((maxNumber es + 1) % 2 ^ 32)
          else lookupNumber ds name, img') := by
  obtain ⟨img', data, hexec, hdata, hsize, hin, hread⟩ :=
    h.exec_handler_records he hds hfind hnul hlen hnew kind mode uid t hroom
  refine ⟨img', hexec, fun name hname => ?_⟩
  rw [hdata.exec_getInodeNumber hname hsize hin hread, lookupNumber_concat_new hnew]

/-- After the creation of `name` the new version of the directory finds its number, for every
other name what the old version finds, and no name that neither holds. -/
structure RoundTrips (img img' : Image) (old : Nat) (ds : List Dentry) (name : List UInt8)
    (num : Nat) : Prop where
  stored : exec (getInodeNumber name (some img.head)) img' = some (num, img')
  others : ∀ other number, 0 ∉ other → other ≠ name →
    exec (getInodeNumber other (some old)) img = some (number, img) →
      exec (getInodeNumber other (some img.head)) img' = some (number, img')
  missing : ∀ other, 0 ∉ other → other ≠ name → (∀ r ∈ ds, r.name ≠ other) →
    exec (getInodeNumber other (some img.head)) img' = some (notFound, img')

/-- In every directory, a creation with a name of at most 32 bytes round-trips exactly when
the name is shorter than its field or the low byte of the number is zero. -/
theorem roundTrips_iff (h : LogView img es) (he : e ∈ es) (hds : HoldsRecords ds e.data)
    (hfind : exec (findParentLogPath path) img = some (some e.offset, img))
    (hnul : 0 ∉ fileName path) (hlen : (fileName path).length ≤ maxFileNameLen)
    (hnew : ∀ r ∈ ds, r.name ≠ fileName path) (kind : Kind) (mode uid t : Nat)
    (hroom : img.Room (sizeofInode + (e.inode .size + sizeofDentry) + sizeofInode)) :
    ∃ img', exec (kind.handler path mode uid t) img = some (0, img') ∧
      (RoundTrips img img' e.offset ds (fileName path) ((maxNumber es + 1) % 2 ^ 32) ↔
        (fileName path).length < maxFileNameLen ∨ (maxNumber es + 1) % 2 ^ 32 % 256 = 0) := by
  obtain ⟨img', hexec, hlookup⟩ :=
    h.exec_handler_lookup he hds hfind hnul hlen hnew kind mode uid t hroom
  refine ⟨img', hexec, ?_⟩
  rw [← storedNumber_eq_iff]
  constructor
  · intro hround
    have hstored := hround.stored
    rw [hlookup _ hnul, if_pos rfl, Option.some.injEq, Prod.mk.injEq] at hstored
    exact hstored.1
  · intro hstored
    refine ⟨?_, fun other number hother hne hold => ?_, fun other hother hne hmissing => ?_⟩
    · rw [hlookup _ hnul, if_pos rfl, hstored]
    · rw [h.exec_getInodeNumber_records he hds hother, Option.some.injEq, Prod.mk.injEq] at hold
      rw [hlookup _ hother, if_neg hne, hold.1]
    · rw [hlookup _ hother, if_neg hne, lookupNumber_eq_notFound hmissing]

end Creation

/-! ## A new disk -/

/-- `init_wfs` leaves a root directory without records. -/
theorem exists_empty_root : ∃ img t, LogView img [rootEntry t] ∧
    img.Room (sizeofInode + ((rootEntry t).inode .size + sizeofDentry) + sizeofInode) ∧
    ∀ path, parentString path = [] →
      exec (findParentLogPath path) img = some (some (rootEntry t).offset, img) := by
  obtain ⟨img, -, hsize, hhead, hwf⟩ :=
    exec_initWfs (show sizeofSb + sizeofInode ≤ (zeroDisk 400).size by decide) 0
  refine ⟨img, 0, hwf.toLogView, ?_, fun path hpath => ?_⟩
  · rw [Image.Room, hhead, hsize]
    decide
  · have hroot : DirsTo [rootEntry 0] [] := fun q hq hne => absurd (List.prefix_nil.mp hq) hne
    rw [findParentLogPath_eq, hpath, hwf.exec_pathToLogEntry_of_strtok hroot rfl]
    rfl

/-- A letter, a digit or an underscore. -/
def isNameByte (b : UInt8) : Bool :=
  (65 ≤ b && b ≤ 90) || (97 ≤ b && b ≤ 122) || (48 ≤ b && b ≤ 57) || b == 95

/-- A name of 32 letters. -/
def fullName : List UInt8 := List.replicate 32 97

/-- The file `/a`. -/
theorem roundTrips_iff_run : ∃ img img',
    exec (myMknod (some [slash, 97]) 0o644 0 0) img = some (0, img') ∧
      RoundTrips img img' sizeofSb [] [97] 1 := by
  obtain ⟨img, t, hview, hroom, hfind⟩ := exists_empty_root
  obtain ⟨img', hexec, hiff⟩ := roundTrips_iff hview List.mem_cons_self HoldsRecords.nil
    (hfind [slash, 97] (by decide)) (by decide) (by decide) nofun .file 0o644 0 0 hroom
  exact ⟨img, img', hexec, hiff.mpr (Or.inl (by decide))⟩

/-- The first file of a disk has the number 1, and is found as the root under 32 letters. -/
theorem full_name_takes_the_number :
    ¬∀ img es e ds path kind mode uid t img', LogView img es → e ∈ es →
      HoldsRecords ds e.data →
      exec (findParentLogPath path) img = some (some e.offset, img) →
      (∀ b ∈ fileName path, isNameByte b = true) → 1 ≤ (fileName path).length →
      (fileName path).length ≤ maxFileNameLen → (∀ r ∈ ds, r.name ≠ fileName path) →
      img.Room (sizeofInode + (e.inode .size + sizeofDentry) + sizeofInode) →
      exec (Kind.handler kind path mode uid t) img = some (0, img') →
        RoundTrips img img' e.offset ds (fileName path) ((maxNumber es + 1) % 2 ^ 32) := by
  intro hlaw
  obtain ⟨img, t, hview, hroom, hfind⟩ := exists_empty_root
  have hpath := hfind (slash :: fullName) (by decide)
  obtain ⟨img', hexec, hlookup⟩ := hview.exec_handler_lookup List.mem_cons_self HoldsRecords.nil
    hpath (by decide) (by decide) nofun .file 0o644 0 0 hroom
  have hround := hlaw img _ _ _ _ .file _ _ _ img' hview List.mem_cons_self
    HoldsRecords.nil hpath (by decide +kernel) (by decide) (by decide) nofun hroom hexec
  have hstored := hround.stored
  have hmax : maxNumber [rootEntry t] = 0 := rfl
  rw [hlookup _ (by decide), if_pos rfl, hmax, Option.some.injEq, Prod.mk.injEq] at hstored
  exact absurd hstored.1 (by decide)

end OSProjects.Wfs
