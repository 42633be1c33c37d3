import Mathlib.Data.List.TakeWhile
import OSProjects.Wfs.LogView

/-!
# Directory data and path lookup

The data of a directory is a sequence of 40-byte records. On such data
`get_inode_number` is a search in the decoded list, and a path whose proper
prefixes are directories resolves exactly as in the list of entries.
-/

namespace OSProjects.Wfs

open ByteMemory VersionedLog CString WfsM

/-- A decoded `struct wfs_dentry`. -/
structure Dentry where
  name : List UInt8
  inodeNumber : Nat
  deriving DecidableEq, Repr

/-- The name is read up to its NUL, the number from the eight bytes behind the name. -/
def decodeDentry (block : List UInt8) : Dentry :=
  ⟨(block.take maxFileNameLen).takeWhile (· ≠ 0), wordValue ((block.drop maxFileNameLen).take 8)⟩

def dentriesFrom : Nat → List UInt8 → List Dentry
  | 0, _ => []
  | k + 1, data => decodeDentry (data.take sizeofDentry) :: dentriesFrom k (data.drop sizeofDentry)

/-- All complete records of a directory's data. -/
def dentries (data : List UInt8) : List Dentry := dentriesFrom (data.length / sizeofDentry) data

/-- Data made of complete records whose name fields contain a NUL. -/
inductive DirData : List UInt8 → Prop
  | nil : DirData []
  | cons {block rest} (hlen : block.length = sizeofDentry) (hnul : 0 ∈ block.take maxFileNameLen)
      (hrest : DirData rest) : DirData (block ++ rest)

@[simp] theorem dentries_nil : dentries [] = [] := rfl

theorem dentries_cons {block : List UInt8} (hlen : block.length = sizeofDentry)
    (rest : List UInt8) : dentries (block ++ rest) = decodeDentry block :: dentries rest := by
  have hk : (block ++ rest).length / sizeofDentry = rest.length / sizeofDentry + 1 := by
    simp only [List.length_append, hlen, sizeofDentry]
    omega
  rw [dentries, hk, dentriesFrom, List.take_left' hlen, List.drop_left' hlen, dentries]

theorem DirData.single {block : List UInt8} (hlen : block.length = sizeofDentry)
    (hnul : 0 ∈ block.take maxFileNameLen) : DirData block := by
  simpa using DirData.cons hlen hnul DirData.nil

theorem dentries_single {block : List UInt8} (hlen : block.length = sizeofDentry) :
    dentries block = [decodeDentry block] := by
  simpa using dentries_cons hlen []

theorem DirData.append {a b : List UInt8} (ha : DirData a) (hb : DirData b) :
    DirData (a ++ b) := by
  induction ha with
  | nil => simpa using hb
  | cons hlen hnul _ ih =>
      rw [List.append_assoc]
      exact DirData.cons hlen hnul ih

/-- Appending records appends to the decoded list. -/
theorem DirData.dentries_append {a : List UInt8} (ha : DirData a) (b : List UInt8) :
    dentries (a ++ b) = dentries a ++ dentries b := by
  induction ha with
  | nil => simp
  | cons hlen _ _ ih => rw [List.append_assoc, dentries_cons hlen, ih, dentries_cons hlen]; rfl

/-- Directory data is a whole number of records. -/
theorem DirData.dvd_length {data : List UInt8} (h : DirData data) :
    sizeofDentry ∣ data.length := by
  induction h with
  | nil => exact Nat.dvd_zero _
  | cons hlen _ _ ih =>
      rw [List.length_append, hlen]
      exact (Nat.dvd_add_right (Nat.dvd_refl _)).mpr ih

/-! ## Records whose names may leave their field -/

/-- What `strcmp` and the load of the number make of a record. -/
def decodeRecord (block : List UInt8) : Dentry :=
  ⟨block.takeWhile (· ≠ 0), wordValue ((block.drop maxFileNameLen).take 8)⟩

/-- The data consists of complete records, each with a name that ends inside it. -/
inductive HoldsRecords : List Dentry → List UInt8 → Prop
  | nil : HoldsRecords [] []
  | cons {block ds rest} (hlen : block.length = sizeofDentry) (hnul : 0 ∈ block)
      (hrest : HoldsRecords ds rest) : HoldsRecords (decodeRecord block :: ds) (block ++ rest)

theorem HoldsRecords.single {block : List UInt8} (hlen : block.length = sizeofDentry)
    (hnul : 0 ∈ block) : HoldsRecords [decodeRecord block] block := by
  simpa using HoldsRecords.cons hlen hnul HoldsRecords.nil

theorem HoldsRecords.append {ds ds' : List Dentry} {a b : List UInt8} (ha : HoldsRecords ds a)
    (hb : HoldsRecords ds' b) : HoldsRecords (ds ++ ds') (a ++ b) := by
  induction ha with
  | nil => exact hb
  | cons hlen hnul _ ih =>
      rw [List.cons_append, List.append_assoc]
      exact HoldsRecords.cons hlen hnul ih

/-- Where every name ends inside its field, these are the records of the directory. -/
theorem DirData.holdsRecords {data : List UInt8} (h : DirData data) :
    HoldsRecords (dentries data) data := by
  induction h with
  | nil => exact HoldsRecords.nil
  | @cons block rest hlen hnul _ ih =>
      have hname : block.takeWhile (· ≠ 0) = (block.take maxFileNameLen).takeWhile (· ≠ 0) := by
        conv => lhs; rw [← List.take_append_drop maxFileNameLen block]
        rw [List.takeWhile_append, if_neg]
        intro hall
        have hself := List.takeWhile_eq_self_iff.mp ((List.takeWhile_prefix _).eq_of_length hall)
        simpa using hself 0 hnul
      have hdecode : decodeDentry block = decodeRecord block := by
        rw [decodeDentry, decodeRecord, hname]
      rw [dentries_cons hlen, hdecode]
      exact HoldsRecords.cons hlen (List.mem_of_mem_take hnul) ih

/-! ## The search in the records -/

/-- `get_inode_number` on a decoded directory. -/
def lookupNumber (ds : List Dentry) (name : List UInt8) : Nat :=
  match ds.find? (fun d => d.name = name) with
  | some d => d.inodeNumber
  | none => notFound

theorem lookupNumber_cons (d : Dentry) (ds : List Dentry) (name : List UInt8) :
    lookupNumber (d :: ds) name =
      if d.name = name then d.inodeNumber else lookupNumber ds name := by
  by_cases h : d.name = name <;> simp [lookupNumber, h]

theorem exists_of_lookupNumber {ds : List Dentry} {name : List UInt8}
    (h : lookupNumber ds name ≠ notFound) :
    ∃ d ∈ ds, d.name = name ∧ d.inodeNumber = lookupNumber ds name := by
  unfold lookupNumber at h ⊢
  cases hfind : ds.find? (fun d => d.name = name) with
  | none => simp [hfind] at h
  | some d =>
      have hname : d.name = name := by simpa using List.find?_some hfind
      exact ⟨d, List.mem_of_find?_eq_some hfind, hname, rfl⟩

/-- A record behind the others is found when no other has its name. -/
theorem lookupNumber_concat {ds : List Dentry} (hds : ∀ d ∈ ds, d.inodeNumber ≠ notFound)
    (x : Dentry) (name : List UInt8) :
    lookupNumber (ds ++ [x]) name =
      if lookupNumber ds name = notFound then
        (if x.name = name then x.inodeNumber else notFound)
      else lookupNumber ds name := by
  induction ds with
  | nil => rw [List.nil_append, lookupNumber_cons]; rfl
  | cons d ds ih =>
      rw [List.cons_append, lookupNumber_cons, lookupNumber_cons,
        ih fun y hy => hds y (List.mem_cons_of_mem d hy)]
      by_cases hd : d.name = name
      · rw [if_pos hd, if_pos hd, if_neg (hds d (by simp))]
      · rw [if_neg hd, if_neg hd]

/-! ## Comparing names in the image -/

theorem readWord_one (m : Memory) (off : Nat) : readWord m 1 off = (m off).toNat := by
  simp [readWord, readBytes, wordValue]

/-- `strcmp` against a field that holds a NUL compares with the bytes before it. -/
theorem exec_strcmpEq {img : Image} {name : List UInt8} (hname : 0 ∉ name) {off n : Nat}
    (hin : off + n ≤ img.size) (hnul : 0 ∈ readBytes img.byte off n) :
    exec (strcmpEq name off) img =
      some (decide ((readBytes img.byte off n).takeWhile (· ≠ 0) = name), img) := by
  induction name generalizing off n with
  | nil =>
      cases n with
      | zero => simp at hnul
      | succ n =>
          simp only [strcmpEq, exec_bind, exec_load (show off + 1 ≤ img.size by omega),
            Option.bind_some, exec_pure, readWord_one, readBytes]
          by_cases hb : img.byte off = 0
          · simp [hb]
          · have hb' : (img.byte off).toNat ≠ 0 := fun h => hb (UInt8.toNat_inj.mp h)
            simp [hb, hb']
  | cons c s ih =>
      obtain ⟨hc, hs⟩ : c ≠ 0 ∧ 0 ∉ s := by simpa [eq_comm] using hname
      cases n with
      | zero => simp at hnul
      | succ n =>
          simp only [strcmpEq, exec_bind, exec_load (show off + 1 ≤ img.size by omega),
            Option.bind_some, readWord_one, readBytes]
          by_cases hb : img.byte off = c
          · have hrest : 0 ∈ readBytes img.byte (off + 1) n := by
              rcases List.mem_cons.mp hnul with h | h
              · exact absurd (hb ▸ h.symm) hc
              · exact h
            rw [if_pos (by rw [hb]), ih hs (by omega) hrest]
            simp [hb, hc]
          · have hb' : (img.byte off).toNat ≠ c.toNat := fun h => hb (UInt8.toNat_inj.mp h)
            rw [if_neg hb', exec_pure]
            by_cases hz : img.byte off = 0 <;> simp [hz, hb]

/-- The loop of `get_inode_number` over such data. -/
theorem HoldsRecords.exec_getInodeNumberLoop {img : Image} {ds : List Dentry}
    {name data : List UInt8} (h : HoldsRecords ds data) (hname : 0 ∉ name) {cur fuel : Nat}
    (hin : cur + data.length ≤ img.size) (hdata : readBytes img.byte cur data.length = data)
    (hfuel : data.length < fuel) :
    exec (getInodeNumberLoop name (cur + data.length) fuel cur) img =
      some (lookupNumber ds name, img) := by
  induction h generalizing cur fuel with
  | nil =>
      cases fuel with
      | zero => simp at hfuel
      | succ fuel => simp [getInodeNumberLoop, lookupNumber]
  | @cons block ds rest hlen hnul hrest ih =>
      simp only [List.length_append, hlen, sizeofDentry] at hin hfuel
      rw [List.length_append, hlen, readBytes_add] at hdata
      obtain ⟨hblock, hrestData⟩ :=
        List.append_inj hdata (by rw [length_readBytes, hlen])
      have hnumber : readWord img.byte 8 (cur + maxFileNameLen) =
          (decodeRecord block).inodeNumber := by
        have hsub := readBytes_sub img.byte cur (by decide : maxFileNameLen + 8 ≤ sizeofDentry)
        rw [decodeRecord, ← hblock, readWord]
        exact congrArg wordValue hsub
      cases fuel with
      | zero => omega
      | succ fuel =>
          have hcmp : exec (strcmpEq name cur) img =
              some (decide ((decodeRecord block).name = name), img) := by
            have hfit : cur + sizeofDentry ≤ img.size := by
              simp only [sizeofDentry]
              omega
            have h := exec_strcmpEq hname hfit (by rw [hblock]; exact hnul)
            rw [hblock] at h
            exact h
          have hlt : cur < cur + (block ++ rest).length := by
            simp only [List.length_append, hlen, sizeofDentry]
            omega
          rw [getInodeNumberLoop, if_pos hlt, lookupNumber_cons]
          simp only [exec_bind, hcmp, Option.bind_some, decide_eq_true_eq]
          by_cases heq : (decodeRecord block).name = name
          · rw [if_pos heq, if_pos heq, ← hnumber]
            exact exec_load (by simp only [maxFileNameLen]; omega)
          · rw [if_neg heq, if_neg heq]
            have hnext : exec (getInodeNumberLoop name (cur + sizeofDentry + rest.length) fuel
                (cur + sizeofDentry)) img = some (lookupNumber ds name, img) :=
              ih (by simp only [sizeofDentry]; omega) hrestData (by omega)
            simpa only [List.length_append, hlen, Nat.add_assoc] using hnext

/-- `get_inode_number` on an entry with such data. -/
theorem HoldsRecords.exec_getInodeNumber {img : Image} {log : Nat} {ds : List Dentry}
    {name data : List UInt8} (h : HoldsRecords ds data) (hname : 0 ∉ name)
    (hsize : inodeAt img.byte log .size = data.length)
    (hin : log + sizeofInode + data.length ≤ img.size)
    (hdata : readBytes img.byte (log + sizeofInode) data.length = data) :
    exec (getInodeNumber name (some log)) img = some (lookupNumber ds name, img) := by
  have hload : exec (loadField log .size) img = some (inodeAt img.byte log .size, img) :=
    exec_loadField_of_le (by omega) .size
  simp only [getInodeNumber, exec_bind, hload, Option.bind_some, hsize]
  exact h.exec_getInodeNumberLoop hname hin hdata (by omega)

/-- `get_inode_number` on an entry of the log that holds such data. -/
theorem LogView.exec_getInodeNumber_records {img : Image} {es : List LogEntry}
    (h : LogView img es) {e : LogEntry} (he : e ∈ es) {ds : List Dentry}
    (hds : HoldsRecords ds e.data) {name : List UInt8} (hname : 0 ∉ name) :
    exec (getInodeNumber name (some e.offset)) img = some (lookupNumber ds name, img) := by
  obtain ⟨heq, _, hstop⟩ := h.bounds he
  have hlen := h.entries.length_data he
  have hin := h.inside
  have hsize : inodeAt img.byte e.offset .size = e.data.length := by
    rw [hlen]
    conv => rhs; rw [heq]
    rfl
  have hdata : readBytes img.byte (e.offset + sizeofInode) e.data.length = e.data := by
    rw [hlen]
    conv => rhs; rw [heq]
    conv => lhs; rw [heq]
    rfl
  simp only [LogEntry.stop] at hstop
  exact hds.exec_getInodeNumber hname hsize (by omega) hdata

/-- `get_inode_number` on an entry of the log with well-formed directory data. -/
theorem LogView.exec_getInodeNumber {img : Image} {es : List LogEntry} (h : LogView img es)
    {e : LogEntry} (he : e ∈ es) (hdir : DirData e.data) {name : List UInt8}
    (hname : 0 ∉ name) :
    exec (getInodeNumber name (some e.offset)) img =
      some (lookupNumber (dentries e.data) name, img) :=
  h.exec_getInodeNumber_records he hdir.holdsRecords hname

end OSProjects.Wfs
