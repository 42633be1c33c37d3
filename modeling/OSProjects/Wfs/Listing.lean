import Mathlib.Data.List.Nodup
import OSProjects.Wfs.Parents

/-!
# What `my_readdir` lists

The handler asks for the newest entry of every record and reads it without a check for NULL.
On every reachable image, for which directories it returns, and that it then lists exactly
the names that resolve.
-/

namespace OSProjects.Wfs

open ByteMemory VersionedLog CString WfsM StepSystem

/-! ## The handler -/

/-- A name with the members of `struct stat` that `my_readdir` sets. -/
structure Filled where
  name : List UInt8
  stIno : Nat
  stMode : Nat
  deriving DecidableEq

/-- Read a C string of less than `fuel` bytes. -/
def loadStringLoop : Nat → Nat → WfsM (List UInt8)
  | 0, _ => fault
  | fuel + 1, off => do
      let b ← load 1 off
      if b = 0 then return []
      else do
        let rest ← loadStringLoop fuel (off + 1)
        return UInt8.ofNat b :: rest

/-- The C string that `filler` copies. -/
def loadString (off : Nat) : WfsM (List UInt8) := fun img => loadStringLoop (img.size + 1) off img

/-- The loop of `my_readdir` over the directory entries before `endOfDirectory`. `filler`
says whether the buffer is full after what has been passed to it. -/
def readdirLoop (filler : List Filled → Bool) (endOfDirectory : Nat) :
    Nat → Nat → List Filled → WfsM (List Filled)
  | 0, _, _ => fault
  | fuel + 1, entryPtr, passed =>
      if entryPtr < endOfDirectory then do
        let inodeNumber ← load 8 (entryPtr + maxFileNameLen)
        match ← getLogEntry (inodeNumber % 2 ^ 32) with
        | none => fault
        | some log => do
            let deleted ← loadField log .deleted
            if deleted = 0 then do
              match ← getLogEntry (inodeNumber % 2 ^ 32) with
              | none => fault
              | some log => do
                  let mode ← loadField log .mode
                  let name ← loadString entryPtr
                  if filler (passed ++ [⟨name, inodeNumber, mode⟩]) then
                    return passed ++ [⟨name, inodeNumber, mode⟩]
                  else
                    readdirLoop filler endOfDirectory fuel (entryPtr + sizeofDentry)
                      (passed ++ [⟨name, inodeNumber, mode⟩])
            else readdirLoop filler endOfDirectory fuel (entryPtr + sizeofDentry) passed
      else return passed

/-- The names `.` and `..`. -/
def dot : List UInt8 := [46]
def dotDot : List UInt8 := [46, 46]

/-- `my_readdir`: what it passes to `filler` comes with the result. -/
def myReaddir (filler : List Filled → Bool) (path : List UInt8) : WfsM (Int × List Filled) := do
  let currentLog ← pathToLogEntry path
  let parentLog ← findParentLogPath path
  match currentLog, parentLog with
  | some currentLog, some parentLog => do
      let number ← loadField currentLog .inodeNumber
      let mode ← loadField currentLog .mode
      let passed := [⟨dot, number, mode⟩]
      if filler passed then return (0, passed)
      else do
        let number ← loadField parentLog .inodeNumber
        let mode ← loadField parentLog .mode
        let passed := passed ++ [⟨dotDot, number, mode⟩]
        if filler passed then return (0, passed)
        else do
          let size ← loadField currentLog .size
          let passed ← readdirLoop filler (currentLog + sizeofInode + size) (size + 1)
            (currentLog + sizeofInode) passed
          return (0, passed)
  | _, _ => return (eNOENT, [])

/-- A buffer that never gets full. -/
def roomy (_ : List Filled) : Bool := false

/-! ## The loop on well-formed data -/

section Loop

variable {img : Image} {es : List LogEntry}

theorem exec_loadString {off n : Nat} (hin : off + n ≤ img.size)
    (hnul : 0 ∈ readBytes img.byte off n) :
    exec (loadString off) img = some ((readBytes img.byte off n).takeWhile (· ≠ 0), img) := by
  suffices h : ∀ fuel, n ≤ fuel → exec (loadStringLoop fuel off) img =
      some ((readBytes img.byte off n).takeWhile (· ≠ 0), img) from h (img.size + 1) (by omega)
  intro fuel hfuel
  induction n generalizing off fuel with
  | zero => cases hnul
  | succ n ih =>
      cases fuel with
      | zero => omega
      | succ fuel =>
          have hload := exec_load (show off + 1 ≤ img.size by omega)
          simp only [loadStringLoop, exec_bind, hload, Option.bind_some, readWord_one, readBytes]
          by_cases hb : img.byte off = 0
          · simp [hb]
          · have hb' : (img.byte off).toNat ≠ 0 := fun h => hb (UInt8.toNat_inj.mp h)
            have hrest : 0 ∈ readBytes img.byte (off + 1) n := by
              rcases List.mem_cons.mp hnul with h | h
              · exact absurd h.symm hb
              · exact h
            rw [if_neg hb', exec_bind, ih (by omega) hrest fuel (by omega)]
            simp [hb]

/-- What the handler passes on for a record. -/
def filledOf (es : List LogEntry) (x : Dentry) : Option Filled :=
  (newest (LogEntry.isVersion (x.inodeNumber % 2 ^ 32)) es).map fun e =>
    ⟨x.name, x.inodeNumber, e.inode .mode⟩

/-- The loop passes every record on, unless one of them has no entry. -/
theorem LogView.exec_readdirLoop (h : LogView img es) {data : List UInt8} (hdir : DirData data)
    {cur fuel : Nat} {passed : List Filled} (hin : cur + data.length ≤ img.size)
    (hdata : readBytes img.byte cur data.length = data) (hfuel : data.length < fuel) :
    exec (readdirLoop roomy (cur + data.length) fuel cur passed) img =
      if (dentries data).all (fun x => (filledOf es x).isSome) then
        some (passed ++ (dentries data).filterMap (filledOf es), img)
      else none := by
  induction hdir generalizing cur fuel passed with
  | nil =>
      cases fuel with
      | zero => simp at hfuel
      | succ fuel => simp [readdirLoop]
  | @cons block rest hlen hnul hrest ih =>
      simp only [List.length_append, hlen, sizeofDentry] at hin hfuel
      rw [List.length_append, hlen, readBytes_add] at hdata
      obtain ⟨hblock, hrestData⟩ :=
        List.append_inj hdata (by rw [length_readBytes, hlen])
      have hfield : readBytes img.byte cur maxFileNameLen = block.take maxFileNameLen := by
        rw [← hblock]
        exact (take_readBytes img.byte cur maxFileNameLen 8).symm
      have hname : exec (loadString cur) img = some ((decodeDentry block).name, img) := by
        have hfit : cur + maxFileNameLen ≤ img.size := by
          simp only [maxFileNameLen]
          omega
        have hload := exec_loadString hfit (by rw [hfield]; exact hnul)
        rw [hfield] at hload
        exact hload
      have hnumber : exec (load 8 (cur + maxFileNameLen)) img =
          some ((decodeDentry block).inodeNumber, img) := by
        have hsub := readBytes_sub img.byte cur (by decide : maxFileNameLen + 8 ≤ sizeofDentry)
        rw [exec_load (by simp only [maxFileNameLen]; omega), decodeDentry, ← hblock, readWord]
        exact congrArg some (congrArg (·, img) (congrArg wordValue hsub))
      cases fuel with
      | zero => omega
      | succ fuel =>
          have hlt : cur < cur + (block ++ rest).length := by
            simp only [List.length_append, hlen, sizeofDentry]
            omega
          rw [readdirLoop, if_pos hlt, dentries_cons hlen, List.all_cons, List.filterMap_cons]
          simp only [exec_bind, hnumber, h.exec_getLogEntry, Option.bind_some]
          cases hentry : newest (LogEntry.isVersion ((decodeDentry block).inodeNumber % 2 ^ 32)) es
            with
          | none =>
              have hnone : filledOf es (decodeDentry block) = none := by rw [filledOf, hentry]; rfl
              rw [hnone]
              rfl
          | some e =>
              have hsome : filledOf es (decodeDentry block) = some
                  ⟨(decodeDentry block).name, (decodeDentry block).inodeNumber, e.inode .mode⟩ := by
                rw [filledOf, hentry]
                rfl
              have hlive : e.inode .deleted = 0 := by
                have hcur := (current_of_newest hentry).live
                rwa [LogEntry.live, beq_iff_eq] at hcur
              have hmem := mem_of_newest hentry
              rw [hsome]
              dsimp only [Option.map_some]
              simp only [exec_bind, h.exec_loadField hmem, Option.bind_some, hlive, if_true,
                h.exec_getLogEntry, hentry, Option.map_some, hname, roomy, Bool.false_eq_true,
                if_false]
              have hnext := @ih (cur + sizeofDentry) fuel (passed ++
                [⟨(decodeDentry block).name, (decodeDentry block).inodeNumber, e.inode .mode⟩])
                (by simp only [sizeofDentry]; omega) hrestData (by omega)
              rw [Nat.add_assoc, ← hlen, ← List.length_append] at hnext
              rw [hlen] at hnext
              rw [hnext, List.append_assoc]
              rfl

end Loop

/-! ## The names of a directory in the order of their creation -/

/-- The name that an event adds to the directory with the number `n`: a creation appends a
version of its directory at the old head. -/
def Event.addedTo (n : Nat) (img img' : Image) : Event → List Name
  | (.create _ _ name _ _ _, r) =>
      if r = 0 ∧ inodeAt img'.byte img.head .inodeNumber = n then [name] else []
  | _ => []

/-- A step, with the names that have been created in the directory `n`. -/
def Recording (n : Nat) (s : Image × List Name) (ev : Event) (s' : Image × List Name) : Prop :=
  Step s.1 ev s'.1 ∧ s'.2 = s.2 ++ ev.addedTo n s.1 s'.1

/-- Every run can be recorded. -/
theorem Run.recording {img0 img : Image} {evs : List Event} (hrun : Run Step img0 evs img)
    (n : Nat) : ∃ names, Run (Recording n) (img0, []) evs (img, names) := by
  induction hrun with
  | nil => exact ⟨[], Run.nil⟩
  | @concat evs img ev img' _ hs ih =>
      obtain ⟨names, hnames⟩ := ih
      exact ⟨names ++ ev.addedTo n img img', hnames.concat ⟨hs, rfl⟩⟩

/-- The names in the records of the current version of the directory `n`. -/
def dirNames (es : List LogEntry) (n : Nat) : List (List UInt8) :=
  match newest (LogEntry.isVersion n) es with
  | some e => if e.isDir then (dentries e.data).map Dentry.name else []
  | none => []

section Names

variable {es : List LogEntry} {n : Nat}

theorem dirNames_of_newest {e : LogEntry} (h : newest (LogEntry.isVersion n) es = some e) :
    dirNames es n = if e.isDir then (dentries e.data).map Dentry.name else [] := by
  rw [dirNames, h]

theorem dirNames_of_none (h : newest (LogEntry.isVersion n) es = none) : dirNames es n = [] := by
  rw [dirNames, h]

theorem Creates.dirNames {q : Path} {name : Name} {d newP newF : LogEntry}
    (hc : Creates es q name d newP newF) (n : Nat) :
    dirNames (es ++ [newP] ++ [newF]) n =
      dirNames es n ++ components (if newP.number = n then [name] else []) := by
  have hle := hc.parent_number_le
  have hnumber := hc.number
  by_cases hfile : newF.number = n
  · -- The new number has no version yet.
    have hnone : newest (LogEntry.isVersion n) es = none :=
      newest_eq_none_of_maxNumber_lt (by omega)
    have hnew : newest (LogEntry.isVersion n) (es ++ [newP] ++ [newF]) = some newF := by
      rw [newest_concat, if_pos (LogEntry.isVersion_iff.mpr ⟨hfile, hc.live⟩)]
    have hother : newP.number ≠ n := by omega
    rw [dirNames_of_newest hnew, dirNames_of_none hnone, hc.empty, if_neg hother]
    split <;> rfl
  · have hlast : newest (LogEntry.isVersion n) (es ++ [newP] ++ [newF]) =
        newest (LogEntry.isVersion n) (es ++ [newP]) := by
      rw [newest_concat, if_neg fun h => hfile (LogEntry.isVersion_iff.mp h).1]
    by_cases hparent : newP.number = n
    · have hold : newest (LogEntry.isVersion n) es = some d := by
        rw [← hparent]
        exact hc.newest_parent
      have hnew : newest (LogEntry.isVersion n) (es ++ [newP] ++ [newF]) = some newP := by
        rw [hlast, newest_concat, if_pos (LogEntry.isVersion_iff.mpr ⟨hparent, hc.parent_live⟩)]
      rw [dirNames_of_newest hnew, dirNames_of_newest hold, hc.parent_isDir, hc.isDir, if_pos rfl,
        if_pos rfl, if_pos hparent, hc.records, List.map_append]
      rfl
    · have hsame : newest (LogEntry.isVersion n) (es ++ [newP] ++ [newF]) =
          newest (LogEntry.isVersion n) es := by
        rw [hlast, newest_concat, if_neg fun h => hparent (LogEntry.isVersion_iff.mp h).1]
      rw [OSProjects.Wfs.dirNames, hsame, if_neg hparent]
      exact (List.append_nil _).symm

theorem Rewrites.dirNames {p : Path} {e new : LogEntry} (hr : Rewrites es p e new) (n : Nat) :
    dirNames (es ++ [new]) n = dirNames es n := by
  by_cases hn : new.number = n
  · have hold : newest (LogEntry.isVersion n) es = some e := by
      rw [← hn]
      exact hr.newest_old
    have hnew : newest (LogEntry.isVersion n) (es ++ [new]) = some new := by
      rw [newest_concat, if_pos (LogEntry.isVersion_iff.mpr ⟨hn, hr.live⟩)]
    rw [dirNames_of_newest hnew, dirNames_of_newest hold, hr.kind, hr.file]
    rfl
  · rw [OSProjects.Wfs.dirNames, newest_concat,
      if_neg fun h => hn (LogEntry.isVersion_iff.mp h).1]
    rfl

/-- What is left of a deleted file is no directory. -/
theorem Removes.dirNames {p : Path} {e : LogEntry} (hr : Removes es p e) (hkind : OneKind es)
    (n : Nat) : dirNames (markDeleted e.offset es) n = dirNames es n := by
  have hcur := current_of_resolve hr.resolves
  by_cases hn : n = e.number
  · subst hn
    rw [dirNames_of_newest hcur, hr.file]
    cases hleft : newest (LogEntry.isVersion e.number) (markDeleted e.offset es) with
    | none => exact dirNames_of_none hleft
    | some f =>
        obtain ⟨hnum, hlive⟩ := LogEntry.isVersion_iff.mp (newest_sat hleft)
        have hf := (hr.mem_of_live (mem_of_newest hleft) hlive).1
        rw [dirNames_of_newest hleft, hkind f hf e hcur.mem hlive hcur.live hnum, hr.file,
          if_neg Bool.false_ne_true, if_neg Bool.false_ne_true]
  · rw [OSProjects.Wfs.dirNames, hr.newest_of_ne hn]
    rfl

/-- An event adds its name behind the others. -/
theorem dirNames_effect {img img' : Image} {es' : List LogEntry} {c : Call} {r : Int}
    (hrec : Recorded es) (hwf : WellFormed img es) (hdirs : DirsTo es c.path)
    (heffect : Effect img es c r img' es') (hwf' : WellFormed img' es') (n : Nat) :
    dirNames es' n = dirNames es n ++ components (Event.addedTo n img img' (c, r)) := by
  have hnil : dirNames es n = dirNames es n ++ components [] := (List.append_nil _).symm
  cases heffect with
  | createExists =>
      rw [Event.addedTo, if_neg (by rintro ⟨h, -⟩; exact absurd h (by decide))]
      exact hnil
  | @created _ _ name _ _ _ _ _ _ newP newF hq _ hd hdir hnew hoffset hinode _ hdentries hfile _ =>
      have hc := Creates.of_created hwf hrec.bound hdirs hq hd hdir hnew hinode hdentries hfile
      have hnumber : inodeAt img'.byte img.head .inodeNumber = newP.number := by
        rw [← hoffset, (hwf'.toLogView.reads (by simp)).1]
        rfl
      have hnames := hc.dirNames n
      rw [List.append_assoc] at hnames
      rw [Event.addedTo, hnumber]
      simpa using hnames
  | writeNegative => exact hnil
  | writeMissing => exact hnil
  | written _ he hreg hnew _ =>
      rw [(Rewrites.of_written he hreg hnew).dirNames]
      exact hnil
  | unlinkMissing => exact hnil
  | unlinkDir => exact hnil
  | unlinked he hdir _ _ =>
      rw [(Removes.of_unlinked hwf he hdir).dirNames hrec.kinds]
      exact hnil

end Names

/-- After every recorded run the records of the directory hold the names in the order of
their creation. -/
theorem Run.dirNames {img0 : Image} {evs : List Event} {n : Nat} {s : Image × List Name}
    (hrun : Run (Recording n) (img0, []) evs s) (h0 : Fresh img0) :
    ∃ es, WellFormed s.1 es ∧ Recorded es ∧ AllListed es ∧
      dirNames es n = components s.2 := by
  induction hrun with
  | nil =>
      obtain ⟨t, hwf, -⟩ := h0.wellFormed
      refine ⟨[rootEntry t], hwf, recorded_rootEntry t, fun e he _ => ?_, ?_⟩
      · obtain rfl : e = rootEntry t := by simpa using he
        exact listed_of_data_nil rfl
      · cases hroot : newest (LogEntry.isVersion n) [rootEntry t] with
        | none => exact dirNames_of_none hroot
        | some e =>
            obtain rfl : e = rootEntry t := by simpa using mem_of_newest hroot
            have hdata : (rootEntry t).data = [] := rfl
            rw [dirNames_of_newest hroot, hdata, dentries_nil]
            split <;> rfl
  | concat _ hs ih =>
      obtain ⟨es, hwf, hrec, hlisted, hnames⟩ := ih
      obtain ⟨hstep, hadded⟩ := hs
      obtain ⟨es', heffect, hwf'⟩ := hstep.effect hwf
      have hdirs := hstep.1.dirsTo hwf
      refine ⟨es', hwf', hrec.effect hwf hdirs heffect, hlisted.effect hrec hwf hdirs heffect, ?_⟩
      rw [dirNames_effect hrec hwf hdirs heffect hwf', hnames, hadded]
      exact (List.map_append).symm

/-! ## The law -/

/-- A name with the number and the mode of the entry at `log`. -/
def filledAt (img : Image) (name : List UInt8) (log : Nat) : Filled :=
  ⟨name, inodeAt img.byte log .inodeNumber, inodeAt img.byte log .mode⟩

/-- What `path_to_log_entry` finds for a name in the directory at a path. -/
def childAt (img : Image) (path name : List UInt8) : Option Filled :=
  match exec (pathToLogEntry (path ++ slash :: name)) img with
  | some (some log, _) => some (filledAt img name log)
  | _ => none

/-- The handler returns and passes `.`, `..` and the children on: of the names that have been
created in the directory, in this order, those that resolve; none of them twice, and no name
that resolves is left out. -/
structure ListsExactly (img : Image) (path : List UInt8) (names : List Name) : Prop where
  passes : ∃ log up, exec (pathToLogEntry path) img = some (some log, img) ∧
    exec (findParentLogPath path) img = some (some up, img) ∧
    exec (myReaddir roomy path) img =
      some ((0, [filledAt img dot log, filledAt img dotDot up] ++
        names.filterMap fun a => childAt img path a.bytes), img)
  once : names.Nodup
  complete : ∀ a : Name, (childAt img path a.bytes).isSome = true → a ∈ names

/-- `get_log_entry` finds an entry for every record of the directory at `log`. -/
def RecordsFound (img : Image) (log : Nat) : Prop :=
  ∀ x ∈ dentries (fileData img log),
    ∃ found, exec (getLogEntry (x.inodeNumber % 2 ^ 32)) img = some (some found, img)

section Law

variable {img : Image} {es : List LogEntry} {e : LogEntry} {path : List UInt8}

/-- The parent of a path that resolves is found. -/
theorem LogView.exists_parentLog (h : LogView img es) {log : Nat}
    (hpath : exec (pathToLogEntry path) img = some (some log, img)) :
    ∃ up, exec (findParentLogPath path) img = some (some up, img) := by
  obtain ⟨rest, hsplit⟩ : ∃ rest, strtok slash path = strtok slash (parentString path) ++ rest := by
    rw [parentString]
    cases hlast : strrchr slash (path.take (maxPathLength - 1)) with
    | none => exact ⟨strtok slash path, by simp [strtok, strtokFrom]⟩
    | some i =>
        obtain ⟨pre, post, hcut, rfl, -⟩ := strrchr_eq_some.mp hlast
        refine ⟨strtok slash (post ++ path.drop (maxPathLength - 1)), ?_⟩
        rw [hcut, Option.getD_some, List.take_left, ← strtok_append_sep, ← List.cons_append,
          ← List.append_assoc, ← hcut, List.take_append_drop]
  rw [pathToLogEntry, exec_bind, h.exec_getLogEntry, Option.bind_some, hsplit,
    exec_pathLoop_append] at hpath
  obtain ⟨⟨cur, img1⟩, hparent, hrest⟩ := Option.bind_eq_some_iff.mp hpath
  rw [findParentLogPath_eq]
  have hup : exec (pathToLogEntry (parentString path)) img = some (cur, img1) := by
    rw [pathToLogEntry, exec_bind, h.exec_getLogEntry]
    exact hparent
  cases cur with
  | none => cases rest <;> simp [pathLoop] at hrest
  | some up =>
      obtain ⟨rfl, -⟩ := h.entry_of_path hup
      exact ⟨up, hup⟩

/-- The handler on a directory of the log. -/
theorem LogView.exec_myReaddir (h : LogView img es) (he : e ∈ es) (hdir : DirData e.data)
    (hpath : exec (pathToLogEntry path) img = some (some e.offset, img)) {up : Nat}
    (hup : exec (findParentLogPath path) img = some (some up, img)) :
    exec (myReaddir roomy path) img =
      if (dentries e.data).all (fun x => (filledOf es x).isSome) then
        some ((0, [filledAt img dot e.offset, filledAt img dotDot up] ++
          (dentries e.data).filterMap (filledOf es)), img)
      else none := by
  have hparent : ∃ u ∈ es, u.offset = up := by
    rw [findParentLogPath_eq] at hup
    obtain ⟨-, u, hu, hoff⟩ := h.entry_of_path hup
    exact ⟨u, hu.mem, hoff⟩
  obtain ⟨u, hu, rfl⟩ := hparent
  obtain ⟨hinode, hdata⟩ := h.reads he
  have hlen := h.entries.length_data he
  have hstop := (h.bounds he).2.2
  have hin := h.inside
  rw [LogEntry.stop] at hstop
  rw [← hlen] at hdata
  have hloop := @LogView.exec_readdirLoop img es h e.data hdir (e.offset + sizeofInode)
    (e.inode .size + 1) [filledAt img dot e.offset, filledAt img dotDot u.offset] (by omega) hdata
    (by omega)
  rw [hlen] at hloop
  have hself : filledAt img dot e.offset = ⟨dot, e.inode .inodeNumber, e.inode .mode⟩ := by
    rw [filledAt, hinode]
  have hfill : filledAt img dotDot u.offset = ⟨dotDot, u.inode .inodeNumber, u.inode .mode⟩ := by
    rw [filledAt, (h.reads hu).1]
  rw [hself, hfill] at hloop ⊢
  simp only [myReaddir, exec_bind, hpath, hup, Option.bind_some, h.exec_loadField he,
    h.exec_loadField hu, roomy, Bool.false_eq_true, if_false]
  rw [List.singleton_append, hloop]
  split <;> rfl

/-- A name with a record among records of distinct names is found there. -/
theorem lookupNumber_of_mem {ds : List Dentry} (h : (ds.map Dentry.name).Nodup) {x : Dentry}
    (hx : x ∈ ds) : lookupNumber ds x.name = x.inodeNumber := by
  induction ds with
  | nil => cases hx
  | cons d ds ih =>
      obtain ⟨hd, hds⟩ := List.nodup_cons.mp h
      rw [lookupNumber_cons]
      obtain rfl | hx := List.mem_cons.mp hx
      · rw [if_pos rfl]
      · have hne : d.name ≠ x.name := fun heq => hd (heq ▸ List.mem_map_of_mem hx)
        rw [if_neg hne, ih hds hx]

/-- A name in a directory is looked up in its records. -/
theorem WellFormed.childAt_eq (h : WellFormed img es) (he : e ∈ es) (hdir : e.isDir = true)
    (hpath : exec (pathToLogEntry path) img = some (some e.offset, img)) (a : Name) :
    childAt img path a.bytes = (child es e a).map fun f => ⟨a.bytes, f.number, f.inode .mode⟩ := by
  have htoken : strtok slash (path ++ slash :: a.bytes) = strtok slash path ++ [a.bytes] := by
    have hsingle : strtok slash ([] ++ slash :: a.bytes) = [a.bytes] := by
      simpa [joinWith] using strtok_joinWith slash [a.bytes] (components_valid [a])
    rw [strtok_append_sep] at hsingle ⊢
    exact congrArg _ hsingle
  have hexec : exec (pathToLogEntry (path ++ slash :: a.bytes)) img =
      some ((child es e a).map (·.offset), img) := by
    rw [pathToLogEntry, exec_bind] at hpath ⊢
    rw [h.toLogView.exec_getLogEntry, Option.bind_some] at hpath ⊢
    rw [htoken, exec_pathLoop_append, hpath]
    exact h.exec_pathLoop_single he hdir a
  rw [childAt, hexec]
  cases hf : child es e a with
  | none => rfl
  | some f =>
      have hmem := (current_of_newest (newest_of_child hf)).mem
      have hinode := (h.toLogView.reads hmem).1
      dsimp only [Option.map_some]
      rw [filledAt, hinode]
      rfl

/-- The handler and `path_to_log_entry` find the same for a record. -/
theorem WellFormed.childAt_record (h : WellFormed img es) (hrec : Recorded es) (he : e ∈ es)
    (hdir : e.isDir = true) (hpath : exec (pathToLogEntry path) img = some (some e.offset, img))
    (hnodup : ((dentries e.data).map Dentry.name).Nodup) {x : Dentry} (hx : x ∈ dentries e.data)
    {a : Name} (ha : a.bytes = x.name) : childAt img path x.name = filledOf es x := by
  have hfound : lookupNumber (dentries e.data) a.bytes = x.inodeNumber := by
    rw [ha]
    exact lookupNumber_of_mem hnodup hx
  rw [← ha, h.childAt_eq he hdir hpath a, child_of_found (by
    rw [hfound]
    exact hrec.ne_notFound he hdir x hx), hfound, filledOf, ← ha]
  cases hf : newest (LogEntry.isVersion (x.inodeNumber % 2 ^ 32)) es with
  | none => rfl
  | some f =>
      have hnumber := (LogEntry.isVersion_iff.mp (newest_sat hf)).1
      rw [Nat.mod_eq_of_lt (hrec.word e he hdir x hx)] at hnumber
      rw [Option.map_some, Option.map_some, hnumber]

end Law

/-- On every reachable image and for every path that leads to a directory, the listing is
exact precisely when every record of the directory still has a live entry. -/
theorem listsExactly_iff {img0 img : Image} {evs : List Event} {n log : Nat}
    {path : List UInt8} {names : List Name} (h0 : Fresh img0)
    (hrun : Run (Recording n) (img0, []) evs (img, names))
    (hpath : exec (pathToLogEntry path) img = some (some log, img))
    (hdir : isDirMode (inodeAt img.byte log .mode) = true)
    (hn : inodeAt img.byte log .inodeNumber = n) :
    ListsExactly img path names ↔ RecordsFound img log := by
  obtain ⟨es, hwf, hrec, hlisted, hnames⟩ := Run.dirNames hrun h0
  dsimp only at hwf hnames
  obtain ⟨-, e, hcur, rfl⟩ := hwf.toLogView.entry_of_path hpath
  have he := hcur.mem
  have hinode := (hwf.toLogView.reads he).1
  rw [hinode] at hdir hn
  have hkind : e.isDir = true := hdir
  have hnumber : e.number = n := hn
  obtain ⟨up, hup⟩ := hwf.toLogView.exists_parentLog hpath
  have hrecords : (dentries e.data).map Dentry.name = components names := by
    rw [← hnames, ← hnumber, dirNames_of_newest hcur, if_pos hkind]
  have hnodup : names.Nodup := by
    obtain ⟨-, names', hnames', hnodup⟩ := hlisted e he hkind
    rwa [components_injective (hrecords.symm.trans hnames')]
  have hexec := hwf.toLogView.exec_myReaddir he (hwf.dirs e he hkind) hpath hup
  have hfound : RecordsFound img e.offset ↔
      (dentries e.data).all (fun x => (filledOf es x).isSome) = true := by
    rw [RecordsFound, fileData, hwf.toLogView.entryAt_eq he, List.all_eq_true]
    refine forall₂_congr fun x _ => ?_
    rw [hwf.toLogView.exec_getLogEntry, filledOf, Option.isSome_map, Option.isSome_iff_exists]
    simp
  rw [hfound]
  constructor
  · intro hlists
    obtain ⟨self, up', -, -, hpasses⟩ := hlists.passes
    rw [hexec] at hpasses
    by_contra hdead
    rw [if_neg hdead] at hpasses
    cases hpasses
  · intro hlive
    rw [if_pos hlive] at hexec
    have hsame : ∀ x ∈ dentries e.data, childAt img path x.name = filledOf es x := by
      intro x hx
      have hname : x.name ∈ components names := hrecords ▸ List.mem_map_of_mem hx
      obtain ⟨a, -, ha⟩ := List.mem_map.mp hname
      refine hwf.childAt_record hrec he hkind hpath ?_ hx ha
      rw [hrecords]
      have hinj : Function.Injective Name.bytes := fun a b => Name.ext
      exact (List.nodup_map_iff hinj).mpr hnodup
    have hchildren : (dentries e.data).filterMap (filledOf es) =
        names.filterMap fun a => childAt img path a.bytes := by
      rw [List.filterMap_congr fun x hx => (hsame x hx).symm]
      have hmap := congrArg (List.filterMap (childAt img path)) hrecords
      rwa [List.filterMap_map, components, List.filterMap_map] at hmap
    refine ⟨⟨e.offset, up, hpath, hup, by rw [hexec, hchildren]⟩, hnodup, fun a ha => ?_⟩
    rw [hwf.childAt_eq he hkind hpath a, Option.isSome_map, Option.isSome_iff_exists] at ha
    obtain ⟨f, hf⟩ := ha
    have hne : lookupNumber (dentries e.data) a.bytes ≠ notFound := by
      intro hnone
      rw [child_of_notFound hnone] at hf
      cases hf
    obtain ⟨x, hx, hname, -⟩ := exists_of_lookupNumber hne
    have hmem : a.bytes ∈ components names := by
      rw [← hrecords, ← hname]
      exact List.mem_map_of_mem hx
    obtain ⟨b, hb, hbytes⟩ := List.mem_map.mp hmem
    rwa [← Name.ext hbytes]

/-- The root directory with a file in it. -/
theorem listsExactly_iff_run : ∃ img0 evs img names, Fresh img0 ∧
    Run (Recording 0) (img0, []) evs (img, names) ∧ evs.length = 1 ∧
    ListsExactly img (render []) names := by
  obtain ⟨img0, evs, img, hfresh, hrun, hP⟩ := @exists_run_of_eval (zeroDisk 400)
    [.create .file [] nameA 0o644 0 0]
    (fun res => res.1.length == 1 && (lookupPath res.2 []).any fun log =>
      isDirMode (inodeAt res.2.byte log .mode) && inodeAt res.2.byte log .inodeNumber == 0 &&
        (dentries (fileData res.2 log)).all fun x =>
          ((exec (getLogEntry (x.inodeNumber % 2 ^ 32)) res.2).bind Prod.fst).isSome)
    (by decide +kernel)
  obtain ⟨hlen, hany⟩ := Bool.and_eq_true_iff.mp hP
  obtain ⟨log, hlog, hcond⟩ := (Option.any_eq_true _ _).mp hany
  simp only [Bool.and_eq_true, beq_iff_eq, List.all_eq_true] at hcond
  obtain ⟨⟨hdir, hnumber⟩, hall⟩ := hcond
  obtain ⟨names, hrecorded⟩ := Run.recording hrun 0
  refine ⟨img0, evs, img, names, hfresh, hrecorded, beq_iff_eq.mp hlen,
    (listsExactly_iff hfresh hrecorded (resolves_iff_lookupPath.mpr hlog) hdir hnumber).mpr
      fun x hx => ?_⟩
  obtain ⟨found, hfound⟩ := Option.isSome_iff_exists.mp (hall x hx)
  obtain ⟨⟨cur, img'⟩, hexec, rfl⟩ := Option.bind_eq_some_iff.mp hfound
  exact ⟨found, (readOnly_getLogEntry _).exec_eq (congrArg (Option.map Prod.fst) hexec)⟩

/-- A file is created in the root directory and deleted. -/
theorem readdir_reads_null :
    ¬∀ img0 evs img n log path names, Fresh img0 →
      Run (Recording n) (img0, []) evs (img, names) →
      exec (pathToLogEntry path) img = some (some log, img) →
        isDirMode (inodeAt img.byte log .mode) = true →
          inodeAt img.byte log .inodeNumber = n → ListsExactly img path names := by
  intro hlaw
  obtain ⟨img0, evs, img, hfresh, hrun, hP⟩ := @exists_run_of_eval (zeroDisk 400)
    [.create .file [] nameA 0o644 0 0, .unlink [nameA]]
    (fun res => (lookupPath res.2 []).any fun log =>
      isDirMode (inodeAt res.2.byte log .mode) && inodeAt res.2.byte log .inodeNumber == 0 &&
        (exec (myReaddir roomy (render [])) res.2).isNone)
    (by decide +kernel)
  obtain ⟨log, hlog, hcond⟩ := (Option.any_eq_true _ _).mp hP
  simp only [Bool.and_eq_true, beq_iff_eq] at hcond
  obtain ⟨⟨hdir, hnumber⟩, hfault⟩ := hcond
  obtain ⟨names, hrecorded⟩ := Run.recording hrun 0
  have hlists := hlaw img0 evs img 0 log _ names hfresh hrecorded
    (resolves_iff_lookupPath.mpr hlog) hdir hnumber
  obtain ⟨self, up, -, -, hpasses⟩ := hlists.passes
  rw [hpasses] at hfault
  cases hfault

end OSProjects.Wfs
