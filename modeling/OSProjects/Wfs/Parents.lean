import OSProjects.Wfs.Reading
import OSProjects.Wfs.Records

/-!
# The parent of a new name

`find_parent_log_path` looks up what a buffer of 128 bytes keeps of a path, up to the last
slash there. For every spelling of a directory, of any length, when that is the directory.
-/

namespace OSProjects.Wfs

open ByteMemory VersionedLog CString WfsM StepSystem

/-! ## The string that is looked up -/

/-- `path_to_log_entry` depends on the tokens of a path alone. -/
theorem pathToLogEntry_congr {s t : List UInt8} (h : strtok slash s = strtok slash t) :
    pathToLogEntry s = pathToLogEntry t := by
  rw [pathToLogEntry, pathToLogEntry, h]

/-- Each branch of `find_parent_log_path` looks up the cut path. -/
theorem findParentLogPath_eq (path : List UInt8) :
    findParentLogPath path = pathToLogEntry (parentString path) := by
  have hroot : pathToLogEntry [] = getLogEntry 0 := by
    funext img
    cases h : getLogEntry 0 img with
    | none => simp [pathToLogEntry, bind, h]
    | some r => simp [pathToLogEntry, strtok, strtokFrom, pathLoop, bind, pure, h]
  rw [findParentLogPath]
  split
  case isTrue hshort =>
    have hcut : parentString path = [] := by
      rcases hshort with rfl | rfl
      · decide
      · decide
    rw [hcut, hroot]
  case isFalse =>
    simp only [parentString]
    cases strrchr slash (path.take (maxPathLength - 1)) with
    | none => exact hroot.symm
    | some i =>
        cases i with
        | zero => exact hroot.symm
        | succ i => rfl

/-- What lies of a directory's path behind its first 126 bytes is slashes. -/
def FitsBuffer (d : List UInt8) : Prop := ∀ c ∈ d.drop (maxPathLength - 2), c = slash

instance (d : List UInt8) : Decidable (FitsBuffer d) :=
  inferInstanceAs (Decidable (∀ c ∈ d.drop (maxPathLength - 2), c = slash))

/-- The tokens of a directory's path are those of the cut path and those of a rest, which
has none exactly when the path fits the buffer. -/
theorem tokens_parentString (d : List UInt8) {name : List UInt8} (hname : slash ∉ name) :
    ∃ rest, strtok slash d = strtok slash (parentString (d ++ slash :: name)) ++ strtok slash rest ∧
      (strtok slash rest = [] ↔ FitsBuffer d) := by
  by_cases hshort : d.length ≤ maxPathLength - 2
  · -- The slash in front of the name is the last one in the buffer.
    have htake : (d ++ slash :: name).take (maxPathLength - 1) =
        d ++ slash :: name.take (maxPathLength - 2 - d.length) := by
      rw [List.take_append, List.take_of_length_le (by omega),
        show maxPathLength - 1 - d.length = (maxPathLength - 2 - d.length) + 1 by
          simp only [maxPathLength] at hshort ⊢; omega, List.take_succ_cons]
    have hlast : strrchr slash (d ++ slash :: name.take (maxPathLength - 2 - d.length)) =
        some d.length :=
      strrchr_eq_some.mpr ⟨d, _, rfl, rfl, fun h => hname (List.mem_of_mem_take h)⟩
    refine ⟨[], ?_, ?_⟩
    · rw [parentString, htake, hlast, Option.getD_some, List.take_left]
      simp [strtok, strtokFrom]
    · rw [FitsBuffer, List.drop_eq_nil_of_le hshort]
      simp [strtok, strtokFrom]
  · -- The buffer ends with the byte `c`, and `back` is lost.
    obtain ⟨front, c, back, rfl, hfront⟩ :
        ∃ front c back, d = front ++ c :: back ∧ front.length = maxPathLength - 2 := by
      have hlt : maxPathLength - 2 < d.length := by omega
      exact ⟨d.take (maxPathLength - 2), d[maxPathLength - 2], d.drop (maxPathLength - 2 + 1),
        by rw [List.getElem_cons_drop, List.take_append_drop], List.length_take_of_le hlt.le⟩
    have htake : (front ++ c :: back ++ slash :: name).take (maxPathLength - 1) = front ++ [c] := by
      rw [show maxPathLength - 1 = (front ++ [c]).length by simp [hfront, maxPathLength],
        show front ++ c :: back ++ slash :: name = front ++ [c] ++ (back ++ slash :: name) by simp,
        List.take_left]
    have hfits : FitsBuffer (front ++ c :: back) ↔ c = slash ∧ ∀ x ∈ back, x = slash := by
      rw [FitsBuffer, ← hfront, List.drop_left, List.forall_mem_cons]
    rw [parentString, htake, hfits]
    by_cases hc : c = slash
    · subst hc
      have hlast : strrchr slash (front ++ [slash]) = some front.length :=
        strrchr_eq_some.mpr ⟨front, [], rfl, rfl, List.not_mem_nil⟩
      refine ⟨back, ?_, strtok_eq_nil.trans (and_iff_right rfl).symm⟩
      rw [hlast, Option.getD_some, List.take_left, strtok_append_sep]
    · cases hlast : strrchr slash (front ++ [c]) with
      | none =>
          refine ⟨front ++ c :: back, by simp [strtok, strtokFrom], iff_of_false ?_ fun h => hc h.1⟩
          rw [strtok_eq_nil]
          exact fun h => hc (h c (by simp))
      | some i =>
          obtain ⟨pre, post, hsplit, rfl, hpost⟩ := strrchr_eq_some.mp hlast
          refine ⟨post ++ back, ?_, iff_of_false ?_ fun h => hc h.1⟩
          · rw [hsplit, Option.getD_some, List.take_left, ← strtok_append_sep, ← List.cons_append,
              ← List.append_assoc, ← hsplit]
            simp
          · rw [strtok_eq_nil]
            intro h
            have hnil : post = [] := by
              refine List.eq_nil_iff_forall_not_mem.mpr fun x hx => ?_
              obtain rfl := h x (List.mem_append_left back hx)
              exact hpost hx
            subst hnil
            exact hc (List.cons.inj (List.append_inj' hsplit rfl).2).1

/-! ## The directory that gets a new name -/

/-- The handler that creates a file or a directory. -/
def Kind.handler : Kind → List UInt8 → Nat → Nat → Nat → WfsM Int
  | .file, path, mode, uid, t => myMknod (some path) mode uid t
  | .directory, path, mode, uid, t => myMkdir (some path) mode uid t

/-- On a disk with room, a creation appends a version of the directory at `log`, or it fails
and changes nothing. -/
def AddsTo (img : Image) (log : Nat) (path : List UInt8) : Prop :=
  ∀ kind mode uid t r img',
    img.Room (sizeofInode + (inodeAt img.byte log .size +
      max sizeofDentry ((fileName path).length + 1)) + sizeofInode) →
    exec (Kind.handler kind path mode uid t) img = some (r, img') →
      r = eEXIST ∧ img' = img ∨
        r = 0 ∧ inodeAt img'.byte img.head .inodeNumber = inodeAt img.byte log .inodeNumber

theorem Kind.handler_eq (kind : Kind) (path : List UInt8) (mode uid t : Nat) :
    ∃ fields, Kind.handler kind path mode uid t = createEntry path fields := by
  cases kind with
  | file => exact ⟨_, rfl⟩
  | directory => exact ⟨_, rfl⟩

/-- Stores behind the head leave what lies in front of it. -/
theorem Publishes.keeps {hd size : Nat} {stores : List Store} (h : Publishes hd size stores)
    (img : Image) {i : Nat} (hi : 8 ≤ i) (hlt : i < hd) : (img.apply stores).byte i = img.byte i := by
  obtain ⟨body, v, rfl, -, hbody⟩ := h
  rw [Image.apply_append, apply_single_byte]
  have hbefore : (img.apply body).byte i = img.byte i :=
    applyAll_of_lt (fun s hs => Nat.lt_of_lt_of_le hlt (hbody s hs).1) img.byte
  exact (Store.apply_of_stop_le _ _ hi).trans hbefore

/-- The version of the directory that is appended has the number of the entry that
`find_parent_log_path` has found. -/
theorem WellFormed.addsTo {img : Image} {es : List LogEntry} (h : WellFormed img es)
    {path : List UInt8} {log : Nat}
    (hparent : exec (findParentLogPath path) img = some (some log, img)) :
    AddsTo img log path := by
  intro kind mode uid t r img' hroom hexec
  obtain ⟨fields, hfields⟩ := Kind.handler_eq kind path mode uid t
  rw [hfields] at hexec
  obtain ⟨stores, hstores, rfl⟩ := run_eq_of_exec hexec
  rcases stores_createEntry hstores with hold | ⟨parentLog, n, first, second, hfound, -, -, happend,
    -, hr, -, hsecond⟩
  · obtain ⟨rfl, rfl⟩ := Prod.mk.inj hold
    exact Or.inl ⟨rfl, Image.apply_nil img⟩
  · obtain ⟨rfl, rfl⟩ := Prod.mk.inj hr
    rw [hparent, Option.some.injEq, Prod.mk.injEq, Option.some.injEq] at hfound
    obtain ⟨rfl, -⟩ := hfound
    rw [findParentLogPath_eq] at hparent
    obtain ⟨-, e, hcur, rfl⟩ := h.toLogView.entry_of_path hparent
    have he := hcur.mem
    obtain ⟨hin, hword⟩ := hroom
    have hinode := (h.toLogView.reads he).1
    rw [hinode] at hin hword
    obtain ⟨img1, hexec1, -, hhead, hinode1, -⟩ := h.toLogView.exec_appendRecord he (fileName path)
      ((n + 1) % 2 ^ 32) (by omega) (by omega) (by omega)
    rw [exec_of_run happend, Option.some.injEq, Prod.mk.injEq] at hexec1
    obtain ⟨-, rfl⟩ := hexec1
    have hsb := h.entries.le
    refine Or.inr ⟨rfl, ?_⟩
    rw [hinode, Image.apply_append]
    have hsame : inodeAt ((img.apply first).apply second).byte img.head =
        inodeAt (img.apply first).byte img.head := by
      refine inodeAt_congr fun i hi hi' => hsecond.keeps _ ?_ ?_
      · simp only [sizeofSb] at hsb
        omega
      · rw [hhead]
        omega
    rw [hsame, hinode1]
    rfl

/-! ## The law -/

/-- The parent of `d/name` is the directory that `d` leads to, and creations of `d/name` go
there. -/
structure ParentAgrees (img : Image) (d name : List UInt8) : Prop where
  lookup : exec (findParentLogPath (d ++ slash :: name)) img = exec (pathToLogEntry d) img
  adds : ∀ log, exec (pathToLogEntry d) img = some (some log, img) →
    AddsTo img log (d ++ slash :: name)

/-- The string is a spelling of a path whose proper prefixes are directories, as the kernel
has checked. -/
def FollowsDirs (img : Image) (d : List UInt8) : Prop :=
  ∃ p : Path, strtok slash d = components p ∧ PrefixDirs img p

/-- With distinct tokens the cut path leads to another directory. -/
theorem AllListed.cut_ne {img : Image} {es : List LogEntry} (h : AllListed es)
    (hrec : Recorded es) (hwf : WellFormed img es) {s d : List UInt8} {p : Path}
    {rest : List (List UInt8)} (hd : strtok slash d = components p) (hdirs : DirsTo es p)
    (hsplit : strtok slash d = strtok slash s ++ rest) (hrest : rest ≠ []) {log : Nat}
    (hlog : exec (pathToLogEntry d) img = some (some log, img)) :
    exec (pathToLogEntry s) img ≠ some (some log, img) := by
  intro hs
  rw [hd] at hsplit
  obtain ⟨q, r, rfl, hq, hr⟩ := List.map_eq_append_iff.mp hsplit
  have hne : r ≠ [] := by
    rintro rfl
    exact hrest hr.symm
  rw [hwf.exec_pathToLogEntry_of_strtok hdirs hd, Option.some.injEq, Prod.mk.injEq] at hlog
  rw [hwf.exec_pathToLogEntry_of_strtok (hdirs.of_prefix (List.prefix_append q r)) hq.symm,
    Option.some.injEq, Prod.mk.injEq] at hs
  obtain ⟨f, hf, hfoff⟩ := Option.map_eq_some_iff.mp hlog.1
  obtain ⟨e, he, heoff⟩ := Option.map_eq_some_iff.mp hs.1
  have hsame : e = f := by
    rw [(hwf.bounds (mem_of_resolve he)).1, (hwf.bounds (mem_of_resolve hf)).1, heoff, hfoff]
  exact absurd (hsame ▸ h.number_lt hrec hdirs he hf hne) (Nat.lt_irrefl _)

/-- On every reachable image: for a directory's path that fits the buffer, the parent of a
name in it is that directory; and for no other path that the kernel passes. -/
theorem parentAgrees_iff {img0 img : Image} {evs : List Event} (h0 : Fresh img0)
    (hrun : Run Step img0 evs img) {d name : List UInt8} (hname : slash ∉ name) {log : Nat}
    (hd : exec (pathToLogEntry d) img = some (some log, img)) :
    (FitsBuffer d → ParentAgrees img d name) ∧
      (FollowsDirs img d → ParentAgrees img d name → FitsBuffer d) := by
  obtain ⟨es, hwf, hrec, hlisted⟩ := Run.listed hrun h0
  obtain ⟨rest, hsplit, hfits⟩ := tokens_parentString d hname
  constructor
  · intro hd'
    rw [hfits.mpr hd', List.append_nil] at hsplit
    have hlookup : findParentLogPath (d ++ slash :: name) = pathToLogEntry d := by
      rw [findParentLogPath_eq, pathToLogEntry_congr hsplit]
    refine ⟨by rw [hlookup], fun log' hlog' => hwf.addsTo ?_⟩
    rw [hlookup, hlog']
  · rintro ⟨p, htokens, hdirs⟩ hagrees
    by_contra hlong
    have hlookup := hagrees.lookup
    rw [findParentLogPath_eq, hd] at hlookup
    exact hlisted.cut_ne hrec hwf htokens (hwf.dirsTo hdirs) hsplit (mt hfits.mp hlong) hd hlookup

/-- A name in a directory `/a`. -/
theorem parentAgrees_iff_run : ∃ img0 evs img, Fresh img0 ∧ Run Step img0 evs img ∧
    evs.length = 1 ∧ ParentAgrees img (render [nameA]) nameB.bytes := by
  obtain ⟨img0, evs, img, hfresh, hrun, hP⟩ := @exists_run_of_eval (zeroDisk 400)
    [.create .directory [] nameA 0o755 0 0]
    (fun res => res.1.length == 1 && (lookupPath res.2 [nameA]).isSome) (by decide +kernel)
  obtain ⟨hlen, hsome⟩ := Bool.and_eq_true_iff.mp hP
  obtain ⟨log, hlog⟩ := Option.isSome_iff_exists.mp hsome
  exact ⟨img0, evs, img, hfresh, hrun, beq_iff_eq.mp hlen,
    (parentAgrees_iff hfresh hrun nameB.no_slash (resolves_iff_lookupPath.mpr hlog)).1
      (by decide +kernel)⟩

/-- A name of 31 bytes. -/
def longName : Name := ⟨List.replicate 31 97, by decide, by decide, by decide⟩

/-- Four directories one in another: a name in the innermost one goes to the third. -/
theorem long_parent_missed :
    ¬∀ img0 evs img d name log, Fresh img0 → Run Step img0 evs img → name ≠ [] → slash ∉ name →
      FollowsDirs img d → exec (pathToLogEntry d) img = some (some log, img) →
        isDirMode (inodeAt img.byte log .mode) = true → ParentAgrees img d name := by
  intro hlaw
  obtain ⟨img0, evs, img, hfresh, hrun, hP⟩ := @exists_run_of_eval (zeroDisk 700)
    [.create .directory [] longName 0o755 0 0, .create .directory [longName] longName 0o755 0 0,
      .create .directory [longName, longName] longName 0o755 0 0,
      .create .directory [longName, longName, longName] longName 0o755 0 0]
    (fun res => prefixDirsCheck res.2 [longName, longName, longName, longName] &&
      (lookupPath res.2 [longName, longName, longName, longName]).any fun log =>
        isDirMode (inodeAt res.2.byte log .mode) &&
          ((exec (findParentLogPath (render [longName, longName, longName, longName] ++
            slash :: nameB.bytes)) res.2).map Prod.fst != some (some log)))
    (by decide +kernel)
  obtain ⟨hdirs, hany⟩ := Bool.and_eq_true_iff.mp hP
  obtain ⟨log, hlog, hcond⟩ := (Option.any_eq_true _ _).mp hany
  obtain ⟨hdir, hne⟩ := Bool.and_eq_true_iff.mp hcond
  have hpath := resolves_iff_lookupPath.mpr hlog
  have hagrees := hlaw img0 evs img _ nameB.bytes log hfresh hrun nameB.ne_nil nameB.no_slash
    ⟨_, strtok_render _, prefixDirs_of_check hdirs⟩ hpath hdir
  refine bne_iff_ne.mp hne ?_
  rw [hagrees.lookup]
  exact congrArg (Option.map Prod.fst) hpath

end OSProjects.Wfs
