import OSProjects.Wfs.Directory

/-!
# Paths as the kernel passes them

The kernel hands the server absolute paths made of non-empty components. Such a
path resolves in the list of entries component by component, provided that its
proper prefixes are directories, which the kernel's own lookup guarantees.
-/

namespace OSProjects.Wfs

open ByteMemory VersionedLog CString WfsM

/-- One component of a path. -/
@[ext] structure Name where
  bytes : List UInt8
  ne_nil : bytes ≠ []
  no_slash : slash ∉ bytes
  no_nul : 0 ∉ bytes

instance : DecidableEq Name := fun a b =>
  decidable_of_iff (a.bytes = b.bytes) Name.ext_iff.symm

/-- The components of a path, outermost first; the root is the empty path. -/
abbrev Path := List Name

/-- The components as byte strings. -/
def components (p : Path) : List (List UInt8) := p.map Name.bytes

/-- The C string of a path. -/
def render (p : Path) : List UInt8 :=
  if p = [] then [slash] else joinWith slash (components p)

theorem components_concat (p : Path) (a : Name) :
    components (p ++ [a]) = components p ++ [a.bytes] := by
  simp [components]

theorem components_valid (p : Path) : ∀ n ∈ components p, n ≠ [] ∧ slash ∉ n := by
  intro n hn
  obtain ⟨a, _, rfl⟩ := List.mem_map.mp hn
  exact ⟨a.ne_nil, a.no_slash⟩

theorem render_concat (p : Path) (a : Name) :
    render (p ++ [a]) = joinWith slash (components p) ++ slash :: a.bytes := by
  rw [render, if_neg (by simp), components_concat, joinWith_concat]

theorem strtok_joinWith_components (p : Path) :
    strtok slash (joinWith slash (components p)) = components p :=
  strtok_joinWith slash _ (components_valid p)

theorem strtok_render (p : Path) : strtok slash (render p) = components p := by
  by_cases hp : p = []
  · subst hp
    rfl
  · rw [render, if_neg hp, strtok_joinWith_components]

theorem components_injective {p q : Path} (h : components p = components q) : p = q := by
  have hinj : Function.Injective Name.bytes := fun a b => Name.ext
  exact List.map_injective_iff.mpr hinj h

/-- The name that `my_mknod` and `my_mkdir` create is the last component. -/
theorem fileName_render (p : Path) (a : Name) : fileName (render (p ++ [a])) = a.bytes := by
  have hlast : strrchr slash (render (p ++ [a])) = some (joinWith slash (components p)).length := by
    rw [render_concat, ← joinWith_concat]
    exact strrchr_joinWith_concat slash _ _ a.no_slash
  rw [fileName, hlast, render_concat]
  simp

/-! ## Resolution in the list of entries -/

/-- The entry that a directory's record for a name leads to. -/
def child (es : List LogEntry) (e : LogEntry) (a : Name) : Option LogEntry :=
  if lookupNumber (dentries e.data) a.bytes = notFound then none
  else newest (LogEntry.isVersion (lookupNumber (dentries e.data) a.bytes % 2 ^ 32)) es

/-- Resolution of a path from the newest root entry. -/
def resolve (es : List LogEntry) (p : Path) : Option LogEntry :=
  p.foldl (fun cur a => cur.bind fun e => child es e a) (newest (LogEntry.isVersion 0) es)

@[simp] theorem resolve_nil (es : List LogEntry) :
    resolve es [] = newest (LogEntry.isVersion 0) es := rfl

@[simp] theorem resolve_concat (es : List LogEntry) (p : Path) (a : Name) :
    resolve es (p ++ [a]) = (resolve es p).bind fun e => child es e a := by
  simp [resolve]

theorem mem_of_resolve {es : List LogEntry} {p : Path} {e : LogEntry}
    (h : resolve es p = some e) : e ∈ es := by
  induction p using List.reverseRecOn with
  | nil => exact mem_of_newest h
  | append_singleton p a _ =>
      rw [resolve_concat] at h
      obtain ⟨d, _, hd⟩ := Option.bind_eq_some_iff.mp h
      unfold child at hd
      split at hd
      · cases hd
      · exact mem_of_newest hd

/-- Every proper prefix of the path resolves to a directory. -/
def DirsTo (es : List LogEntry) (p : Path) : Prop :=
  ∀ q, q <+: p → q ≠ p → ∃ e, resolve es q = some e ∧ e.isDir = true

theorem DirsTo.of_prefix {es : List LogEntry} {p q : Path} (h : DirsTo es p) (hq : q <+: p) :
    DirsTo es q := by
  intro r hr hne
  apply h r (hr.trans hq)
  intro hrp
  subst hrp
  exact hne (hr.eq_of_length_le hq.length_le)

theorem DirsTo.parent {es : List LogEntry} {p : Path} {a : Name} (h : DirsTo es (p ++ [a])) :
    ∃ e, resolve es p = some e ∧ e.isDir = true :=
  h p (List.prefix_append p [a]) (by simp)

theorem DirsTo.nil (es : List LogEntry) : DirsTo es [] := by
  intro q hq hne
  exact absurd (List.prefix_nil.mp hq) hne

theorem DirsTo.concat {es : List LogEntry} {p : Path} {a : Name} (h : DirsTo es p)
    {e : LogEntry} (he : resolve es p = some e) (hdir : e.isDir = true) :
    DirsTo es (p ++ [a]) := by
  intro q hq hne
  rcases List.prefix_concat_iff.mp hq with rfl | hq'
  · exact absurd rfl hne
  · by_cases hqp : q = p
    · exact ⟨e, hqp ▸ he, hdir⟩
    · exact h q hq' hqp

/-- A log whose directories all hold well-formed records. -/
structure WellFormed (img : Image) (es : List LogEntry) : Prop extends LogView img es where
  dirs : ∀ e ∈ es, e.isDir = true → DirData e.data

theorem exec_pathLoop_append (ts us : List (List UInt8)) (cur : Option Nat) (img : Image) :
    exec (pathLoop (ts ++ us) cur) img =
      (exec (pathLoop ts cur) img).bind fun r => exec (pathLoop us r.1) r.2 := by
  induction ts generalizing cur img with
  | nil =>
      cases us <;> simp [pathLoop]
  | cons t ts ih =>
      cases cur with
      | none =>
          cases us <;> simp [pathLoop]
      | some c =>
          simp only [List.cons_append, pathLoop, exec_bind, Option.bind_assoc]
          congr 1
          funext r
          by_cases hr : r.1 = notFound
          · cases us <;> simp [hr, pathLoop]
          · simp only [if_neg hr, exec_bind, ih, Option.bind_assoc]

namespace WellFormed

variable {img : Image} {es : List LogEntry}

/-- One round of `path_to_log_entry` in a directory. -/
theorem exec_pathLoop_single (h : WellFormed img es) {e : LogEntry} (he : e ∈ es)
    (hdir : e.isDir = true) (a : Name) :
    exec (pathLoop [a.bytes] (some e.offset)) img =
      some ((child es e a).map (·.offset), img) := by
  simp only [pathLoop, exec_bind, h.toLogView.exec_getInodeNumber he (h.dirs e he hdir) a.no_nul,
    Option.bind_some, child]
  split
  · rfl
  · simp [h.toLogView.exec_getLogEntry]

/-- The token loop follows `resolve`. -/
theorem exec_pathLoop (h : WellFormed img es) {p : Path} (hp : DirsTo es p) :
    exec (pathLoop (components p) ((newest (LogEntry.isVersion 0) es).map (·.offset))) img =
      some ((resolve es p).map (·.offset), img) := by
  induction p using List.reverseRecOn with
  | nil => rfl
  | append_singleton p a ih =>
      obtain ⟨e, he, hdir⟩ := hp.parent
      rw [components_concat, exec_pathLoop_append, ih (hp.of_prefix (List.prefix_append p [a])),
        resolve_concat, he]
      exact h.exec_pathLoop_single (mem_of_resolve he) hdir a

/-- `path_to_log_entry` on any string with the tokens of a path. -/
theorem exec_pathToLogEntry_of_strtok (h : WellFormed img es) {p : Path} (hp : DirsTo es p)
    {s : List UInt8} (hs : strtok slash s = components p) :
    exec (pathToLogEntry s) img = some ((resolve es p).map (·.offset), img) := by
  simp only [pathToLogEntry, exec_bind, h.toLogView.exec_getLogEntry, Option.bind_some, hs]
  exact h.exec_pathLoop hp

/-- `path_to_log_entry` resolves a path whose proper prefixes are directories. -/
theorem exec_pathToLogEntry (h : WellFormed img es) {p : Path} (hp : DirsTo es p) :
    exec (pathToLogEntry (render p)) img = some ((resolve es p).map (·.offset), img) :=
  h.exec_pathToLogEntry_of_strtok hp (strtok_render p)

end WellFormed

/-- The part of a path before its last slash fits the buffer of `find_parent_log_path`. -/
def ParentFits (p : Path) : Prop := (joinWith slash (components p)).length + 2 ≤ maxPathLength

instance (p : Path) : Decidable (ParentFits p) :=
  inferInstanceAs (Decidable ((joinWith slash (components p)).length + 2 ≤ maxPathLength))

/-- The string that `find_parent_log_path` looks up, up to leading slashes. -/
def parentString (path : List UInt8) : List UInt8 :=
  (path.take (maxPathLength - 1)).take
    ((strrchr slash (path.take (maxPathLength - 1))).getD 0)

/-- Cutting a path at the last slash of its first 127 bytes leaves the path of a proper
prefix, and of the parent when that fits the buffer. -/
theorem exists_parentPath (p : Path) (a : Name) :
    ∃ q i, q <+: p ∧
      strrchr slash ((render (p ++ [a])).take (maxPathLength - 1)) = some i ∧
      ((render (p ++ [a])).take (maxPathLength - 1)).take i = joinWith slash (components q) ∧
      (ParentFits p → q = p) := by
  have hjoin : render (p ++ [a]) = joinWith slash (components (p ++ [a])) := by
    rw [render, if_neg (by simp)]
  have hslash : slash ∈ (render (p ++ [a])).take (maxPathLength - 1) := by
    rw [hjoin]
    cases p <;> simp [components, maxPathLength]
  obtain ⟨i, hi⟩ : ∃ i, strrchr slash ((render (p ++ [a])).take (maxPathLength - 1)) = some i := by
    cases hs : strrchr slash ((render (p ++ [a])).take (maxPathLength - 1)) with
    | some i => exact ⟨i, rfl⟩
    | none => exact absurd hslash (strrchr_eq_none.mp hs)
  rw [hjoin] at hi
  obtain ⟨front, n, back, hsplit, hcut⟩ := joinWith_take_strrchr slash
    (fun n hn => (components_valid _ n hn).2) hi
  rw [← hjoin] at hi hcut
  obtain ⟨q, rest, hqr, rfl, hrest⟩ := List.map_eq_append_iff.mp hsplit
  have hqp : q <+: p := by
    rcases List.prefix_concat_iff.mp ⟨rest, hqr.symm⟩ with hq | hq
    · subst hq
      have hnil : rest = [] := by simpa using hqr
      simp [hnil] at hrest
    · exact hq
  refine ⟨q, i, hqp, hi, hcut, fun hfits => ?_⟩
  -- With the whole parent in the buffer, the last slash is the one before the new name.
  have hlast : strrchr slash ((render (p ++ [a])).take (maxPathLength - 1)) =
      some (joinWith slash (components p)).length := by
    apply strrchr_eq_some.mpr
    refine ⟨joinWith slash (components p),
      a.bytes.take (maxPathLength - 2 - (joinWith slash (components p)).length), ?_, rfl,
      fun hmem => a.no_slash (List.mem_of_mem_take hmem)⟩
    unfold ParentFits at hfits
    simp only [maxPathLength] at hfits ⊢
    rw [render_concat, List.take_append, List.take_of_length_le (by omega),
      show 128 - 1 - (joinWith slash (components p)).length =
        (128 - 2 - (joinWith slash (components p)).length) + 1 by omega, List.take_succ_cons]
  rw [hlast, Option.some.injEq] at hi
  have hlen : ((render (p ++ [a])).take (maxPathLength - 1)).take i =
      joinWith slash (components p) := by
    obtain ⟨pre, post, hpre, hplen, _⟩ := strrchr_eq_some.mp hlast
    unfold ParentFits at hfits
    simp only [maxPathLength] at hfits ⊢
    rw [← hi, List.take_take, render_concat, Nat.min_eq_left (by omega), List.take_left]
  have hsame : joinWith slash (components q) = joinWith slash (components p) :=
    hcut.symm.trans hlen
  have htok := congrArg (strtok slash) hsame
  rw [strtok_joinWith_components, strtok_joinWith_components] at htok
  exact components_injective htok

/-- `find_parent_log_path` resolves a proper prefix of the path, the parent itself when
it fits the buffer. The path alone says which one. -/
theorem exists_parentFound (p : Path) (a : Name) :
    ∃ q, q <+: p ∧ (ParentFits p → q = p) ∧ ∀ img es, WellFormed img es → DirsTo es (p ++ [a]) →
      exec (findParentLogPath (render (p ++ [a]))) img =
        some ((resolve es q).map (·.offset), img) := by
  obtain ⟨q, i, hqp, hi, hcut, hfits⟩ := exists_parentPath p a
  refine ⟨q, hqp, hfits, fun img es h hp => ?_⟩
  have hne : ¬(render (p ++ [a]) = [slash] ∨ render (p ++ [a]) = []) := by
    rw [render_concat]
    have := a.ne_nil
    rintro (h1 | h1)
    · have hlen := congrArg List.length h1
      simp only [List.length_append, List.length_cons, List.length_nil] at hlen
      exact this (List.length_eq_zero_iff.mp (by omega))
    · simp at h1
  have hq : DirsTo es q := hp.of_prefix (hqp.trans (List.prefix_append p [a]))
  rw [findParentLogPath, if_neg hne]
  simp only [hi]
  cases i with
  | zero =>
      have hnil : q = [] := by
        cases q with
        | nil => rfl
        | cons b q => simp [components] at hcut
      subst hnil
      exact h.toLogView.exec_getLogEntry 0
  | succ i =>
      simp only [hcut]
      exact h.exec_pathToLogEntry_of_strtok hq (strtok_joinWith_components q)

theorem WellFormed.exec_findParentLogPath {img : Image} {es : List LogEntry}
    (h : WellFormed img es) {p : Path} {a : Name} (hp : DirsTo es (p ++ [a])) :
    ∃ q, q <+: p ∧ (ParentFits p → q = p) ∧
      exec (findParentLogPath (render (p ++ [a]))) img =
        some ((resolve es q).map (·.offset), img) := by
  obtain ⟨q, hqp, hfits, hfound⟩ := exists_parentFound p a
  exact ⟨q, hqp, hfits, hfound img es h hp⟩

end OSProjects.Wfs
