import OSProjects.Wfs.Calls

/-!
# How appended entries change the resolution of paths

A new version of an inode takes the place of the old one on every path that led to
it; an inode with an unused number appears at the one path whose directory names it.
-/

namespace OSProjects.Wfs

open VersionedLog

/-- The entry is the newest live version of its inode. -/
def Current (es : List LogEntry) (e : LogEntry) : Prop :=
  newest (LogEntry.isVersion e.number) es = some e

theorem current_of_newest {es : List LogEntry} {n : Nat} {e : LogEntry}
    (h : newest (LogEntry.isVersion n) es = some e) : Current es e := by
  have hn := (LogEntry.isVersion_iff.mp (newest_sat h)).1
  rw [Current, hn, h]

theorem newest_of_child {es : List LogEntry} {d e : LogEntry} {a : Name}
    (h : child es d a = some e) :
    newest (LogEntry.isVersion (lookupNumber (dentries d.data) a.bytes % 2 ^ 32)) es = some e := by
  unfold child at h
  split at h
  · cases h
  · exact h

/-- Paths lead to current versions. -/
theorem current_of_resolve {es : List LogEntry} {p : Path} {e : LogEntry}
    (h : resolve es p = some e) : Current es e := by
  induction p using List.reverseRecOn with
  | nil => exact current_of_newest h
  | append_singleton p a _ =>
      rw [resolve_concat] at h
      obtain ⟨d, _, hd⟩ := Option.bind_eq_some_iff.mp h
      exact current_of_newest (newest_of_child hd)

theorem Current.unique {es : List LogEntry} {e f : LogEntry} (he : Current es e)
    (hf : Current es f) (h : e.number = f.number) : e = f := by
  rw [Current, h, hf] at he
  exact (Option.some.inj he).symm

theorem Current.mem {es : List LogEntry} {e : LogEntry} (h : Current es e) : e ∈ es :=
  mem_of_newest h

theorem Current.live {es : List LogEntry} {e : LogEntry} (h : Current es e) : e.live = true :=
  (LogEntry.isVersion_iff.mp (newest_sat h)).2

theorem child_of_notFound {es : List LogEntry} {d : LogEntry} {a : Name}
    (h : lookupNumber (dentries d.data) a.bytes = notFound) : child es d a = none := by
  rw [child, if_pos h]

theorem child_of_found {es : List LogEntry} {d : LogEntry} {a : Name}
    (h : lookupNumber (dentries d.data) a.bytes ≠ notFound) :
    child es d a =
      newest (LogEntry.isVersion (lookupNumber (dentries d.data) a.bytes % 2 ^ 32)) es := by
  rw [child, if_neg h]

theorem child_of_data_nil {es : List LogEntry} {d : LogEntry} (h : d.data = []) (a : Name) :
    child es d a = none :=
  child_of_notFound (by rw [h]; rfl)

/-- The greatest live number after an append. -/
theorem maxNumber_concat (es : List LogEntry) {e : LogEntry} (h : e.live = true) :
    maxNumber (es ++ [e]) = max (maxNumber es) e.number := by
  rw [maxNumber, largest_concat, raise]
  simp only [h, and_true]
  split
  · next hlt => exact (Nat.max_eq_right (Nat.le_of_lt hlt)).symm
  · next hlt => exact (Nat.max_eq_left (Nat.le_of_not_lt hlt)).symm

theorem number_le_maxNumber {es : List LogEntry} {e : LogEntry} (he : e ∈ es)
    (hlive : e.live = true) : e.number ≤ maxNumber es :=
  key_le_largest he hlive

/-- A number above all live ones is in no version. -/
theorem newest_eq_none_of_maxNumber_lt {es : List LogEntry} {n : Nat} (h : maxNumber es < n) :
    newest (LogEntry.isVersion n) es = none := by
  refine newest_eq_none.mpr fun e he => ?_
  rw [Bool.eq_false_iff]
  intro hver
  obtain ⟨hn, hlive⟩ := LogEntry.isVersion_iff.mp hver
  have := number_le_maxNumber he hlive
  omega

/-! ## A new version of an inode -/

section Version

variable {es : List LogEntry} {e new : LogEntry}

/-- The new version in the place of the old one. -/
def bump (new x : LogEntry) : LogEntry := if x.number = new.number then new else x

theorem bump_number (new x : LogEntry) : (bump new x).number = x.number := by
  unfold bump
  split
  · next h => exact h.symm
  · rfl

theorem newest_concat_version (hcur : newest (LogEntry.isVersion new.number) es = some e)
    (hlive : new.live = true) (n : Nat) :
    newest (LogEntry.isVersion n) (es ++ [new]) =
      (newest (LogEntry.isVersion n) es).map (bump new) := by
  rw [newest_concat]
  by_cases hn : new.number = n
  · subst hn
    have he := (LogEntry.isVersion_iff.mp (newest_sat hcur)).1
    rw [if_pos (LogEntry.isVersion_iff.mpr ⟨rfl, hlive⟩), hcur, Option.map_some, bump, if_pos he]
  · rw [if_neg fun h => hn (LogEntry.isVersion_iff.mp h).1]
    cases hx : newest (LogEntry.isVersion n) es with
    | none => rfl
    | some x =>
        have hxn := (LogEntry.isVersion_iff.mp (newest_sat hx)).1
        rw [Option.map_some, bump, if_neg fun h => hn (h.symm.trans hxn)]

theorem child_concat_version (hcur : newest (LogEntry.isVersion new.number) es = some e)
    (hlive : new.live = true) (d : LogEntry) (a : Name) :
    child (es ++ [new]) d a = (child es d a).map (bump new) := by
  unfold child
  split
  · rfl
  · exact newest_concat_version hcur hlive _

/-- Appending a version with the same children replaces the old version on all paths. -/
theorem resolve_concat_version (hcur : newest (LogEntry.isVersion new.number) es = some e)
    (hlive : new.live = true)
    (hchild : e.isDir = true → ∀ a, child (es ++ [new]) new a = child (es ++ [new]) e a)
    {p : Path} (hp : DirsTo es p) :
    resolve (es ++ [new]) p = (resolve es p).map (bump new) := by
  induction p using List.reverseRecOn with
  | nil => exact newest_concat_version hcur hlive 0
  | append_singleton q a ih =>
      obtain ⟨d, hd, hdir⟩ := hp.parent
      rw [resolve_concat, ih (hp.of_prefix (List.prefix_append q [a])), resolve_concat, hd,
        Option.map_some, Option.bind_some, Option.bind_some, ← child_concat_version hcur hlive]
      by_cases hn : d.number = new.number
      · -- The directory itself is the inode with the new version.
        have hde : d = e := (current_of_resolve hd).unique (current_of_newest hcur)
          (hn.trans (LogEntry.isVersion_iff.mp (newest_sat hcur)).1.symm)
        rw [bump, if_pos hn, hde]
        exact hchild (hde ▸ hdir) a
      · rw [bump, if_neg hn]

theorem bump_isDir (hcur : newest (LogEntry.isVersion new.number) es = some e)
    (hdir : new.isDir = e.isDir) {x : LogEntry} (hx : Current es x) :
    (bump new x).isDir = x.isDir := by
  unfold bump
  split
  · next hn =>
    have hxe : x = e := hx.unique (current_of_newest hcur)
      (hn.trans (LogEntry.isVersion_iff.mp (newest_sat hcur)).1.symm)
    rw [hdir, hxe]
  · rfl

/-- A new version changes no path's status as a path through directories. -/
theorem dirsTo_concat_version (hcur : newest (LogEntry.isVersion new.number) es = some e)
    (hlive : new.live = true) (hdir : new.isDir = e.isDir)
    (hchild : e.isDir = true → ∀ a, child (es ++ [new]) new a = child (es ++ [new]) e a)
    {p : Path} : DirsTo (es ++ [new]) p ↔ DirsTo es p := by
  induction p using List.reverseRecOn with
  | nil => exact ⟨fun _ => DirsTo.nil es, fun _ => DirsTo.nil _⟩
  | append_singleton q a ih =>
      constructor
      · intro hp
        have hq := ih.mp (hp.of_prefix (List.prefix_append q [a]))
        obtain ⟨d', hd', hdir'⟩ := hp.parent
        rw [resolve_concat_version hcur hlive hchild hq] at hd'
        obtain ⟨d, hd, rfl⟩ := Option.map_eq_some_iff.mp hd'
        rw [bump_isDir hcur hdir (current_of_resolve hd)] at hdir'
        exact hq.concat hd hdir'
      · intro hp
        have hq := hp.of_prefix (List.prefix_append q [a])
        obtain ⟨d, hd, hddir⟩ := hp.parent
        refine (ih.mpr hq).concat (e := bump new d) ?_ ?_
        · rw [resolve_concat_version hcur hlive hchild hq, hd]
          rfl
        · rwa [bump_isDir hcur hdir (current_of_resolve hd)]

end Version

/-! ## A new inode -/

section NewInode

variable {es : List LogEntry} {new d0 : LogEntry} {q0 : Path} {a0 : Name}

/-- The hypotheses under which an entry appears at the path `q0 ++ [a0]` and nowhere
else: its number is unused, it has no data, and exactly one name leads to it. -/
structure Appears (es : List LogEntry) (new : LogEntry) (q0 : Path) (a0 : Name) : Prop where
  unused : newest (LogEntry.isVersion new.number) es = none
  live : new.live = true
  empty : new.data = []
  notRoot : new.number ≠ 0
  dirs : DirsTo es (q0 ++ [a0])
  named : ∀ q d b, DirsTo es q → resolve es q = some d → d.isDir = true →
    lookupNumber (dentries d.data) b.bytes ≠ notFound →
    (lookupNumber (dentries d.data) b.bytes % 2 ^ 32 = new.number ↔ q ++ [b] = q0 ++ [a0])
  found : ∀ d, resolve es q0 = some d → lookupNumber (dentries d.data) a0.bytes ≠ notFound

theorem Appears.resolve_none (h : Appears es new q0 a0) : resolve es (q0 ++ [a0]) = none := by
  obtain ⟨d, hd, hdir⟩ := h.dirs.parent
  have hnum := (h.named q0 d a0 (h.dirs.of_prefix (List.prefix_append q0 [a0])) hd hdir
    (h.found d hd)).mpr rfl
  rw [resolve_concat, hd, Option.bind_some, child_of_found (h.found d hd), hnum, h.unused]

theorem Appears.child (h : Appears es new q0 a0) {q : Path} {d : LogEntry} (hq : DirsTo es q)
    (hd : resolve es q = some d) (hdir : d.isDir = true) (b : Name) :
    child (es ++ [new]) d b = if q ++ [b] = q0 ++ [a0] then some new else Wfs.child es d b := by
  by_cases hnf : lookupNumber (dentries d.data) b.bytes = notFound
  · have hne : q ++ [b] ≠ q0 ++ [a0] := by
      intro heq
      obtain ⟨rfl, hb⟩ := List.append_inj' heq rfl
      obtain rfl : b = a0 := by simpa using hb
      exact h.found d hd hnf
    rw [child_of_notFound hnf, if_neg hne, child_of_notFound hnf]
  · rw [child_of_found hnf, child_of_found hnf, newest_concat]
    have hiff := h.named q d b hq hd hdir hnf
    by_cases heq : q ++ [b] = q0 ++ [a0]
    · rw [if_pos heq, if_pos (LogEntry.isVersion_iff.mpr ⟨(hiff.mpr heq).symm, h.live⟩)]
    · rw [if_neg heq, if_neg fun hv => heq (hiff.mp (LogEntry.isVersion_iff.mp hv).1.symm)]

/-- The new inode appears at its path, nothing appears below it, and all else is kept. -/
theorem Appears.resolve (h : Appears es new q0 a0) {p : Path} (hp : DirsTo (es ++ [new]) p) :
    resolve (es ++ [new]) p =
        (if p = q0 ++ [a0] then some new else Wfs.resolve es p) ∧
      (DirsTo es p ∨ Wfs.resolve es p = none ∧ ∃ b, p = (q0 ++ [a0]) ++ [b]) := by
  induction p using List.reverseRecOn with
  | nil =>
      refine ⟨?_, Or.inl (DirsTo.nil es)⟩
      rw [resolve_nil, newest_concat, resolve_nil,
        if_neg fun hv => h.notRoot (LogEntry.isVersion_iff.mp hv).1, if_neg (by simp)]
  | append_singleton q b ih =>
      obtain ⟨d', hd', hdir'⟩ := hp.parent
      obtain ⟨hq, hside⟩ := ih (hp.of_prefix (List.prefix_append q [b]))
      by_cases hq0 : q = q0 ++ [a0]
      · -- Below the new entry there is nothing.
        subst hq0
        rw [if_pos rfl] at hq
        have hne : (q0 ++ [a0]) ++ [b] ≠ q0 ++ [a0] := by simp
        have hnone : Wfs.resolve es ((q0 ++ [a0]) ++ [b]) = none := by
          rw [resolve_concat, h.resolve_none]
          rfl
        refine ⟨?_, Or.inr ⟨hnone, b, rfl⟩⟩
        rw [resolve_concat, hq, Option.bind_some, child_of_data_nil h.empty, if_neg hne, hnone]
      · rw [if_neg hq0, hd'] at hq
        have hdirs : DirsTo es q := by
          rcases hside with hside | ⟨hnone, _⟩
          · exact hside
          · rw [hnone] at hq
            cases hq
        refine ⟨?_, Or.inl (hdirs.concat hq.symm hdir')⟩
        rw [resolve_concat, hd', Option.bind_some, h.child hdirs hq.symm hdir', resolve_concat,
          ← hq, Option.bind_some]

/-- Paths through directories stay such paths. -/
theorem Appears.dirsTo (h : Appears es new q0 a0) {p : Path} (hp : DirsTo es p) :
    DirsTo (es ++ [new]) p := by
  induction p using List.reverseRecOn with
  | nil => exact DirsTo.nil _
  | append_singleton q b ih =>
      have hq := ih (hp.of_prefix (List.prefix_append q [b]))
      obtain ⟨d, hd, hdir⟩ := hp.parent
      have hne : q ≠ q0 ++ [a0] := by
        rintro rfl
        rw [h.resolve_none] at hd
        cases hd
      refine hq.concat ?_ hdir
      rw [(h.resolve hq).1, if_neg hne, hd]

end NewInode

end OSProjects.Wfs
