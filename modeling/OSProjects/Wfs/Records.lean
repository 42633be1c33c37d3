import OSProjects.Wfs.Atomicity

/-!
# The records of reachable directories

A record is made for a number above all that are live, so a directory names only numbers
above its own, and it names no two entries alike. Both hold after every run.
-/

namespace OSProjects.Wfs

open ByteMemory VersionedLog CString WfsM StepSystem

/-- The records of a directory lead away from it, and their names are distinct. -/
structure Listed (e : LogEntry) : Prop where
  ascending : ∀ x ∈ dentries e.data, e.number < x.inodeNumber
  named : ∃ names : List Name, (dentries e.data).map Dentry.name = components names ∧ names.Nodup

/-- Every version of every directory is listed. -/
def AllListed (es : List LogEntry) : Prop := ∀ e ∈ es, e.isDir = true → Listed e

theorem listed_of_data_nil {e : LogEntry} (h : e.data = []) : Listed e := by
  refine ⟨fun x hx => ?_, [], ?_, List.nodup_nil⟩
  · rw [h] at hx
    cases hx
  · rw [h]
    rfl

/-- A name with a record is found unless its number is the answer for a missing name. -/
theorem lookupNumber_ne_of_mem {ds : List Dentry} {name : List UInt8}
    (hds : ∀ d ∈ ds, d.inodeNumber ≠ notFound) (hname : name ∈ ds.map Dentry.name) :
    lookupNumber ds name ≠ notFound := by
  obtain ⟨d, hd, rfl⟩ := List.mem_map.mp hname
  rw [lookupNumber]
  cases hfind : ds.find? (fun x => x.name = d.name) with
  | none => exact absurd (List.find?_eq_none.mp hfind d hd) (by simp)
  | some x => exact hds x (List.mem_of_find?_eq_some hfind)

section Steps

variable {es : List LogEntry}

theorem Recorded.ne_notFound (h : Recorded es) {e : LogEntry} (he : e ∈ es)
    (hdir : e.isDir = true) : ∀ x ∈ dentries e.data, x.inodeNumber ≠ notFound := by
  intro x hx
  have hword := h.word e he hdir x hx
  rw [notFound]
  omega

theorem Creates.listed {q : Path} {name : Name} {d newP newF : LogEntry}
    (hc : Creates es q name d newP newF) (hrec : Recorded es) (h : AllListed es) :
    AllListed (es ++ [newP] ++ [newF]) := by
  intro e he hdir
  simp only [List.append_assoc, List.mem_append, List.mem_singleton] at he
  obtain he | rfl | rfl := he
  · exact h e he hdir
  · have hd := mem_of_resolve hc.parent
    obtain ⟨hasc, names, hnames, hnodup⟩ := h d hd hc.isDir
    refine ⟨fun x hx => ?_, names ++ [name], ?_, ?_⟩
    · rw [hc.parent_number]
      rw [hc.records] at hx
      obtain hx | hx := List.mem_append.mp hx
      · exact hasc x hx
      · obtain rfl := List.mem_singleton.mp hx
        exact Nat.lt_succ_of_le (number_le_maxNumber hd (live_of_resolve hc.parent))
    · rw [hc.records, List.map_append, hnames, components_concat]
      rfl
    · refine List.nodup_append.mpr ⟨hnodup, List.pairwise_singleton _ _, ?_⟩
      intro a ha b hb
      obtain rfl := List.mem_singleton.mp hb
      rintro rfl
      refine lookupNumber_ne_of_mem (hrec.ne_notFound hd hc.isDir) ?_ hc.absent
      rw [hnames]
      exact List.mem_map_of_mem ha
  · exact listed_of_data_nil hc.empty

theorem Rewrites.listed {p : Path} {e new : LogEntry} (hr : Rewrites es p e new)
    (h : AllListed es) : AllListed (es ++ [new]) := by
  intro f hf hdir
  obtain hf | hf := List.mem_append.mp hf
  · exact h f hf hdir
  · obtain rfl := List.mem_singleton.mp hf
    rw [hr.kind, hr.file] at hdir
    cases hdir

theorem Removes.listed {p : Path} {e : LogEntry} (_ : Removes es p e) (h : AllListed es) :
    AllListed (markDeleted e.offset es) := by
  intro f hf hdir
  obtain ⟨g, hg, rfl⟩ := List.mem_map.mp hf
  split at hdir
  case isTrue hoff =>
    rw [if_pos hoff]
    exact ⟨(h g hg hdir).ascending, (h g hg hdir).named⟩
  case isFalse hoff =>
    rw [if_neg hoff]
    exact h g hg hdir

theorem AllListed.effect {img img' : Image} {es' : List LogEntry} {c : Call} {r : Int}
    (h : AllListed es) (hrec : Recorded es) (hwf : WellFormed img es) (hdirs : DirsTo es c.path)
    (heffect : Effect img es c r img' es') : AllListed es' := by
  rcases heffect.log_cases hwf hrec.bound hdirs with
    rfl | ⟨q, name, d, newP, newF, hc, rfl⟩ | ⟨p, e, new, hw, rfl⟩ | ⟨p, e, -, hr, rfl⟩
  · exact h
  · exact hc.listed hrec h
  · exact hw.listed h
  · exact hr.listed h

end Steps

/-- The records of every reachable image. -/
theorem Run.listed {img0 img : Image} {evs : List Event} (hrun : Run Step img0 evs img)
    (h0 : Fresh img0) : ∃ es, WellFormed img es ∧ Recorded es ∧ AllListed es := by
  have hif : Run (StepIf fun _ _ => True) img0 evs img :=
    hrun.mono fun _ _ _ hs => ⟨hs, trivial⟩
  refine Run.log_invariant (P := fun _ _ es => Recorded es ∧ AllListed es) hif h0
    (fun t _ => ⟨recorded_rootEntry t, fun e he _ => ?_⟩)
    fun _ _ _ _ _ _ _ hwf h _ hdirs heffect _ =>
      ⟨h.1.effect hwf hdirs heffect, h.2.effect h.1 hwf hdirs heffect⟩
  obtain rfl : e = rootEntry t := by simpa using he
  exact listed_of_data_nil rfl

/-! ## Numbers along a path -/

section Paths

variable {es : List LogEntry}

/-- The number of a child is that of its record, which is above the number of the
directory. -/
theorem AllListed.number_lt_child (h : AllListed es) (hrec : Recorded es) {e f : LogEntry}
    (he : e ∈ es) (hdir : e.isDir = true) {a : Name} (hf : child es e a = some f) :
    e.number < f.number := by
  unfold child at hf
  split at hf
  · cases hf
  case isFalse hfound =>
    obtain ⟨x, hx, -, hnum⟩ := exists_of_lookupNumber hfound
    have hversion := (LogEntry.isVersion_iff.mp (newest_sat hf)).1
    rw [← hnum, Nat.mod_eq_of_lt (hrec.word e he hdir x hx)] at hversion
    rw [hversion]
    exact (h e he hdir).ascending x hx

/-- Further down a path the numbers are greater. -/
theorem AllListed.number_lt (h : AllListed es) (hrec : Recorded es) {q r : Path} {e f : LogEntry}
    (hdirs : DirsTo es (q ++ r)) (he : resolve es q = some e) (hf : resolve es (q ++ r) = some f)
    (hr : r ≠ []) : e.number < f.number := by
  induction r using List.reverseRecOn generalizing f with
  | nil => exact absurd rfl hr
  | append_singleton r a ih =>
      rw [← List.append_assoc] at hdirs hf
      obtain ⟨d, hd, hdir⟩ := hdirs.parent
      rw [resolve_concat, hd, Option.bind_some] at hf
      have hlast := h.number_lt_child hrec (mem_of_resolve hd) hdir hf
      by_cases hnil : r = []
      · subst hnil
        rw [List.append_nil, he] at hd
        obtain rfl := Option.some.inj hd
        exact hlast
      · exact (ih (hdirs.of_prefix (List.prefix_append _ _)) hd hnil).trans hlast

end Paths

end OSProjects.Wfs
