import OSProjects.Wfs.Uniqueness

/-!
# The abstract directory tree and the runs that refine it

What the server is for: a map from paths to nodes. Without `wfs_unlink` every
lookup in the log agrees with the map.
-/

namespace OSProjects.Wfs

open ByteMemory VersionedLog CString WfsM StepSystem

/-! ## The tree -/

/-- A file or a directory: the number and the mode given at its creation, and the bytes
that its writes have produced. -/
structure Node where
  number : Nat
  mode : Nat
  data : List UInt8

/-- The nodes by path, and how many have been created. -/
structure Tree where
  node : Path → Option Node
  count : Nat

namespace Tree

/-- The tree of a new file system. -/
def empty : Tree := ⟨Function.update (fun _ => none) [] (some ⟨0, sIFDIR, []⟩), 0⟩

/-- The tree with another value at one path. -/
def put (T : Tree) (p : Path) (n : Option Node) : Tree :=
  { T with node := Function.update T.node p n }

/-- A new node with the next number. -/
def create (T : Tree) (p : Path) (mode : Nat) : Tree :=
  { T.put p (some ⟨T.count + 1, mode, []⟩) with count := T.count + 1 }

/-- What a request means for the tree. -/
def step (T : Tree) : Call → Tree
  | .create kind dir name mode _ _ =>
      match T.node (dir ++ [name]) with
      | some _ => T
      | none => T.create (dir ++ [name]) (kind.newMode mode % 2 ^ 32)
  | .write path buffer writeOffset _ =>
      match T.node path with
      | none => T
      | some n =>
          if writeOffset < 0 then T
          else T.put path
            (some { n with data := overlay (fun _ => 0) n.data writeOffset.toNat buffer })
  | .unlink path =>
      match T.node path with
      | none => T
      | some n => if isDirMode n.mode then T else T.put path none

/-- The tree after a list of events. -/
def after (evs : List Event) : Tree := evs.foldl (fun T ev => T.step ev.1) empty

@[simp] theorem after_concat (evs : List Event) (ev : Event) :
    after (evs ++ [ev]) = (after evs).step ev.1 := by
  simp [after]

/-- Every proper prefix of the path is a directory of the tree. -/
def DirsTo (T : Tree) (p : Path) : Prop :=
  ∀ q, q <+: p → q ≠ p → ∃ n, T.node q = some n ∧ isDirMode n.mode = true

end Tree

/-- The entry and the node agree on the number, the mode and the size of a file. -/
structure Shows (e : LogEntry) (n : Node) : Prop where
  number : e.number = n.number
  mode : e.inode .mode = n.mode
  size : e.isReg = true → e.inode .size = n.data.length

/-- The log represents the tree; all its entries are live and every record of a current
directory has an entry. -/
structure Represents (es : List LogEntry) (T : Tree) : Prop extends FreshNumbers es where
  live : ∀ e ∈ es, e.live = true
  backed : ∀ d, Current es d → d.isDir = true → ∀ x ∈ dentries d.data,
    ∃ f ∈ es, f.number = x.inodeNumber
  count : T.count = maxNumber es
  dirs : ∀ p n, T.node p = some n → DirsTo es p
  absent : ∀ p, DirsTo es p → resolve es p = none → T.node p = none
  present : ∀ p e, DirsTo es p → resolve es p = some e → ∃ n, T.node p = some n ∧ Shows e n

namespace Represents

variable {es : List LogEntry} {T : Tree}

theorem node_isDir (h : Represents es T) {p : Path} (hp : DirsTo es p) :
    (∃ n, T.node p = some n ∧ isDirMode n.mode = true) ↔
      ∃ e, resolve es p = some e ∧ e.isDir = true := by
  constructor
  · rintro ⟨n, hn, hdir⟩
    cases he : resolve es p with
    | none =>
        rw [h.absent p hp he] at hn
        cases hn
    | some e =>
        obtain ⟨n', hn', hshow⟩ := h.present p e hp he
        rw [hn] at hn'
        obtain rfl := Option.some.inj hn'
        refine ⟨e, rfl, ?_⟩
        rwa [LogEntry.isDir, hshow.mode]
  · rintro ⟨e, he, hdir⟩
    obtain ⟨n, hn, hshow⟩ := h.present p e hp he
    exact ⟨n, hn, by rwa [← hshow.mode]⟩

/-- The paths through directories are the same in the log and in the tree. -/
theorem dirsTo_iff (h : Represents es T) {p : Path} : T.DirsTo p ↔ DirsTo es p := by
  constructor
  · intro hp
    induction p using List.reverseRecOn with
    | nil => exact DirsTo.nil es
    | append_singleton q a ih =>
        have hq : DirsTo es q := ih fun r hr hne => hp r (hr.trans (List.prefix_append q [a])) (by
          rintro rfl
          have := hr.length_le
          simp at this)
        obtain ⟨e, he, hdir⟩ :=
          (h.node_isDir hq).mp (hp q (List.prefix_append q [a]) (by simp))
        exact hq.concat he hdir
  · intro hp q hq hne
    exact (h.node_isDir (hp.of_prefix hq)).mpr (hp q hq hne)

/-- A name that a directory holds resolves. -/
theorem resolve_of_lookup (h : Represents es T) {q : Path} {d : LogEntry}
    (hd : resolve es q = some d) (hdir : d.isDir = true) {a : Name}
    (ha : lookupNumber (dentries d.data) a.bytes ≠ notFound) (hword : maxNumber es < 2 ^ 32) :
    ∃ e, resolve es (q ++ [a]) = some e := by
  obtain ⟨x, hx, _, hnum⟩ := exists_of_lookupNumber ha
  obtain ⟨f, hf, hfx⟩ := h.backed d (current_of_resolve hd) hdir x hx
  have hle := number_le_maxNumber hf (h.live f hf)
  rw [resolve_concat, hd, Option.bind_some, child_of_found ha, ← hnum, ← hfx,
    Nat.mod_eq_of_lt (by omega)]
  cases he : newest (LogEntry.isVersion f.number) es with
  | some e => exact ⟨e, rfl⟩
  | none =>
      have hver := newest_eq_none.mp he f hf
      rw [LogEntry.isVersion_iff.mpr ⟨rfl, h.live f hf⟩] at hver
      cases hver

/-- The new disk represents the new tree. -/
theorem rootEntry (t : Nat) : Represents [rootEntry t] Tree.empty := by
  refine ⟨freshNumbers_rootEntry t, ?_, ?_, rfl, ?_, ?_, ?_⟩
  · intro e he
    obtain rfl : e = Wfs.rootEntry t := by simpa using he
    rfl
  · intro d hd _ x hx
    obtain rfl : d = Wfs.rootEntry t := by simpa using hd.mem
    simp [Wfs.rootEntry] at hx
  · intro p n hn
    by_cases hp : p = []
    · exact hp ▸ DirsTo.nil _
    · simp [Tree.empty, hp] at hn
  · intro p hp hnone
    by_cases hp0 : p = []
    · subst hp0
      cases hnone
    · simp [Tree.empty, hp0]
  · intro p e _ he
    obtain ⟨rfl, rfl⟩ := resolve_rootEntry he
    exact ⟨⟨0, sIFDIR, []⟩, by simp [Tree.empty], rfl, rfl, fun _ => rfl⟩

/-- A creation at a path that does not resolve. -/
theorem created (h : Represents es T) {q : Path} {name : Name} {d newP newF : LogEntry}
    (hc : Creates es q name d newP newF) {mode : Nat} (hmode : newF.inode .mode = mode)
    (hsize : newF.inode .size = 0) :
    Represents (es ++ [newP] ++ [newF]) (T.create (q ++ [name]) mode) := by
  have hes := h.toFreshNumbers
  have hdirs : DirsTo es (q ++ [name]) := hc.dirs.concat hc.parent hc.isDir
  have hnone : resolve es (q ++ [name]) = none := by
    rw [resolve_concat, hc.parent, Option.bind_some, child_of_notFound hc.absent]
  have hput : ∀ p, p ≠ q ++ [name] → (T.create (q ++ [name]) mode).node p = T.node p :=
    fun p hp => Function.update_of_ne hp _ _
  have hself : (T.create (q ++ [name]) mode).node (q ++ [name]) = some ⟨T.count + 1, mode, []⟩ :=
    Function.update_self _ _ _
  refine ⟨hc.freshNumbers hes, ?_, ?_, ?_, ?_, ?_, ?_⟩
  · intro e he
    simp only [List.append_assoc, List.mem_append, List.mem_singleton] at he
    rcases he with he | rfl | rfl
    · exact h.live e he
    · exact hc.parent_live
    · exact hc.live
  · intro e he hdir x hx
    have hlift : (∃ f ∈ es, f.number = x.inodeNumber) →
        ∃ f ∈ es ++ [newP] ++ [newF], f.number = x.inodeNumber := by
      rintro ⟨f, hf, hn⟩
      exact ⟨f, by simp [hf], hn⟩
    rcases current_concat he with rfl | he
    · rw [hc.empty] at hx
      cases hx
    rcases current_concat he with rfl | he
    · rw [hc.records] at hx
      rcases List.mem_append.mp hx with hx | hx
      · exact hlift (h.backed d (current_of_resolve hc.parent) hc.isDir x hx)
      · obtain rfl : x = ⟨name.bytes, maxNumber es + 1⟩ := by simpa using hx
        exact ⟨newF, by simp, hc.number⟩
    · exact hlift (h.backed e he hdir x hx)
  · rw [hc.maxNumber_both, ← h.count]
    rfl
  · intro p n hn
    by_cases hp : p = q ++ [name]
    · exact hc.dirsTo_both hes (hp ▸ hdirs)
    · rw [hput p hp] at hn
      exact hc.dirsTo_both hes (h.dirs p n hn)
  · intro p hp he
    rw [hc.resolve_both hes hp] at he
    by_cases hpq : p = q ++ [name]
    · rw [if_pos hpq] at he
      cases he
    rw [if_neg hpq, Option.map_eq_none_iff] at he
    rw [hput p hpq]
    rcases hc.dirsTo_of_both hes hp with hold | ⟨_, b, rfl⟩
    · exact h.absent p hold he
    · -- A node below the new path would make the new path resolve already.
      cases hn : T.node ((q ++ [name]) ++ [b]) with
      | none => rfl
      | some n =>
          obtain ⟨e, he', _⟩ := (h.dirs _ n hn).parent
          rw [hnone] at he'
          cases he'
  · intro p e hp he
    rw [hc.resolve_both hes hp] at he
    by_cases hpq : p = q ++ [name]
    · rw [if_pos hpq] at he
      obtain rfl := Option.some.inj he
      subst hpq
      refine ⟨_, hself, ?_, hmode, fun _ => hsize⟩
      rw [hc.number, h.count]
    rw [if_neg hpq] at he
    obtain ⟨x, hx, rfl⟩ := Option.map_eq_some_iff.mp he
    rcases hc.dirsTo_of_both hes hp with hold | ⟨hnone', _⟩
    · obtain ⟨n, hn, hshow⟩ := h.present p x hold hx
      refine ⟨n, by rw [hput p hpq, hn], ?_⟩
      by_cases hnum : x.number = newP.number
      · -- The directory's new version has its number and mode, and is no file.
        have hxd : x = d := (current_of_resolve hx).unique (current_of_resolve hc.parent)
          (hnum.trans hc.parent_number)
        rw [bump, if_pos hnum]
        refine ⟨hnum ▸ hshow.number, ?_, fun hreg => ?_⟩
        · rw [← hshow.mode, hxd, hc.inode]
          rfl
        · have hdir := hc.isDir
          rw [← hc.parent_isDir] at hdir
          simp only [LogEntry.isReg, isRegMode, LogEntry.isDir, isDirMode, beq_iff_eq] at hreg hdir
          rw [hreg] at hdir
          exact absurd hdir (by decide)
      · rwa [bump, if_neg hnum]
    · rw [hnone'] at hx
      cases hx

/-- A write to a file. -/
theorem written (h : Represents es T) {p : Path} {e new : LogEntry} (hr : Rewrites es p e new)
    (hp : DirsTo es p) {n : Node} (hn : T.node p = some n) {data : List UInt8}
    (hmode : new.inode .mode = e.inode .mode) (hsize : new.inode .size = data.length) :
    Represents (es ++ [new]) (T.put p (some { n with data := data })) := by
  have hes := h.toFreshNumbers
  have hput : ∀ q, q ≠ p → (T.put p (some { n with data := data })).node q = T.node q :=
    fun q hq => Function.update_of_ne hq _ _
  have hself : (T.put p (some { n with data := data })).node p = some { n with data := data } :=
    Function.update_self _ _ _
  refine ⟨hr.freshNumbers hes, ?_, ?_, ?_, ?_, ?_, ?_⟩
  · intro f hf
    rcases List.mem_append.mp hf with hf | hf
    · exact h.live f hf
    · obtain rfl : f = new := by simpa using hf
      exact hr.live
  · intro d hd hdir x hx
    rcases current_concat hd with rfl | hd
    · rw [hr.kind, hr.file] at hdir
      cases hdir
    · obtain ⟨f, hf, hfx⟩ := h.backed d hd hdir x hx
      exact ⟨f, List.mem_append_left _ hf, hfx⟩
  · rw [hr.maxNumber_new, ← h.count]
    rfl
  · intro q m hm
    rw [hr.dirsTo_new]
    by_cases hq : q = p
    · exact hq ▸ hp
    · rw [hput q hq] at hm
      exact h.dirs q m hm
  · intro q hq hnone
    rw [hr.dirsTo_new] at hq
    rw [hr.resolve_new hq, Option.map_eq_none_iff] at hnone
    by_cases hqp : q = p
    · subst hqp
      rw [hr.resolves] at hnone
      cases hnone
    · rw [hput q hqp]
      exact h.absent q hq hnone
  · intro q f hq hf
    rw [hr.dirsTo_new] at hq
    rw [hr.resolve_new hq] at hf
    obtain ⟨x, hx, rfl⟩ := Option.map_eq_some_iff.mp hf
    obtain ⟨m, hm, hshow⟩ := h.present q x hq hx
    by_cases hqp : q = p
    · subst hqp
      rw [hr.resolves] at hx
      obtain rfl := Option.some.inj hx
      rw [hn] at hm
      obtain rfl := Option.some.inj hm
      rw [bump, if_pos hr.number.symm]
      exact ⟨_, hself, hr.number.trans hshow.number, hmode.trans hshow.mode, fun _ => hsize⟩
    · have hnum : x.number ≠ new.number := fun hnum =>
        hqp (hes.injective q p x e hq hp hx hr.resolves (hnum.trans hr.number))
      refine ⟨m, by rw [hput q hqp, hm], ?_⟩
      rwa [bump, if_neg hnum]

end Represents

end OSProjects.Wfs
