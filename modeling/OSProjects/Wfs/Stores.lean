import OSProjects.Wfs.Execution

/-!
# The stores of a call in program order

Each append stores behind `sb->head` only, and then assigns `sb->head` as its last
store.
-/

namespace OSProjects.Wfs

open ByteMemory VersionedLog CString WfsM StepSystem

/-- Every store lies behind `hd` and inside the mapping. -/
def StoresBehind {α : Type} (hd : Nat) (p : WfsM α) : Prop :=
  ∀ img r, p img = some r → ∀ s ∈ r.2, hd ≤ s.offset ∧ s.stop ≤ img.size

/-- Every store but the last lies behind `hd`; the last one assigns `sb->head`. -/
def Publishes (hd size : Nat) (stores : List Store) : Prop :=
  ∃ body v, stores = body ++ [⟨4, wordBytes 4 v⟩] ∧ sizeofSb ≤ size ∧
    ∀ s ∈ body, hd ≤ s.offset ∧ s.stop ≤ size

namespace StoresBehind

variable {α β : Type} {hd : Nat}

theorem of_readOnly {p : WfsM α} (hp : ReadOnly p) : StoresBehind hd p := by
  intro img r h s hs
  rw [hp img r h] at hs
  cases hs

theorem bind {p : WfsM α} {f : α → WfsM β} (hp : StoresBehind hd p)
    (hf : ∀ a, StoresBehind hd (f a)) : StoresBehind hd (p >>= f) := by
  intro img r h s hs
  obtain ⟨a, done, b, more, ha, hb, rfl⟩ := of_bind_eq_some h
  rcases List.mem_append.mp hs with hs | hs
  · exact hp img _ ha s hs
  · exact hf a _ _ hb s hs

theorem store {off : Nat} {bytes : List UInt8} (h : hd ≤ off) :
    StoresBehind hd (WfsM.store off bytes) := by
  intro img r hr s hs
  unfold WfsM.store at hr
  split at hr
  · next hin =>
    cases hr
    obtain rfl : s = ⟨off, bytes⟩ := by simpa using hs
    exact ⟨h, hin⟩
  · cases hr

theorem memcpy {dst src n : Nat} (h : hd ≤ dst) : StoresBehind hd (WfsM.memcpy dst src n) := by
  intro img r hr s hs
  unfold WfsM.memcpy at hr
  split at hr
  · next hin =>
    cases hr
    obtain rfl : s = ⟨dst, readBytes img.byte src n⟩ := by simpa using hs
    exact ⟨h, by simpa [Store.stop] using hin.2⟩
  · cases hr

theorem storeField {log v : Nat} {f : InodeField} (h : hd ≤ log) :
    StoresBehind hd (storeField log f v) :=
  store (Nat.le_add_right_of_le h)

theorem storeFields {log : Nat} (h : hd ≤ log) (fs : List (InodeField × Nat)) :
    StoresBehind hd (storeFields log fs) := by
  induction fs with
  | nil => exact of_readOnly (ReadOnly.pure ())
  | cons p rest ih => exact (storeField h).bind fun _ => ih

theorem growSize {log old stop : Nat} (h : hd ≤ log) : StoresBehind hd (growSize log old stop) := by
  unfold Wfs.growSize
  split
  · exact storeField h
  · exact of_readOnly (ReadOnly.pure ())

end StoresBehind

/-! ## The three appends -/

theorem readOnly_loadHead : ReadOnly loadHead := ReadOnly.load 4 4

theorem readOnly_loadField (log : Nat) (f : InodeField) : ReadOnly (loadField log f) :=
  ReadOnly.load 4 _

/-- A computation that ends with an assignment of `sb->head`. -/
def Publisher (hd : Nat) (p : WfsM Unit) : Prop :=
  ∀ img r, p img = some r → Publishes hd img.size r.2

theorem publisher_storeHead (hd v : Nat) : Publisher hd (storeHead v) := by
  intro img r h
  have hin := StoresBehind.store (Nat.zero_le _) img r h
  unfold storeHead storeWord store at h
  split at h
  · cases h
    have hlast := (hin _ (List.mem_singleton_self _)).2
    simp only [Store.stop, length_wordBytes] at hlast
    exact ⟨[], v, rfl, hlast, by simp⟩
  · cases h

theorem StoresBehind.publisher {α : Type} {hd : Nat} {p : WfsM α} {f : α → WfsM Unit}
    (hp : StoresBehind hd p) (hf : ∀ a, Publisher hd (f a)) : Publisher hd (p >>= f) := by
  intro img r h
  obtain ⟨a, done, b, more, ha, hb, rfl⟩ := of_bind_eq_some h
  obtain ⟨body, v, rfl, hsize, hbody⟩ := hf a _ _ hb
  refine ⟨done ++ body, v, (List.append_assoc _ _ _).symm, hsize, fun s hs => ?_⟩
  rcases List.mem_append.mp hs with hs | hs
  · exact hp img _ ha s hs
  · exact hbody s hs

/-- An append begins with reading the head. -/
theorem publishes_of_loadHead {f : Nat → WfsM Unit} (hf : ∀ hd, Publisher hd (f hd)) {img : Image}
    {r : Unit × List Store} (h : (loadHead >>= f) img = some r) :
    Publishes img.head img.size r.2 := by
  obtain ⟨hd, hhd, hr⟩ := readOnly_loadHead.eq_of_bind h
  obtain ⟨⟨a, done⟩, hload, heq⟩ := Option.map_eq_some_iff.mp hhd
  unfold loadHead load at hload
  split at hload
  · cases hload
    cases heq
    exact hf _ img r hr
  · cases hload

theorem publishes_appendParent {parentLog num : Nat} {name : List UInt8} {img : Image}
    {r : Unit × List Store} (h : appendParent parentLog num name img = some r) :
    Publishes img.head img.size r.2 := by
  refine publishes_of_loadHead (fun hd => ?_) h
  have hle : ∀ n, hd ≤ hd + sizeofInode + n := fun n => by omega
  refine (StoresBehind.of_readOnly (readOnly_loadField _ _)).publisher fun _ => ?_
  refine (StoresBehind.memcpy (Nat.le_refl hd)).publisher fun _ => ?_
  refine (StoresBehind.of_readOnly (readOnly_loadField _ _)).publisher fun _ => ?_
  refine (StoresBehind.store (Nat.le_add_right_of_le (hle _))).publisher fun _ => ?_
  refine (StoresBehind.store (hle _)).publisher fun _ => ?_
  refine (StoresBehind.of_readOnly (readOnly_loadField _ _)).publisher fun _ => ?_
  refine (StoresBehind.storeField (Nat.le_refl hd)).publisher fun _ => ?_
  refine (StoresBehind.of_readOnly readOnly_loadHead).publisher fun _ => ?_
  refine (StoresBehind.of_readOnly (readOnly_loadField _ _)).publisher fun _ => ?_
  exact publisher_storeHead hd _

theorem publishes_appendInode {fields : List (InodeField × Nat)} {img : Image}
    {r : Unit × List Store} (h : appendInode fields img = some r) :
    Publishes img.head img.size r.2 := by
  refine publishes_of_loadHead (fun hd => ?_) h
  refine (StoresBehind.storeFields (Nat.le_refl hd) fields).publisher fun _ => ?_
  refine (StoresBehind.of_readOnly readOnly_loadHead).publisher fun _ => ?_
  exact publisher_storeHead hd _

theorem publishes_appendVersion {cur writeOffset t : Nat} {buffer : List UInt8} {img : Image}
    {r : Unit × List Store} (h : appendVersion cur buffer writeOffset t img = some r) :
    Publishes img.head img.size r.2 := by
  refine publishes_of_loadHead (fun hd => ?_) h
  refine (StoresBehind.of_readOnly (readOnly_loadField _ _)).publisher fun _ => ?_
  refine (StoresBehind.memcpy (Nat.le_refl hd)).publisher fun _ => ?_
  refine (StoresBehind.of_readOnly (readOnly_loadField _ _)).publisher fun _ => ?_
  refine (StoresBehind.growSize (Nat.le_refl hd)).publisher fun _ => ?_
  refine (StoresBehind.store (by omega)).publisher fun _ => ?_
  refine (StoresBehind.storeField (Nat.le_refl hd)).publisher fun _ => ?_
  refine (StoresBehind.of_readOnly readOnly_loadHead).publisher fun _ => ?_
  refine (StoresBehind.of_readOnly (readOnly_loadField _ _)).publisher fun _ => ?_
  exact publisher_storeHead hd _

theorem Publishes.inside {hd size : Nat} {stores : List Store} (h : Publishes hd size stores) :
    ∀ s ∈ stores, s.stop ≤ size := by
  obtain ⟨body, v, rfl, hsize, hbody⟩ := h
  intro s hs
  rcases List.mem_append.mp hs with hs | hs
  · exact (hbody s hs).2
  · obtain rfl : s = ⟨4, wordBytes 4 v⟩ := by simpa using hs
    simpa [Store.stop, sizeofSb] using hsize

theorem Publishes.ne_nil {hd size : Nat} {stores : List Store} (h : Publishes hd size stores) :
    stores ≠ [] := by
  obtain ⟨body, v, rfl, -, -⟩ := h
  simp

/-! ## The handlers -/

theorem run_eq_of_exec {α : Type} {p : WfsM α} {img img' : Image} {a : α}
    (h : exec p img = some (a, img')) : ∃ stores, p img = some (a, stores) ∧
      img.apply stores = img' := by
  obtain ⟨⟨b, stores⟩, hb, heq⟩ := Option.map_eq_some_iff.mp h
  cases heq
  exact ⟨stores, hb, rfl⟩

theorem exec_of_run {α : Type} {p : WfsM α} {img : Image} {r : α × List Store}
    (h : p img = some r) : exec p img = some (r.1, img.apply r.2) := by
  simp [exec, h]

/-- A creation stores nothing, or it publishes twice. -/
theorem stores_createEntry {path : List UInt8} {fields : Nat → List (InodeField × Nat)}
    {img : Image} {r : Int × List Store} (h : createEntry path fields img = some r) :
    r = (eEXIST, []) ∨ ∃ parentLog n first second,
      exec (findParentLogPath path) img = some (some parentLog, img) ∧
      exec maxInodeNum img = some (n, img) ∧
      exec (getInodeNumber (fileName path) (some parentLog)) img = some (notFound, img) ∧
      appendParent parentLog ((n + 1) % 2 ^ 32) (fileName path) img = some ((), first) ∧
      appendInode (fields ((n + 1) % 2 ^ 32)) (img.apply first) = some ((), second) ∧
      r = (0, first ++ second) ∧ Publishes img.head img.size first ∧
      Publishes (img.apply first).head img.size second := by
  obtain ⟨parentLog, hparent, h⟩ := (readOnly_findParentLogPath path).eq_of_bind h
  obtain ⟨num, hnum, h⟩ := readOnly_maxInodeNum.eq_of_bind h
  obtain ⟨found, hfound, h⟩ := (readOnly_getInodeNumber _ _).eq_of_bind h
  split at h
  · cases h
    exact Or.inl rfl
  · next hnew =>
    cases parentLog with
    | none => cases h
    | some parentLog =>
        obtain ⟨_, first, _, rest, hfirst, hrest, hr⟩ := of_bind_eq_some h
        obtain ⟨_, second, _, tail, hsecond, hdone, heq⟩ := of_bind_eq_some hrest
        cases hdone
        cases heq
        subst hr
        rw [not_not.mp hnew] at hfound
        exact Or.inr ⟨parentLog, num, first, second, hparent, hnum, hfound, hfirst, hsecond,
          by simp, publishes_appendParent hfirst, publishes_appendInode hsecond⟩

/-- A write stores nothing, or it publishes once. -/
theorem stores_myWrite {path buffer : List UInt8} {writeOffset : Int} {t : Nat} {img : Image}
    {r : Int × List Store} (h : myWrite path buffer writeOffset t img = some r) :
    r = (0, []) ∨ r = (eNOENT, []) ∨
      r.1 = toInt buffer.length ∧ Publishes img.head img.size r.2 ∧
        ∃ cur, exec (pathToLogEntry path) img = some (some cur, img) ∧ 0 ≤ writeOffset ∧
          appendVersion cur buffer writeOffset.toNat t img = some ((), r.2) := by
  unfold myWrite at h
  split at h
  case isTrue =>
    cases h
    exact Or.inl rfl
  case isFalse hpos =>
    obtain ⟨log, hlog, h⟩ := (readOnly_pathToLogEntry path).eq_of_bind h
    cases log with
    | none =>
        cases h
        exact Or.inr (Or.inl rfl)
    | some cur =>
        obtain ⟨_, stores, _, rest, happend, hdone, hr⟩ := of_bind_eq_some h
        cases hdone
        subst hr
        rw [List.append_nil]
        exact Or.inr (Or.inr ⟨rfl, publishes_appendVersion happend, cur, hlog, not_lt.mp hpos,
          happend⟩)

/-- `wfs_unlink` stores nothing, or the deleted word of the entry. -/
theorem stores_wfsUnlink {path : List UInt8} {img : Image} {r : Int × List Store}
    (h : wfsUnlink path img = some r) :
    r = (eNOENT, []) ∨ r = (eISDIR, []) ∨ ∃ log, exec (pathToLogEntry path) img =
      some (some log, img) ∧ r = (0, [⟨log + InodeField.offset .deleted, wordBytes 4 1⟩]) := by
  obtain ⟨log, hlog, h⟩ := (readOnly_pathToLogEntry path).eq_of_bind h
  cases log with
  | none =>
      cases h
      exact Or.inl rfl
  | some log =>
      obtain ⟨mode, -, h⟩ := (readOnly_loadField _ _).eq_of_bind h
      split at h
      · cases h
        exact Or.inr (Or.inl rfl)
      · obtain ⟨_, stores, _, rest, hstore, hdone, hr⟩ := of_bind_eq_some h
        cases hdone
        subst hr
        unfold storeField storeWord store at hstore
        split at hstore
        · cases hstore
          exact Or.inr (Or.inr ⟨log, hlog, rfl⟩)
        · cases hstore

end OSProjects.Wfs
