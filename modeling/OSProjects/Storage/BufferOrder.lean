import OSProjects.Storage.BufferRuns

/-!
# Which buffer is recycled

The list of buffers is in the order of their last release, so `bget` recycles the buffer that
has been unused the longest, and it panics only when every buffer is in use or waits for a
commit.
-/

namespace OSProjects.Storage

open LinkedRing StepSystem Xv6

variable {s t : BufState} {cur : Contents} {b x : Fin nBuf} {h : Handle}

/-- The cache with a clock, and the time at which each buffer was last released by its last
user. -/
structure Aged where
  state : BufState
  released : Fin nBuf → Nat
  now : Nat

/-- A step of the cache; a buffer whose count falls to zero is stamped. -/
inductive AgedStep : Aged → BufAct → Aged → Prop
  | mk {a : Aged} {l t} (hstep : BufStep a.state l t) :
      AgedStep a l
        { state := t
          released := fun b =>
            if (a.state.cache.buf b).refcnt ≠ 0 ∧ (t.cache.buf b).refcnt = 0 then a.now + 1
            else a.released b
          now := a.now + 1 }

def Aged.init (disk : Contents) : Aged := ⟨.init disk, fun _ => 0, 0⟩

/-- The list is in the order of release, the latest in front. -/
structure Aged.Ordered (a : Aged) (xs : List (Fin nBuf)) : Prop where
  mru : a.state.cache.Mru xs
  sorted : xs.Pairwise fun b c => a.released c ≤ a.released b
  past : ∀ b, a.released b ≤ a.now

/-- Only the end of its last use moves a buffer, and only then its count falls to zero. -/
theorem BufStep.reorders {l : BufAct} (hi : s.Inv cur) (hstep : BufStep s l t) :
    (t.cache.links = s.cache.links ∧
      ∀ b, (s.cache.buf b).refcnt ≠ 0 → (t.cache.buf b).refcnt ≠ 0) ∨
    ∃ b, t.cache.links = (s.cache.links.unlink (some b)).pushFront none (some b) ∧
      (s.cache.buf b).refcnt ≠ 0 ∧ (t.cache.buf b).refcnt = 0 ∧
        ∀ x, x ≠ b → (t.cache.buf x).refcnt = (s.cache.buf x).refcnt := by
  -- A step after which no count is different.
  have hkeep : t.cache.links = s.cache.links →
      (∀ b, (t.cache.buf b).refcnt = (s.cache.buf b).refcnt) →
        t.cache.links = s.cache.links ∧
          ∀ b, (s.cache.buf b).refcnt ≠ 0 → (t.cache.buf b).refcnt ≠ 0 :=
    fun hl hr => ⟨hl, fun b hb => by rwa [hr]⟩
  cases hstep with
  | @bget id dev blockno b c hfresh hdev hget =>
      rcases Bcache.bget_cases hget with ⟨_, rfl⟩ | ⟨_, _, rfl⟩
      · refine .inl ⟨rfl, fun y hy => ?_⟩
        rw [Bcache.use_refcnt]
        split
        · exact Nat.succ_ne_zero _
        · exact hy
      · refine .inl ⟨rfl, fun y hy => ?_⟩
        rcases eq_or_ne y b with rfl | hne
        · rw [Bcache.recycle, Bcache.setBuf_self]
          exact Nat.one_ne_zero
        · rwa [Bcache.recycle, Bcache.setBuf_of_ne hne]
  | @acquire h c hmem hstage hfree hread =>
      have hinv := hi.acquire hmem hstage hfree hread
      refine .inl (hkeep ?_ fun y => ?_)
      · rcases Bcache.bread_cases hi.mirrors.clean_of_empty hread with ⟨_, rfl⟩ | ⟨_, rfl⟩ <;> rfl
      · rw [hinv.counted y, hi.counted_move hmem]
  | change hmem hstage =>
      exact .inl (hkeep rfl fun y => by rw [(hi.change hmem hstage).counted y, hi.counted_move hmem])
  | logWrite hmem hstage =>
      exact .inl (hkeep rfl fun y => by
        rw [(hi.logWrite hmem hstage).counted y, hi.counted_move hmem])
  | @bwrite h ch c hmem hstage hwrite =>
      refine .inl (hkeep ?_ fun y => ?_)
      · obtain rfl := Bcache.bwrite_cases hwrite
        rfl
      · rw [(hi.bwrite hmem hstage hwrite).counted y, hi.counted_move hmem]
  | brelse hmem hstage hrelse =>
      refine .inl (hkeep ?_ fun y => ?_)
      · obtain rfl := Bcache.brelse_cases hrelse
        rfl
      · rw [(hi.brelse hmem hstage hrelse).counted y, hi.counted_move hmem]
  | @unuse h hmem hstage =>
      have hpos := hi.refcnt_pos hmem
      rcases Bcache.unuse_cases s.cache h.buf with ⟨heq, hn⟩ | ⟨hn, heq⟩
      · rw [heq]
        refine .inl ⟨rfl, fun y hy => ?_⟩
        rw [Bcache.use_refcnt]
        split
        · exact hn
        · exact hy
      · rw [heq]
        refine .inr ⟨h.buf, rfl, by omega, ?_, fun y hy => ?_⟩
        · exact (Bcache.use_refcnt _).trans ((if_pos rfl).trans hn)
        · exact (Bcache.use_refcnt _).trans (if_neg hy)

/-- Every step keeps the list in the order of release. -/
theorem AgedStep.ordered {a a' : Aged} {l : BufAct} {xs : List (Fin nBuf)}
    (hi : a.state.Inv cur) (ho : a.Ordered xs) (hstep : AgedStep a l a') :
    ∃ ys, a'.Ordered ys := by
  cases hstep with
  | @mk t hstep =>
      rcases hstep.reorders hi with ⟨hlinks, hkeep⟩ | ⟨b, hlinks, hused, hzero, hrest⟩
      · -- No stamp changes.
        have hsame : ∀ y, (if (a.state.cache.buf y).refcnt ≠ 0 ∧ (t.cache.buf y).refcnt = 0 then
            a.now + 1 else a.released y) = a.released y := fun y =>
          if_neg fun hboth => hkeep y hboth.1 hboth.2
        refine ⟨xs, ⟨?_, ho.mru.2⟩, ?_, fun y => ?_⟩
        · change Ring t.cache.links none _
          rw [hlinks]
          exact ho.mru.1
        · simpa only [hsame] using ho.sorted
        · simp only [hsame]
          exact Nat.le_succ_of_le (ho.past y)
      · have hself : (if (a.state.cache.buf b).refcnt ≠ 0 ∧ (t.cache.buf b).refcnt = 0 then
            a.now + 1 else a.released b) = a.now + 1 := if_pos ⟨hused, hzero⟩
        have hother : ∀ y, y ≠ b →
            (if (a.state.cache.buf y).refcnt ≠ 0 ∧ (t.cache.buf y).refcnt = 0 then
              a.now + 1 else a.released y) = a.released y := by
          intro y hy
          refine if_neg fun hboth => hboth.1 ?_
          rw [← hrest y hy]
          exact hboth.2
        refine ⟨b :: xs.erase b, ho.mru.moveToFront b hlinks, ?_, fun y => ?_⟩
        · have hnot : ∀ y ∈ xs.erase b, y ≠ b := fun y hy =>
            ((ho.mru.nodup.mem_erase_iff).mp hy).1
          refine List.pairwise_cons.mpr ⟨fun y hy => ?_, ?_⟩
          · simp only [hself, hother y (hnot y hy)]
            exact Nat.le_succ_of_le (ho.past y)
          · refine (ho.sorted.sublist List.erase_sublist).imp_of_mem fun hy hz hle => ?_
            simpa only [hother _ (hnot _ hy), hother _ (hnot _ hz)] using hle
        · rcases eq_or_ne y b with rfl | hy
          · simp only [hself]
            exact Nat.le_refl _
          · simp only [hother y hy]
            exact Nat.le_succ_of_le (ho.past y)

theorem Aged.ordered_of_run {disk : Contents} {ls : List BufAct} {a : Aged}
    (hrun : Run AgedStep (.init disk) ls a) :
    (∃ cur, a.state.Inv cur) ∧ ∃ xs, a.Ordered xs := by
  refine hrun.invariant (P := fun a => (∃ cur, a.state.Inv cur) ∧ ∃ xs, a.Ordered xs)
    (fun a l a' h hstep => ?_) ?_
  · obtain ⟨⟨cur, hi⟩, xs, ho⟩ := h
    refine ⟨?_, hstep.ordered hi ho⟩
    cases hstep with
    | mk hstep => exact ⟨_, hstep.inv hi⟩
  · obtain ⟨xs, hm⟩ := Bcache.exists_mru_binit disk
    refine ⟨⟨disk, .init disk⟩, xs, hm, ?_, fun _ => Nat.le_refl _⟩
    exact List.pairwise_of_forall fun _ _ => Nat.le_refl _

/-- The step of the cache with its clock, where there is one. -/
def Aged.next (a : Aged) (l : BufAct) : Option Aged :=
  (a.state.next l).map fun t =>
    { state := t
      released := fun b =>
        if (a.state.cache.buf b).refcnt ≠ 0 ∧ (t.cache.buf b).refcnt = 0 then a.now + 1
        else a.released b
      now := a.now + 1 }

theorem AgedStep.of_next {a a' : Aged} {l : BufAct} (h : a.next l = some a') :
    AgedStep a l a' := by
  obtain ⟨t, ht, rfl⟩ := Option.map_eq_some_iff.mp h
  exact .mk (.of_next ht)

/-- In every run, `bget` of a block that is not cached takes, of the buffers that nobody uses
and no transaction pins, the one that was released first; it panics exactly when there is
none. -/
theorem bget_recycles_oldest {disk : Contents} {ls : List BufAct} {a : Aged} {dev blockno : Nat}
    (hrun : Run AgedStep (.init disk) ls a)
    (hmiss : ∀ b, a.state.cache.key b ≠ (dev, blockno)) :
    (∀ b c, a.state.cache.bget dev blockno = some (b, c) →
      (a.state.cache.buf b).refcnt = 0 ∧ (a.state.cache.buf b).dirty = false ∧
        ∀ x, (a.state.cache.buf x).refcnt = 0 → (a.state.cache.buf x).dirty = false →
          a.released b ≤ a.released x) ∧
      (a.state.cache.bget dev blockno = none ↔
        ∀ b, (a.state.cache.buf b).refcnt ≠ 0 ∨ (a.state.cache.buf b).dirty = true) := by
  obtain ⟨_, xs, ho⟩ := Aged.ordered_of_run hrun
  have hm := ho.mru
  have hlookup : a.state.cache.lookup dev blockno = none := by
    rw [hm.lookup]
    refine List.find?_eq_none.mpr fun b _ hb => hmiss b ?_
    simpa using hb
  refine ⟨fun b c hget => ?_, ?_⟩
  · rcases Bcache.bget_cases hget with ⟨hl, _⟩ | ⟨_, hu, _⟩
    · rw [hlookup] at hl
      cases hl
    · obtain ⟨hzero, hclean⟩ := hm.unused_some hu
      refine ⟨hzero, hclean, fun x hx hd => ?_⟩
      -- The list is searched from its end, so `x` stands in front of `b`.
      rw [hm.unused] at hu
      obtain ⟨_, front, back, hsplit, hnone⟩ := List.find?_eq_some_iff_append.mp hu
      have hxs : xs = back.reverse ++ b :: front.reverse := by
        have := congrArg List.reverse hsplit
        simpa using this
      have hxmem := hm.2 x
      have hsorted := ho.sorted
      rw [hxs] at hxmem hsorted
      rcases List.mem_append.mp hxmem with hxb | hxb
      · exact (List.pairwise_append.mp hsorted).2.2 x hxb b List.mem_cons_self
      · rcases List.mem_cons.mp hxb with rfl | hxf
        · exact Nat.le_refl _
        · have := hnone x (List.mem_reverse.mp hxf)
          simp [hx, hd] at this
  · rw [Bcache.bget, hlookup]
    simp only [Option.map_eq_none_iff]
    rw [hm.unused, List.find?_eq_none]
    constructor
    · intro hnone b
      have := hnone b (List.mem_reverse.mpr (hm.2 b))
      by_contra hboth
      simp only [not_or, not_not, Bool.not_eq_true] at hboth
      simp [hboth.1, hboth.2] at this
    · intro hall b _ hb
      simp only [decide_eq_true_eq] at hb
      rcases hall b with href | hdirty
      · exact href hb.1
      · rw [hb.2] at hdirty
        cases hdirty

/-- As many blocks are read as there are buffers. -/
def readAll : List BufAct := (List.range nBuf).flatMap fun i => [.bget i 1 i, .acquire i]

/-- Every buffer is taken, and two are given back. The next block gets the one that was released
first. -/
theorem bget_recycles_oldest_run : ∃ a b c,
    Run AgedStep (.init fun _ _ _ => 0)
      (readAll ++ [BufAct.brelse 1, .unuse 1, .brelse 0, .unuse 0]) a ∧
    a.state.cache.bget 1 nBuf = some (b, c) ∧ a.state.cache.key b = (1, 1) ∧
    (∃ x, (a.state.cache.buf x).refcnt = 0 ∧ a.state.cache.key x = (1, 0) ∧
      a.released b < a.released x) ∧
    ∀ x, (a.state.cache.buf x).refcnt = 0 → (a.state.cache.buf x).dirty = false →
      a.released b ≤ a.released x := by
  obtain ⟨a, ha, hcheck⟩ := (Option.any_eq_true _ _).mp
    (show ((readAll ++ [BufAct.brelse 1, .unuse 1, .brelse 0, .unuse 0]).foldlM Aged.next
        (.init fun _ _ _ => 0)).any (fun a =>
      decide (∀ b, a.state.cache.key b ≠ (1, nBuf)) &&
        (a.state.cache.bget 1 nBuf).any fun r => decide (a.state.cache.key r.1 = (1, 1) ∧
          ∃ x, (a.state.cache.buf x).refcnt = 0 ∧ a.state.cache.key x = (1, 0) ∧
            a.released r.1 < a.released x)) = true by decide +kernel)
  obtain ⟨hmiss, hget⟩ := Bool.and_eq_true_iff.mp hcheck
  obtain ⟨⟨b, c⟩, hget, hb⟩ := (Option.any_eq_true _ _).mp hget
  obtain ⟨hkey, hlater⟩ := of_decide_eq_true hb
  have hrun : Run AgedStep (.init fun _ _ _ => 0) _ a :=
    .of_foldlM (fun _ _ _ => AgedStep.of_next) ha
  exact ⟨a, b, c, hrun, hget, hkey, hlater,
    ((bget_recycles_oldest hrun (of_decide_eq_true hmiss)).1 b c hget).2.2⟩

end OSProjects.Storage
