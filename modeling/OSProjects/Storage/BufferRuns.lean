import OSProjects.Storage.BufferInvariant

/-!
# Runs of the buffer cache

Whatever is evicted and read again, a process that holds a buffer has the data that was last
stored for its block, and it is the only one. A buffer is recycled in the order of release.
-/

namespace OSProjects.Storage

open LinkedRing StepSystem Xv6

variable {s t : BufState} {c d : Bcache} {cur : Contents} {b x : Fin nBuf} {h g : Handle}
  {id dev blockno : Nat} {data : Block}

/-! ## What the functions of bio.c do -/

namespace Bcache

theorem use_holder {holder : Option Nat} {n : Nat} (x : Fin nBuf) :
    ((c.use b holder n).buf x).holder = if x = b then holder else (c.buf x).holder := by
  rw [use_buf]
  split <;> rfl

theorem use_refcnt {holder : Option Nat} {n : Nat} (x : Fin nBuf) :
    ((c.use b holder n).buf x).refcnt = if x = b then n else (c.buf x).refcnt := by
  rw [use_buf]
  split <;> rfl

theorem Mru.lookup_some {xs : List (Fin nBuf)} (hm : c.Mru xs)
    (h : c.lookup dev blockno = some b) : c.key b = (dev, blockno) := by
  rw [hm.lookup] at h
  simpa using List.find?_some h

theorem Mru.lookup_none {xs : List (Fin nBuf)} (hm : c.Mru xs)
    (h : c.lookup dev blockno = none) (x : Fin nBuf) : c.key x ≠ (dev, blockno) := by
  rw [hm.lookup] at h
  simpa using List.find?_eq_none.mp h x (hm.2 x)

theorem Mru.unused_some {xs : List (Fin nBuf)} (hm : c.Mru xs) (h : c.unused = some b) :
    (c.buf b).refcnt = 0 ∧ (c.buf b).dirty = false := by
  rw [hm.unused] at h
  simpa using List.find?_some h

/-- `bget` finds the buffer of the block, or takes an unused one. -/
theorem bget_cases (h : c.bget dev blockno = some (b, d)) :
    (c.lookup dev blockno = some b ∧ d = c.use b (c.buf b).holder ((c.buf b).refcnt + 1)) ∨
      c.lookup dev blockno = none ∧ c.unused = some b ∧ d = c.recycle b dev blockno := by
  unfold bget at h
  cases hl : c.lookup dev blockno with
  | some a =>
      rw [hl] at h
      obtain ⟨rfl, rfl⟩ := Prod.mk.inj (Option.some.inj h)
      exact .inl ⟨rfl, rfl⟩
  | none =>
      rw [hl] at h
      obtain ⟨a, ha, heq⟩ := Option.map_eq_some_iff.mp h
      obtain ⟨rfl, rfl⟩ := Prod.mk.inj heq
      exact .inr ⟨rfl, ha, rfl⟩

/-- `bread` reads the block when the buffer has no data. -/
theorem bread_cases (hclean : (c.buf b).valid = false → (c.buf b).dirty = false)
    (h : c.bread id b = some d) :
    ((c.buf b).valid = true ∧ d = c.use b (some id) (c.buf b).refcnt) ∨
      (c.buf b).valid = false ∧ d = (c.use b (some id) (c.buf b).refcnt).readIn b := by
  unfold bread at h
  simp only [use_valid] at h
  cases hv : (c.buf b).valid with
  | true =>
      rw [hv, if_pos rfl] at h
      exact .inl ⟨rfl, (Option.some.inj h).symm⟩
  | false =>
      rw [hv, if_neg (by decide), iderw] at h
      simp only [use_holder, use_valid, use_dirty, hv, hclean hv] at h
      rw [if_neg (by simp), if_neg (by simp)] at h
      split at h
      · cases h
      · exact .inr ⟨rfl, (Option.some.inj (by simpa using h)).symm⟩

theorem bwrite_cases (h : c.bwrite id b = some d) : d = (c.markDirty b).writeOut b := by
  unfold bwrite at h
  split at h
  · cases h
  · next hheld =>
    have hself : (c.markDirty b).buf b = { c.buf b with dirty := true } := setBuf_self
    rw [iderw, hself] at h
    simp only at h
    rw [if_neg hheld, if_neg (by simp)] at h
    split at h
    · cases h
    · exact (Option.some.inj (by simpa using h)).symm

theorem brelse_cases (h : c.brelse id b = some d) : d = c.use b none (c.buf b).refcnt := by
  unfold brelse at h
  split at h
  · cases h
  · exact (Option.some.inj h).symm

/-- `unuse` takes one off the count, and moves the buffer when nobody is left. -/
theorem unuse_cases (c : Bcache) (b : Fin nBuf) :
    (c.unuse b = c.use b (c.buf b).holder ((c.buf b).refcnt - 1) ∧ (c.buf b).refcnt - 1 ≠ 0) ∨
      (c.buf b).refcnt - 1 = 0 ∧
        c.unuse b = { c.use b (c.buf b).holder ((c.buf b).refcnt - 1) with
          links := (c.links.unlink (some b)).pushFront none (some b) } := by
  unfold unuse
  simp only [use_refcnt, if_pos]
  split
  · next hn => exact .inr ⟨hn, rfl⟩
  · next hn => exact .inl ⟨rfl, hn⟩

/-- A released buffer is moved to the front. -/
theorem Mru.moveToFront {xs : List (Fin nBuf)} (hm : c.Mru xs) (b : Fin nBuf)
    (hl : d.links = (c.links.unlink (some b)).pushFront none (some b)) :
    d.Mru (b :: xs.erase b) := by
  obtain ⟨front, back, hnot, hxs, herase⟩ := List.exists_erase_eq (hm.2 b)
  refine ⟨?_, fun a => ?_⟩
  · have hring := hm.1
    rw [hxs, List.map_append, List.map_cons] at hring
    rw [hl, herase, List.map_cons, List.map_append]
    exact hring.moveToFront
  · rcases eq_or_ne a b with rfl | hab
    · exact List.mem_cons_self
    · exact List.mem_cons_of_mem b ((List.mem_erase_of_ne hab).mpr (hm.2 a))

/-- A buffer without data is not dirty. -/
theorem Mirrors.clean_of_empty {changed : Fin nBuf → Prop} (hm : c.Mirrors cur changed)
    (hv : (c.buf b).valid = false) : (c.buf b).dirty = false := by
  by_contra hd
  rw [hm.filled b (by simpa using hd)] at hv
  cases hv

/-- With either outcome of `bread`, its caller has the lock of the buffer, with the data of its
block, and the other buffers are as they were. -/
theorem Mirrors.bread {changed : Fin nBuf → Prop} (hm : c.Mirrors cur changed)
    (hdev : (c.buf b).dev ≠ 0) (h : c.bread id b = some d) :
    d.Mirrors cur changed ∧ d.links = c.links ∧
      (∀ y, d.key y = c.key y ∧ (d.buf y).refcnt = (c.buf y).refcnt ∧
        (y ≠ b → (d.buf y).holder = (c.buf y).holder ∧ (d.buf y).valid = (c.buf y).valid)) ∧
      (d.buf b).holder = some id ∧ (d.buf b).valid = true := by
  have huse : ∀ y, y ≠ b → (c.use b (some id) (c.buf b).refcnt).buf y = c.buf y :=
    fun y => setBuf_of_ne
  rcases bread_cases hm.clean_of_empty h with ⟨hv, rfl⟩ | ⟨hv, rfl⟩
  · refine ⟨hm.use, rfl, fun y => ?_, ?_, ?_⟩
    · rcases eq_or_ne y b with rfl | hy
      · refine ⟨use_key _, ?_, fun hne => absurd rfl hne⟩
        rw [use_refcnt, if_pos rfl]
      · rw [huse y hy]
        exact ⟨use_key y, rfl, fun _ => ⟨rfl, rfl⟩⟩
    · rw [use_holder, if_pos rfl]
    · rw [use_valid, hv]
  · have hin : ((c.use b (some id) (c.buf b).refcnt).readIn b).buf b =
        { (c.use b (some id) (c.buf b).refcnt).buf b with
          valid := true
          data := c.disk (c.buf b).dev (c.buf b).blockno } := by
      refine setBuf_self.trans ?_
      rw [use_dev, use_blockno]
      rfl
    refine ⟨hm.use.readIn (by rwa [use_dev]) (by rwa [use_valid]), rfl, fun y => ?_, ?_, ?_⟩
    · rcases eq_or_ne y b with rfl | hy
      · rw [key, hin]
        refine ⟨use_key _, ?_, fun hne => absurd rfl hne⟩
        exact (use_refcnt _).trans (if_pos rfl)
      · rw [Bcache.readIn, setBuf_key_of_ne hy, setBuf_of_ne hy, huse y hy]
        exact ⟨use_key y, rfl, fun _ => ⟨rfl, rfl⟩⟩
    · rw [hin]
      exact (use_holder _).trans (if_pos rfl)
    · rw [hin]

end Bcache

/-! ## One step -/

namespace BufState

theorem Changed.enter (h : s.Changed y) :
    (⟨c, ⟨id, dev, blockno, b, .waiting⟩ :: s.handles⟩ : BufState).Changed y := by
  obtain ⟨h, hh, hy⟩ := h
  exact ⟨h, List.mem_cons_of_mem _ hh, hy⟩

theorem Holds.of_enter
    (hh : (⟨c, ⟨id, dev, blockno, b, .waiting⟩ :: s.handles⟩ : BufState).Holds h) :
    s.Holds h := by
  obtain ⟨hh, ch, hstage⟩ := hh
  rcases List.mem_cons.mp hh with rfl | hh
  · cases hstage
  · exact ⟨hh, ch, hstage⟩

theorem nodup_enter (hids : (s.handles.map Handle.id).Nodup)
    (hfresh : ∀ h ∈ s.handles, h.id ≠ id) :
    ((⟨id, dev, blockno, b, .waiting⟩ :: s.handles).map Handle.id).Nodup := by
  refine List.nodup_cons.mpr ⟨fun hmem => ?_, hids⟩
  obtain ⟨h, hh, heq⟩ := List.mem_map.mp hmem
  exact hfresh h hh heq

/-- The block is cached: its buffer has one more reference. -/
theorem Inv.bget_hit (hi : s.Inv cur) (hfresh : ∀ h ∈ s.handles, h.id ≠ id) (hdev : dev ≠ 0)
    (hkey : s.cache.key b = (dev, blockno)) :
    (⟨s.cache.use b (s.cache.buf b).holder ((s.cache.buf b).refcnt + 1),
      ⟨id, dev, blockno, b, .waiting⟩ :: s.handles⟩ : BufState).Inv cur := by
  obtain ⟨xs, hm⟩ := hi.mru
  have hholder : ∀ y, ((s.cache.use b (s.cache.buf b).holder
      ((s.cache.buf b).refcnt + 1)).buf y).holder = (s.cache.buf y).holder := by
    intro y
    rw [Bcache.use_holder]
    split
    · next heq => rw [heq]
    · rfl
  refine ⟨hi.mirrors.use.mono fun y => Changed.enter, ⟨xs, hm⟩, nodup_enter hi.ids hfresh,
    fun y => ?_, fun y i hlock => ?_, fun h hh => ?_, fun h hh => ?_⟩
  · rw [Bcache.use_refcnt, List.countP_cons]
    split
    · next heq => simp [heq, hi.counted b]
    · next hne => simp [Ne.symm hne, hi.counted y]
  · rw [hholder] at hlock
    obtain ⟨h, hh, hid, hb⟩ := hi.locked y i hlock
    exact ⟨h, ⟨List.mem_cons_of_mem _ hh.1, hh.2⟩, hid, hb⟩
  · rw [hholder, Bcache.use_valid]
    exact hi.held h (Holds.of_enter hh)
  · rw [Bcache.use_key]
    rcases List.mem_cons.mp hh with rfl | hh
    · exact ⟨hkey, hdev⟩
    · exact hi.asked h hh

/-- The block is not cached: a clean buffer that nobody refers to is recycled for it. -/
theorem Inv.bget_miss (hi : s.Inv cur) (hfresh : ∀ h ∈ s.handles, h.id ≠ id) (hdev : dev ≠ 0)
    (hmiss : ∀ y, s.cache.key y ≠ (dev, blockno)) (hzero : (s.cache.buf b).refcnt = 0)
    (hclean : (s.cache.buf b).dirty = false) :
    (⟨s.cache.recycle b dev blockno,
      ⟨id, dev, blockno, b, .waiting⟩ :: s.handles⟩ : BufState).Inv cur := by
  obtain ⟨xs, hm⟩ := hi.mru
  obtain ⟨hnobody, hfree⟩ := hi.free_of_refcnt hzero
  have hself : (s.cache.recycle b dev blockno).buf b = { s.cache.buf b with
      valid := false, dirty := false, dev := dev, blockno := blockno, refcnt := 1 } :=
    Bcache.setBuf_self
  have hother : ∀ y, y ≠ b → (s.cache.recycle b dev blockno).buf y = s.cache.buf y := fun y =>
    Bcache.setBuf_of_ne
  have hsame : ¬ s.Changed b := by
    rintro ⟨h, hh, hb, _⟩
    exact hnobody h hh hb
  refine ⟨(hi.mirrors.recycle hclean hsame hmiss).mono fun y => Changed.enter, ⟨xs, hm⟩,
    nodup_enter hi.ids hfresh, fun y => ?_, fun y i hlock => ?_, fun h hh => ?_, fun h hh => ?_⟩
  · rw [List.countP_cons]
    rcases eq_or_ne y b with rfl | hyb
    · rw [hself]
      have hcount := hi.counted y
      rw [hzero] at hcount
      simp [← hcount]
    · rw [hother y hyb, hi.counted y]
      simp [Ne.symm hyb]
  · rcases eq_or_ne y b with rfl | hyb
    · rw [hself] at hlock
      rw [hfree] at hlock
      cases hlock
    · rw [hother y hyb] at hlock
      obtain ⟨h, hh, hid, hb⟩ := hi.locked y i hlock
      exact ⟨h, ⟨List.mem_cons_of_mem _ hh.1, hh.2⟩, hid, hb⟩
  · have hh' := Holds.of_enter hh
    rw [hother h.buf (hnobody h hh'.1)]
    exact hi.held h hh'
  · rcases List.mem_cons.mp hh with rfl | hh
    · exact ⟨by rw [Bcache.key, hself], hdev⟩
    · refine ⟨?_, (hi.asked h hh).2⟩
      rw [← (hi.asked h hh).1]
      exact Bcache.setBuf_key_of_ne (hnobody h hh)

theorem Inv.bget (hi : s.Inv cur) (hfresh : ∀ h ∈ s.handles, h.id ≠ id) (hdev : dev ≠ 0)
    (hget : s.cache.bget dev blockno = some (b, c)) :
    (⟨c, ⟨id, dev, blockno, b, .waiting⟩ :: s.handles⟩ : BufState).Inv cur := by
  obtain ⟨xs, hm⟩ := hi.mru
  rcases Bcache.bget_cases hget with ⟨hl, rfl⟩ | ⟨hl, hu, rfl⟩
  · exact hi.bget_hit hfresh hdev (hm.lookup_some hl)
  · obtain ⟨hzero, hclean⟩ := hm.unused_some hu
    exact hi.bget_miss hfresh hdev (hm.lookup_none hl) hzero hclean

/-- A call that waits gets the buffer, and the data of its block with it. -/
theorem Inv.acquire (hi : s.Inv cur) (hh : h ∈ s.handles) (hstage : h.stage = .waiting)
    (hfree : (s.cache.buf h.buf).holder = none) (hread : s.cache.bread h.id h.buf = some c) :
    (s.move c h (.holding false)).Inv cur := by
  -- The lock is free, so nobody else has the buffer.
  have hnobody : ∀ g, s.Holds g → g.buf ≠ h.buf := by
    intro g hg heq
    have hl := (hi.held g hg).1
    rw [heq, hfree] at hl
    cases hl
  have hsub : ∀ y, s.Changed y → (s.move c h (.holding false)).Changed y := by
    rintro y ⟨g, hg, hb, hst⟩
    refine ⟨g, (hi.mem_move hh).mpr (.inr ⟨hg, fun hid => ?_⟩), hb, hst⟩
    rw [hi.eq_of_id hg hh hid, hstage] at hst
    cases hst
  obtain ⟨hmir, hlinks, hbuf, hself⟩ := hi.mirrors.bread (hi.real hh) hread
  obtain ⟨xs, hm⟩ := hi.mru
  refine ⟨hmir.mono hsub, ⟨xs, ?_⟩, hi.ids_move hh _ _, fun y => ?_, fun y i hlock => ?_,
    fun g hg => ?_, fun g hg => ?_⟩
  · refine ⟨?_, hm.2⟩
    change Ring c.links none _
    rw [hlinks]
    exact hm.1
  · rw [hi.counted_move hh]
    exact (hbuf y).2.1
  · rcases eq_or_ne y h.buf with rfl | hy
    · obtain rfl : h.id = i := Option.some.inj (hself.1.symm.trans hlock)
      exact ⟨_, ⟨(hi.mem_move hh).mpr (.inl rfl), _, rfl⟩, rfl, rfl⟩
    · change (c.buf y).holder = some i at hlock
      rw [((hbuf y).2.2 hy).1] at hlock
      obtain ⟨g, hg, hid, hb⟩ := hi.locked y i hlock
      refine ⟨g, ⟨(hi.mem_move hh).mpr (.inr ⟨hg.1, fun heq => ?_⟩), hg.2⟩, hid, hb⟩
      rw [hi.eq_of_id hg.1 hh heq] at hb
      exact hy hb.symm
  · rcases (hi.mem_move hh).mp hg.1 with rfl | ⟨hg', hid⟩
    · exact hself
    · have hne := hnobody g ⟨hg', hg.2⟩
      have hheld := hi.held g ⟨hg', hg.2⟩
      obtain ⟨hho, hva⟩ := (hbuf g.buf).2.2 hne
      exact ⟨hho.trans hheld.1, hva.trans hheld.2⟩
  · change c.key g.buf = (g.dev, g.blockno) ∧ g.dev ≠ 0
    rw [(hbuf g.buf).1]
    rcases (hi.mem_move hh).mp hg with rfl | ⟨hg', _⟩
    · exact hi.asked h hh
    · exact hi.asked g hg'

/-- A step of the process that has a buffer which leaves locks and counts alone. -/
theorem Inv.holder_moves {cur' : Contents} {ch ch' : Bool} (hi : s.Inv cur) (hh : h ∈ s.handles)
    (hstage : h.stage = .holding ch)
    (hmir : c.Mirrors cur' (s.move c h (.holding ch')).Changed)
    (hlinks : c.links = s.cache.links)
    (hbuf : ∀ y, c.key y = s.cache.key y ∧
      (c.buf y).refcnt = (s.cache.buf y).refcnt ∧ (c.buf y).holder = (s.cache.buf y).holder ∧
        ((s.cache.buf y).valid = true → (c.buf y).valid = true)) :
    (s.move c h (.holding ch')).Inv cur' := by
  obtain ⟨xs, hm⟩ := hi.mru
  have hold : s.Holds h := ⟨hh, _, hstage⟩
  refine ⟨hmir, ⟨xs, ?_⟩, hi.ids_move hh _ _, fun y => ?_, fun y i hlock => ?_, fun g hg => ?_,
    fun g hg => ?_⟩
  · refine ⟨?_, hm.2⟩
    change Ring c.links none _
    rw [hlinks]
    exact hm.1
  · rw [hi.counted_move hh]
    exact (hbuf y).2.1
  · change (c.buf y).holder = some i at hlock
    rw [(hbuf y).2.2.1] at hlock
    obtain ⟨g, hg, hid, hb⟩ := hi.locked y i hlock
    by_cases heq : g.id = h.id
    · obtain rfl := hi.eq_of_id hg.1 hh heq
      exact ⟨_, ⟨(hi.mem_move hh).mpr (.inl rfl), _, rfl⟩, hid, hb⟩
    · exact ⟨g, ⟨(hi.mem_move hh).mpr (.inr ⟨hg.1, heq⟩), hg.2⟩, hid, hb⟩
  · change (c.buf g.buf).holder = some g.id ∧ (c.buf g.buf).valid = true
    rw [(hbuf g.buf).2.2.1]
    rcases (hi.mem_move hh).mp hg.1 with rfl | ⟨hg', _⟩
    · exact ⟨(hi.held h hold).1, (hbuf h.buf).2.2.2 (hi.held h hold).2⟩
    · have hheld := hi.held g ⟨hg', hg.2⟩
      exact ⟨hheld.1, (hbuf g.buf).2.2.2 hheld.2⟩
  · change c.key g.buf = (g.dev, g.blockno) ∧ g.dev ≠ 0
    rw [(hbuf g.buf).1]
    rcases (hi.mem_move hh).mp hg with rfl | ⟨hg', _⟩
    · exact hi.asked h hh
    · exact hi.asked g hg'

/-- The other changed buffers stay changed. -/
theorem Inv.changed_move {st : Stage} (hi : s.Inv cur) (hh : h ∈ s.handles) {y : Fin nBuf}
    (hy : y ≠ h.buf) (hch : s.Changed y) : (s.move c h st).Changed y := by
  obtain ⟨g, hg, hb, hst⟩ := hch
  refine ⟨g, (hi.mem_move hh).mpr (.inr ⟨hg, fun hid => hy ?_⟩), hb, hst⟩
  rw [← hb, hi.eq_of_id hg hh hid]

/-- What a store into a buffer leaves of the entries of all buffers. -/
theorem setBuf_same {v : Buf} (hkey : (v.dev, v.blockno) = c.key b)
    (href : v.refcnt = (c.buf b).refcnt) (hholder : v.holder = (c.buf b).holder)
    (hvalid : (c.buf b).valid = true → v.valid = true) (y : Fin nBuf) :
    (c.setBuf b v).key y = c.key y ∧ ((c.setBuf b v).buf y).refcnt = (c.buf y).refcnt ∧
      ((c.setBuf b v).buf y).holder = (c.buf y).holder ∧
        ((c.buf y).valid = true → ((c.setBuf b v).buf y).valid = true) := by
  rcases eq_or_ne y b with rfl | hy
  · rw [Bcache.key, Bcache.setBuf_self]
    exact ⟨hkey, href, hholder, hvalid⟩
  · rw [Bcache.setBuf_key_of_ne hy, Bcache.setBuf_of_ne hy]
    exact ⟨rfl, rfl, rfl, id⟩

theorem Inv.change {ch : Bool} (hi : s.Inv cur) (hh : h ∈ s.handles)
    (hstage : h.stage = .holding ch) :
    (s.move (s.cache.store h.buf data) h (.holding true)).Inv
      (cur.set h.dev h.blockno data) := by
  have hold : s.Holds h := ⟨hh, _, hstage⟩
  obtain ⟨hdev, hblockno⟩ := Prod.mk.inj (hi.asked h hh).1
  refine hi.holder_moves hh hstage ?_ rfl fun y =>
    setBuf_same (v := { s.cache.buf h.buf with data := data }) rfl rfl rfl id y
  rw [← hdev, ← hblockno]
  have hself : (s.move (s.cache.store h.buf data) h (.holding true)).Changed h.buf :=
    ⟨_, (hi.mem_move hh).mpr (.inl rfl), rfl, rfl⟩
  refine hi.mirrors.store (hi.real hh) (hi.held h hold).2 hself fun y hy => ?_
  rcases eq_or_ne y h.buf with rfl | hne
  · exact hself
  · exact hi.changed_move hh hne hy

theorem Inv.logWrite {ch : Bool} (hi : s.Inv cur) (hh : h ∈ s.handles)
    (hstage : h.stage = .holding ch) :
    (s.move (s.cache.markDirty h.buf) h (.holding false)).Inv cur := by
  have hold : s.Holds h := ⟨hh, _, hstage⟩
  refine hi.holder_moves hh hstage ?_ rfl fun y =>
    setBuf_same (v := { s.cache.buf h.buf with dirty := true }) rfl rfl rfl id y
  exact hi.mirrors.markDirty (hi.real hh) (hi.held h hold).2 fun y hy => hi.changed_move hh hy

theorem Inv.bwrite {ch : Bool} (hi : s.Inv cur) (hh : h ∈ s.handles)
    (hstage : h.stage = .holding ch) (hwrite : s.cache.bwrite h.id h.buf = some c) :
    (s.move c h (.holding false)).Inv cur := by
  have hold : s.Holds h := ⟨hh, _, hstage⟩
  have hvalid := (hi.held h hold).2
  obtain rfl := Bcache.bwrite_cases hwrite
  have hself : (s.cache.markDirty h.buf).buf h.buf = { s.cache.buf h.buf with dirty := true } :=
    Bcache.setBuf_self
  refine hi.holder_moves hh hstage ?_ rfl fun y => ?_
  · refine Bcache.Mirrors.writeOut ?_ (by rw [hself]; exact hi.real hh) (by rw [hself]; exact hvalid)
    exact hi.mirrors.markDirty (hi.real hh) hvalid fun y hy => hi.changed_move hh hy
  · have hmark := setBuf_same (c := s.cache) (b := h.buf)
      (v := { s.cache.buf h.buf with dirty := true }) rfl rfl rfl id y
    have hout := setBuf_same (c := s.cache.markDirty h.buf) (b := h.buf)
      (v := { (s.cache.markDirty h.buf).buf h.buf with valid := true, dirty := false }) rfl rfl rfl
      (fun _ => rfl) y
    exact ⟨hout.1.trans hmark.1, hout.2.1.trans hmark.2.1, hout.2.2.1.trans hmark.2.2.1,
      fun hv => hout.2.2.2 (hmark.2.2.2 hv)⟩

/-- The lock is let go, and the caller still counts as a user. -/
theorem Inv.brelse (hi : s.Inv cur) (hh : h ∈ s.handles) (hstage : h.stage = .holding false)
    (hrelse : s.cache.brelse h.id h.buf = some c) : (s.move c h .leaving).Inv cur := by
  have hold : s.Holds h := ⟨hh, _, hstage⟩
  obtain rfl := Bcache.brelse_cases hrelse
  have hsub : ∀ y, s.Changed y →
      (s.move (s.cache.use h.buf none (s.cache.buf h.buf).refcnt) h .leaving).Changed y := by
    rintro y ⟨g, hg, hb, hst⟩
    refine ⟨g, (hi.mem_move hh).mpr (.inr ⟨hg, fun hid => ?_⟩), hb, hst⟩
    rw [hi.eq_of_id hg hh hid, hstage] at hst
    cases hst
  refine ⟨hi.mirrors.use.mono hsub, hi.mru, hi.ids_move hh _ _, fun y => ?_, fun y i hlock => ?_,
    fun g hg => ?_, fun g hg => ?_⟩
  · rw [hi.counted_move hh]
    refine (Bcache.use_refcnt y).trans ?_
    split
    · next heq => rw [heq]
    · rfl
  · change ((s.cache.use h.buf none (s.cache.buf h.buf).refcnt).buf y).holder = some i at hlock
    rw [Bcache.use_holder] at hlock
    rcases eq_or_ne y h.buf with rfl | hy
    · rw [if_pos rfl] at hlock
      cases hlock
    · rw [if_neg hy] at hlock
      obtain ⟨g, hg, hid, hb⟩ := hi.locked y i hlock
      refine ⟨g, ⟨(hi.mem_move hh).mpr (.inr ⟨hg.1, fun heq => hy ?_⟩), hg.2⟩, hid, hb⟩
      rw [← hb, hi.eq_of_id hg.1 hh heq]
  · obtain ⟨hmem, ch, hch⟩ := hg
    rcases (hi.mem_move hh).mp hmem with rfl | ⟨hg', hid⟩
    · cases hch
    · have hg : s.Holds g := ⟨hg', ch, hch⟩
      have hne : g.buf ≠ h.buf := fun heq => hid (congrArg Handle.id (hi.eq_of_buf hg hold heq))
      obtain ⟨hholder, hvalid⟩ := hi.held g hg
      refine ⟨(Bcache.use_holder _).trans ?_, (Bcache.use_valid _).trans hvalid⟩
      rw [if_neg hne, hholder]
  · have hkey : (s.cache.use h.buf none (s.cache.buf h.buf).refcnt).key g.buf =
        s.cache.key g.buf := Bcache.use_key _
    rcases (hi.mem_move hh).mp hg with rfl | ⟨hg', _⟩
    · exact ⟨hkey.trans (hi.asked h hh).1, (hi.asked h hh).2⟩
    · exact ⟨hkey.trans (hi.asked g hg').1, (hi.asked g hg').2⟩

/-- The caller is no longer counted, and the buffer moves to the front with its last user. -/
theorem Inv.unuse (hi : s.Inv cur) (hh : h ∈ s.handles) (hstage : h.stage = .leaving) :
    (⟨s.cache.unuse h.buf, s.handles.erase h⟩ : BufState).Inv cur := by
  have hids : ((s.handles.erase h).map Handle.id).Nodup :=
    (List.nodup_cons.mp (((List.perm_cons_erase hh).map Handle.id).nodup_iff.mp hi.ids)).2
  -- A call that has its buffer is another one.
  have hother : ∀ g ∈ s.handles, ∀ ch, g.stage = .holding ch → g ∈ s.handles.erase h := by
    intro g hg ch hst
    refine (hi.mem_erase hh).mpr ⟨hg, fun hid => ?_⟩
    rw [hi.eq_of_id hg hh hid, hstage] at hst
    cases hst
  have hsub : ∀ y, s.Changed y →
      (⟨s.cache.unuse h.buf, s.handles.erase h⟩ : BufState).Changed y := by
    rintro y ⟨g, hg, hb, hst⟩
    exact ⟨g, hother g hg true hst, hb, hst⟩
  -- The list of buffers may be reordered; the entries are those of `use`.
  obtain ⟨hbuf, hdisk, xs, hm⟩ : (s.cache.unuse h.buf).buf =
      (s.cache.use h.buf (s.cache.buf h.buf).holder ((s.cache.buf h.buf).refcnt - 1)).buf ∧
        (s.cache.unuse h.buf).disk = s.cache.disk ∧ ∃ xs, (s.cache.unuse h.buf).Mru xs := by
    obtain ⟨xs, hm⟩ := hi.mru
    rcases Bcache.unuse_cases s.cache h.buf with ⟨heq, _⟩ | ⟨_, heq⟩
    · rw [heq]
      exact ⟨rfl, rfl, xs, hm⟩
    · rw [heq]
      exact ⟨rfl, rfl, _, hm.moveToFront h.buf rfl⟩
  have hholder : ∀ y, ((s.cache.unuse h.buf).buf y).holder = (s.cache.buf y).holder := by
    intro y
    rw [hbuf, Bcache.use_holder]
    split
    · next heq => rw [heq]
    · rfl
  refine ⟨(hi.mirrors.use.of_eq hbuf hdisk).mono hsub, ⟨xs, hm⟩, hids, fun y => ?_,
    fun y i hlock => ?_, fun g hg => ?_, fun g hg => ?_⟩
  · have hcount := hi.counted y
    rw [(List.perm_cons_erase hh).countP_eq, List.countP_cons] at hcount
    change ((s.cache.unuse h.buf).buf y).refcnt = _
    rw [hbuf, Bcache.use_refcnt]
    rcases eq_or_ne y h.buf with rfl | hy
    · simp only [decide_true, if_true] at hcount
      rw [if_pos rfl, hcount, Nat.add_sub_cancel]
    · rw [if_neg hy, hcount]
      simp [Ne.symm hy]
  · change ((s.cache.unuse h.buf).buf y).holder = some i at hlock
    rw [hholder] at hlock
    obtain ⟨g, ⟨hg, ch, hst⟩, hid, hb⟩ := hi.locked y i hlock
    exact ⟨g, ⟨hother g hg ch hst, ch, hst⟩, hid, hb⟩
  · obtain ⟨hg', hst⟩ := hg
    change ((s.cache.unuse h.buf).buf g.buf).holder = some g.id ∧
      ((s.cache.unuse h.buf).buf g.buf).valid = true
    rw [hholder, hbuf, Bcache.use_valid]
    exact hi.held g ⟨((hi.mem_erase hh).mp hg').1, hst⟩
  · change (s.cache.unuse h.buf).key g.buf = (g.dev, g.blockno) ∧ g.dev ≠ 0
    rw [Bcache.key, hbuf]
    refine ⟨(Bcache.use_key _).trans ?_, ?_⟩
    · exact (hi.asked g ((hi.mem_erase hh).mp hg).1).1
    · exact (hi.asked g ((hi.mem_erase hh).mp hg).1).2

end BufState

/-! ## Runs -/

/-- What an action does to the latest contents. -/
def BufAct.apply (cur : Contents) : BufAct → Contents
  | .change _ dev blockno data => cur.set dev blockno data
  | _ => cur

/-- The contents after some actions: the last data stored for each block. -/
def latest (disk : Contents) (ls : List BufAct) : Contents := ls.foldl BufAct.apply disk

theorem BufStep.inv {l : BufAct} (hi : s.Inv cur) (hstep : BufStep s l t) :
    t.Inv (l.apply cur) := by
  cases hstep with
  | bget hfresh hdev hget => exact hi.bget hfresh hdev hget
  | acquire hmem hstage hfree hread => exact hi.acquire hmem hstage hfree hread
  | change hmem hstage => exact hi.change hmem hstage
  | logWrite hmem hstage => exact hi.logWrite hmem hstage
  | bwrite hmem hstage hwrite => exact hi.bwrite hmem hstage hwrite
  | brelse hmem hstage hrelse => exact hi.brelse hmem hstage hrelse
  | unuse hmem hstage => exact hi.unuse hmem hstage

theorem BufState.Inv.of_run {disk : Contents} {ls : List BufAct}
    (hrun : Run BufStep (.init disk) ls s) : s.Inv (latest disk ls) := by
  induction hrun with
  | nil => exact .init disk
  | concat _ hstep ih =>
      rw [latest, List.foldl_append]
      exact hstep.inv ih

/-- The disk changes only by `bwrite`, which writes the latest contents of its block. So the
cache is the pair of maps that the log is written over: what `bread` returns, and the disk. -/
theorem BufStep.disk_eq {l : BufAct} (hi : s.Inv cur) (hstep : BufStep s l t) :
    t.cache.disk = s.cache.disk ∨ ∃ h ∈ s.handles, l = .bwrite h.id ∧
      t.cache.disk = Contents.set s.cache.disk h.dev h.blockno (cur h.dev h.blockno) := by
  cases hstep with
  | bget hfresh hdev hget =>
      rcases Bcache.bget_cases hget with ⟨_, rfl⟩ | ⟨_, _, rfl⟩ <;> exact .inl rfl
  | @acquire h c hmem hstage hfree hread =>
      rcases Bcache.bread_cases hi.mirrors.clean_of_empty hread with ⟨_, rfl⟩ | ⟨_, rfl⟩ <;>
        exact .inl rfl
  | change hmem hstage => exact .inl rfl
  | logWrite hmem hstage => exact .inl rfl
  | brelse hmem hstage hrelse =>
      obtain rfl := Bcache.brelse_cases hrelse
      exact .inl rfl
  | @unuse h hmem hstage =>
      left
      rcases Bcache.unuse_cases s.cache h.buf with ⟨heq, _⟩ | ⟨_, heq⟩ <;>
        · change (s.cache.unuse h.buf).disk = s.cache.disk
          rw [heq]
          rfl
  | @bwrite h ch c hmem hstage hwrite =>
      have hold : s.Holds h := ⟨hmem, _, hstage⟩
      obtain ⟨hdev, hblockno⟩ := Prod.mk.inj (hi.asked h hmem).1
      have hself : (s.cache.markDirty h.buf).buf h.buf =
          { s.cache.buf h.buf with dirty := true } := Bcache.setBuf_self
      obtain rfl := Bcache.bwrite_cases hwrite
      refine .inr ⟨h, hmem, rfl, ?_⟩
      change Function.update s.cache.disk ((s.cache.markDirty h.buf).buf h.buf).dev _ = _
      rw [hself, ← hdev, ← hblockno, ← hi.mirrors.cached h.buf (hi.real hmem) (hi.held h hold).2]
      rfl

/-- The step of a `bread` or a `brelse`, where there is one. -/
def BufState.next (s : BufState) : BufAct → Option BufState
  | .bget id dev blockno =>
      if (∀ h ∈ s.handles, h.id ≠ id) ∧ dev ≠ 0 then
        (s.cache.bget dev blockno).map fun r =>
          ⟨r.2, ⟨id, dev, blockno, r.1, .waiting⟩ :: s.handles⟩
      else none
  | .acquire id =>
      (s.handles.find? fun h => h.id = id ∧ h.stage = .waiting).bind fun h =>
        if (s.cache.buf h.buf).holder = none then
          (s.cache.bread id h.buf).map fun c => s.move c h (.holding false)
        else none
  | .brelse id =>
      (s.handles.find? fun h => h.id = id ∧ h.stage = .holding false).bind fun h =>
        (s.cache.brelse id h.buf).map fun c => s.move c h .leaving
  | .unuse id =>
      (s.handles.find? fun h => h.id = id ∧ h.stage = .leaving).map fun h =>
        ⟨s.cache.unuse h.buf, s.handles.erase h⟩
  | _ => none

theorem BufStep.of_next {l : BufAct} (h : s.next l = some t) : BufStep s l t := by
  have hfind : ∀ {id : Nat} {st : Stage} {h : Handle},
      (s.handles.find? fun h => h.id = id ∧ h.stage = st) = some h →
        h ∈ s.handles ∧ h.id = id ∧ h.stage = st := by
    intro id st h hh
    exact ⟨List.mem_of_find?_eq_some hh, by simpa using List.find?_some hh⟩
  cases l with
  | bget id dev blockno =>
      rw [BufState.next] at h
      split at h
      case isFalse => cases h
      case isTrue hnew =>
        obtain ⟨⟨b, c⟩, hget, rfl⟩ := Option.map_eq_some_iff.mp h
        exact .bget hnew.1 hnew.2 hget
  | acquire id =>
      obtain ⟨g, hg, hnext⟩ := Option.bind_eq_some_iff.mp h
      obtain ⟨hmem, rfl, hstage⟩ := hfind hg
      split at hnext
      case isFalse => cases hnext
      case isTrue hfree =>
        obtain ⟨c, hread, rfl⟩ := Option.map_eq_some_iff.mp hnext
        exact .acquire hmem hstage hfree hread
  | change => cases h
  | logWrite => cases h
  | bwrite => cases h
  | brelse id =>
      obtain ⟨g, hg, hnext⟩ := Option.bind_eq_some_iff.mp h
      obtain ⟨hmem, rfl, hstage⟩ := hfind hg
      obtain ⟨c, hrelse, rfl⟩ := Option.map_eq_some_iff.mp hnext
      exact .brelse hmem hstage hrelse
  | unuse id =>
      obtain ⟨g, hg, rfl⟩ := Option.map_eq_some_iff.mp h
      obtain ⟨hmem, rfl, hstage⟩ := hfind hg
      exact .unuse hmem hstage

/-- Whatever buffers are recycled in a run, a process that has a block has the data last stored
for it, and no other process has the block. Blocks that are in no buffer are on disk as they
were last stored. -/
theorem bread_latest {disk : Contents} {ls : List BufAct} (hrun : Run BufStep (.init disk) ls s) :
    (∀ h, s.Holds h → (s.cache.buf h.buf).data = latest disk ls h.dev h.blockno) ∧
      (∀ h g, s.Holds h → s.Holds g → h.dev = g.dev → h.blockno = g.blockno → h = g) ∧
        ∀ dev blockno, dev ≠ 0 → (∀ b, s.cache.key b ≠ (dev, blockno)) →
          s.cache.disk dev blockno = latest disk ls dev blockno := by
  have hi : s.Inv (latest disk ls) := .of_run hrun
  refine ⟨fun h hh => ?_, fun h g hh hg hdev hblockno => ?_, fun dev blockno hdev hnone => ?_⟩
  · obtain ⟨hdev, hblockno⟩ := Prod.mk.inj (hi.asked h hh.1).1
    rw [← hdev, ← hblockno]
    exact hi.mirrors.cached h.buf (hi.real hh.1) (hi.held h hh).2
  · refine hi.eq_of_buf hh hg (hi.mirrors.unique _ _ (hi.real hh.1) ?_)
    rw [(hi.asked h hh.1).1, (hi.asked g hg.1).1, hdev, hblockno]
  · exact hi.mirrors.stored dev blockno hdev fun b hb => absurd hb (hnone b)

/-- The first block that a process reads. -/
theorem bread_latest_first :
    ∃ (s : BufState) (h : Handle), s.Holds h ∧
      (s.cache.buf h.buf).data = latest (fun _ _ _ => 7) [.bget 0 1 5, .acquire 0] 1 5 := by
  obtain ⟨s, hs, hcheck⟩ := (Option.any_eq_true _ _).mp
    (show ([.bget 0 1 5, .acquire 0].foldlM BufState.next (.init fun _ _ _ => 7)).any
      (fun s => s.handles.any fun h =>
        decide (h.stage = .holding false ∧ h.dev = 1 ∧ h.blockno = 5)) = true by decide +kernel)
  obtain ⟨⟨id, dev, blockno, b, st⟩, hmem, hh⟩ := List.any_eq_true.mp hcheck
  obtain ⟨rfl, rfl, rfl⟩ := of_decide_eq_true hh
  have hholds : s.Holds ⟨id, 1, 5, b, .holding false⟩ := ⟨hmem, _, rfl⟩
  exact ⟨s, _, hholds, (bread_latest (.of_foldlM (fun _ _ _ => .of_next) hs)).1 _ hholds⟩

end OSProjects.Storage
