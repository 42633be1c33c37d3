import Mathlib.Data.Fintype.Card
import Mathlib.Data.List.Count
import OSProjects.Storage.BufferCache

/-!
# What the buffer cache keeps

One buffer for each block, one holder for each buffer, and no buffer recycled whose data is not
on disk: so the buffers and the disk together are one map from blocks to their contents.
-/

namespace OSProjects.Storage

open LinkedRing StepSystem Xv6

/-- The latest contents of every block. -/
abbrev Contents := Nat → Nat → Block

def Contents.set (cur : Contents) (dev blockno : Nat) (data : Block) : Contents :=
  Function.update cur dev (Function.update (cur dev) blockno data)

theorem Contents.set_self (cur : Contents) (dev blockno : Nat) (data : Block) :
    cur.set dev blockno data dev blockno = data := by
  rw [Contents.set, Function.update_self, Function.update_self]

theorem Contents.set_of_ne (cur : Contents) {dev blockno dev' blockno' : Nat} (data : Block)
    (h : (dev', blockno') ≠ (dev, blockno)) :
    cur.set dev blockno data dev' blockno' = cur dev' blockno' := by
  rw [Contents.set]
  rcases eq_or_ne dev' dev with rfl | hdev
  · rw [Function.update_self, Function.update_of_ne]
    rintro rfl
    exact h rfl
  · rw [Function.update_of_ne hdev]

variable {s : BufState} {c : Bcache} {cur : Contents} {b x : Fin nBuf} {h g : Handle}
  {id dev blockno : Nat} {data : Block} {v : Buf}

/-! ## The list of buffers -/

namespace Bcache

@[simp] theorem setBuf_self : (c.setBuf b v).buf b = v := by
  simp [setBuf]

theorem setBuf_of_ne (hx : x ≠ b) : (c.setBuf b v).buf x = c.buf x := by
  simp [setBuf, hx]

@[simp] theorem setBuf_links : (c.setBuf b v).links = c.links := rfl
@[simp] theorem setBuf_disk : (c.setBuf b v).disk = c.disk := rfl

/-- The list holds every buffer once, the one released last in front. -/
def Mru (c : Bcache) (xs : List (Fin nBuf)) : Prop :=
  Ring c.links none (xs.map some) ∧ ∀ b, b ∈ xs

theorem Mru.nodup {xs : List (Fin nBuf)} (h : c.Mru xs) : xs.Nodup :=
  (List.nodup_cons.mp h.1.nodup).2.of_map some

theorem Mru.length_lt {xs : List (Fin nBuf)} (h : c.Mru xs) : (xs.map some).length < nBuf + 1 := by
  have hcard := h.nodup.length_le_card
  rw [Fintype.card_fin] at hcard
  rw [List.length_map]
  omega

/-- A search for a buffer over the nodes is a search over the buffers. -/
theorem find?_map_some (xs : List (Fin nBuf)) (p : Fin nBuf → Bool) :
    ((xs.map some).find? fun x => x.any p).join = xs.find? p := by
  induction xs with
  | nil => rfl
  | cons a xs ih =>
      rw [List.map_cons, List.find?_cons, List.find?_cons]
      simp only [Option.any_some]
      cases p a with
      | true => rfl
      | false => exact ih

theorem Mru.lookup {xs : List (Fin nBuf)} (h : c.Mru xs) (dev blockno : Nat) :
    c.lookup dev blockno = xs.find? fun b => c.key b = (dev, blockno) := by
  rw [Bcache.lookup, h.1.scan_next _ h.length_lt]
  exact find?_map_some xs fun b => c.key b = (dev, blockno)

theorem Mru.unused {xs : List (Fin nBuf)} (h : c.Mru xs) :
    c.unused = xs.reverse.find? fun b => (c.buf b).refcnt = 0 ∧ (c.buf b).dirty = false := by
  rw [Bcache.unused, h.1.scan_prev _ h.length_lt, ← List.map_reverse]
  exact find?_map_some xs.reverse fun b => (c.buf b).refcnt = 0 ∧ (c.buf b).dirty = false

theorem exists_mru_binit (disk : Nat → Nat → Block) : ∃ xs, (binit disk).Mru xs := by
  -- Each turn of the loop of `binit` links one more buffer.
  have hloop : ∀ (bs xs : List (Fin nBuf)) (l : Links BufNode), Ring l none (xs.map some) →
      (bs ++ xs).Nodup →
        ∃ ys : List (Fin nBuf), Ring (bs.foldl (fun l b => l.pushFront none (some b)) l) none (ys.map some) ∧
          ∀ b, b ∈ bs ∨ b ∈ xs → b ∈ ys := by
    intro bs
    induction bs with
    | nil => exact fun xs l hr _ => ⟨xs, hr, fun b hb => hb.resolve_left List.not_mem_nil⟩
    | cons a bs ih =>
        intro xs l hr hnodup
        obtain ⟨hnot, hrest⟩ := List.nodup_cons.mp hnodup
        have hpush : Ring (l.pushFront none (some a)) none ((a :: xs).map some) := by
          refine hr.pushFront fun hmem => ?_
          rcases List.mem_cons.mp hmem with heq | hmem
          · cases heq
          · obtain ⟨y, hy, heq⟩ := List.mem_map.mp hmem
            obtain rfl := Option.some.inj heq
            exact hnot (List.mem_append_right bs hy)
        have hnodup' : (bs ++ a :: xs).Nodup := by
          rw [List.perm_middle.nodup_iff]
          exact hnodup
        obtain ⟨ys, hys, hall⟩ := ih (a :: xs) _ hpush hnodup'
        refine ⟨ys, hys, fun b hb => hall b ?_⟩
        rcases hb with hb | hb
        · rcases List.mem_cons.mp hb with rfl | hb
          · exact .inr List.mem_cons_self
          · exact .inl hb
        · exact .inr (List.mem_cons_of_mem a hb)
  obtain ⟨ys, hys, hall⟩ := hloop (List.finRange nBuf) [] ⟨fun _ => none, fun _ => none⟩
    (ring_nil rfl rfl) (by rw [List.append_nil]; exact List.nodup_finRange nBuf)
  exact ⟨ys, hys, fun b => hall b (.inl (List.mem_finRange b))⟩

end Bcache

/-! ## Buffers and disk as one map -/

namespace Bcache

/-- The buffers hold the latest contents of their blocks, and the disk those of the others.
`changed` are the buffers whose holders have yet to pass on what they stored. -/
structure Mirrors (c : Bcache) (cur : Contents) (changed : Fin nBuf → Prop) : Prop where
  unique : ∀ a b, (c.buf a).dev ≠ 0 → c.key a = c.key b → a = b
  filled : ∀ b, (c.buf b).dirty = true → (c.buf b).valid = true
  synced : ∀ b, (c.buf b).valid = true → (c.buf b).dirty = false → ¬ changed b →
    (c.buf b).data = c.disk (c.buf b).dev (c.buf b).blockno
  cached : ∀ b, (c.buf b).dev ≠ 0 → (c.buf b).valid = true →
    (c.buf b).data = cur (c.buf b).dev (c.buf b).blockno
  stored : ∀ dev blockno, dev ≠ 0 →
    (∀ b, c.key b = (dev, blockno) → (c.buf b).valid = false) →
      c.disk dev blockno = cur dev blockno

variable {changed changed' : Fin nBuf → Prop}

/-- Only the buffers and the disk matter. -/
theorem Mirrors.of_eq {c' : Bcache} (h : c.Mirrors cur changed) (hbuf : c'.buf = c.buf)
    (hdisk : c'.disk = c.disk) : c'.Mirrors cur changed := by
  have hkey : ∀ x, c'.key x = c.key x := fun x => by rw [key, key, hbuf]
  refine ⟨?_, ?_, ?_, ?_, ?_⟩
  · simpa only [hbuf, hkey] using h.unique
  · simpa only [hbuf] using h.filled
  · simpa only [hbuf, hdisk] using h.synced
  · simpa only [hbuf] using h.cached
  · simpa only [hbuf, hkey, hdisk] using h.stored

/-- More buffers may be changed. -/
theorem Mirrors.mono (h : c.Mirrors cur changed) (hsub : ∀ b, changed b → changed' b) :
    c.Mirrors cur changed' :=
  ⟨h.unique, h.filled, fun b hv hd hn => h.synced b hv hd fun hc => hn (hsub b hc), h.cached,
    h.stored⟩

section Use

variable {holder : Option Nat} {n : Nat}

theorem use_buf (x : Fin nBuf) : (c.use b holder n).buf x =
    if x = b then { c.buf b with holder := holder, refcnt := n } else c.buf x := by
  split
  · next heq =>
    rw [heq]
    exact setBuf_self
  · next hne => exact setBuf_of_ne hne

@[simp] theorem use_valid (x : Fin nBuf) :
    ((c.use b holder n).buf x).valid = (c.buf x).valid := by
  rw [use_buf]
  split <;> simp_all

@[simp] theorem use_dirty (x : Fin nBuf) :
    ((c.use b holder n).buf x).dirty = (c.buf x).dirty := by
  rw [use_buf]
  split <;> simp_all

@[simp] theorem use_dev (x : Fin nBuf) : ((c.use b holder n).buf x).dev = (c.buf x).dev := by
  rw [use_buf]
  split <;> simp_all

@[simp] theorem use_blockno (x : Fin nBuf) :
    ((c.use b holder n).buf x).blockno = (c.buf x).blockno := by
  rw [use_buf]
  split <;> simp_all

@[simp] theorem use_data (x : Fin nBuf) : ((c.use b holder n).buf x).data = (c.buf x).data := by
  rw [use_buf]
  split <;> simp_all

@[simp] theorem use_disk : (c.use b holder n).disk = c.disk := rfl
@[simp] theorem use_links : (c.use b holder n).links = c.links := rfl

@[simp] theorem use_key (x : Fin nBuf) : (c.use b holder n).key x = c.key x := by
  rw [key, key, use_dev, use_blockno]

/-- Locks and counts do not touch the contents. -/
theorem Mirrors.use (h : c.Mirrors cur changed) : (c.use b holder n).Mirrors cur changed := by
  refine ⟨?_, ?_, ?_, ?_, ?_⟩
  · simpa only [use_dev, use_key] using h.unique
  · simpa only [use_dirty, use_valid] using h.filled
  · simpa only [use_dirty, use_valid, use_data, use_dev, use_blockno, use_disk] using h.synced
  · simpa only [use_valid, use_data, use_dev, use_blockno] using h.cached
  · simpa only [use_valid, use_key, use_disk] using h.stored

end Use

theorem setBuf_key_of_ne (hx : x ≠ b) : (c.setBuf b v).key x = c.key x := by
  rw [key, key, setBuf_of_ne hx]

/-- A clean buffer is taken for a block that no buffer is for. -/
theorem Mirrors.recycle (h : c.Mirrors cur changed)
    (hclean : (c.buf b).dirty = false) (hsame : ¬ changed b)
    (hnew : ∀ x, c.key x ≠ (dev, blockno)) :
    (c.recycle b dev blockno).Mirrors cur changed := by
  have hself : (c.recycle b dev blockno).buf b =
      { c.buf b with valid := false, dirty := false, dev := dev, blockno := blockno, refcnt := 1 } :=
    setBuf_self
  have hother : ∀ x, x ≠ b → (c.recycle b dev blockno).buf x = c.buf x := fun x => setBuf_of_ne
  have hkey : (c.recycle b dev blockno).key b = (dev, blockno) := by rw [key, hself]
  have hkeys : ∀ x, x ≠ b → (c.recycle b dev blockno).key x = c.key x := fun x =>
    setBuf_key_of_ne
  refine ⟨fun a y ha heq => ?_, fun y hd => ?_, fun y hv => ?_, fun y hd hv => ?_, ?_⟩
  · rcases eq_or_ne a b with rfl | hab
    · by_contra hne
      rw [hkey, hkeys y (Ne.symm hne)] at heq
      exact hnew y heq.symm
    · rcases eq_or_ne y b with rfl | hyb
      · rw [hkey, hkeys a hab] at heq
        exact absurd heq (hnew a)
      · rw [hother a hab] at ha
        rw [hkeys a hab, hkeys y hyb] at heq
        exact h.unique a y ha heq
  · rcases eq_or_ne y b with rfl | hyb
    · rw [hself] at hd
      cases hd
    · rw [hother y hyb] at hd ⊢
      exact h.filled y hd
  · rcases eq_or_ne y b with rfl | hyb
    · rw [hself] at hv
      cases hv
    · rw [hother y hyb] at hv ⊢
      exact h.synced y hv
  · rcases eq_or_ne y b with rfl | hyb
    · rw [hself] at hv
      cases hv
    · rw [hother y hyb] at hd hv ⊢
      exact h.cached y hd hv
  · intro d k hd hnone
    -- The block that the buffer was for is on disk.
    by_cases hold : c.key b = (d, k) ∧ (c.buf b).valid = true
    · obtain ⟨hk, hv⟩ := hold
      have hd' : (c.buf b).dev = d := congrArg Prod.fst hk
      have hk' : (c.buf b).blockno = k := congrArg Prod.snd hk
      have hdata := h.synced b hv hclean hsame
      have hcur := h.cached b (by rwa [hd']) hv
      rw [hd', hk'] at hdata hcur
      exact hdata.symm.trans hcur
    · refine h.stored d k hd fun y hy => ?_
      rcases eq_or_ne y b with rfl | hyb
      · by_contra hv
        exact hold ⟨hy, by simpa using hv⟩
      · rw [← hother y hyb]
        exact hnone y (by rwa [hkeys y hyb])

/-- Another value in a buffer, for the same block, and other contents of that block: on disk,
and to be read. -/
theorem Mirrors.setBuf {disk' cur' : Contents} (h : c.Mirrors cur changed)
    (hdev : (c.buf b).dev ≠ 0) (hkey : (v.dev, v.blockno) = c.key b)
    (hfilled : v.dirty = true → v.valid = true)
    (hsynced : v.valid = true → v.dirty = false → ¬ changed' b → v.data = disk' v.dev v.blockno)
    (hcached : v.valid = true → v.data = cur' v.dev v.blockno)
    (hstored : v.valid = false → disk' v.dev v.blockno = cur' v.dev v.blockno)
    (hsub : ∀ y, y ≠ b → changed y → changed' y)
    (hrest : ∀ d k, (d, k) ≠ c.key b → disk' d k = c.disk d k ∧ cur' d k = cur d k) :
    ({ c.setBuf b v with disk := disk' } : Bcache).Mirrors cur' changed' := by
  set w : Bcache := { c.setBuf b v with disk := disk' }
  have hself : w.buf b = v := setBuf_self
  have hother : ∀ y, y ≠ b → w.buf y = c.buf y := fun y => setBuf_of_ne
  have hkeys : ∀ y, w.key y = c.key y := by
    intro y
    rcases eq_or_ne y b with rfl | hyb
    · rw [← hkey, key, hself]
    · exact setBuf_key_of_ne hyb
  have hdevs : ∀ y, (w.buf y).dev = (c.buf y).dev := fun y => congrArg Prod.fst (hkeys y)
  have hne : ∀ y, y ≠ b → ((c.buf y).dev, (c.buf y).blockno) ≠ c.key b := fun y hyb heq =>
    hyb (h.unique b y hdev heq.symm).symm
  refine ⟨fun a y ha heq => ?_, fun y hd => ?_, fun y hv hd hn => ?_, fun y hd hv => ?_, ?_⟩
  · rw [hdevs] at ha
    rw [hkeys, hkeys] at heq
    exact h.unique a y ha heq
  · rcases eq_or_ne y b with rfl | hyb
    · rw [hself] at hd ⊢
      exact hfilled hd
    · rw [hother y hyb] at hd ⊢
      exact h.filled y hd
  · rcases eq_or_ne y b with rfl | hyb
    · rw [hself] at hv hd ⊢
      exact hsynced hv hd hn
    · rw [hother y hyb] at hv hd ⊢
      exact (h.synced y hv hd fun hc => hn (hsub y hyb hc)).trans
        (hrest _ _ (hne y hyb)).1.symm
  · rcases eq_or_ne y b with rfl | hyb
    · rw [hself] at hv ⊢
      exact hcached hv
    · rw [hother y hyb] at hd hv ⊢
      exact (h.cached y hd hv).trans (hrest _ _ (hne y hyb)).2.symm
  · intro d k hd hnone
    by_cases heq : (d, k) = c.key b
    · have hv := hnone b (by rw [hkeys]; exact heq.symm)
      rw [hself] at hv
      have hboth := hstored hv
      rw [← hkey] at heq
      obtain ⟨rfl, rfl⟩ := Prod.mk.inj heq
      exact hboth
    · obtain ⟨hdisk, hcur⟩ := hrest d k heq
      refine hdisk.trans (Eq.trans (h.stored d k hd fun y hy => ?_) hcur.symm)
      have hyb : y ≠ b := by
        rintro rfl
        exact heq hy.symm
      rw [← hother y hyb]
      exact hnone y (by rwa [hkeys y])

/-- A buffer without data is read from disk. -/
theorem Mirrors.readIn (h : c.Mirrors cur changed) (hdev : (c.buf b).dev ≠ 0)
    (hempty : (c.buf b).valid = false) : (c.readIn b).Mirrors cur changed := by
  -- No other buffer is for the block, so the disk has its latest contents.
  have hdisk : c.disk (c.buf b).dev (c.buf b).blockno = cur (c.buf b).dev (c.buf b).blockno := by
    refine h.stored _ _ hdev fun y hy => ?_
    rw [← h.unique b y hdev hy.symm]
    exact hempty
  exact h.setBuf hdev rfl (fun _ => rfl) (fun _ _ _ => rfl) (fun _ => hdisk)
    (fun hv => by cases hv) (fun _ _ hc => hc) fun _ _ _ => ⟨rfl, rfl⟩

/-- A store to a buffer is a store to its block. -/
theorem Mirrors.store (h : c.Mirrors cur changed) (hdev : (c.buf b).dev ≠ 0)
    (hvalid : (c.buf b).valid = true) (hb : changed' b) (hsub : ∀ y, changed y → changed' y) :
    (c.store b data).Mirrors (cur.set (c.buf b).dev (c.buf b).blockno data) changed' :=
  h.setBuf hdev rfl (fun _ => hvalid) (fun _ _ hn => absurd hb hn)
    (fun _ => (Contents.set_self cur _ _ data).symm)
    (fun hv => absurd (hvalid.symm.trans hv) (by decide)) (fun y _ => hsub y)
    fun _ _ hne => ⟨rfl, Contents.set_of_ne cur data hne⟩

/-- A dirty buffer need not be on disk. -/
theorem Mirrors.markDirty (h : c.Mirrors cur changed) (hdev : (c.buf b).dev ≠ 0)
    (hvalid : (c.buf b).valid = true) (hsub : ∀ y, y ≠ b → changed y → changed' y) :
    (c.markDirty b).Mirrors cur changed' :=
  h.setBuf hdev rfl (fun _ => hvalid) (fun _ hd => by cases hd) (fun _ => h.cached b hdev hvalid)
    (fun hv => absurd (hvalid.symm.trans hv) (by decide)) hsub fun _ _ _ => ⟨rfl, rfl⟩

/-- A dirty buffer is written to disk. -/
theorem Mirrors.writeOut (h : c.Mirrors cur changed) (hdev : (c.buf b).dev ≠ 0)
    (hvalid : (c.buf b).valid = true) : (c.writeOut b).Mirrors cur changed := by
  have hcur := h.cached b hdev hvalid
  exact h.setBuf hdev rfl (fun _ => rfl)
    (fun _ _ _ => (Contents.set_self c.disk _ _ (c.buf b).data).symm) (fun _ => hcur)
    (fun hv => by cases hv) (fun _ _ hc => hc)
    fun _ _ hne => ⟨Contents.set_of_ne c.disk (c.buf b).data hne, rfl⟩

end Bcache

/-! ## The invariant -/

namespace BufState

/-- A call that has the buffer. -/
def Holds (s : BufState) (h : Handle) : Prop := h ∈ s.handles ∧ ∃ ch, h.stage = .holding ch

/-- The buffers with changes that their holders have yet to pass on. -/
def Changed (s : BufState) (b : Fin nBuf) : Prop :=
  ∃ h ∈ s.handles, h.buf = b ∧ h.stage = .holding true

/-- What holds in every state, where `cur` has the latest contents. -/
structure Inv (s : BufState) (cur : Contents) : Prop where
  mirrors : s.cache.Mirrors cur s.Changed
  mru : ∃ xs, s.cache.Mru xs
  ids : (s.handles.map Handle.id).Nodup
  counted : ∀ b, (s.cache.buf b).refcnt = s.handles.countP fun h => h.buf = b
  locked : ∀ b id, (s.cache.buf b).holder = some id → ∃ h, s.Holds h ∧ h.id = id ∧ h.buf = b
  held : ∀ h, s.Holds h →
    (s.cache.buf h.buf).holder = some h.id ∧ (s.cache.buf h.buf).valid = true
  asked : ∀ h ∈ s.handles, s.cache.key h.buf = (h.dev, h.blockno) ∧ h.dev ≠ 0

/-- A buffer in use is for a block of a real device. -/
theorem Inv.real (hi : s.Inv cur) (hh : h ∈ s.handles) : (s.cache.buf h.buf).dev ≠ 0 := by
  obtain ⟨hkey, hdev⟩ := hi.asked h hh
  exact fun hzero => hdev ((congrArg Prod.fst hkey).symm.trans hzero)

theorem Inv.init (disk : Contents) : (BufState.init disk).Inv disk where
  mirrors := ⟨fun a b ha => absurd rfl ha, fun b hd => (by cases hd), fun b hv => (by cases hv),
    fun b hd => absurd rfl hd, fun _ _ _ _ => rfl⟩
  mru := Bcache.exists_mru_binit disk
  ids := List.nodup_nil
  counted := fun _ => rfl
  locked := fun b id hl => by cases hl
  held := fun h hh => by cases hh.1
  asked := fun h hh => by cases hh

/-! ## Calls -/

theorem Inv.eq_of_id (hi : s.Inv cur) (hh : h ∈ s.handles) (hg : g ∈ s.handles)
    (hid : h.id = g.id) : h = g := List.inj_on_of_nodup_map hi.ids hh hg hid

/-- Two calls that have the same buffer are one. -/
theorem Inv.eq_of_buf (hi : s.Inv cur) (hh : s.Holds h) (hg : s.Holds g) (hbuf : h.buf = g.buf) :
    h = g := by
  refine hi.eq_of_id hh.1 hg.1 (Option.some.inj ?_)
  rw [← (hi.held h hh).1, ← (hi.held g hg).1, hbuf]

/-- The other calls when one moves on or ends. -/
theorem Inv.mem_erase (hi : s.Inv cur) (hh : h ∈ s.handles) :
    g ∈ s.handles.erase h ↔ g ∈ s.handles ∧ g.id ≠ h.id := by
  rw [(hi.ids.of_map Handle.id).mem_erase_iff, and_comm]
  refine and_congr_right fun hg => not_congr ⟨fun heq => congrArg Handle.id heq, fun hid => ?_⟩
  exact hi.eq_of_id hg hh hid

theorem Inv.mem_move (hi : s.Inv cur) (hh : h ∈ s.handles) {c : Bcache} {st : Stage} :
    g ∈ (s.move c h st).handles ↔
      g = { h with stage := st } ∨ g ∈ s.handles ∧ g.id ≠ h.id := by
  rw [move, List.mem_cons, hi.mem_erase hh]

theorem Inv.ids_move (hi : s.Inv cur) (hh : h ∈ s.handles) (c : Bcache) (st : Stage) :
    ((s.move c h st).handles.map Handle.id).Nodup := by
  have hperm := (List.perm_cons_erase hh).map Handle.id
  exact hperm.nodup_iff.mp hi.ids

theorem Inv.counted_move (hi : s.Inv cur) (hh : h ∈ s.handles) (c : Bcache) (st : Stage)
    (b : Fin nBuf) : ((s.move c h st).handles.countP fun h => h.buf = b) =
      (s.cache.buf b).refcnt := by
  rw [hi.counted b, (List.perm_cons_erase hh).countP_eq, move, List.countP_cons, List.countP_cons]

/-- A buffer that somebody uses is counted. -/
theorem Inv.refcnt_pos (hi : s.Inv cur) (hh : h ∈ s.handles) :
    0 < (s.cache.buf h.buf).refcnt := by
  rw [hi.counted]
  exact List.countP_pos_iff.mpr ⟨h, hh, by simp⟩

/-- A buffer that nobody uses is not locked. -/
theorem Inv.free_of_refcnt (hi : s.Inv cur) (hzero : (s.cache.buf b).refcnt = 0) :
    (∀ h ∈ s.handles, h.buf ≠ b) ∧ (s.cache.buf b).holder = none := by
  have hnone : ∀ h ∈ s.handles, h.buf ≠ b := by
    rintro h hh rfl
    have := hi.refcnt_pos hh
    omega
  refine ⟨hnone, ?_⟩
  cases hl : (s.cache.buf b).holder with
  | none => rfl
  | some id =>
      obtain ⟨h, hh, _, hb⟩ := hi.locked b id hl
      exact absurd hb (hnone h hh.1)

end BufState

end OSProjects.Storage
