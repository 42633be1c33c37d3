import OSProjects.Wfs.Runs
import Mathlib.Data.List.Count

/-!
# The loop of `compact_entries`

The loop steps over the disk by the size of an inode, not by the size of an entry.
What it returns and when it stays inside the mapping depends on the deleted words at
these strides alone, because it writes only behind the place where it reads next.
-/

namespace OSProjects.Wfs

open ByteMemory WfsM

/-- The word that the loop takes for the deleted flag of an entry at this offset is zero. -/
def strideLive (m : Memory) (off : Nat) : Bool := inodeAt m off .deleted == 0

/-- How many of the first `n` strides from `off` lie below `stop` and count as live. -/
def liveStrides (m : Memory) (stop off n : Nat) : Nat :=
  (List.range n).countP fun k =>
    decide (off + sizeofInode * k < stop) && strideLive m (off + sizeofInode * k)

/-- The loop reads and copies inside the mapping: each deleted word lies below `stop`, and
a live stride lies below it whole, unless all strides before it are live, so that nothing
is moved. -/
def StridesInside (m : Memory) (stop off writeOffset : Nat) : Prop :=
  ∀ k, off + sizeofInode * k < stop → off + sizeofInode * k + 8 ≤ stop ∧
    (strideLive m (off + sizeofInode * k) = true → off + sizeofInode * k + sizeofInode ≤ stop ∨
      off = writeOffset ∧ ∀ j, j < k → strideLive m (off + sizeofInode * j) = true)

theorem strideLive_congr {m m' : Memory} {a off : Nat} (h : ∀ i, a ≤ i → m i = m' i)
    (ha : a ≤ off) : strideLive m off = strideLive m' off := by
  have hinode : inodeAt m off = inodeAt m' off := inodeAt_congr fun i hi _ => h i (by omega)
  rw [strideLive, strideLive, hinode]

theorem liveStrides_congr {m m' : Memory} {stop off n : Nat} (h : ∀ i, off ≤ i → m i = m' i) :
    liveStrides m stop off n = liveStrides m' stop off n := by
  apply List.countP_congr
  intro k _
  rw [strideLive_congr h (Nat.le_add_right _ _)]

theorem StridesInside.congr {m m' : Memory} {stop off writeOffset : Nat}
    (h : StridesInside m stop off writeOffset) (hm : ∀ i, off ≤ i → m i = m' i) :
    StridesInside m' stop off writeOffset := by
  intro k hk
  obtain ⟨h1, h2⟩ := h k hk
  refine ⟨h1, fun hlive => ?_⟩
  rw [← strideLive_congr hm (Nat.le_add_right _ _)] at hlive
  rcases h2 hlive with hfit | ⟨hoff, hall⟩
  · exact Or.inl hfit
  · refine Or.inr ⟨hoff, fun j hj => ?_⟩
    rw [← strideLive_congr hm (Nat.le_add_right _ _)]
    exact hall j hj

/-- The first stride and the others. -/
theorem liveStrides_succ (m : Memory) (stop off n : Nat) :
    liveStrides m stop off (n + 1) =
      (if off < stop ∧ strideLive m off = true then 1 else 0) +
        liveStrides m stop (off + sizeofInode) n := by
  have hshift : ∀ k, off + sizeofInode * (k + 1) = off + sizeofInode + sizeofInode * k := by
    intro k
    ring
  rw [liveStrides, List.range_succ_eq_map, List.countP_cons, List.countP_map, Nat.add_comm]
  simp only [Function.comp_def, Nat.succ_eq_add_one, hshift, Nat.mul_zero, Nat.add_zero,
    Bool.and_eq_true, decide_eq_true_eq, liveStrides]

theorem liveStrides_of_le (m : Memory) {stop off : Nat} (h : stop ≤ off) (n : Nat) :
    liveStrides m stop off n = 0 := by
  rw [liveStrides, List.countP_eq_zero]
  intro k _
  have : ¬ off + sizeofInode * k < stop := by omega
  simp [this]

theorem stride_succ (off k : Nat) :
    off + sizeofInode * (k + 1) = off + sizeofInode + sizeofInode * k := by
  ring

/-- A dead stride: the rest is behind a gap. -/
theorem stridesInside_dead {m : Memory} {stop off w : Nat} (hlt : off < stop) (hw : w ≤ off)
    (hdead : strideLive m off = false) :
    StridesInside m stop off w ↔ off + 8 ≤ stop ∧ StridesInside m stop (off + sizeofInode) w := by
  constructor
  · intro h
    refine ⟨(h 0 hlt).1, fun k hk => ?_⟩
    rw [← stride_succ] at hk ⊢
    obtain ⟨h1, h2⟩ := h (k + 1) hk
    refine ⟨h1, fun hlive => ?_⟩
    rcases h2 hlive with hfit | ⟨_, hall⟩
    · exact Or.inl hfit
    · have h0 := hall 0 (Nat.succ_pos k)
      rw [Nat.mul_zero, Nat.add_zero, hdead] at h0
      cases h0
  · rintro ⟨h0, h⟩ k hk
    cases k with
    | zero =>
        refine ⟨h0, fun hlive => ?_⟩
        rw [Nat.mul_zero, Nat.add_zero, hdead] at hlive
        cases hlive
    | succ k =>
        rw [stride_succ] at hk ⊢
        obtain ⟨h1, h2⟩ := h k hk
        refine ⟨h1, fun hlive => ?_⟩
        rcases h2 hlive with hfit | ⟨hoff, _⟩
        · exact Or.inl hfit
        · simp only [sizeofInode] at hoff
          omega

/-- A live stride that stays where it is. -/
theorem stridesInside_keep {m : Memory} {stop off : Nat} (hlt : off < stop)
    (hlive : strideLive m off = true) :
    StridesInside m stop off off ↔
      off + 8 ≤ stop ∧ StridesInside m stop (off + sizeofInode) (off + sizeofInode) := by
  constructor
  · intro h
    refine ⟨(h 0 hlt).1, fun k hk => ?_⟩
    rw [← stride_succ] at hk ⊢
    obtain ⟨h1, h2⟩ := h (k + 1) hk
    refine ⟨h1, fun hl => ?_⟩
    rcases h2 hl with hfit | ⟨_, hall⟩
    · exact Or.inl hfit
    · refine Or.inr ⟨rfl, fun j hj => ?_⟩
      rw [← stride_succ]
      exact hall (j + 1) (Nat.succ_lt_succ hj)
  · rintro ⟨h0, h⟩ k hk
    cases k with
    | zero => exact ⟨h0, fun _ => Or.inr ⟨rfl, fun j hj => absurd hj (Nat.not_lt_zero j)⟩⟩
    | succ k =>
        rw [stride_succ] at hk ⊢
        obtain ⟨h1, h2⟩ := h k hk
        refine ⟨h1, fun hl => ?_⟩
        rcases h2 hl with hfit | ⟨_, hall⟩
        · exact Or.inl hfit
        · refine Or.inr ⟨rfl, fun j hj => ?_⟩
          cases j with
          | zero => exact hlive
          | succ j =>
              rw [stride_succ]
              exact hall j (Nat.lt_of_succ_lt_succ hj)

/-- A live stride that is moved. -/
theorem stridesInside_move {m : Memory} {stop off w : Nat} (hlt : off < stop) (hw : w < off)
    (hlive : strideLive m off = true) :
    StridesInside m stop off w ↔ off + sizeofInode ≤ stop ∧
      StridesInside m stop (off + sizeofInode) (w + sizeofInode) := by
  constructor
  · intro h
    refine ⟨?_, fun k hk => ?_⟩
    · rcases (h 0 hlt).2 hlive with hfit | ⟨hoff, _⟩
      · exact hfit
      · omega
    · rw [← stride_succ] at hk ⊢
      obtain ⟨h1, h2⟩ := h (k + 1) hk
      refine ⟨h1, fun hl => ?_⟩
      rcases h2 hl with hfit | ⟨hoff, _⟩
      · exact Or.inl hfit
      · omega
  · rintro ⟨h0, h⟩ k hk
    cases k with
    | zero =>
        refine ⟨?_, fun _ => Or.inl h0⟩
        simp only [sizeofInode] at h0 ⊢
        omega
    | succ k =>
        rw [stride_succ] at hk ⊢
        obtain ⟨h1, h2⟩ := h k hk
        refine ⟨h1, fun hl => ?_⟩
        rcases h2 hl with hfit | ⟨hoff, _⟩
        · exact Or.inl hfit
        · omega

/-! ## One round -/

section

variable {img : Image} {fuel off writeOffset : Nat}

theorem exec_compactLoop_done (h : img.size ≤ off) :
    exec (compactLoop img.size (fuel + 1) off writeOffset) img = some (writeOffset, img) := by
  rw [compactLoop, if_neg (by omega)]
  rfl

theorem exec_loadDeleted (h : off + 8 ≤ img.size) :
    exec (loadField off .deleted) img = some (inodeAt img.byte off .deleted, img) :=
  exec_load (by simpa [InodeField.offset] using h)

theorem exec_compactLoop_outside (hlt : off < img.size) (h : img.size < off + 8) :
    exec (compactLoop img.size (fuel + 1) off writeOffset) img = none := by
  have hload : exec (loadField off .deleted) img = none := by
    simp [exec, loadField, load, InodeField.offset, Nat.not_le.mpr h]
  rw [compactLoop, if_pos hlt, exec_bind, hload]
  rfl

theorem exec_compactLoop_dead (h : off + 8 ≤ img.size) (hdead : strideLive img.byte off = false) :
    exec (compactLoop img.size (fuel + 1) off writeOffset) img =
      exec (compactLoop img.size fuel (off + sizeofInode) writeOffset) img := by
  have hne : inodeAt img.byte off .deleted ≠ 0 := by simpa [strideLive] using hdead
  rw [compactLoop, if_pos (by omega), exec_bind, exec_loadDeleted h, Option.bind_some, if_neg hne]

theorem exec_compactLoop_keep (h : off + 8 ≤ img.size) (hlive : strideLive img.byte off = true) :
    exec (compactLoop img.size (fuel + 1) off off) img =
      exec (compactLoop img.size fuel (off + sizeofInode) (off + sizeofInode)) img := by
  have h0 : inodeAt img.byte off .deleted = 0 := by simpa [strideLive] using hlive
  rw [compactLoop, if_pos (by omega), exec_bind, exec_loadDeleted h, Option.bind_some, if_pos h0,
    if_neg (by simp)]

theorem exec_compactLoop_move (h : off + 8 ≤ img.size) (hlive : strideLive img.byte off = true)
    (hne : off ≠ writeOffset) :
    exec (compactLoop img.size (fuel + 1) off writeOffset) img =
      (exec (memcpy writeOffset off sizeofInode) img).bind fun r =>
        exec (compactLoop img.size fuel (off + sizeofInode) (writeOffset + sizeofInode)) r.2 := by
  have h0 : inodeAt img.byte off .deleted = 0 := by simpa [strideLive] using hlive
  rw [compactLoop, if_pos (by omega), exec_bind, exec_loadDeleted h, Option.bind_some, if_pos h0,
    if_pos hne, exec_bind]

end

/-! ## The whole loop -/

/-- The bytes that a moved entry does not reach. -/
theorem apply_move_byte (img : Image) (dst src : Nat) {i : Nat}
    (h : i < dst ∨ dst + sizeofInode ≤ i) :
    (img.apply [⟨dst, readBytes img.byte src sizeofInode⟩]).byte i = img.byte i := by
  rw [apply_single_byte]
  rcases h with h | h
  · exact Store.apply_of_lt _ _ h
  · apply Store.apply_of_stop_le
    simpa only [Store.stop, length_readBytes] using h

/-- A loop that returns has counted the live strides, has stayed inside the mapping and has
kept every byte below its first write offset. -/
theorem compactLoop_returns {fuel off writeOffset w : Nat} {img img' : Image}
    (h : exec (compactLoop img.size fuel off writeOffset) img = some (w, img'))
    (hle : writeOffset ≤ off) :
    w = writeOffset + sizeofInode * liveStrides img.byte img.size off fuel ∧
      img'.size = img.size ∧ (∀ i, i < writeOffset → img'.byte i = img.byte i) ∧
      StridesInside img.byte img.size off writeOffset := by
  induction fuel generalizing off writeOffset img with
  | zero => cases h
  | succ fuel ih =>
      by_cases hstop : img.size ≤ off
      · rw [exec_compactLoop_done hstop, Option.some.injEq, Prod.mk.injEq] at h
        obtain ⟨rfl, rfl⟩ := h
        refine ⟨by rw [liveStrides_of_le _ hstop]; rfl, rfl, fun _ _ => rfl, fun k hk => ?_⟩
        omega
      have hword : off + 8 ≤ img.size := by
        by_contra hout
        rw [exec_compactLoop_outside (by omega) (by omega)] at h
        cases h
      rw [liveStrides_succ]
      cases hlive : strideLive img.byte off with
      | false =>
          rw [exec_compactLoop_dead hword hlive] at h
          obtain ⟨hw, hsize, hframe, hin⟩ := ih h (by omega)
          refine ⟨by rw [hw]; simp, hsize, hframe, ?_⟩
          exact (stridesInside_dead (by omega) hle hlive).mpr ⟨hword, hin⟩
      | true =>
          rw [if_pos ⟨by omega, rfl⟩]
          by_cases hoff : off = writeOffset
          · subst hoff
            rw [exec_compactLoop_keep hword hlive] at h
            obtain ⟨hw, hsize, hframe, hin⟩ := ih h (Nat.le_refl _)
            refine ⟨by rw [hw]; ring, hsize, fun i hi => hframe i (by omega), ?_⟩
            exact (stridesInside_keep (by omega) hlive).mpr ⟨hword, hin⟩
          · rw [exec_compactLoop_move hword hlive hoff] at h
            obtain ⟨⟨_, img1⟩, hcopy, hrest⟩ := Option.bind_eq_some_iff.mp h
            have hfit : off + sizeofInode ≤ img.size ∧ writeOffset + sizeofInode ≤ img.size := by
              by_contra hout
              simp [exec, memcpy, hout] at hcopy
            rw [exec_memcpy hfit.1 hfit.2, Option.some.injEq, Prod.mk.injEq] at hcopy
            obtain ⟨_, rfl⟩ := hcopy
            obtain ⟨hw, hsize, hframe, hin⟩ := ih hrest (by omega)
            have hkeep : ∀ i, off + sizeofInode ≤ i →
                (img.apply [⟨writeOffset, readBytes img.byte off sizeofInode⟩]).byte i =
                  img.byte i :=
              fun i hi => apply_move_byte img _ _ (Or.inr (by omega))
            rw [liveStrides_congr hkeep] at hw
            refine ⟨by rw [hw, Image.apply_size]; ring, hsize, fun i hi => ?_, ?_⟩
            · rw [hframe i (by omega), apply_move_byte img _ _ (Or.inl hi)]
            · exact (stridesInside_move (by omega) (by omega) hlive).mpr
                ⟨hfit.1, hin.congr hkeep⟩

/-- A loop whose strides lie inside the mapping returns. -/
theorem compactLoop_total {fuel off writeOffset : Nat} {img : Image}
    (hpos : 0 < fuel) (hfuel : img.size < off + fuel) (hle : writeOffset ≤ off)
    (hin : StridesInside img.byte img.size off writeOffset) :
    ∃ r, exec (compactLoop img.size fuel off writeOffset) img = some r := by
  induction fuel generalizing off writeOffset img with
  | zero => cases hpos
  | succ fuel ih =>
      by_cases hstop : img.size ≤ off
      · exact ⟨_, exec_compactLoop_done hstop⟩
      have hlt : off < img.size := by omega
      have hfuel' : 0 < fuel := by omega
      have hnext : img.size < off + sizeofInode + fuel := by
        simp only [sizeofInode]
        omega
      have hword : off + 8 ≤ img.size := (hin 0 hlt).1
      cases hlive : strideLive img.byte off with
      | false =>
          rw [exec_compactLoop_dead hword hlive]
          exact ih hfuel' hnext (by omega) ((stridesInside_dead hlt hle hlive).mp hin).2
      | true =>
          by_cases hoff : off = writeOffset
          · subst hoff
            rw [exec_compactLoop_keep hword hlive]
            exact ih hfuel' hnext (Nat.le_refl _) ((stridesInside_keep hlt hlive).mp hin).2
          · obtain ⟨hfit, hrest⟩ := (stridesInside_move hlt (by omega) hlive).mp hin
            have hkeep : ∀ i, off + sizeofInode ≤ i → img.byte i =
                (img.apply [⟨writeOffset, readBytes img.byte off sizeofInode⟩]).byte i :=
              fun i hi => (apply_move_byte img _ _ (Or.inr (by omega))).symm
            rw [exec_compactLoop_move hword hlive hoff, exec_memcpy hfit (by omega),
              Option.bind_some]
            exact ih hfuel' hnext (by omega) (hrest.congr hkeep)

end OSProjects.Wfs
