import Mathlib.Data.Finset.Image
import OSProjects.Storage.LogProgress

/-!
# How many blocks a system call may log

`begin_op` reserves `MAXOPBLOCKS` blocks of `LOGSIZE` for each call, but `log_write` panics
when the log holds `log.size - 1` blocks, and `mkfs` makes the log `LOGSIZE` blocks long with
its header. So calls that log up to `MAXOPBLOCKS` blocks can panic, and calls that log fewer
cannot.
-/

namespace OSProjects.Storage

open RedoLog StepSystem Xv6

variable {L : LogArea} {s t u : LogState} {pid b k : Nat}

/-- A step in which no call logs more than `k` different blocks. -/
def LogArea.Modest (L : LogArea) (k : Nat) (s : LogState) (l : LogAct) (t : LogState) : Prop :=
  LogStep L s l t ∧
    ∀ pid b, l = .logWrite pid b → ∀ o ∈ s.ops, o.pid = pid → (insert b o.wrote).card ≤ k

/-- The blocks that calls may still log when each logs at most `MAXOPBLOCKS - 1`. -/
def reserve (ops : List Op) : Nat := (ops.map fun o => maxOpBlocks - 1 - o.wrote.card).sum

@[simp] theorem reserve_nil : reserve [] = 0 := rfl

@[simp] theorem reserve_cons (o : Op) (ops : List Op) :
    reserve (o :: ops) = (maxOpBlocks - 1 - o.wrote.card) + reserve ops := by
  simp [reserve]

theorem reserve_le (ops : List Op) : reserve ops ≤ (maxOpBlocks - 1) * ops.length := by
  induction ops with
  | nil => exact Nat.zero_le _
  | cons o ops ih =>
      rw [reserve_cons, List.length_cons, Nat.mul_succ]
      omega

theorem reserve_eraseP (ops : List Op) (p : Op → Bool) : reserve (ops.eraseP p) ≤ reserve ops := by
  induction ops with
  | nil => exact Nat.le_refl _
  | cons o ops ih =>
      rw [List.eraseP_cons]
      cases p o with
      | true =>
          simp only [cond_true, reserve_cons]
          omega
      | false =>
          simp only [cond_false, reserve_cons]
          omega

/-- The call of `pid` logs block `b`. -/
def Op.logs (pid b : Nat) (o : Op) : Op :=
  if o.pid = pid then { o with wrote := insert b o.wrote, changed := o.changed.erase b } else o

theorem Op.card_logs (pid b : Nat) (o : Op) : o.wrote.card ≤ (o.logs pid b).wrote.card := by
  unfold Op.logs
  split
  · exact Finset.card_le_card (Finset.subset_insert b o.wrote)
  · exact Nat.le_refl _

theorem reserve_logs (pid b : Nat) (ops : List Op) : reserve (ops.map (Op.logs pid b)) ≤ reserve ops := by
  induction ops with
  | nil => exact Nat.le_refl _
  | cons o ops ih =>
      have := o.card_logs pid b
      rw [List.map_cons, reserve_cons, reserve_cons]
      omega

/-- A call that logs a further block uses up some of what it may log. -/
theorem reserve_logs_lt {ops : List Op} (hin : ∃ o ∈ ops, o.pid = pid)
    (hnew : ∀ o ∈ ops, b ∉ o.wrote)
    (hmodest : ∀ o ∈ ops, o.pid = pid → (insert b o.wrote).card ≤ maxOpBlocks - 1) :
    reserve (ops.map (Op.logs pid b)) < reserve ops := by
  induction ops with
  | nil =>
      obtain ⟨o, ho, _⟩ := hin
      cases ho
  | cons o ops ih =>
      rw [List.map_cons, reserve_cons, reserve_cons]
      by_cases hpid : o.pid = pid
      · have hrest := reserve_logs pid b ops
        have hcard := hmodest o List.mem_cons_self hpid
        have hlogs : (o.logs pid b).wrote.card = o.wrote.card + 1 := by
          rw [Op.logs, if_pos hpid]
          exact Finset.card_insert_of_notMem (hnew o List.mem_cons_self)
        rw [Finset.card_insert_of_notMem (hnew o List.mem_cons_self)] at hcard
        omega
      · have hsame : o.logs pid b = o := if_neg hpid
        have hrest := ih
          (by
            obtain ⟨o', ho', hpid'⟩ := hin
            rcases List.mem_cons.mp ho' with rfl | ho'
            · exact absurd hpid' hpid
            · exact ⟨o', ho', hpid'⟩)
          (fun o ho => hnew o (List.mem_cons_of_mem _ ho))
          fun o ho => hmodest o (List.mem_cons_of_mem _ ho)
        rw [hsame]
        omega

namespace LogState

/-- The log has room for all that the calls inside may still log. -/
structure Roomy (s : LogState) : Prop where
  alive : ∀ why, s.phase ≠ .stopped why
  wrote : ∀ o ∈ s.ops, ∀ x ∈ o.wrote, x ∈ s.lh
  room : s.phase = .idle → s.lh.length + reserve s.ops ≤ logSize - 2

theorem Roomy.step {l : LogAct} (hsize : L.size = logSize) (hk : k < maxOpBlocks)
    (h : s.Inv L) (hr : s.Roomy) (hstep : L.Modest k s l t) : t.Roomy := by
  obtain ⟨hlog, hmodest⟩ := hstep
  have hmax : maxOpBlocks = 10 := rfl
  have hlogSize : logSize = 30 := rfl
  cases hlog with
  | @beginOp pid hready hadmits =>
      have hphase := h.idle_of_mounted hready.mounted hadmits.1 hready.alive
      have hempty := (h.knows_at hphase).2.2.2.2
      have hbegin : s.beginOp pid =
          { s with outstanding := s.outstanding + 1, ops := ⟨pid, ∅, ∅⟩ :: s.ops } := by
        rw [LogState.beginOp, if_neg (by rw [hadmits.1]; decide), if_neg hadmits.2]
      rw [hbegin]
      refine ⟨hready.alive, fun o ho x hx => ?_, fun _ => ?_⟩
      · rcases List.mem_cons.mp ho with rfl | ho
        · cases hx
        · exact hr.wrote o ho x hx
      · have hroom := hadmits.2
        have hle := reserve_le s.ops
        have hcount := h.counted
        have hcard : (∅ : Finset Nat).card = 0 := rfl
        simp only [reserve_cons, hcard]
        rw [hmax] at hroom hle ⊢
        rcases Nat.eq_zero_or_pos s.ops.length with hzero | hpos
        · rw [hempty (List.length_eq_zero_iff.mp hzero), List.length_nil]
          omega
        · omega
  | sleepOp hready hfull =>
      rw [LogState.beginOp_full hfull]
      exact ⟨hr.alive, hr.wrote, hr.room⟩
  | @change pid b data hin hhome =>
      refine ⟨hr.alive, fun o ho x hx => ?_, fun hphase => ?_⟩
      · obtain ⟨o', ho', rfl⟩ := List.mem_map.mp ho
        refine hr.wrote o' ho' x ?_
        split at hx <;> exact hx
      · have hsame : reserve (s.change pid b data).ops = reserve s.ops := by
          rw [reserve, reserve, LogState.change, List.map_map]
          refine congrArg List.sum (List.map_congr_left fun o _ => ?_)
          simp only [Function.comp_apply]
          split <;> rfl
        rw [hsame]
        exact hr.room hphase
  | @logWrite pid b hin hhome hword =>
      have hphase := h.idle_of_inside hin
      have hroom := hr.room hphase
      have hfree : ¬ (logSize ≤ s.lh.length ∨ L.size ≤ s.lh.length + 1) := by
        rw [hsize]
        omega
      rw [h.logWrite_eq hin, if_neg hfree]
      refine ⟨hr.alive, fun o ho x hx => ?_, fun _ => ?_⟩
      · obtain ⟨o', ho', rfl⟩ := List.mem_map.mp ho
        refine mem_logged_lh ?_
        split at hx
        · exact (Finset.mem_insert.mp hx).symm.imp_left (hr.wrote o' ho' x)
        · exact .inl (hr.wrote o' ho' x hx)
      · change (if b ∈ s.lh then s.lh else s.lh ++ [b]).length +
          reserve (s.ops.map (Op.logs pid b)) ≤ logSize - 2
        split
        · have := reserve_logs pid b s.ops
          omega
        · next hnew =>
          have hless := reserve_logs_lt hin.op (fun o ho hx => hnew (hr.wrote o ho b hx))
            fun o ho hpid => Nat.le_trans (hmodest pid b rfl o ho hpid) (by omega)
          rw [List.length_append, List.length_singleton]
          omega
  | @endOp pid hin hlogged =>
      obtain ⟨halive, hsub⟩ := h.endOp_alive hin
      have hphase := h.idle_of_inside hin
      have hcommitting := (h.knows_at hphase).1
      have hkeep : (s.endOp pid).lh = s.lh ∧
          (s.endOp pid).ops = s.ops.eraseP fun o => o.pid = pid := by
        unfold LogState.endOp
        simp only
        rw [if_neg (by rw [hcommitting]; decide)]
        split <;> exact ⟨rfl, rfl⟩
      refine ⟨halive, fun o ho x hx => ?_, fun _ => ?_⟩
      · rw [hkeep.1]
        exact hr.wrote o (hsub o ho) x hx
      · have := reserve_eraseP s.ops fun o => o.pid = pid
        have := hr.room hphase
        rw [hkeep.1, hkeep.2]
        omega
  | proceed hbusy halive =>
      have hp := LogState.proceed_spec h
      have hops : s.ops = [] := by
        by_contra hne
        obtain ⟨o, ho⟩ := List.exists_mem_of_ne_nil _ hne
        exact hbusy (h.idle_of_inside ⟨halive, o, ho, rfl⟩)
      refine ⟨(LogState.proceed_nearer h hbusy halive).2, fun o ho => ?_, fun hidle => ?_⟩
      · rw [hp.ops, hops] at ho
        cases ho
      · have hempty := (hp.inv.knows_at hidle).2.2.2.2 (hp.ops.trans hops)
        rw [hempty, hp.ops, hops]
        exact Nat.zero_le _
  | crash =>
      exact ⟨fun why hw => (by cases hw), fun o ho => (by cases ho), fun hidle => by cases hidle⟩

end LogState

/-! ## Three calls of ten blocks -/

/-- The blocks that call `pid` of the overflowing run writes. -/
def blocksOf (base pid : Nat) : Finset Nat :=
  (Finset.range maxOpBlocks).image fun i => base + maxOpBlocks * pid + i

/-- Three calls are inside, and the first `n` blocks from `base` on are logged. -/
structure Filled (s : LogState) (base n : Nat) : Prop where
  idle : s.phase = .idle
  pids : s.ops.map Op.pid = [2, 1, 0]
  logged : s.lh = List.range' base n
  own : ∀ o ∈ s.ops, o.wrote ⊆ blocksOf base o.pid

theorem card_blocksOf (base pid : Nat) : (blocksOf base pid).card ≤ maxOpBlocks :=
  Finset.card_image_le.trans_eq (Finset.card_range _)

theorem mem_blocksOf (base n : Nat) : base + n ∈ blocksOf base (n / maxOpBlocks) := by
  refine Finset.mem_image.mpr ⟨n % maxOpBlocks, Finset.mem_range.mpr (Nat.mod_lt n (by decide)), ?_⟩
  rw [Nat.add_assoc, Nat.div_add_mod]

theorem Filled.modest {base n : Nat} (h : Filled s base n) (hk : maxOpBlocks ≤ k)
    {o : Op} (ho : o ∈ s.ops) (hpid : o.pid = n / maxOpBlocks) :
    (insert (base + n) o.wrote).card ≤ k := by
  refine ((Finset.card_le_card ?_).trans (card_blocksOf base o.pid)).trans hk
  refine Finset.insert_subset ?_ (h.own o ho)
  rw [hpid]
  exact mem_blocksOf base n

/-- A call that may go on is inside. -/
theorem Filled.inside {base n : Nat} (h : Filled s base n) (hn : n < logSize) :
    s.Inside (n / maxOpBlocks) := by
  have halive : ∀ why, s.phase ≠ .stopped why := fun why hw => by
    rw [h.idle] at hw
    cases hw
  refine ⟨halive, ?_⟩
  have hpid : n / maxOpBlocks ∈ s.ops.map Op.pid := by
    have hlt : n / 10 < 3 := Nat.div_lt_of_lt_mul hn
    rw [h.pids]
    change n / 10 ∈ [2, 1, 0]
    have hcases : n / 10 = 2 ∨ n / 10 = 1 ∨ n / 10 = 0 := by omega
    rcases hcases with heq | heq | heq <;> rw [heq] <;> decide
  obtain ⟨o, ho, heq⟩ := List.mem_map.mp hpid
  exact ⟨o, ho, heq⟩

/-- The next block of the next call is logged. -/
theorem Filled.succ {base n : Nat} (hsize : L.size = logSize) (h : s.Inv L) (hf : Filled s base n)
    (hn : n + 1 < logSize) :
    Filled (s.logWrite L (n / maxOpBlocks) (base + n)) base (n + 1) := by
  have hlen : s.lh.length = n := by rw [hf.logged, List.length_range']
  have hroom : ¬ (logSize ≤ s.lh.length ∨ L.size ≤ s.lh.length + 1) := by
    rw [hsize, hlen]
    omega
  have hnew : base + n ∉ s.lh := by
    rw [hf.logged, List.mem_range'_1]
    omega
  rw [h.logWrite_eq (hf.inside (by omega)), if_neg hroom]
  refine ⟨hf.idle, ?_, ?_, fun o ho => ?_⟩
  · rw [LogState.logged, List.map_map, ← hf.pids]
    refine List.map_congr_left fun o _ => ?_
    simp only [Function.comp_apply]
    split <;> rfl
  · change (if base + n ∈ s.lh then s.lh else s.lh ++ [base + n]) = _
    rw [if_neg hnew, hf.logged, List.range'_concat, Nat.one_mul]
  · obtain ⟨o', ho', rfl⟩ := List.mem_map.mp ho
    have hsub := hf.own o' ho'
    split
    · next hpid =>
      refine Finset.insert_subset ?_ hsub
      change base + n ∈ blocksOf base o'.pid
      rw [hpid]
      exact mem_blocksOf base n
    · exact hsub

/-- After three calls have entered, nothing is logged yet. -/
theorem exists_filled_zero (base : Nat) :
    ∃ ls t, Run (L.Modest k) (.boot fun _ _ => 0) ls t ∧ Filled t base 0 := by
  refine ⟨_, _, (run_three_calls L).mono_of_mem fun _ l _ hl hstep => ⟨hstep, fun pid b heq => ?_⟩,
    rfl, rfl, rfl, fun o ho => ?_⟩
  · subst heq
    simp at hl
  · have hnone : o.wrote = ∅ := by
      change o ∈ [(⟨2, ∅, ∅⟩ : Op), ⟨1, ∅, ∅⟩, ⟨0, ∅, ∅⟩] at ho
      simp only [List.mem_cons, List.not_mem_nil, or_false] at ho
      rcases ho with rfl | rfl | rfl <;> rfl
    rw [hnone]
    exact Finset.empty_subset _

/-- With `MAXOPBLOCKS` blocks for each call, three calls fill the log and panic. -/
theorem exists_tooBig (hsize : L.size = logSize) (hk : maxOpBlocks ≤ k) :
    ∃ ls s, Run (L.Modest k) (.boot fun _ _ => 0) ls s ∧ s.phase = .stopped .tooBig := by
  obtain ⟨base, hhome, hword⟩ : ∃ base, (∀ n, n < logSize → L.format.Home (base + n)) ∧
      ∀ n, n < logSize → base + n < 2 ^ 32 := by
    have hsize' : L.format.capacity = 29 := congrArg (· - 1) hsize
    rcases Nat.lt_or_ge L.start 30 with hlow | hhigh
    · refine ⟨60, fun n hn => .inr ?_, fun n hn => ?_⟩
      · rw [hsize', LogArea.format_start]
        omega
      · change n < 30 at hn
        omega
    · refine ⟨0, fun n hn => .inl ?_, fun n hn => ?_⟩
      · rw [LogArea.format_start]
        change n < 30 at hn
        omega
      · change n < 30 at hn
        omega
  have hrunOf : ∀ {ls s}, Run (L.Modest k) (.boot fun _ _ => 0) ls s → s.Inv L := fun hrun =>
    .of_run LogArea.bootable_zero (hrun.mono fun _ _ _ h => h.1)
  have hfill : ∀ n, n < logSize →
      ∃ ls s, Run (L.Modest k) (.boot fun _ _ => 0) ls s ∧ Filled s base n := by
    intro n
    induction n with
    | zero => exact fun _ => exists_filled_zero base
    | succ n ih =>
        intro hn
        obtain ⟨ls, s, hrun, hf⟩ := ih (by omega)
        refine ⟨_, _, hrun.concat ⟨.logWrite (hf.inside (by omega)) (hhome n (by omega))
          (hword n (by omega)), fun pid b hl o ho hpid => ?_⟩, hf.succ hsize (hrunOf hrun) hn⟩
        cases hl
        exact hf.modest hk ho hpid
  obtain ⟨ls, s, hrun, hf⟩ := hfill 29 (by decide)
  refine ⟨_, _, hrun.concat ⟨.logWrite (hf.inside (by decide)) (hhome 29 (by decide))
    (hword 29 (by decide)), fun pid b hl o ho hpid => ?_⟩, ?_⟩
  · cases hl
    exact hf.modest hk ho hpid
  · rw [(hrunOf hrun).logWrite_eq (hf.inside (by decide)), if_pos]
    · rfl
    · rw [hf.logged, List.length_range', hsize]
      exact .inr (Nat.le_refl _)

/-- In a log of `LOGSIZE` blocks, no run panics whose calls log at most `k` different blocks
each, exactly when `k` is below `MAXOPBLOCKS`. -/
theorem log_never_panics_iff (hsize : L.size = logSize) :
    (∀ d ls s why, L.Bootable d → Run (L.Modest k) (.boot d) ls s → s.phase ≠ .stopped why) ↔
      k < maxOpBlocks := by
  constructor
  · intro hnever
    by_contra hk
    obtain ⟨ls, s, hrun, hstop⟩ := exists_tooBig (k := k) hsize (by omega)
    exact hnever _ ls s _ LogArea.bootable_zero hrun hstop
  · intro hk d ls s why hd hrun
    have hroomy : s.Roomy := by
      induction hrun with
      | nil =>
          exact ⟨fun why hw => (by cases hw), fun o ho => (by cases ho), fun hidle => by cases hidle⟩
      | concat hrun hstep ih =>
          exact ih.step hsize hk (.of_run hd (hrun.mono fun _ _ _ h => h.1)) hstep
    exact hroomy.alive why

theorem log_never_panics_iff_nine :
    (∀ d ls s why, (LogArea.mk 2 30).Bootable d →
      Run ((LogArea.mk 2 30).Modest 9) (.boot d) ls s → s.phase ≠ .stopped why) ↔
        9 < maxOpBlocks :=
  log_never_panics_iff rfl

end OSProjects.Storage
