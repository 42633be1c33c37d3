import OSProjects.Foundation.StepSystem
import OSProjects.Storage.LogInvariant

/-!
# Crashes and recovery

The log refines the store whose commits are atomic: what recovery would leave changes only when
the header of a commit is written, with no system call inside a transaction, and then becomes
what the system sees. Runs of recovery that are cut by further crashes end in that disk.
-/

namespace OSProjects.Storage

open RedoLog StepSystem Xv6

variable {L : LogArea} {s t u : LogState} {pid b : Nat} {data : Block}

/-! ## System calls -/

namespace LogState

theorem Inv.beginOp_admitted (h : s.Inv L) (hready : s.Ready pid) (hadmits : s.Admits) :
    (s.beginOp pid).Inv L ∧ (s.beginOp pid).ops.length = s.ops.length + 1 := by
  have hphase := h.idle_of_mounted hready.mounted hadmits.1 hready.alive
  obtain ⟨hcommitting, hmounted, hclear, htracked, _⟩ := h.knows_at hphase
  have hbegin : s.beginOp pid =
      { s with outstanding := s.outstanding + 1, ops := ⟨pid, ∅, ∅⟩ :: s.ops } := by
    rw [beginOp, if_neg (by rw [hcommitting]; decide), if_neg hadmits.2]
  rw [hbegin]
  refine ⟨⟨h.fits, h.words, h.short, ?_, h.area, ?_⟩, rfl⟩
  · exact congrArg (· + 1) h.counted
  · change LogState.Knows _ L s.phase
    rw [hphase]
    refine ⟨hcommitting, hmounted, hclear, fun x hx hne => ?_, fun hnil => by cases hnil⟩
    rcases htracked x hx hne with hmem | ⟨o, ho, hch⟩
    · exact .inl hmem
    · exact .inr ⟨o, List.mem_cons_of_mem _ ho, hch⟩

theorem beginOp_full (hfull : ¬ s.Admits) :
    s.beginOp pid = { s with sleeping := pid :: s.sleeping } := by
  unfold beginOp
  cases hcommitting : s.committing with
  | true => rw [if_pos rfl]
  | false =>
      have hroom : logSize < s.lh.length + (s.outstanding + 1) * maxOpBlocks := by
        by_contra hnot
        exact hfull ⟨hcommitting, hnot⟩
      rw [if_neg (by decide), if_pos hroom]

/-- Only `log`'s own fields matter to the invariant. -/
theorem Inv.withSleeping (h : s.Inv L) (pids : List Nat) :
    ({ s with sleeping := pids } : LogState).Inv L := by
  refine ⟨h.fits, h.words, h.short, h.counted, h.area, ?_⟩
  change LogState.Knows _ L s.phase
  cases hphase : s.phase with
  | idle => exact h.knows_at hphase
  | writeLog tail =>
      obtain ⟨hc, hrest⟩ := h.knows_at hphase
      exact ⟨⟨hc.ops, hc.committing, hc.mounted⟩, hrest⟩
  | writeHead =>
      obtain ⟨hc, hrest⟩ := h.knows_at hphase
      exact ⟨⟨hc.ops, hc.committing, hc.mounted⟩, hrest⟩
  | install tail =>
      obtain ⟨hi, hrest⟩ := h.knows_at hphase
      exact ⟨⟨hi.ops, hi.committing, hi.named, hi.cached, hi.copied, hi.seen⟩, hrest⟩
  | clearHead =>
      obtain ⟨hi, hrest⟩ := h.knows_at hphase
      exact ⟨⟨hi.ops, hi.committing, hi.named, hi.cached, hi.copied, hi.seen⟩, hrest⟩
  | committed =>
      obtain ⟨hc, hrest⟩ := h.knows_at hphase
      exact ⟨⟨hc.ops, hc.committing, hc.mounted⟩, hrest⟩
  | readHead => exact h.knows_at hphase
  | stopped why => exact h.knows_at hphase

theorem Inside.length_pos (hin : s.Inside pid) : 0 < s.ops.length := by
  obtain ⟨o, ho, _⟩ := hin.op
  exact List.length_pos_of_mem ho

theorem Inv.change (h : s.Inv L) (hin : s.Inside pid) (hhome : L.format.Home b) :
    (s.change pid b data).Inv L := by
  have hphase := h.idle_of_inside hin
  obtain ⟨hcommitting, hmounted, hclear, htracked, hempty⟩ := h.knows_at hphase
  refine ⟨h.fits, h.words, h.short, ?_, fun x hx => ?_, ?_⟩
  · exact h.counted.trans (List.length_map _).symm
  · have hne : x ≠ b := fun heq => hx (heq ▸ hhome)
    exact (Function.update_of_ne hne _ _).trans (h.area x hx)
  · change LogState.Knows _ L s.phase
    rw [hphase]
    refine ⟨hcommitting, hmounted, hclear, fun x hx hne => ?_, fun hnil => ?_⟩
    · rcases eq_or_ne x b with rfl | hxb
      · obtain ⟨o, ho, hpid⟩ := hin.op
        refine .inr ⟨_, List.mem_map_of_mem ho, ?_⟩
        rw [if_pos hpid]
        exact Finset.mem_insert_self _ _
      · have hold : s.cache x ≠ s.disk x := fun heq =>
          hne ((Function.update_of_ne hxb _ _).trans heq)
        rcases htracked x hx hold with hmem | ⟨o, ho, hch⟩
        · exact .inl hmem
        · refine .inr ⟨_, List.mem_map_of_mem ho, ?_⟩
          split
          · exact Finset.mem_insert_of_mem hch
          · exact hch
    · have hlen : s.ops.length = 0 := by
        have := congrArg List.length hnil
        rwa [LogState.change, List.length_map] at this
      have := hin.length_pos
      omega

/-- `log_write` when the log has room. -/
def logged (s : LogState) (pid b : Nat) : LogState :=
  { s with
    lh := if b ∈ s.lh then s.lh else s.lh ++ [b]
    ops := s.ops.map fun o =>
      if o.pid = pid then { o with wrote := insert b o.wrote, changed := o.changed.erase b }
      else o }

theorem Inv.logWrite_eq (h : s.Inv L) (hin : s.Inside pid) :
    s.logWrite L pid b =
      if logSize ≤ s.lh.length ∨ L.size ≤ s.lh.length + 1 then s.halt .tooBig
      else s.logged pid b := by
  have hsome : ¬ s.outstanding < 1 := by
    have := hin.length_pos
    rw [h.counted]
    omega
  rw [logWrite, if_neg hsome]
  rfl

theorem mem_logged_lh {x : Nat} (h : x ∈ s.lh ∨ x = b) : x ∈ (s.logged pid b).lh := by
  change x ∈ if b ∈ s.lh then s.lh else s.lh ++ [b]
  split
  · next hmem => exact h.elim id fun heq => heq ▸ hmem
  · exact List.mem_append.mpr (h.imp id fun heq => List.mem_singleton.mpr heq)

theorem Inv.logged (h : s.Inv L) (hin : s.Inside pid) (hhome : L.format.Home b)
    (hword : b < 2 ^ 32) (hroom : ¬ (logSize ≤ s.lh.length ∨ L.size ≤ s.lh.length + 1)) :
    (s.logged pid b).Inv L := by
  have hphase := h.idle_of_inside hin
  obtain ⟨hcommitting, hmounted, hclear, htracked, hempty⟩ := h.knows_at hphase
  have hcap : s.lh.length < L.format.capacity := by
    change s.lh.length < L.size - 1
    omega
  refine ⟨?_, ?_, ?_, ?_, h.area, ?_⟩
  · change L.format.Fits (if b ∈ s.lh then s.lh else s.lh ++ [b])
    split
    · exact h.fits
    · exact h.fits.concat hcap hhome
  · change ∀ x ∈ if b ∈ s.lh then s.lh else s.lh ++ [b], x < 2 ^ 32
    split
    · exact h.words
    · intro x hx
      rcases List.mem_append.mp hx with hx | hx
      · exact h.words x hx
      · obtain rfl : x = b := List.mem_singleton.mp hx
        exact hword
  · change (if b ∈ s.lh then s.lh else s.lh ++ [b]).length ≤ logSize
    split
    · exact h.short
    · rw [List.length_append, List.length_singleton]
      omega
  · exact h.counted.trans (List.length_map _).symm
  · change LogState.Knows _ L s.phase
    rw [hphase]
    refine ⟨hcommitting, hmounted, hclear, fun x hx hne => ?_, fun hnil => ?_⟩
    · rcases htracked x hx hne with hmem | ⟨o, ho, hch⟩
      · exact .inl (mem_logged_lh (.inl hmem))
      · rcases eq_or_ne x b with rfl | hxb
        · exact .inl (mem_logged_lh (.inr rfl))
        · refine .inr ⟨_, List.mem_map_of_mem ho, ?_⟩
          split
          · exact Finset.mem_erase.mpr ⟨hxb, hch⟩
          · exact hch
    · have hlen : s.ops.length = 0 := by
        have := congrArg List.length hnil
        rwa [LogState.logged, List.length_map] at this
      have := hin.length_pos
      omega

theorem Inv.halt_tooBig (h : s.Inv L) (hin : s.Inside pid) : (s.halt .tooBig).Inv L := by
  obtain ⟨_, hmounted, hclear, _⟩ := h.knows_at (h.idle_of_inside hin)
  exact ⟨h.fits, h.words, h.short, h.counted, h.area, rfl, hmounted, hclear⟩

/-- Removing the call that ends leaves the other ones. -/
theorem length_eraseP_ops (hin : s.Inside pid) :
    (s.ops.eraseP fun o => o.pid = pid).length = s.ops.length - 1 := by
  obtain ⟨o, ho, hpid⟩ := hin.op
  exact List.length_eraseP_of_mem ho (by simpa using hpid)

theorem Inv.endOp (h : s.Inv L) (hin : s.Inside pid)
    (hlogged : ∀ o ∈ s.ops, o.pid = pid → o.changed = ∅) :
    (s.endOp pid).Inv L ∧ (s.endOp pid).ops.length = s.ops.length - 1 ∧
      (s.endOp pid).disk = s.disk ∧ (s.endOp pid).cache = s.cache ∧
        (s.endOp pid).recovering = s.recovering := by
  have hphase := h.idle_of_inside hin
  obtain ⟨hcommitting, hmounted, hclear, htracked, hempty⟩ := h.knows_at hphase
  have hlen := length_eraseP_ops hin
  have hpos := hin.length_pos
  -- The call that ends has logged all that it changed.
  have hrest : ∀ x, L.format.Home x → s.cache x ≠ s.disk x →
      x ∈ s.lh ∨ ∃ o ∈ s.ops.eraseP fun o => o.pid = pid, x ∈ o.changed := by
    intro x hx hne
    rcases htracked x hx hne with hmem | ⟨o, ho, hch⟩
    · exact .inl hmem
    · refine .inr ⟨o, ?_, hch⟩
      refine (List.mem_eraseP_of_neg fun hpid => ?_).mpr ho
      rw [hlogged o ho (by simpa using hpid)] at hch
      cases hch
  have hcount : s.outstanding - 1 = (s.ops.eraseP fun o => o.pid = pid).length := by
    rw [hlen, h.counted]
  unfold LogState.endOp
  simp only
  rw [if_neg (by rw [hcommitting]; decide)]
  split
  · next hzero =>
    have hnil : (s.ops.eraseP fun o => o.pid = pid) = [] :=
      List.length_eq_zero_iff.mp (hcount.symm.trans hzero)
    refine ⟨⟨h.fits, h.words, h.short, hcount, h.area, ?_⟩, hlen, rfl, rfl, rfl⟩
    change LogState.Knows _ L (if 0 < s.lh.length then .writeLog 0 else .committed)
    split
    · exact ⟨⟨hnil, rfl, hmounted⟩, hclear, hrest, fun k _ hlt => absurd hlt (Nat.not_lt_zero k)⟩
    · next hnone =>
      have hlh : s.lh = [] := List.length_eq_zero_iff.mp (by omega)
      refine ⟨⟨hnil, rfl, hmounted⟩, hclear, hlh, fun x hx => ?_⟩
      by_contra hne
      rcases hrest x hx hne with hmem | ⟨o, ho, _⟩
      · rw [hlh] at hmem
        cases hmem
      · rw [hnil] at ho
        cases ho
  · next hmore =>
    refine ⟨⟨h.fits, h.words, h.short, hcount, h.area, ?_⟩, hlen, rfl, rfl, rfl⟩
    change LogState.Knows _ L s.phase
    rw [hphase]
    refine ⟨hcommitting, hmounted, hclear, hrest, fun hnil => absurd ?_ hmore⟩
    exact hcount.trans (congrArg List.length hnil)

end LogState

/-! ## Refinement -/

/-- The store events that a step is seen as. Commits are not seen. -/
def LogAct.visible : LogAct → List (Event Block)
  | .beginOp _ => [.begin]
  | .sleepOp _ => []
  | .change _ b data => [.write b data]
  | .logWrite _ _ => []
  | .endOp _ => [.finish]
  | .proceed => []
  | .crash => [.crash]

/-- A state of the log stands for a state of the store. -/
structure Represents (L : LogArea) (s : LogState) (a : Store Block) : Prop where
  opened : a.opened = s.ops.length
  durable : L.format.Agree (L.format.contents s.disk) a.durable
  current : L.format.Agree (s.current L) a.current

/-- One step of the log keeps the invariant and is one step of the store, or none; a step of
`commit` may be a commit of the store. -/
theorem LogStep.refines {l : LogAct} {a : Store Block} (h : s.Inv L) (ha : Represents L s a)
    (hstep : LogStep L s l t) :
    t.Inv L ∧ ∃ es c, Run Store.Step a es c ∧ Represents L t c ∧
      es.filter (fun e => !e.isCommit) = l.visible := by
  cases hstep with
  | @beginOp pid hready hadmits =>
      obtain ⟨hinv, hlen⟩ := h.beginOp_admitted hready hadmits
      have hbegin : (s.beginOp pid).disk = s.disk ∧ (s.beginOp pid).current L = s.current L := by
        rw [LogState.beginOp, if_neg (by rw [hadmits.1]; decide), if_neg hadmits.2]
        exact ⟨rfl, rfl⟩
      refine ⟨hinv, [.begin], _, .single (.begin a), ⟨?_, ?_, ?_⟩, rfl⟩
      · exact (congrArg (· + 1) ha.opened).trans hlen.symm
      · rw [hbegin.1]
        exact ha.durable
      · rw [hbegin.2]
        exact ha.current
  | sleepOp hready hfull =>
      rw [LogState.beginOp_full hfull]
      exact ⟨h.withSleeping _, [], a, .nil, ⟨ha.opened, ha.durable, ha.current⟩, rfl⟩
  | @change pid b data hin hhome =>
      have hphase := h.idle_of_inside hin
      have hmounted := (h.knows_at hphase).2.1
      have hopen : 0 < a.opened := by
        rw [ha.opened]
        exact hin.length_pos
      refine ⟨h.change hin hhome, [.write b data], _, .single (.write a b data hopen),
        ⟨ha.opened.trans (List.length_map _).symm, ha.durable, ?_⟩, rfl⟩
      have hcurrent := ha.current
      rw [LogState.current_of_mounted hmounted] at hcurrent
      rw [LogState.current_of_mounted (s := s.change pid b data) hmounted]
      intro x hx
      change Function.update s.cache b data x = Function.update a.current b data x
      rcases eq_or_ne x b with rfl | hne
      · rw [Function.update_self, Function.update_self]
      · rw [Function.update_of_ne hne, Function.update_of_ne hne]
        exact hcurrent x hx
  | @logWrite pid b hin hhome hword =>
      rw [h.logWrite_eq hin]
      split
      · exact ⟨h.halt_tooBig hin, [], a, .nil, ⟨ha.opened, ha.durable, ha.current⟩, rfl⟩
      · next hroom =>
        refine ⟨h.logged hin hhome hword hroom, [], a, .nil, ⟨?_, ha.durable, ha.current⟩, rfl⟩
        exact ha.opened.trans (List.length_map _).symm
  | @endOp pid hin hlogged =>
      obtain ⟨hinv, hlen, hdisk, hcache, hrec⟩ := h.endOp hin hlogged
      have hopen : 0 < a.opened := by
        rw [ha.opened]
        exact hin.length_pos
      refine ⟨hinv, [.finish], _, .single (.finish a hopen), ⟨?_, ?_, ?_⟩, rfl⟩
      · exact (congrArg (· - 1) ha.opened).trans hlen.symm
      · rw [hdisk]
        exact ha.durable
      · rw [LogState.current, hdisk, hcache, hrec]
        exact ha.current
  | proceed hbusy halive =>
      have hp := LogState.proceed_spec h
      have hopened : a.opened = (s.proceed L).ops.length := by
        rw [hp.ops]
        exact ha.opened
      refine ⟨hp.inv, ?_⟩
      rcases hp.durable with hsame | ⟨hops, hmounted, hcommit⟩
      · exact ⟨[], a, .nil, ⟨hopened, hsame.trans ha.durable, hp.current.trans ha.current⟩, rfl⟩
      · have hidle : a.opened = 0 := by
          rw [ha.opened, hops]
          rfl
        exact ⟨[.commit], _, .single (.commit a hidle),
          ⟨hopened, hcommit.trans ha.current, hp.current.trans ha.current⟩, rfl⟩
  | crash =>
      obtain ⟨bs, hnamed, hfits⟩ := h.header
      refine ⟨.boot hnamed hfits, [.crash], _, .single (.crash a), ⟨rfl, ha.durable, ?_⟩, rfl⟩
      exact ha.durable

/-- A disk whose header `read_head` accepts, with the blocks it names outside the log. -/
def LogArea.Bootable (L : LogArea) (d : Disk Block) : Prop :=
  ∃ bs, L.Named d bs ∧ L.format.Fits bs

theorem LogState.Inv.of_run {d : Disk Block} {ls : List LogAct} (hd : L.Bootable d)
    (hrun : Run (LogStep L) (.boot d) ls s) : s.Inv L := by
  obtain ⟨bs, hnamed, hfits⟩ := hd
  refine hrun.invariant (P := fun s => s.Inv L) (fun t l u h hstep => ?_) (.boot hnamed hfits)
  exact (hstep.refines (a := ⟨L.format.contents t.disk, t.current L, t.ops.length⟩) h
    ⟨rfl, Format.Agree.refl _, Format.Agree.refl _⟩).1

/-- Every run of the log, with crashes anywhere between its block writes, is a run of the
store with the same events. -/
theorem log_refines_store {d : Disk Block} {ls : List LogAct} (hd : L.Bootable d)
    (hrun : Run (LogStep L) (.boot d) ls s) :
    ∃ es a, Run Store.Step ⟨L.format.contents d, L.format.contents d, 0⟩ es a ∧
      Represents L s a ∧ es.filter (fun e => !e.isCommit) = ls.flatMap LogAct.visible := by
  induction hrun with
  | nil =>
      exact ⟨[], _, .nil, ⟨rfl, Format.Agree.refl _, Format.Agree.refl _⟩, rfl⟩
  | @concat ls s l t hrun hstep ih =>
      obtain ⟨es, a, harun, ha, hes⟩ := ih
      obtain ⟨_, es', c, hcrun, hc, hes'⟩ := hstep.refines (.of_run hd hrun) ha
      refine ⟨es ++ es', c, harun.append hcrun, hc, ?_⟩
      rw [List.filter_append, hes, hes', List.flatMap_append, List.flatMap_singleton]

/-- A disk with an empty header. -/
theorem LogArea.bootable_zero : L.Bootable fun _ _ => 0 :=
  ⟨[], show decodeHead (fun _ => 0) = some [] by decide, .nil⟩

/-- A system in which the calls `ops` have come in and nothing is logged. -/
def LogState.fresh (cache disk : Disk Block) (ops : List Op) : LogState where
  outstanding := ops.length
  committing := false
  lh := []
  phase := .idle
  recovering := false
  cache := cache
  disk := disk
  ops := ops
  sleeping := []

/-- The cache and the disk once `initlog` has gone over a disk of zeroes. -/
def LogArea.zeroes (L : LogArea) : Disk Block :=
  Function.update (fun _ _ => 0) L.start (encodeHead (fun _ => 0) [])

/-- Recovery from an empty header reads it, has nothing to install and clears it. -/
theorem run_boot_zero (L : LogArea) : Run (LogStep L) (.boot fun _ _ => 0)
    [.proceed, .proceed, .proceed] (.fresh L.zeroes L.zeroes []) := by
  have hread : (LogState.boot fun _ _ => 0).proceed L =
      { LogState.boot fun _ _ => 0 with phase := .install 0 } := by
    rw [LogState.proceed]
    simp only [LogState.boot, show decodeHead (fun _ => 0) = some [] by decide]
  have hfirst : Run (LogStep L) (.boot fun _ _ => 0) [.proceed] _ :=
    .single (.proceed (by rintro ⟨⟩) (by rintro _ ⟨⟩))
  rw [hread] at hfirst
  have hinstalled := hfirst.concat (.proceed (by rintro ⟨⟩) (by rintro _ ⟨⟩))
  exact hinstalled.concat (.proceed (by rintro ⟨⟩) (by rintro _ ⟨⟩))

section Fresh

variable {cache disk : Disk Block} {ops : List Op}

/-- There is room for three calls. -/
theorem LogStep.enter (hlen : ops.length < 3) (hfresh : ∀ o ∈ ops, o.pid ≠ pid) :
    LogStep L (.fresh cache disk ops) (.beginOp pid) (.fresh cache disk (⟨pid, ∅, ∅⟩ :: ops)) := by
  have hroom : ¬ logSize < 0 + (ops.length + 1) * maxOpBlocks := by
    change ¬ 30 < 0 + (ops.length + 1) * 10
    omega
  have hstep : LogStep L (.fresh cache disk ops) (.beginOp pid) _ :=
    .beginOp ⟨rfl, nofun, List.not_mem_nil, hfresh⟩ ⟨rfl, hroom⟩
  rw [LogState.beginOp, if_neg (by exact Bool.false_ne_true), if_neg (by exact hroom)] at hstep
  exact hstep

/-- Three calls enter a system that has just come up. -/
theorem run_three_calls (L : LogArea) : Run (LogStep L) (.boot fun _ _ => 0)
    [.proceed, .proceed, .proceed, .beginOp 0, .beginOp 1, .beginOp 2]
      (.fresh L.zeroes L.zeroes [⟨2, ∅, ∅⟩, ⟨1, ∅, ∅⟩, ⟨0, ∅, ∅⟩]) :=
  (((run_boot_zero L).concat (.enter (by decide) nofun)).concat
    (.enter (by decide) (by simp))).concat (.enter (by decide) (by simp))

/-- A call that changes a block and logs it, and its commit up to the header on disk. -/
theorem run_fresh_commit (hsize : 2 < L.size) (hhome : L.format.Home b) (hword : b < 2 ^ 32) :
    ∃ t, Run (LogStep L) (.fresh cache disk [])
      [.beginOp 0, .change 0 b data, .logWrite 0 b, .endOp 0, .proceed, .proceed, .proceed] t ∧
        t.phase = .install 0 ∧ t.lh = [b] := by
  have hin : ∀ (o : Op) (s : LogState), s.phase = .idle → s.ops = [o] → o.pid = 0 → s.Inside 0 :=
    fun o s hidle hops ho => by
      refine ⟨fun _ hw => ?_, o, hops ▸ List.mem_singleton_self o, ho⟩
      cases hidle.symm.trans hw
  have hchange : LogStep L (.fresh cache disk [⟨0, ∅, ∅⟩]) (.change 0 b data)
      (.fresh (Function.update cache b data) disk [⟨0, ∅, insert b ∅⟩]) :=
    .change (hin _ _ rfl rfl rfl) hhome
  -- `log_write` finds the log empty.
  have hlog : LogStep L (.fresh (Function.update cache b data) disk [⟨0, ∅, insert b ∅⟩])
      (.logWrite 0 b) { LogState.fresh (Function.update cache b data) disk
        [⟨0, insert b ∅, (insert b ∅ : Finset Nat).erase b⟩] with lh := [b] } := by
    have hroom : ¬ (logSize ≤ 0 ∨ L.size ≤ 0 + 1) := not_or.mpr ⟨by decide, by omega⟩
    have hstep := @LogStep.logWrite L (.fresh (Function.update cache b data) disk
      [⟨0, ∅, insert b ∅⟩]) 0 b (hin _ _ rfl rfl rfl) hhome hword
    rw [LogState.logWrite, if_neg (by exact hroom), if_neg (by exact Nat.lt_irrefl 1)] at hstep
    exact hstep
  have hend : LogStep L { LogState.fresh (Function.update cache b data) disk
        [⟨0, insert b ∅, (insert b ∅ : Finset Nat).erase b⟩] with lh := [b] } (.endOp 0)
      { LogState.fresh (Function.update cache b data) disk [] with
        committing := true, lh := [b], phase := .writeLog 0 } := by
    refine .endOp (hin _ _ rfl rfl rfl) fun o ho _ => ?_
    obtain rfl := List.mem_singleton.mp ho
    exact Finset.erase_insert (Finset.notMem_empty b)
  exact ⟨_, ((((((Run.single (.enter (by decide) nofun)).concat hchange).concat hlog).concat
    hend).concat (.proceed nofun nofun)).concat (.proceed nofun nofun)).concat
      (.proceed nofun nofun), rfl, rfl⟩

end Fresh

/-- A crash in the middle of a commit, right behind the write of the header. -/
theorem log_refines_store_commit : ∃ s : LogState, s.phase = .install 0 ∧ s.lh = [60] ∧
    ∃ es a, Run Store.Step ⟨(LogArea.mk 2 30).format.contents fun _ _ => 0,
        (LogArea.mk 2 30).format.contents fun _ _ => 0, 0⟩ es a ∧
      Represents ⟨2, 30⟩ (.boot s.disk) a ∧
        es.filter (fun e => !e.isCommit) = [.begin, .write 60 fun _ => 1, .finish, .crash] := by
  obtain ⟨s, hrun, hphase, hlh⟩ := @run_fresh_commit ⟨2, 30⟩ 60 (fun _ => 1)
    _ _ (by decide) (.inr (by decide)) (by decide)
  exact ⟨s, hphase, hlh, log_refines_store LogArea.bootable_zero
    (((run_boot_zero ⟨2, 30⟩).append hrun).concat .crash)⟩

/-! ## What is left after a crash -/

/-- What recovery would leave changes only when `commit` writes the header, and then becomes
what the system sees, with no system call inside a transaction. -/
theorem LogStep.durable {l : LogAct} (h : s.Inv L) (hstep : LogStep L s l t) :
    L.format.Agree (L.format.contents t.disk) (L.format.contents s.disk) ∨
      s.ops = [] ∧ s.recovering = false ∧
        L.format.Agree (L.format.contents t.disk) s.cache := by
  cases hstep with
  | @beginOp pid hready hadmits =>
      rw [LogState.beginOp, if_neg (by rw [hadmits.1]; decide), if_neg hadmits.2]
      exact .inl (Format.Agree.refl _)
  | sleepOp hready hfull =>
      rw [LogState.beginOp_full hfull]
      exact .inl (Format.Agree.refl _)
  | change => exact .inl (Format.Agree.refl _)
  | logWrite hin hhome hword =>
      rw [h.logWrite_eq hin]
      split <;> exact .inl (Format.Agree.refl _)
  | endOp hin hlogged =>
      rw [(h.endOp hin hlogged).2.2.1]
      exact .inl (Format.Agree.refl _)
  | proceed hbusy halive =>
      refine (LogState.proceed_spec h).durable.imp_right ?_
      rintro ⟨hops, hmounted, hagree⟩
      rw [LogState.current_of_mounted hmounted] at hagree
      exact ⟨hops, hmounted, hagree⟩
  | crash => exact .inl (Format.Agree.refl _)

namespace LogState

/-- A running system outside every transaction and every commit. -/
structure Quiet (s : LogState) : Prop where
  idle : s.phase = .idle
  ops : s.ops = []

/-- A quiet system has everything on disk. -/
theorem Inv.quiet (h : s.Inv L) (hquiet : s.Quiet) :
    s.recovering = false ∧ L.format.Agree s.cache s.disk ∧ L.format.contents s.disk = s.disk := by
  obtain ⟨_, hmounted, hclear, htracked, hempty⟩ := h.knows_at hquiet.idle
  refine ⟨hmounted, fun x hx => ?_, Format.contents_of_clear hclear.names⟩
  refine htracked.eq_of_not_mem hquiet.ops hx ?_
  rw [hempty hquiet.ops]
  exact List.not_mem_nil

/-- `recover_from_log` ends in an idle system. -/
theorem proceed_recovering (hrec : s.recovering = true) :
    (s.proceed L).recovering = true ∨ (s.proceed L).phase = .idle := by
  cases hphase : s.phase with
  | idle => exact .inl (by rw [proceed, hphase]; exact hrec)
  | stopped why => exact .inl (by rw [proceed, hphase]; exact hrec)
  | writeLog tail =>
      rw [proceed, hphase]
      simp only
      split <;> exact .inl hrec
  | writeHead => exact .inl (by rw [proceed, hphase]; exact hrec)
  | install tail =>
      rw [proceed, hphase]
      simp only
      split <;> exact .inl hrec
  | clearHead =>
      rw [proceed, hphase]
      refine .inr ?_
      change (if s.recovering then Phase.idle else .committed) = .idle
      rw [if_pos hrec]
  | committed => exact .inl (by rw [proceed, hphase]; exact hrec)
  | readHead =>
      rw [proceed, hphase]
      simp only
      split <;> exact .inl hrec

/-- Recovery from a disk, with further crashes: under way, or done with everything in place. -/
structure Recovers (s : LogState) (L : LogArea) (d : Disk Block) : Prop where
  inv : s.Inv L
  ops : s.ops = []
  kept : L.format.Agree (L.format.contents s.disk) d
  place : s.recovering = true ∨ s.phase = .idle

end LogState

/-- An action of recovery: its next block, or another crash. -/
def LogAct.Recovery : LogAct → Prop
  | .proceed => True
  | .crash => True
  | _ => False

theorem LogState.Recovers.step {d : Disk Block} {l : LogAct} (h : s.Recovers L d)
    (hl : l.Recovery) (hstep : LogStep L s l t) : t.Recovers L d := by
  cases hstep with
  | beginOp | sleepOp | change | logWrite | endOp => cases hl
  | crash =>
      obtain ⟨bs, hnamed, hfits⟩ := h.inv.header
      exact ⟨.boot hnamed hfits, rfl, h.kept, .inl rfl⟩
  | proceed hbusy halive =>
      have hp := LogState.proceed_spec h.inv
      have hrec : s.recovering = true := h.place.resolve_right hbusy
      have hsame := hp.durable.resolve_right fun hc => by
        rw [hc.2.1] at hrec
        cases hrec
      exact ⟨hp.inv, hp.ops.trans h.ops, hsame.trans h.kept, LogState.proceed_recovering hrec⟩

/-- A crash at any moment of any run, and any number of crashes during the recovery from it:
once the system runs again, disk and cache are those of an earlier moment, at which no system
call was inside a transaction. -/
theorem recovery_atomic {d : Disk Block} {ks ls rs : List LogAct} (hd : L.Bootable d)
    (hboot : Run (LogStep L) (.boot d) ks s) (hquiet : s.Quiet)
    (hrun : Run (LogStep L) s ls t) (hrec : Run (LogStep L) (.boot t.disk) rs u)
    (hrs : ∀ l ∈ rs, l.Recovery) (hmounted : u.recovering = false) :
    ∃ before after m, ls = before ++ after ∧ Run (LogStep L) s before m ∧ m.ops = [] ∧
      m.recovering = false ∧
        ∀ b, L.format.Home b → u.disk b = m.cache b ∧ u.cache b = m.cache b := by
  have hinv : s.Inv L := .of_run hd hboot
  obtain ⟨hs, hcache, hcontents⟩ := hinv.quiet hquiet
  -- The moment whose blocks the disk stands for, along the run.
  have hmoment : ∃ before after m, ls = before ++ after ∧ Run (LogStep L) s before m ∧
      m.ops = [] ∧ m.recovering = false ∧
        L.format.Agree (L.format.contents t.disk) m.cache := by
    clear hrec
    induction hrun with
    | nil =>
        refine ⟨[], [], s, rfl, .nil, hquiet.ops, hs, ?_⟩
        rw [hcontents]
        exact hcache.symm
    | @concat ls t l u hrun hstep ih =>
        obtain ⟨before, after, m, rfl, hm, hops, hm0, hagree⟩ := ih
        rcases hstep.durable (.of_run hd (hboot.append hrun)) with hsame | ⟨hops', hm', hcommit⟩
        · exact ⟨before, after ++ [l], m, List.append_assoc _ _ _, hm, hops, hm0,
            hsame.trans hagree⟩
        · exact ⟨before ++ after, [l], t, rfl, hrun, hops', hm', hcommit⟩
  obtain ⟨before, after, m, hls, hm, hops, hm0, hagree⟩ := hmoment
  refine ⟨before, after, m, hls, hm, hops, hm0, ?_⟩
  obtain ⟨bs, hnamed, hfits⟩ := (LogState.Inv.of_run hd (hboot.append hrun)).header
  have hend : u.Recovers L m.cache := hrec.invariant_of_mem
    (P := fun s => s.Recovers L m.cache) (fun s l t hl h hstep => h.step (hrs l hl) hstep)
    ⟨.boot hnamed hfits, rfl, hagree, .inl rfl⟩
  have hidle : u.phase = .idle := hend.place.resolve_left fun h => by
    rw [h] at hmounted
    cases hmounted
  obtain ⟨_, hsame, hclear⟩ := hend.inv.quiet ⟨hidle, hend.ops⟩
  intro x hx
  have hdisk : u.disk x = m.cache x := by
    rw [← hclear]
    exact hend.kept x hx
  exact ⟨hdisk, (hsame x hx).trans hdisk⟩

end OSProjects.Storage
