import OSProjects.Storage.LogRecovery

/-!
# The log never gets stuck

A bound on the steps that `commit` or `recover_from_log` has left. It gives that recovery ends,
and that no process sleeps in `begin_op` for good: when the calls inside a transaction end, the
commit wakes all sleepers and there is room again.
-/

namespace OSProjects.Storage

open RedoLog StepSystem Xv6

variable {L : LogArea} {s t u : LogState} {pid b : Nat}

/-- How many steps are left at most in a phase, where `n` blocks are logged. -/
def Phase.rank (n : Nat) : Phase → Nat
  | .idle => 0
  | .stopped _ => 0
  | .writeLog tail => (n - tail) + n + 5
  | .writeHead => n + 4
  | .install tail => (n - tail) + 3
  | .clearHead => 2
  | .committed => 1
  | .readHead => logSize + 4

namespace LogState

/-- How many steps `commit` or `recover_from_log` takes at most until the system is idle. -/
def remaining (s : LogState) : Nat := s.phase.rank s.lh.length

/-- `t` is nearer to idle than `s`, and has not stopped. -/
def Nearer (t s : LogState) : Prop :=
  t.remaining < s.remaining ∧ ∀ why, t.phase ≠ .stopped why

theorem nearer_of_phase {p q : Phase} (hs : s.phase = p) (ht : t.phase = q)
    (hrank : q.rank t.lh.length < p.rank s.lh.length) (hq : ∀ why, q ≠ .stopped why) :
    t.Nearer s := by
  refine ⟨?_, ht ▸ hq⟩
  rw [remaining, remaining, hs, ht]
  exact hrank

/-- A step of `commit` or `recover_from_log` leaves fewer steps, and does not panic. -/
theorem proceed_nearer (h : s.Inv L) (hbusy : s.phase ≠ .idle)
    (halive : ∀ why, s.phase ≠ .stopped why) : (s.proceed L).Nearer s := by
  cases hphase : s.phase with
  | idle => exact absurd hphase hbusy
  | stopped why => exact absurd hphase (halive why)
  | writeLog tail =>
      rw [proceed, hphase]
      simp only
      cases htail : s.lh[tail]? with
      | some b =>
          obtain ⟨hlt, _⟩ := List.getElem?_eq_some_iff.mp htail
          refine nearer_of_phase hphase rfl ?_ fun why hw => by cases hw
          change s.lh.length - (tail + 1) + s.lh.length + 5 < s.lh.length - tail + s.lh.length + 5
          omega
      | none =>
          refine nearer_of_phase hphase rfl ?_ fun why hw => by cases hw
          change s.lh.length + 4 < s.lh.length - tail + s.lh.length + 5
          omega
  | writeHead =>
      rw [proceed, hphase]
      refine nearer_of_phase hphase rfl ?_ fun why hw => by cases hw
      change s.lh.length - 0 + 3 < s.lh.length + 4
      omega
  | install tail =>
      rw [proceed, hphase]
      simp only
      cases htail : s.lh[tail]? with
      | some b =>
          obtain ⟨hlt, _⟩ := List.getElem?_eq_some_iff.mp htail
          refine nearer_of_phase hphase rfl ?_ fun why hw => by cases hw
          change s.lh.length - (tail + 1) + 3 < s.lh.length - tail + 3
          omega
      | none =>
          refine nearer_of_phase hphase rfl ?_ fun why hw => by cases hw
          change 2 < s.lh.length - tail + 3
          omega
  | clearHead =>
      have hnext : (s.proceed L).phase = if s.recovering then .idle else .committed := by
        rw [proceed, hphase]
        rfl
      cases hrec : s.recovering with
      | true =>
          rw [hrec, if_pos rfl] at hnext
          exact nearer_of_phase hphase hnext (show 0 < 2 by decide) fun why hw => by cases hw
      | false =>
          rw [hrec, if_neg (by decide)] at hnext
          exact nearer_of_phase hphase hnext (show 1 < 2 by decide) fun why hw => by cases hw
  | committed =>
      rw [proceed, hphase]
      exact nearer_of_phase hphase rfl Nat.zero_lt_one fun why hw => by cases hw
  | readHead =>
      obtain ⟨_, _, _, hcache, bs, hnamed, _⟩ := h.knows_at hphase
      have hread : s.proceed L = { s with lh := bs, phase := .install 0 } := by
        rw [proceed, hphase]
        simp only
        rw [show decodeHead (s.cache L.start) = some bs by rw [hcache]; exact hnamed]
      rw [hread]
      refine nearer_of_phase hphase rfl ?_ fun why hw => by cases hw
      have hshort := (decodeHead_bounds hnamed).1
      change bs.length - 0 + 3 < logSize + 4
      omega

/-- The end of `commit` wakes every process that sleeps in `begin_op`. -/
theorem proceed_sleeping :
    (s.proceed L).sleeping = s.sleeping ∨
      (s.proceed L).phase = .idle ∧ (s.proceed L).sleeping = [] := by
  cases hphase : s.phase with
  | idle => exact .inl (by rw [proceed, hphase])
  | stopped why => exact .inl (by rw [proceed, hphase])
  | writeLog tail =>
      rw [proceed, hphase]
      simp only
      split <;> exact .inl rfl
  | writeHead => exact .inl (by rw [proceed, hphase]; rfl)
  | install tail =>
      rw [proceed, hphase]
      simp only
      split <;> exact .inl rfl
  | clearHead => exact .inl (by rw [proceed, hphase]; rfl)
  | committed => exact .inr (by rw [proceed, hphase]; exact ⟨rfl, rfl⟩)
  | readHead =>
      rw [proceed, hphase]
      simp only
      split <;> exact .inl rfl

/-- Only the step that wakes the sleepers ends a commit. -/
theorem proceed_committing (h : s.committing = true) :
    (s.proceed L).committing = true ∨ (s.proceed L).sleeping = [] := by
  cases hphase : s.phase with
  | idle => exact .inl (by rw [proceed, hphase]; exact h)
  | stopped why => exact .inl (by rw [proceed, hphase]; exact h)
  | writeLog tail =>
      rw [proceed, hphase]
      simp only
      split <;> exact .inl h
  | writeHead => exact .inl (by rw [proceed, hphase]; exact h)
  | install tail =>
      rw [proceed, hphase]
      simp only
      split <;> exact .inl h
  | clearHead => exact .inl (by rw [proceed, hphase]; exact h)
  | committed => exact .inr (by rw [proceed, hphase])
  | readHead =>
      rw [proceed, hphase]
      simp only
      split <;> exact .inl h

end LogState

/-- `commit` and `recover_from_log` come to their end. -/
theorem LogState.Inv.drains (h : s.Inv L) (halive : ∀ why, s.phase ≠ .stopped why) :
    ∃ n, n ≤ s.remaining ∧ ∃ t, Run (LogStep L) s (List.replicate n .proceed) t ∧
      t.phase = .idle := by
  generalize hk : s.remaining = k
  induction k using Nat.strong_induction_on generalizing s with
  | _ k ih =>
      by_cases hidle : s.phase = .idle
      · exact ⟨0, Nat.zero_le _, s, .nil, hidle⟩
      · obtain ⟨hless, halive'⟩ := LogState.proceed_nearer h hidle halive
        obtain ⟨n, hn, t, hrun, ht⟩ := ih _ (hk ▸ hless) (LogState.proceed_spec h).inv halive' rfl
        refine ⟨n + 1, by omega, t, ?_, ht⟩
        exact (Run.single (LogStep.proceed hidle halive)).append hrun

/-- Recovery from any crash ends, after at most `LOGSIZE + 4` steps, with the disk that the
crash left behind installed and in the cache. -/
theorem recovery_ends {d : Disk Block} (hd : L.Bootable d) :
    ∃ n, n ≤ logSize + 4 ∧ ∃ t, Run (LogStep L) (.boot d) (List.replicate n .proceed) t ∧
      t.Quiet ∧ t.sleeping = [] ∧
        ∀ b, L.format.Home b →
          t.disk b = L.format.contents d b ∧ t.cache b = L.format.contents d b := by
  obtain ⟨bs, hnamed, hfits⟩ := hd
  have hboot : (LogState.boot d).Inv L := .boot hnamed hfits
  obtain ⟨n, hn, t, hrun, hidle⟩ := hboot.drains fun why hw => by cases hw
  have hmem : ∀ l ∈ List.replicate n LogAct.proceed, l = .proceed := fun l hl =>
    List.eq_of_mem_replicate hl
  have hend : t.Recovers L (L.format.contents d) := hrun.invariant_of_mem
    (P := fun s => s.Recovers L (L.format.contents d))
    (fun s l t hl h hstep => h.step (by rw [hmem l hl]; trivial) hstep)
    ⟨hboot, rfl, Format.Agree.refl _, .inl rfl⟩
  have hsleeping : t.sleeping = [] := hrun.invariant_of_mem (P := fun s => s.sleeping = [])
    (fun s l t hl h hstep => by
      obtain rfl := hmem l hl
      cases hstep with
      | proceed => exact LogState.proceed_sleeping.elim (fun heq => heq.trans h) And.right) rfl
  obtain ⟨_, hsame, hclear⟩ := hend.inv.quiet ⟨hidle, hend.ops⟩
  refine ⟨n, hn, t, hrun, ⟨hidle, hend.ops⟩, hsleeping, fun b hb => ?_⟩
  have hdisk : t.disk b = L.format.contents d b := by
    rw [← hend.kept b hb, hclear]
  exact ⟨hdisk, (hsame b hb).trans hdisk⟩

/-- With no call inside and no commit, `begin_op` finds room. -/
theorem LogState.Inv.admits_of_quiet (h : s.Inv L) (hquiet : s.Quiet) : s.Admits := by
  obtain ⟨hcommitting, _, _, _, hempty⟩ := h.knows_at hquiet.idle
  refine ⟨hcommitting, ?_⟩
  rw [hempty hquiet.ops, h.counted, hquiet.ops]
  decide

/-- A crash in the middle of a commit, right behind the write of the header. -/
theorem recovery_atomic_commit :
    ∃ t u : LogState, t.phase = .install 0 ∧ t.lh = [60] ∧ ∃ before after m,
      [LogAct.beginOp 0, .change 0 60 fun _ => 1, .logWrite 0 60, .endOp 0, .proceed, .proceed,
        .proceed] = before ++ after ∧
        Run (LogStep ⟨2, 30⟩) (.fresh (LogArea.zeroes ⟨2, 30⟩) (LogArea.zeroes ⟨2, 30⟩) [])
          before m ∧ m.ops = [] ∧ m.recovering = false ∧ ∀ b, (LogArea.mk 2 30).format.Home b →
            u.disk b = m.cache b ∧ u.cache b = m.cache b := by
  have hboot := run_boot_zero ⟨2, 30⟩
  obtain ⟨t, hrun, hphase, hlh⟩ := @run_fresh_commit ⟨2, 30⟩ 60 (fun _ => 1)
    _ _ (by decide) (.inr (by decide)) (by decide)
  have hheader := (LogState.Inv.of_run LogArea.bootable_zero (hboot.append hrun)).header
  obtain ⟨k, _, u, hrec, hu, _⟩ := recovery_ends hheader
  refine ⟨t, u, hphase, hlh, recovery_atomic LogArea.bootable_zero hboot ⟨rfl, rfl⟩ hrun hrec ?_ ?_⟩
  · intro l hl
    rw [List.eq_of_mem_replicate hl]
    trivial
  · exact ((LogState.Inv.of_run hheader hrec).quiet hu).1

/-! ## Sleepers -/

/-- A process sleeps in `begin_op` only while a call is inside a transaction or a commit runs,
unless the system has stopped. -/
def LogState.Watched (s : LogState) : Prop :=
  s.sleeping ≠ [] → s.ops ≠ [] ∨ s.committing = true ∨ ∃ why, s.phase = .stopped why

theorem LogStep.watched {l : LogAct} (h : s.Inv L) (hw : s.Watched) (hstep : LogStep L s l t) :
    t.Watched := by
  cases hstep with
  | @beginOp pid hready hadmits =>
      rw [LogState.beginOp, if_neg (by rw [hadmits.1]; decide), if_neg hadmits.2]
      exact fun _ => .inl (List.cons_ne_nil _ _)
  | sleepOp hready hfull =>
      rw [LogState.beginOp_full hfull]
      intro _
      by_contra hnone
      obtain ⟨hops, hcommitting, _⟩ : s.ops = [] ∧ s.committing = false ∧ True := by
        refine ⟨?_, ?_, trivial⟩
        · by_contra hops
          exact hnone (.inl hops)
        · by_contra hc
          exact hnone (.inr (.inl (by simpa using hc)))
      have hidle := h.idle_of_mounted hready.mounted hcommitting hready.alive
      exact hfull (h.admits_of_quiet ⟨hidle, hops⟩)
  | @change pid b data hin hhome =>
      refine fun _ => .inl fun hnil => ?_
      have hlen := congrArg List.length hnil
      have := hin.length_pos
      rw [LogState.change, List.length_map, List.length_nil] at hlen
      omega
  | @logWrite pid b hin hhome hword =>
      rw [h.logWrite_eq hin]
      split
      · exact fun _ => .inr (.inr ⟨_, rfl⟩)
      · refine fun _ => .inl fun hnil => ?_
        have hlen := congrArg List.length hnil
        have := hin.length_pos
        rw [LogState.logged, List.length_map, List.length_nil] at hlen
        omega
  | @endOp pid hin hlogged =>
      unfold LogState.endOp
      simp only
      split
      · exact fun _ => .inr (.inr ⟨_, rfl⟩)
      · split
        · exact fun _ => .inr (.inl rfl)
        · exact fun hne => absurd rfl hne
  | proceed hbusy halive =>
      rcases LogState.proceed_sleeping (s := s) (L := L) with hsame | ⟨_, hnil⟩
      · intro hne
        rw [hsame] at hne
        rcases hw hne with hops | hcommitting | ⟨why, hwhy⟩
        · rw [(LogState.proceed_spec h).ops]
          exact .inl hops
        · -- Only the step that wakes the sleepers ends a commit.
          by_contra hnone
          have hend := LogState.proceed_committing (L := L) hcommitting
          rcases hend with hkeep | hnil
          · exact hnone (.inr (.inl hkeep))
          · exact hne (hsame ▸ hnil)
        · exact absurd hwhy (halive why)
      · exact fun hne => absurd hnil hne
  | crash => exact fun hne => absurd rfl hne

theorem LogState.watched_of_run {d : Disk Block} {ls : List LogAct} (hd : L.Bootable d)
    (hrun : Run (LogStep L) (.boot d) ls s) : s.Watched := by
  induction hrun with
  | nil => exact fun hne => absurd rfl hne
  | concat hrun hstep ih => exact hstep.watched (.of_run hd hrun) ih

/-- A call that ends leaves a running system, and the calls that it found. -/
theorem LogState.Inv.endOp_alive (h : s.Inv L) (hin : s.Inside pid) :
    (∀ why, (s.endOp pid).phase ≠ .stopped why) ∧ ∀ o ∈ (s.endOp pid).ops, o ∈ s.ops := by
  have hphase := h.idle_of_inside hin
  have hcommitting := (h.knows_at hphase).1
  unfold LogState.endOp
  simp only
  rw [if_neg (by rw [hcommitting]; decide)]
  split
  · refine ⟨fun why hw => ?_, fun o ho => List.mem_of_mem_eraseP ho⟩
    change (if 0 < s.lh.length then Phase.writeLog 0 else .committed) = .stopped why at hw
    split at hw <;> cases hw
  · exact ⟨fun why => hin.alive why, fun o ho => List.mem_of_mem_eraseP ho⟩

/-- The calls inside a transaction end one by one, and the last of them commits. -/
theorem LogState.Inv.settles (h : s.Inv L) (halive : ∀ why, s.phase ≠ .stopped why)
    (hlogged : ∀ o ∈ s.ops, o.changed = ∅) :
    ∃ rs t, Run (LogStep L) s rs t ∧ (∀ l ∈ rs, l = .proceed ∨ ∃ pid, l = .endOp pid) ∧
      t.Quiet := by
  generalize hk : s.ops.length = k
  induction k generalizing s with
  | zero =>
      obtain ⟨n, _, t, hrun, hidle⟩ := h.drains halive
      have hend : t.Inv L ∧ t.ops = [] := hrun.invariant_of_mem
        (P := fun s => s.Inv L ∧ s.ops = [])
        (fun s l t hl hs hstep => by
          obtain rfl := List.eq_of_mem_replicate hl
          cases hstep with
          | proceed =>
              exact ⟨(proceed_spec hs.1).inv, (proceed_spec hs.1).ops.trans hs.2⟩)
        ⟨h, List.length_eq_zero_iff.mp hk⟩
      exact ⟨_, t, hrun, fun l hl => .inl (List.eq_of_mem_replicate hl), hidle, hend.2⟩
  | succ k ih =>
      obtain ⟨o, ho⟩ := List.exists_mem_of_length_pos (by omega : 0 < s.ops.length)
      have hin : s.Inside o.pid := ⟨halive, o, ho, rfl⟩
      obtain ⟨hinv, hlen, _⟩ := h.endOp hin fun o ho _ => hlogged o ho
      obtain ⟨halive', hsub⟩ := h.endOp_alive hin
      obtain ⟨rs, t, hrun, hrs, ht⟩ := ih hinv halive' (fun o ho => hlogged o (hsub o ho))
        (by omega)
      refine ⟨[.endOp o.pid] ++ rs, t, (Run.single ?_).append hrun, fun l hl => ?_, ht⟩
      · exact .endOp hin fun o ho _ => hlogged o ho
      · rcases List.mem_append.mp hl with hl | hl
        · exact .inr ⟨_, List.mem_singleton.mp hl⟩
        · exact hrs l hl

/-- No process sleeps in `begin_op` for good. While one sleeps, a call is inside a transaction
or a commit runs; and once the calls inside have logged what they changed, their ends and the
steps of the commit alone lead to a state without sleepers in which `begin_op` finds room. -/
theorem begin_op_never_stranded {d : Disk Block} {ls : List LogAct} (hd : L.Bootable d)
    (hrun : Run (LogStep L) (.boot d) ls s) (halive : ∀ why, s.phase ≠ .stopped why) :
    (s.sleeping ≠ [] → s.ops ≠ [] ∨ s.committing = true) ∧
      ((∀ o ∈ s.ops, o.changed = ∅) →
        ∃ rs t, Run (LogStep L) s rs t ∧ (∀ l ∈ rs, l = .proceed ∨ ∃ pid, l = .endOp pid) ∧
          t.sleeping = [] ∧ t.Admits) := by
  have hinv : s.Inv L := .of_run hd hrun
  refine ⟨fun hne => ?_, fun hlogged => ?_⟩
  · rcases LogState.watched_of_run hd hrun hne with hops | hcommitting | ⟨why, hwhy⟩
    · exact .inl hops
    · exact .inr hcommitting
    · exact absurd hwhy (halive why)
  · obtain ⟨rs, t, hrest, hrs, hquiet⟩ := hinv.settles halive hlogged
    have hall := hrun.append hrest
    have htinv : t.Inv L := .of_run hd hall
    refine ⟨rs, t, hrest, hrs, ?_, htinv.admits_of_quiet hquiet⟩
    by_contra hne
    rcases LogState.watched_of_run hd hall hne with hops | hcommitting | ⟨why, hwhy⟩
    · exact hops hquiet.ops
    · rw [(htinv.knows_at hquiet.idle).1] at hcommitting
      cases hcommitting
    · rw [hquiet.idle] at hwhy
      cases hwhy

/-- Three calls take up the log, and a fourth one sleeps in `begin_op`. -/
theorem begin_op_never_stranded_sleeper : ∃ ls s, Run (LogStep ⟨2, 30⟩) (.boot fun _ _ => 0) ls s ∧
    s.sleeping = [3] ∧ (s.ops ≠ [] ∨ s.committing = true) ∧
      ∃ rs t, Run (LogStep ⟨2, 30⟩) s rs t ∧
        (∀ l ∈ rs, l = .proceed ∨ ∃ pid, l = .endOp pid) ∧ t.sleeping = [] ∧ t.Admits := by
  have hready : LogState.Ready (.fresh (LogArea.zeroes ⟨2, 30⟩) (LogArea.zeroes ⟨2, 30⟩)
      [⟨2, ∅, ∅⟩, ⟨1, ∅, ∅⟩, ⟨0, ∅, ∅⟩]) 3 :=
    ⟨rfl, nofun, List.not_mem_nil, by simp [LogState.fresh]⟩
  have hfull : ¬ LogState.Admits (.fresh (LogArea.zeroes ⟨2, 30⟩) (LogArea.zeroes ⟨2, 30⟩)
      [⟨2, ∅, ∅⟩, ⟨1, ∅, ∅⟩, ⟨0, ∅, ∅⟩]) := fun h => h.2 (by decide)
  have hslept := (run_three_calls ⟨2, 30⟩).concat (.sleepOp hready hfull)
  have hasleep := @LogState.beginOp_full _ 3 hfull
  rw [hasleep] at hslept
  obtain ⟨hwatched, hwoken⟩ := begin_op_never_stranded LogArea.bootable_zero hslept nofun
  exact ⟨_, _, hslept, rfl, hwatched (List.cons_ne_nil _ _), hwoken (by simp [LogState.fresh])⟩

end OSProjects.Storage
