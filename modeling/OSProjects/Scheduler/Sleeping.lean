import OSProjects.Scheduler.Conserving

/-!
# Sleeping until a tick

`sys_sleep` keeps a deadline in the process, and every tick runs `wakeup2` over the table.
Which processes a tick wakes, and how long a call of `sys_sleep` lasts on one processor: there
no tick comes between the test of `sys_sleep` and the end of `sleep`, which hold a lock
throughout. On a second processor `wakeup2`, which does not take `ptable.lock`, could miss the
process between `release(lk)` and `p->state = SLEEPING`.
-/

namespace OSProjects.Scheduler

open StepSystem

section Wakeups

variable {C : Type} [DecidableEq C]

/-! ## Who is woken by a tick -/

/-- The table that `wakeup2` finds at the next tick. -/
def Kernel.clocked (k : Kernel C) : Fin nProc → Proc :=
  if (k.ticks + 1) % 2 ^ 32 % 100 = 0 then updatePriority k.procs else k.procs

/-- The next tick makes the processes runnable that are in `sys_sleep` and whose deadline has
come, and leaves all others. -/
def WakesExpired (k : Kernel C) : Prop :=
  ∀ p, k.tick.procs p =
    if (k.clocked p).state = .sleeping ∧ (k.clocked p).chan = some .ticks ∧
      (k.clocked p).wakeuptime ≤ k.tick.ticks then { k.clocked p with state := .runnable }
    else k.clocked p

/-- A process that sleeps for something else has a deadline in its slot that has not come at
the next tick. -/
def OthersLater (k : Kernel C) : Prop :=
  ∀ p, (k.procs p).state = .sleeping → (k.procs p).chan ≠ some .ticks →
    (k.ticks + 1) % 2 ^ 32 < (k.procs p).wakeuptime

omit [DecidableEq C] in
/-- `update_priority` leaves what sleeping depends on. -/
theorem clocked_eq (k : Kernel C) (p : Fin nProc) :
    (k.clocked p).state = (k.procs p).state ∧ (k.clocked p).chan = (k.procs p).chan ∧
      (k.clocked p).wakeuptime = (k.procs p).wakeuptime ∧
        (k.clocked p).killed = (k.procs p).killed := by
  rw [Kernel.clocked]
  split
  · rw [updatePriority, Proc.update]
    split
    · exact ⟨rfl, rfl, rfl, rfl⟩
    · exact ⟨rfl, rfl, rfl, rfl⟩
  · exact ⟨rfl, rfl, rfl, rfl⟩

omit [DecidableEq C] in
theorem tick_procs (k : Kernel C) : k.tick.procs = wakeup2 k.clocked k.tick.ticks := rfl

omit [DecidableEq C] in
theorem wakesExpired_iff {k : Kernel C} : WakesExpired k ↔ OthersLater k := by
  constructor
  · intro h p hsleep hchan
    by_contra hlate
    obtain ⟨hstate, hsame, htime, -⟩ := clocked_eq k p
    have hwoken := h p
    rw [tick_procs, wakeup2, if_pos ⟨hstate.trans hsleep, htime.trans_le (not_lt.mp hlate)⟩,
      if_neg fun hticks => hchan (hsame.symm.trans hticks.2.1)] at hwoken
    have hrunnable := hstate.symm.trans (congrArg Proc.state hwoken.symm)
    rw [hsleep] at hrunnable
    cases hrunnable
  · intro h p
    obtain ⟨hstate, hsame, htime, -⟩ := clocked_eq k p
    rw [tick_procs, wakeup2]
    refine if_congr (and_congr_right fun hsleep => ?_) rfl rfl
    rw [hsame, htime]
    refine ⟨fun hlate => ⟨?_, hlate⟩, And.right⟩
    by_contra hchan
    exact absurd hlate (not_le.mpr (h p (hstate.symm.trans hsleep) hchan))

/-- A run in which every tick wakes the expired sleepers and no one else is one in which at
every tick the processes blocked elsewhere have later deadlines in their slots. -/
theorem ticks_wake_expired_iff {acts : List (Act C)} {k : Kernel C} :
    Run (fun k a k' => Acts k a k' ∧ (a = .tick → WakesExpired k)) (boot C) acts k ↔
      Run (fun k a k' => Acts k a k' ∧ (a = .tick → OthersLater k)) (boot C) acts k := by
  constructor
  · exact Run.mono fun _ _ _ h => ⟨h.1, fun ha => wakesExpired_iff.mp (h.2 ha)⟩
  · exact Run.mono fun _ _ _ h => ⟨h.1, fun ha => wakesExpired_iff.mpr (h.2 ha)⟩

end Wakeups

/-- The first process waits for a disk block, and the next tick makes it runnable. -/
theorem tick_wakes_a_disk_reader : ¬∀ (acts : List (Act Unit)) (k : Kernel Unit),
    Run Acts (boot Unit) acts k → WakesExpired k := by
  intro hlaw
  have hdispatch := alone_dispatch (x := diskReader 0 none) (t := 0) rfl zero_lt_highestPriority
  have hsleep := alone_sleep (x := ⟨.running, 1, none, none, false, 1, 0, 0, 0, 1⟩) (t := 0)
    (.other 0)
  have hlater := wakesExpired_iff.mp (hlaw _ _ ((Run.single hdispatch).concat hsleep)) 0
  rw [alone_self] at hlater
  exact absurd (hlater rfl nofun) (by decide)

/-! ## A call of `sys_sleep` -/

section Calls

variable {C : Type} [DecidableEq C]

/-- A process in a call of `sys_sleep`: the ticks since the call, and the result once the call
has returned. -/
structure SleepCall (C : Type) where
  kernel : Kernel C
  passed : Nat
  result : Option Int

/-- The test of the loop, and what follows it. -/
def Kernel.sleepTurn (k : Kernel C) (c : C) (p : Fin nProc) : Kernel C × Option Int :=
  if k.ticks < (k.procs p).wakeuptime then
    if (k.procs p).killed then (k, some (-1)) else (k.sleep c p .ticks, none)
  else (k, some 0)

/-- `current_process->wakeuptime = initial_ticks + n`. -/
def Kernel.setDeadline (k : Kernel C) (p : Fin nProc) (n : Int) : Kernel C :=
  k.setProc p { k.procs p with wakeuptime := ((k.ticks + n) % 2 ^ 32).toNat }

/-- The call up to where the process gives up the processor or returns. -/
def Kernel.callSleep (k : Kernel C) (c : C) (p : Fin nProc) (n : Int) : SleepCall C :=
  ⟨((k.setDeadline p n).sleepTurn c p).1, 0, ((k.setDeadline p n).sleepTurn c p).2⟩

/-- An event while the process is in the call. -/
inductive CallEvent (C : Type)
  /-- A step of another process, of an interrupt handler or of `scheduler`, which may also
  interrupt the process and dispatch it. -/
  | world (a : Act C)
  /-- The process has been dispatched and tests again. -/
  | resume (c : C)

/-- The process in the slot `p` is in the call, and makes no other one. -/
inductive CallStep (p : Fin nProc) : SleepCall C → CallEvent C → SleepCall C → Prop
  | world {s a k'} (hcall : s.result = none) (hacts : Acts s.kernel a k')
      (hother : ∀ c, a.caller = some c → s.kernel.current c ≠ some p) :
      CallStep p s (.world a) ⟨k', if a = .tick then s.passed + 1 else s.passed, none⟩
  | resume {s c} (hcall : s.result = none) (hp : s.kernel.current c = some p) :
      CallStep p s (.resume c)
        ⟨(s.kernel.sleepTurn c p).1, s.passed, (s.kernel.sleepTurn c p).2⟩

/-- The call returns 0 only after `n` ticks, and from the `n`th tick on the process is awake
and its test lets it return. -/
def Timed (p : Fin nProc) (n : Nat) (s : SleepCall C) : Prop :=
  (s.result = some 0 → n ≤ s.passed) ∧
    (s.result = none → n ≤ s.passed →
      ((s.kernel.procs p).state = .runnable ∨ (s.kernel.procs p).state = .running) ∧
        ¬s.kernel.ticks < (s.kernel.procs p).wakeuptime)

/-- The event does not wrap the tick counter around. -/
def NoWrap (s : SleepCall C) : CallEvent C → Prop
  | .world .tick => s.kernel.ticks + 1 < 2 ^ 32
  | _ => True

omit [DecidableEq C] in
@[simp] theorem setDeadline_self (k : Kernel C) (p : Fin nProc) (n : Int) :
    (k.setDeadline p n).procs p =
      { k.procs p with wakeuptime := ((k.ticks + n) % 2 ^ 32).toNat } := by
  simp [Kernel.setDeadline, Kernel.setProc]

omit [DecidableEq C] in
@[simp] theorem setDeadline_ticks (k : Kernel C) (p : Fin nProc) (n : Int) :
    (k.setDeadline p n).ticks = k.ticks := rfl

/-- Up to its first sleep, the call is the step `sysSleep`. -/
theorem callSleep_kernel (k : Kernel C) (c : C) (p : Fin nProc) (n : Int) :
    (k.callSleep c p n).kernel = k.sysSleep c p n := by
  have hstep : k.sysSleep c p n =
      if k.ticks < ((k.ticks + n) % 2 ^ 32).toNat ∧ ((k.setDeadline p n).procs p).killed = false then
        (k.setDeadline p n).sleep c p .ticks
      else k.setDeadline p n := rfl
  rw [hstep, Kernel.callSleep, Kernel.sleepTurn]
  simp only [setDeadline_self, setDeadline_ticks]
  by_cases hlt : k.ticks < ((k.ticks + n) % 2 ^ 32).toNat
  · rw [if_pos hlt]
    cases (k.procs p).killed with
    | true => rw [if_pos rfl, if_neg fun h => nomatch h.2]
    | false => rw [if_neg nofun, if_pos ⟨hlt, rfl⟩]
  · rw [if_neg hlt, if_neg fun h => hlt h.1]

/-- What holds of a call that was made at the tick `t` and sleeps: the deadline and the count
of ticks are exact, and the process sleeps before the deadline only. -/
structure Waiting (p : Fin nProc) (t n : Nat) (s : SleepCall C) : Prop where
  deadline : (s.kernel.procs p).wakeuptime = t + n
  ticks : s.kernel.ticks = t + s.passed
  word : t + s.passed < 2 ^ 32
  positive : 0 < n
  awake : (s.kernel.procs p).state = .sleeping ∧ s.passed < n ∨
    (s.kernel.procs p).state = .runnable ∨ (s.kernel.procs p).state = .running

/-- A step that is neither a tick nor a call of the process leaves its deadline, and does not
put it to sleep. -/
theorem Acts.keeps_waiting {k k' : Kernel C} {a : Act C} {p : Fin nProc} (h : Acts k a k')
    (ha : a ≠ .tick) (hother : ∀ c, a.caller = some c → k.current c ≠ some p)
    (hstate : (k.procs p).state = .sleeping ∨ (k.procs p).state = .runnable ∨
      (k.procs p).state = .running) :
    (k'.procs p).wakeuptime = (k.procs p).wakeuptime ∧
      ((k'.procs p).state = (k.procs p).state ∨ (k'.procs p).state = .runnable ∨
        (k'.procs p).state = .running) := by
  have htouch := h.touch ha p
  generalize k'.procs p = y at htouch ⊢
  cases htouch with
  | bystander hy =>
      obtain ⟨parent, state, killed, rfl, hy⟩ := hy
      exact ⟨rfl, hy.imp id fun hwoken => Or.inl hwoken.2⟩
  | dispatched => exact ⟨rfl, Or.inr (Or.inr rfl)⟩
  | yielded => exact ⟨rfl, Or.inr (Or.inl rfl)⟩
  | called hc hp => exact absurd hp (hother _ hc)
  | allocated _ hfree =>
      have hunused := List.find?_some hfree
      simp only [decide_eq_true_eq] at hunused
      rw [hunused] at hstate
      simp at hstate
  | reaped hzombie =>
      rw [hzombie] at hstate
      simp at hstate

omit [DecidableEq C] in
/-- A tick wakes the process at its deadline. -/
theorem tick_keeps_waiting {k : Kernel C} {p : Fin nProc}
    (hstate : (k.procs p).state = .sleeping ∨ (k.procs p).state = .runnable ∨
      (k.procs p).state = .running) :
    (k.tick.procs p).wakeuptime = (k.procs p).wakeuptime ∧
      ((k.tick.procs p).state = .sleeping ∧ (k.procs p).state = .sleeping ∧
          k.tick.ticks < (k.procs p).wakeuptime ∨
        (k.tick.procs p).state = .runnable ∨ (k.tick.procs p).state = .running) := by
  obtain ⟨hsame, -, htime, -⟩ := clocked_eq k p
  rw [tick_procs, wakeup2, hsame, htime]
  split
  case isTrue => exact ⟨htime, Or.inr (Or.inl rfl)⟩
  case isFalse hnot =>
    refine ⟨htime, ?_⟩
    rw [hsame]
    rcases hstate with hsleep | hawake
    · exact Or.inl ⟨hsleep, hsleep, not_le.mp fun hle => hnot ⟨hsleep, hle⟩⟩
    · exact Or.inr hawake

section Turns

variable {s s' : SleepCall C} {e : CallEvent C} {c : C} {p : Fin nProc} {t n : Nat}

omit [DecidableEq C] in
theorem Waiting.state (h : Waiting p t n s) :
    (s.kernel.procs p).state = .sleeping ∨ (s.kernel.procs p).state = .runnable ∨
      (s.kernel.procs p).state = .running :=
  h.awake.imp And.left id

omit [DecidableEq C] in
/-- The test of the loop compares the ticks that have passed. -/
theorem Waiting.test (h : Waiting p t n s) :
    s.kernel.ticks < (s.kernel.procs p).wakeuptime ↔ s.passed < n := by
  rw [h.deadline, h.ticks]
  omega

omit [DecidableEq C] in
theorem Waiting.timed (h : Waiting p t n s) (hcall : s.result = none) : Timed p n s := by
  refine ⟨fun hzero => ?_, fun _ hpassed => ⟨?_, ?_⟩⟩
  · rw [hcall] at hzero
    cases hzero
  · exact h.awake.resolve_left fun hsleep => absurd hpassed (not_le.mpr hsleep.2)
  · rw [h.test]
    exact not_lt.mpr hpassed

theorem CallStep.in_call (h : CallStep p s e s') : s.result = none := by
  cases h with
  | world hcall => exact hcall
  | resume hcall => exact hcall

/-- A step of a waiting call is timed exactly when it does not wrap the counter around, and
then the call goes on waiting or returns. -/
theorem Waiting.step (h : Waiting p t n s) (hword : t + n < 2 ^ 32) (hstep : CallStep p s e s') :
    (Timed p n s' ↔ NoWrap s e) ∧ (NoWrap s e → s'.result = none → Waiting p t n s') := by
  cases hstep with
  | @world a k' hcall hacts hother =>
      by_cases ha : a = .tick
      · subst ha
        obtain rfl := Option.some.inj hacts
        obtain ⟨htime, hawake⟩ := tick_keeps_waiting h.state
        have hticks : s.kernel.tick.ticks = (t + s.passed + 1) % 2 ^ 32 := by
          rw [← h.ticks]
          rfl
        have hnext : NoWrap s (.world .tick) →
            Waiting p t n ⟨s.kernel.tick, s.passed + 1, none⟩ := by
          intro hwrap
          rw [NoWrap, h.ticks] at hwrap
          rw [Nat.mod_eq_of_lt hwrap] at hticks
          refine ⟨htime.trans h.deadline, hticks, by omega, h.positive, ?_⟩
          refine hawake.imp (fun hsleep => ⟨hsleep.1, ?_⟩) id
          have hlt := hsleep.2.2
          rw [hticks, h.deadline] at hlt
          dsimp only
          omega
        refine ⟨⟨fun htimed => ?_, fun hwrap => (hnext hwrap).timed rfl⟩, fun hwrap _ => hnext hwrap⟩
        -- At the wrap the counter is below the deadline again.
        by_contra hwrap
        rw [NoWrap, h.ticks] at hwrap
        have hend := h.word
        have hzero : s.kernel.tick.ticks = 0 := by
          rw [hticks]
          omega
        have htest := (htimed.2 rfl (by simp only [if_true]; omega)).2
        dsimp only at htest
        rw [hzero, htime, h.deadline] at htest
        have hpos := h.positive
        omega
      · obtain ⟨htime, hstate⟩ := hacts.keeps_waiting ha hother h.state
        have hnext : Waiting p t n ⟨k', if a = .tick then s.passed + 1 else s.passed, none⟩ := by
          rw [if_neg ha]
          refine ⟨htime.trans h.deadline, (hacts.ticks_eq ha).trans h.ticks, h.word, h.positive, ?_⟩
          rcases hstate with hsame | hawake
          · rw [hsame]
            exact h.awake
          · exact Or.inr hawake
        have hwrap : NoWrap s (.world a) := by
          cases a with
          | tick => exact absurd rfl ha
          | _ => trivial
        exact ⟨iff_of_true (hnext.timed rfl) hwrap, fun _ _ => hnext⟩
  | @resume c hcall hp =>
      refine ⟨iff_of_true ?_ trivial, fun _ hnone => ?_⟩
      · by_cases htest : s.kernel.ticks < (s.kernel.procs p).wakeuptime
        · rw [Kernel.sleepTurn, if_pos htest]
          cases hkilled : (s.kernel.procs p).killed with
          | true => exact ⟨nofun, nofun⟩
          | false => exact ⟨nofun, fun _ hpassed => absurd (h.test.mp htest) (not_lt.mpr hpassed)⟩
        · rw [Kernel.sleepTurn, if_neg htest]
          exact ⟨fun _ => not_lt.mp (mt h.test.mpr htest), nofun⟩
      · rw [Kernel.sleepTurn] at hnone ⊢
        split at hnone
        case isFalse => cases hnone
        case isTrue htest =>
          split at hnone
          case isTrue => cases hnone
          case isFalse hkilled =>
            rw [if_pos htest, if_neg hkilled]
            have hself : ((s.kernel.sleep c p .ticks).procs p) =
                { s.kernel.procs p with chan := some .ticks, state := .sleeping } :=
              Function.update_self ..
            refine ⟨?_, h.ticks, h.word, h.positive, Or.inl ⟨?_, h.test.mp htest⟩⟩
            · dsimp only
              rw [hself]
              exact h.deadline
            · dsimp only
              rw [hself]

end Turns

section Call

variable {k : Kernel Unit} {c : Unit} {p : Fin nProc} {n : Nat} {events : List (CallEvent Unit)}
  {s : SleepCall Unit}

/-- A call that goes to sleep waits for a deadline that has not wrapped around. -/
theorem callSleep_waiting (hticks : k.ticks < 2 ^ 32)
    (hword : k.ticks + n < 2 ^ 32) (hnone : (k.callSleep c p n).result = none) :
    Waiting p k.ticks n (k.callSleep c p n) := by
  have hdeadline : (((k.ticks : Int) + n) % 2 ^ 32).toNat = k.ticks + n := by omega
  rw [Kernel.callSleep, Kernel.sleepTurn] at hnone ⊢
  simp only [setDeadline_self, setDeadline_ticks, hdeadline] at hnone ⊢
  split at hnone
  case isFalse => cases hnone
  case isTrue hlt =>
    split at hnone
    case isTrue => cases hnone
    case isFalse hkilled =>
      rw [if_pos hlt, if_neg hkilled]
      have hself : (((k.setDeadline p n).sleep c p .ticks).procs p) =
          { (k.setDeadline p n).procs p with chan := some .ticks, state := .sleeping } :=
        Function.update_self ..
      have hpos : 0 < n := by omega
      refine ⟨?_, rfl, hticks, hpos, Or.inl ⟨?_, hpos⟩⟩
      · dsimp only
        rw [hself, setDeadline_self, hdeadline]
      · dsimp only
        rw [hself]

/-- The call starts in time exactly when its deadline does not wrap around. -/
theorem callSleep_timed (hticks : k.ticks < 2 ^ 32) (hn : n < 2 ^ 31) :
    Timed p n (k.callSleep c p n) ↔ k.ticks + n < 2 ^ 32 := by
  constructor
  · intro htimed
    by_contra hwrap
    have hlate : ¬k.ticks < (((k.ticks : Int) + n) % 2 ^ 32).toNat := by omega
    have hzero : (k.callSleep c p n).result = some 0 := by
      rw [Kernel.callSleep, Kernel.sleepTurn]
      simp only [setDeadline_self, setDeadline_ticks]
      rw [if_neg hlate]
    have hnow : n ≤ 0 := htimed.1 hzero
    omega
  · intro hword
    cases hresult : (k.callSleep c p n).result with
    | none => exact (callSleep_waiting hticks hword hresult).timed hresult
    | some r =>
        refine ⟨fun hzero => ?_, fun hnone => ?_⟩
        · -- Only a call of 0 ticks returns at once.
          have hdeadline : (((k.ticks : Int) + n) % 2 ^ 32).toNat = k.ticks + n := by omega
          rw [Kernel.callSleep, Kernel.sleepTurn] at hzero
          simp only [setDeadline_self, setDeadline_ticks, hdeadline] at hzero
          split at hzero
          · split at hzero
            · cases hzero
            · cases hzero
          case isFalse hnow =>
            have hnil : n ≤ 0 := by omega
            exact hnil
        · rw [hresult] at hnone
          cases hnone

/-- On one processor, a run of a call is timed in every state exactly when the deadline does not
wrap around and no tick wraps the counter around while the process is in the call. -/
theorem sleep_call_iff (hticks : k.ticks < 2 ^ 32) (hn : n < 2 ^ 31) :
    (Timed p n (k.callSleep c p n) ∧
        Run (fun s e s' => CallStep p s e s' ∧ Timed p n s') (k.callSleep c p n) events s) ↔
      k.ticks + n < 2 ^ 32 ∧
        Run (fun s e s' => CallStep p s e s' ∧ NoWrap s e) (k.callSleep c p n) events s := by
  rw [callSleep_timed hticks hn]
  refine and_congr_right fun hword => ?_
  have hstart : ∀ s', s' = k.callSleep c p n → s'.result = none → Waiting p k.ticks n s' := by
    rintro s' rfl hnone
    exact callSleep_waiting hticks hword hnone
  constructor
  · intro hrun
    suffices h : Run (fun s e s' => CallStep p s e s' ∧ NoWrap s e) (k.callSleep c p n) events s ∧
        (s.result = none → Waiting p k.ticks n s) from h.1
    induction hrun with
    | nil => exact ⟨Run.nil, hstart _ rfl⟩
    | concat _ hs ih =>
        have hcall := hs.1.in_call
        obtain ⟨hiff, hnext⟩ := (ih.2 hcall).step hword hs.1
        exact ⟨ih.1.concat ⟨hs.1, hiff.mp hs.2⟩, hnext (hiff.mp hs.2)⟩
  · intro hrun
    suffices h : Run (fun s e s' => CallStep p s e s' ∧ Timed p n s') (k.callSleep c p n) events s ∧
        (s.result = none → Waiting p k.ticks n s) from h.1
    induction hrun with
    | nil => exact ⟨Run.nil, hstart _ rfl⟩
    | concat _ hs ih =>
        have hcall := hs.1.in_call
        obtain ⟨hiff, hnext⟩ := (ih.2 hcall).step hword hs.1
        exact ⟨ih.1.concat ⟨hs.1, hiff.mpr hs.2⟩, hnext hs.2⟩

end Call

end Calls

/-- The first process while it runs. -/
def caller : Proc := ⟨.running, 1, none, none, false, 1, 0, 0, 0, 1⟩

/-- A call of one tick right after boot, up to the tick. -/
theorem sleep_call_iff_run : ∃ s : SleepCall Unit,
    Timed 0 1 ((alone caller (some 0) 0).callSleep () 0 (1 : Nat)) ∧
      Run (fun s e s' => CallStep 0 s e s' ∧ Timed 0 1 s')
        ((alone caller (some 0) 0).callSleep () 0 (1 : Nat)) [.world .tick] s := by
  have hstep : CallStep 0 ((alone caller (some 0) 0).callSleep () 0 (1 : Nat)) (.world .tick) _ :=
    CallStep.world (by decide) rfl nofun
  have hticks : (0 : Nat) + 1 < 2 ^ 32 := by decide
  exact ⟨_, (sleep_call_iff (by decide) (by decide)).mpr
    ⟨by decide, Run.single ⟨hstep, hticks⟩⟩⟩

/-- A call of one tick at the last value of the counter returns at once. -/
theorem wrapped_deadline_returns : ¬∀ (k : Kernel Unit) (p : Fin nProc) (n : Nat)
    (events : List (CallEvent Unit)) (s : SleepCall Unit),
    k.current () = some p → (k.procs p).state = .running → k.ticks < 2 ^ 32 → n < 2 ^ 31 →
      Run (CallStep p) (k.callSleep () p n) events s → Timed p n s := by
  intro hlaw
  have htimed := hlaw (alone caller (some 0) (2 ^ 32 - 1)) 0 1 [] _ rfl (by decide) (by decide)
    (by decide) Run.nil
  exact absurd (htimed.1 (by decide)) (by decide)

end OSProjects.Scheduler
