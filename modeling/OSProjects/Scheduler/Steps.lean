import OSProjects.Scheduler.Table

/-!
# What a step does to one process

Every step other than a tick leaves a process alone up to waking it, killing it and handing
it to another parent, unless it dispatches the process, is a call of the process itself, or
takes its slot of the table. Results about single fields are case analyses of this.
-/

namespace OSProjects.Scheduler

/-- A process that a step does not concern: it may be woken, killed or get another parent. -/
def Bystander (x y : Proc) : Prop :=
  ∃ parent state killed,
    y = { x with parent := parent, state := state, killed := killed } ∧
      (state = x.state ∨ x.state = .sleeping ∧ state = .runnable)

namespace Bystander

variable {x y z : Proc}

theorem refl (x : Proc) : Bystander x x := ⟨x.parent, x.state, x.killed, rfl, Or.inl rfl⟩

theorem trans (h : Bystander x y) (h' : Bystander y z) : Bystander x z := by
  obtain ⟨parent, state, killed, rfl, hstate⟩ := h
  obtain ⟨parent', state', killed', rfl, hstate'⟩ := h'
  refine ⟨parent', state', killed', rfl, ?_⟩
  rcases hstate' with rfl | ⟨hsleep, rfl⟩
  · exact hstate
  · rcases hstate with rfl | ⟨-, rfl⟩
    · exact Or.inr ⟨hsleep, rfl⟩
    · cases hsleep

theorem parent (x : Proc) (q : Option (Fin nProc)) : Bystander x { x with parent := q } :=
  ⟨q, x.state, x.killed, rfl, Or.inl rfl⟩

theorem woken (hx : x.state = .sleeping) : Bystander x { x with state := .runnable } :=
  ⟨x.parent, .runnable, x.killed, rfl, Or.inr ⟨hx, rfl⟩⟩

theorem update {procs : Fin nProc → Proc} (p : Fin nProc) (hx : Bystander (procs p) y)
    (q : Fin nProc) : Bystander (procs q) (Function.update procs p y q) := by
  rcases eq_or_ne q p with rfl | hne
  · rwa [Function.update_self]
  · rw [Function.update_of_ne hne]
    exact refl _

theorem wakeup1 (procs : Fin nProc → Proc) (chan : Option Chan) (q : Fin nProc) :
    Bystander (procs q) (Scheduler.wakeup1 procs chan q) := by
  rw [Scheduler.wakeup1]
  split
  case isTrue hwake => exact woken hwake.1
  case isFalse => exact refl _

theorem exitTurn (p initproc : Fin nProc) (procs : Fin nProc → Proc) (q r : Fin nProc) :
    Bystander (procs r) (Scheduler.exitTurn p initproc procs q r) := by
  have hset := update q (parent (procs q) (some initproc)) r
  rw [Scheduler.exitTurn]
  split
  · dsimp only
    split
    · exact hset.trans (wakeup1 _ _ r)
    · exact hset
  · exact refl _

theorem foldl_exitTurn (p initproc : Fin nProc) (l : List (Fin nProc))
    (procs : Fin nProc → Proc) (r : Fin nProc) :
    Bystander (procs r) (l.foldl (Scheduler.exitTurn p initproc) procs r) := by
  induction l generalizing procs with
  | nil => exact refl _
  | cons q l ih => exact (exitTurn p initproc procs q r).trans (ih _)

end Bystander

/-- The processor whose process makes a call. -/
def Act.caller {C : Type} : Act C → Option C
  | .sleep c _ | .sysSleep c _ | .fork c _ | .exit c | .wait c | .nice c _ => some c
  | .dispatch _ _ | .yield _ | .wakeup _ | .kill _ _ | .tick => none

/-- What a step to `k'` can do with the process in the slot `p`, which is `x` before. -/
inductive Touch {C : Type} (k : Kernel C) (a : Act C) (k' : Kernel C) (p : Fin nProc) (x : Proc) :
    Proc → Prop
  | bystander {y} (h : Bystander x y) : Touch k a k' p x y
  | dispatched {c} (ha : a = .dispatch c p) (hidle : k.current c = none)
      (hselect : select k.procs = some p) :
      Touch k a k' p x { x with
        state := .running
        chan := none
        cpuTicks := int32 (x.cpuTicks + 1)
        execTicks := int32 (x.execTicks + 1) }
  | yielded {c} (ha : a = .yield c) (hp : k.current c = some p) (hleft : k'.current c = none) :
      Touch k a k' p x { x with state := .runnable }
  /-- A call of the process itself. -/
  | called {c y} (hc : a.caller = some c) (hp : k.current c = some p)
      (hpriority : y.priority = x.priority) (hticks : y.cpuTicks = x.cpuTicks)
      (hstate : y.state = x.state ∨
        (y.state = .sleeping ∨ y.state = .zombie) ∧ k'.current c = none) : Touch k a k' p x y
  /-- `fork` takes the slot. -/
  | allocated {c memory y} (ha : a = .fork c memory) (hfree : k.findUnused = some p)
      (hstate : y.state = if memory = .enough then .runnable else .unused)
      (hpriority : y.priority = if memory = .noStack then x.priority else 0)
      (hticks : y.cpuTicks = if memory = .noStack then x.cpuTicks else 0) : Touch k a k' p x y
  | reaped (hx : x.state = .zombie) :
      Touch k a k' p x { x with pid := 0, parent := none, killed := false, state := .unused }

section Steps

variable {C : Type} [DecidableEq C] {k k' : Kernel C} {a : Act C} {c : C} {p q : Fin nProc}

omit [DecidableEq C] in
/-- One slot is set, and the others are left alone. -/
theorem Touch.of_setProc {y : Proc} (h : Touch k a k' p (k.procs p) y) (q : Fin nProc) :
    Touch k a k' q (k.procs q) (Function.update k.procs p y q) := by
  rcases eq_or_ne q p with rfl | hne
  · rwa [Function.update_self]
  · rw [Function.update_of_ne hne]
    exact .bystander (.refl _)

omit [DecidableEq C] in
/-- One field of the caller is set. -/
theorem Touch.of_call {y : Proc} (hc : a.caller = some c) (hp : k.current c = some p)
    (hpriority : y.priority = (k.procs p).priority) (hticks : y.cpuTicks = (k.procs p).cpuTicks)
    (hstate : y.state = (k.procs p).state ∨
      (y.state = .sleeping ∨ y.state = .zombie) ∧ k'.current c = none)
    (q : Fin nProc) : Touch k a k' q (k.procs q) ((k.setProc p y).procs q) :=
  Touch.of_setProc (.called hc hp hpriority hticks hstate) q

theorem Touch.sleep {chan : Chan} (hc : a.caller = some c) (hp : k.current c = some p)
    (q : Fin nProc) :
    Touch k a (k.sleep c p chan) q (k.procs q) ((k.sleep c p chan).procs q) :=
  Touch.of_call (y := { k.procs p with chan := some chan, state := .sleeping }) hc hp rfl rfl
    (Or.inr ⟨Or.inl rfl, Function.update_self ..⟩) q

omit [DecidableEq C] in
theorem Touch.fork {memory : ForkMemory} (q : Fin nProc) :
    Touch k (.fork c memory) k' q (k.procs q) ((k.fork p memory).procs q) := by
  rw [Kernel.fork]
  split
  · exact .bystander (.refl _)
  case h_2 np hfree =>
    cases memory with
    | noStack => exact Touch.of_setProc (.allocated rfl hfree rfl rfl rfl) q
    | noCopy =>
        simp only [Kernel.allocproc, Kernel.setProc, Function.update_self, Function.update_idem]
        exact Touch.of_setProc (.allocated rfl hfree rfl rfl rfl) q
    | enough =>
        simp only [Kernel.allocproc, Kernel.setProc, Function.update_self, Function.update_idem]
        exact Touch.of_setProc (.allocated rfl hfree rfl rfl rfl) q

theorem Touch.exit (hp : k.current c = some p) (q : Fin nProc) :
    Touch k (.exit c) (k.exit c p) q (k.procs q) ((k.exit c p).procs q) := by
  have hfold := fun r => (Bystander.wakeup1 k.procs ((k.procs p).parent.map Chan.proc) r).trans
    (.foldl_exitTurn p k.initproc (List.finRange nProc) _ r)
  rw [Kernel.exit, Kernel.leave]
  dsimp only
  generalize List.foldl _ _ _ = procs at hfold ⊢
  rcases eq_or_ne q p with rfl | hne
  · obtain ⟨parent, state, killed, hy, -⟩ := hfold q
    rw [Function.update_self, hy]
    exact .called rfl hp rfl rfl (Or.inr ⟨Or.inr rfl, Function.update_self ..⟩)
  · rw [Function.update_of_ne hne]
    exact .bystander (hfold q)

theorem Touch.wait (hp : k.current c = some p) (q : Fin nProc) :
    Touch k (.wait c) (k.wait c p) q (k.procs q) ((k.wait c p).procs q) := by
  rw [Kernel.wait]
  split
  case h_1 z hz =>
    have hzombie : (k.procs z).state = .zombie := by
      have h := List.find?_some hz
      simp only [decide_eq_true_eq] at h
      exact h.2
    exact Touch.of_setProc (.reaped hzombie) q
  · split
    · exact .bystander (.refl _)
    · exact Touch.sleep rfl hp q

theorem Touch.sysSleep {n : Int} (hp : k.current c = some p) (q : Fin nProc) :
    Touch k (.sysSleep c n) (k.sysSleep c p n) q (k.procs q) ((k.sysSleep c p n).procs q) := by
  rw [Kernel.sysSleep]
  dsimp only
  split
  · simp only [Kernel.sleep, Kernel.leave, Kernel.setProc, Function.update_self,
      Function.update_idem]
    refine Touch.of_setProc (.called rfl hp ?_ ?_ (Or.inr ⟨Or.inl ?_, ?_⟩)) q
    · rfl
    · rfl
    · rfl
    · exact Function.update_self c none k.current
  · exact Touch.of_call (a := .sysSleep c n) (y := { k.procs p with
      wakeuptime := ((k.ticks + n) % 2 ^ 32).toNat }) rfl hp rfl rfl (Or.inl rfl) q

omit [DecidableEq C] in
theorem Touch.kill {pid : Nat} (q : Fin nProc) :
    Touch k (.kill c pid) k' q (k.procs q) ((k.kill pid).procs q) := by
  rw [Kernel.kill]
  split
  · exact .bystander (.refl _)
  case h_2 r _ =>
    refine Touch.of_setProc (.bystander ?_) q
    dsimp only
    split
    case isTrue hsleep => exact ⟨_, _, true, rfl, Or.inr ⟨hsleep, rfl⟩⟩
    case isFalse => exact ⟨_, _, true, rfl, Or.inl rfl⟩

/-- Every step but a tick. -/
theorem Acts.touch (h : Acts k a k') (ha : a ≠ .tick) (q : Fin nProc) :
    Touch k a k' q (k.procs q) (k'.procs q) := by
  cases a with
  | dispatch c p =>
      simp only [Acts, Kernel.act, Option.ite_none_right_eq_some, Option.some.injEq] at h
      obtain ⟨⟨hidle, hselect⟩, rfl⟩ := h
      exact Touch.of_setProc (.dispatched rfl hidle hselect) q
  | yield c =>
      obtain ⟨p, hp, rfl⟩ := Option.map_eq_some_iff.mp h
      exact Touch.of_setProc (.yielded rfl hp (Function.update_self ..)) q
  | sleep c chan =>
      obtain ⟨p, hp, rfl⟩ := Option.map_eq_some_iff.mp h
      exact Touch.sleep rfl hp q
  | sysSleep c n =>
      obtain ⟨p, hp, rfl⟩ := Option.map_eq_some_iff.mp h
      exact Touch.sysSleep hp q
  | wakeup chan =>
      obtain rfl := Option.some.inj h
      exact .bystander (.wakeup1 _ _ q)
  | fork c memory =>
      obtain ⟨p, -, rfl⟩ := Option.map_eq_some_iff.mp h
      exact Touch.fork q
  | exit c =>
      obtain ⟨p, hp, hexit⟩ := Option.bind_eq_some_iff.mp h
      simp only [Option.ite_none_left_eq_some, Option.some.injEq] at hexit
      rw [← hexit.2]
      exact Touch.exit hp q
  | wait c =>
      obtain ⟨p, hp, rfl⟩ := Option.map_eq_some_iff.mp h
      exact Touch.wait hp q
  | kill c pid =>
      obtain ⟨p, -, rfl⟩ := Option.map_eq_some_iff.mp h
      exact Touch.kill q
  | nice c n =>
      obtain ⟨p, hp, rfl⟩ := Option.map_eq_some_iff.mp h
      rw [Kernel.sysNice]
      split
      · exact .bystander (.refl _)
      · exact Touch.of_call (a := .nice c n) (y := { k.procs p with niceValue := n }) rfl hp rfl rfl
          (Or.inl rfl) q
  | tick => exact absurd rfl ha

/-- The processor runs the same process as before, or a process that the step dispatches, or
its process has given it up. -/
theorem Acts.current_cases (h : Acts k a k') (c : C) :
    k'.current c = k.current c ∨
      (∃ p, a = .dispatch c p ∧ k.current c = none ∧ k'.current c = some p) ∨
      ∃ p, (a = .yield c ∨ a.caller = some c) ∧ k.current c = some p ∧ k'.current c = none ∧
        (k'.procs p).state ≠ .running := by
  -- What a call leaves when it gives up the processor `d`.
  have hleave : ∀ {d p} (k1 : Kernel C) (x : Proc), (a = .yield d ∨ a.caller = some d) →
      k.current d = some p → k1.current = k.current → x.state ≠ .running →
      ((k1.setProc p x).leave d).current c = k.current c ∨
        (∃ q, a = .dispatch c q ∧ k.current c = none ∧
          ((k1.setProc p x).leave d).current c = some q) ∨
        ∃ q, (a = .yield c ∨ a.caller = some c) ∧ k.current c = some q ∧
          ((k1.setProc p x).leave d).current c = none ∧
            (((k1.setProc p x).leave d).procs q).state ≠ .running := by
    intro d p k1 x ha hp hk1 hx
    rcases eq_or_ne c d with rfl | hne
    · refine Or.inr (Or.inr ⟨p, ha, hp, Function.update_self .., ?_⟩)
      simpa [Kernel.leave, Kernel.setProc] using hx
    · refine Or.inl ?_
      rw [Kernel.leave]
      exact (Function.update_of_ne hne _ _).trans (congrFun hk1 c)
  cases a with
  | dispatch d p =>
      simp only [Acts, Kernel.act, Option.ite_none_right_eq_some, Option.some.injEq] at h
      obtain ⟨⟨hidle, -⟩, rfl⟩ := h
      rcases eq_or_ne c d with rfl | hne
      · exact Or.inr (Or.inl ⟨p, rfl, hidle, Function.update_self ..⟩)
      · exact Or.inl (Function.update_of_ne hne _ _)
  | yield d =>
      obtain ⟨p, hp, rfl⟩ := Option.map_eq_some_iff.mp h
      exact hleave k _ (Or.inl rfl) hp rfl fun h => by cases h
  | sleep d chan =>
      obtain ⟨p, hp, rfl⟩ := Option.map_eq_some_iff.mp h
      exact hleave k _ (Or.inr rfl) hp rfl fun h => by cases h
  | sysSleep d n =>
      obtain ⟨p, hp, rfl⟩ := Option.map_eq_some_iff.mp h
      rw [Kernel.sysSleep]
      dsimp only
      split
      · exact hleave (k.setProc p _) _ (Or.inr rfl) hp rfl fun h => by cases h
      · exact Or.inl rfl
  | wakeup chan =>
      obtain rfl := Option.some.inj h
      exact Or.inl rfl
  | fork d memory =>
      obtain ⟨p, -, rfl⟩ := Option.map_eq_some_iff.mp h
      rw [Kernel.fork]
      split
      · exact Or.inl rfl
      · cases memory with
        | noStack => exact Or.inl rfl
        | noCopy => exact Or.inl rfl
        | enough => exact Or.inl rfl
  | exit d =>
      obtain ⟨p, hp, hexit⟩ := Option.bind_eq_some_iff.mp h
      simp only [Option.ite_none_left_eq_some, Option.some.injEq] at hexit
      rw [← hexit.2, Kernel.exit]
      dsimp only
      generalize List.foldl _ _ _ = procs
      exact hleave { k with procs := procs } _ (Or.inr rfl) hp rfl fun h => by cases h
  | wait d =>
      obtain ⟨p, hp, rfl⟩ := Option.map_eq_some_iff.mp h
      rw [Kernel.wait]
      split
      · exact Or.inl rfl
      · split
        · exact Or.inl rfl
        · exact hleave k _ (Or.inr rfl) hp rfl fun h => by cases h
  | kill d pid =>
      obtain ⟨p, -, rfl⟩ := Option.map_eq_some_iff.mp h
      rw [Kernel.kill]
      split
      · exact Or.inl rfl
      · exact Or.inl rfl
  | nice d n =>
      obtain ⟨p, -, rfl⟩ := Option.map_eq_some_iff.mp h
      rw [Kernel.sysNice]
      split
      · exact Or.inl rfl
      · exact Or.inl rfl
  | tick =>
      obtain rfl := Option.some.inj h
      exact Or.inl rfl

/-- Only a tick moves the tick counter. -/
theorem Acts.ticks_eq (h : Acts k a k') (ha : a ≠ .tick) : k'.ticks = k.ticks := by
  cases a with
  | dispatch c p =>
      simp only [Acts, Kernel.act, Option.ite_none_right_eq_some, Option.some.injEq] at h
      rw [← h.2]
      rfl
  | yield c =>
      obtain ⟨p, -, rfl⟩ := Option.map_eq_some_iff.mp h
      rfl
  | sleep c chan =>
      obtain ⟨p, -, rfl⟩ := Option.map_eq_some_iff.mp h
      rfl
  | sysSleep c n =>
      obtain ⟨p, -, rfl⟩ := Option.map_eq_some_iff.mp h
      rw [Kernel.sysSleep]
      dsimp only
      split <;> rfl
  | wakeup chan =>
      obtain rfl := Option.some.inj h
      rfl
  | fork c memory =>
      obtain ⟨p, -, rfl⟩ := Option.map_eq_some_iff.mp h
      rw [Kernel.fork]
      split
      · rfl
      · cases memory <;> rfl
  | exit c =>
      obtain ⟨p, -, hexit⟩ := Option.bind_eq_some_iff.mp h
      simp only [Option.ite_none_left_eq_some, Option.some.injEq] at hexit
      rw [← hexit.2]
      rfl
  | wait c =>
      obtain ⟨p, -, rfl⟩ := Option.map_eq_some_iff.mp h
      rw [Kernel.wait]
      split
      · rfl
      · split <;> rfl
  | kill c pid =>
      obtain ⟨p, -, rfl⟩ := Option.map_eq_some_iff.mp h
      rw [Kernel.kill]
      split <;> rfl
  | nice c n =>
      obtain ⟨p, -, rfl⟩ := Option.map_eq_some_iff.mp h
      rw [Kernel.sysNice]
      split <;> rfl
  | tick => exact absurd rfl ha

end Steps

end OSProjects.Scheduler
