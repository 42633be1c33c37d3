import OSProjects.Shell.Jobs

/-!
# What the job table knows of the children
-/

namespace OSProjects.Shell

open StepSystem

/-! ## The operations of the table -/

namespace JobTable

variable {t : JobTable} {i j : Fin maxJobCount} {pid : Nat}

/-- The slots in use. -/
def Holds (t : JobTable) (i : Fin maxJobCount) (pid : Nat) : Prop :=
  (t.jobs i).inUse = true ∧ (t.jobs i).pid = pid

@[simp] theorem pid_removeJob (t : JobTable) (i j : Fin maxJobCount) :
    ((t.removeJob i).jobs j).pid = (t.jobs j).pid := by
  unfold removeJob
  split
  · by_cases hj : j = i
    · subst j
      simp
    · simp [hj]
  · rfl

@[simp] theorem pid_removePid (t : JobTable) (pid : Nat) (j : Fin maxJobCount) :
    ((t.removePid pid).jobs j).pid = (t.jobs j).pid := by
  unfold removePid
  split
  · rfl
  · exact pid_removeJob t _ j

theorem holds_removeJob {p : Nat} : (t.removeJob i).Holds j p ↔ t.Holds j p ∧ j ≠ i := by
  by_cases hj : j = i
  · subst j
    unfold Holds removeJob
    split <;> simp_all
  · unfold Holds removeJob
    split <;> simp [hj]

theorem findPid_some (h : t.findPid pid = some i) : t.Holds i pid := by
  have hi := List.find?_some h
  simpa [Holds] using hi

theorem findPid_none (h : t.findPid pid = none) : ¬ t.Holds i pid := by
  have hi := List.find?_eq_none.mp h i (List.mem_finRange i)
  simpa [Holds] using hi

/-- No two slots hold one process. -/
def Unique (t : JobTable) : Prop :=
  ∀ i j pid, t.Holds i pid → t.Holds j pid → i = j

theorem holds_removePid {p : Nat} (hunique : t.Unique) :
    (t.removePid pid).Holds j p ↔ t.Holds j p ∧ p ≠ pid := by
  unfold removePid
  cases hfind : t.findPid pid with
  | none =>
      refine ⟨fun h => ⟨h, ?_⟩, fun h => h.1⟩
      rintro rfl
      exact findPid_none hfind h
  | some i =>
      have hi := findPid_some hfind
      refine holds_removeJob.trans ⟨fun ⟨h, hne⟩ => ⟨h, ?_⟩, fun ⟨h, hne⟩ => ⟨h, ?_⟩⟩
      · rintro rfl
        exact hne (hunique _ _ _ h hi)
      · rintro rfl
        exact hne (h.2.symm.trans hi.2)

/-- A job id is free. -/
def HasRoom (t : JobTable) : Prop :=
  ∃ i : Fin maxJobCount, i ≠ 0 ∧ (t.jobs i).inUse = false

theorem holds_addJob (pid : Nat) (command : List UInt8) (isBg : Bool) (hroom : t.HasRoom) :
    ∃ k, ∀ j p, (t.addJob pid command isBg).Holds j p ↔ t.Holds j p ∨ j = k ∧ p = pid := by
  obtain ⟨i, hi⟩ := hroom
  have hfound : (t.findNextJobId).isSome := by
    refine List.find?_isSome.mpr ⟨i, List.mem_finRange i, ?_⟩
    simpa using hi
  obtain ⟨k, hk⟩ := Option.isSome_iff_exists.mp hfound
  have hfree : (t.jobs k).inUse = false := by
    have hfound := List.find?_some hk
    simp only [decide_eq_true_eq] at hfound
    exact hfound.2
  refine ⟨k, fun j p => ?_⟩
  by_cases hj : j = k
  · subst j
    simp [addJob, hk, Holds, hfree, eq_comm]
  · simp [addJob, hk, Holds, hj]

end JobTable

/-! ## The table and the children -/

/-- Every slot in use holds an unreaped child, and every unreaped child that `exec_cmd`
started has one slot. -/
def Tracked (s : Wsh) : Prop :=
  (∀ i, (s.table.jobs i).inUse = true → s.children (s.table.jobs i).pid ≠ none) ∧
  ∀ pid c, s.children pid = some c → c.isJob = true →
    ∃! i, (s.table.jobs i).inUse = true ∧ (s.table.jobs i).pid = pid

/-- The same between two prompts: `lost` has been forked and not added, `dead` has been
reaped and its slot is not yet free. -/
structure Follows (t : JobTable) (children : Nat → Option Child) (lost dead : Option Nat) :
    Prop where
  live : ∀ i pid, t.Holds i pid →
    (∃ c, children pid = some c ∧ c.isJob = true) ∨ dead = some pid
  covered : ∀ pid c, children pid = some c → c.isJob = true →
    (∃ i, t.Holds i pid) ∨ lost = some pid
  unique : t.Unique
  lostOut : ∀ i pid, lost = some pid → ¬ t.Holds i pid
  deadOut : ∀ pid, dead = some pid → children pid = none

namespace Follows

variable {t : JobTable} {children : Nat → Option Child} {lost dead : Option Nat}
  {pid : Nat} {c c' : Child}

theorem tracked {mode : Mode} (h : Follows t children none none) :
    Tracked ⟨t, children, mode⟩ := by
  constructor
  · intro i hi
    obtain ⟨c, hc, -⟩ | hdead := h.live i _ ⟨hi, rfl⟩
    · simp [hc]
    · simp at hdead
  · intro pid c hc hjob
    obtain ⟨i, hi⟩ | hlost := h.covered pid c hc hjob
    · exact ⟨i, hi, fun j hj => h.unique j i pid hj hi⟩
    · simp at hlost

/-- A child changes its state. -/
theorem change (h : Follows t children lost dead) (hc : children pid = some c)
    (hjob : c'.isJob = c.isJob) :
    Follows t (Function.update children pid (some c')) lost dead where
  live i p hi := by
    obtain rfl | hp := eq_or_ne p pid
    · obtain ⟨d, hd, hdj⟩ | hdead := h.live i p hi
      · obtain rfl : c = d := by simpa [hc] using hd
        exact Or.inl ⟨c', by simp, hjob.trans hdj⟩
      · exact Or.inr hdead
    · simpa [hp] using h.live i p hi
  covered p d hd hdj := by
    obtain rfl | hp := eq_or_ne p pid
    · obtain rfl : c' = d := by simpa using hd
      exact h.covered p c hc (hjob.symm.trans hdj)
    · exact h.covered p d (by simpa [hp] using hd) hdj
  unique := h.unique
  lostOut := h.lostOut
  deadOut p hp := by
    have hnone := h.deadOut p hp
    have hne : p ≠ pid := by
      rintro rfl
      simp [hc] at hnone
    simpa [hne] using hnone

/-- The handler reaps a child and frees its slot. -/
theorem reap (h : Follows t children lost dead) (hc : children pid = some c) :
    Follows (t.removePid pid) (Function.update children pid none) lost dead where
  live i p hi := by
    obtain ⟨hold, hp⟩ := (JobTable.holds_removePid h.unique).mp hi
    simpa [hp] using h.live i p hold
  covered p d hd hdj := by
    obtain rfl | hp := eq_or_ne p pid
    · simp at hd
    · obtain ⟨i, hi⟩ | hlost := h.covered p d (by simpa [hp] using hd) hdj
      · exact Or.inl ⟨i, (JobTable.holds_removePid h.unique).mpr ⟨hi, hp⟩⟩
      · exact Or.inr hlost
  unique i j p hi hj :=
    h.unique i j p ((JobTable.holds_removePid h.unique).mp hi).1
      ((JobTable.holds_removePid h.unique).mp hj).1
  lostOut i p hp hi := h.lostOut i p hp ((JobTable.holds_removePid h.unique).mp hi).1
  deadOut p hp := by
    have hnone := h.deadOut p hp
    by_cases hne : p = pid
    · simp [hne]
    · simpa [hne] using hnone

/-- `waitpid` reaps a child, and its slot waits for `remove_job`. -/
theorem forget (h : Follows t children none none) :
    Follows t (Function.update children pid none) none (some pid) where
  live i p hi := by
    obtain rfl | hp := eq_or_ne p pid
    · exact Or.inr rfl
    · obtain hlive | hdead := h.live i p hi
      · exact Or.inl (by simpa [hp] using hlive)
      · simp at hdead
  covered p d hd hdj := by
    obtain rfl | hp := eq_or_ne p pid
    · simp at hd
    · exact h.covered p d (by simpa [hp] using hd) hdj
  unique := h.unique
  lostOut := h.lostOut
  deadOut p hp := by
    obtain rfl : pid = p := by simpa using hp
    simp

/-- `waitpid` finds that the handler was first. -/
theorem missing (h : Follows t children none none) (hc : children pid = none) :
    Follows t children none (some pid) := by
  have hsame : Function.update children pid none = children := by
    rw [← hc, Function.update_eq_self]
  have hforget : Follows t (Function.update children pid none) none (some pid) := h.forget
  simpa [hsame] using hforget

/-- The slot of the child that was reaped is freed. -/
theorem clear (h : Follows t children none (some pid)) {t' : JobTable}
    (hholds : ∀ j p, t'.Holds j p ↔ t.Holds j p ∧ p ≠ pid) :
    Follows t' children none none where
  live i p hi := by
    obtain ⟨hold, hp⟩ := (hholds i p).mp hi
    obtain hlive | hdead := h.live i p hold
    · exact Or.inl hlive
    · exact absurd (Option.some.inj hdead).symm hp
  covered p d hd hdj := by
    obtain ⟨i, hi⟩ | hlost := h.covered p d hd hdj
    · refine Or.inl ⟨i, (hholds i p).mpr ⟨hi, ?_⟩⟩
      rintro rfl
      simp [h.deadOut p rfl] at hd
    · simp at hlost
  unique i j p hi hj := h.unique i j p ((hholds i p).mp hi).1 ((hholds j p).mp hj).1
  lostOut i p hp := by simp at hp
  deadOut p hp := by simp at hp

/-- No slot holds a process that is no child. -/
theorem not_holds (h : Follows t children lost none) (hpid : children pid = none)
    (i : Fin maxJobCount) : ¬ t.Holds i pid := by
  intro hi
  obtain ⟨c, hc, -⟩ | hdead := h.live i pid hi
  · simp [hpid] at hc
  · simp at hdead

/-- `fork` in `exec_cmd`. -/
theorem start (h : Follows t children none none) (hpid : children pid = none) :
    Follows t (Function.update children pid (some c)) (some pid) none where
  live i p hi := by
    have hp : p ≠ pid := by
      rintro rfl
      exact h.not_holds hpid i hi
    simpa [hp] using h.live i p hi
  covered p d hd hdj := by
    obtain rfl | hp := eq_or_ne p pid
    · exact Or.inr rfl
    · obtain hheld | hlost := h.covered p d (by simpa [hp] using hd) hdj
      · exact Or.inl hheld
      · simp at hlost
  unique := h.unique
  lostOut i p hp hi := by
    obtain rfl : pid = p := by simpa using hp
    exact h.not_holds hpid i hi
  deadOut p hp := by simp at hp

/-- `add_job` for a child that is still there. -/
theorem add (command : List UInt8) (isBg : Bool) (h : Follows t children (some pid) none)
    (hroom : t.HasRoom) (hc : children pid = some c) (hjob : c.isJob = true) :
    Follows (t.addJob pid command isBg) children none none := by
  obtain ⟨k, hadd⟩ := JobTable.holds_addJob pid command isBg hroom
  constructor
  · intro i p hi
    obtain hold | ⟨rfl, rfl⟩ := (hadd i p).mp hi
    · exact h.live i p hold
    · exact Or.inl ⟨c, hc, hjob⟩
  · intro p d hd hdj
    obtain ⟨i, hi⟩ | hlost := h.covered p d hd hdj
    · exact Or.inl ⟨i, (hadd i p).mpr (Or.inl hi)⟩
    · obtain rfl : pid = p := by simpa using hlost
      exact Or.inl ⟨k, (hadd k pid).mpr (Or.inr ⟨rfl, rfl⟩)⟩
  · intro i j p hi hj
    obtain hold | ⟨rfl, rfl⟩ := (hadd i p).mp hi
    · obtain hold' | ⟨rfl, rfl⟩ := (hadd j p).mp hj
      · exact h.unique i j p hold hold'
      · exact absurd hold (h.lostOut i p rfl)
    · obtain hold' | ⟨rfl, -⟩ := (hadd j p).mp hj
      · exact absurd hold' (h.lostOut j p rfl)
      · rfl
  · intro i p hp
    simp at hp
  · intro p hp
    simp at hp

/-- `exec_pipe` forks a child that is no job. -/
theorem startPipe (h : Follows t children none none) (hpid : children pid = none)
    (hjob : c.isJob = false) :
    Follows t (Function.update children pid (some c)) none none where
  live i p hi := by
    have hp : p ≠ pid := by
      rintro rfl
      exact h.not_holds hpid i hi
    simpa [hp] using h.live i p hi
  covered p d hd hdj := by
    have hp : p ≠ pid := by
      rintro rfl
      obtain rfl : c = d := by simpa using hd
      simp [hjob] at hdj
    exact h.covered p d (by simpa [hp] using hd) hdj
  unique := h.unique
  lostOut := h.lostOut
  deadOut p hp := by simp at hp

/-- `exec_pipe` reaps a child that is no job. -/
theorem reapPipe (h : Follows t children none none) (hc : children pid = some c)
    (hjob : c.isJob = false) :
    Follows t (Function.update children pid none) none none := by
  have hout : ∀ j, ¬ t.Holds j pid := by
    intro j hj
    obtain ⟨d, hd, hdj⟩ | hdead := h.live j pid hj
    · obtain rfl : c = d := by simpa [hc] using hd
      simp [hjob] at hdj
    · simp at hdead
  refine h.forget.clear fun j p => ⟨fun hj => ⟨hj, ?_⟩, fun hj => hj.1⟩
  rintro rfl
  exact hout j hj

end Follows

/-! ## Steps -/

/-- What holds where the shell is. -/
def Consistent (s : Wsh) : Prop :=
  match s.mode with
  | .prompt | .waiting _ | .pipingAny => Follows s.table s.children none none
  | .forked pid _ _ =>
      Follows s.table s.children (some pid) none ∧ ∀ c, s.children pid = some c → c.isJob = true
  | .removing pid => Follows s.table s.children none (some pid)
  | .fgWaiting i =>
      Follows s.table s.children none none ∧ ∀ j, s.table.Holds j (s.table.jobs i).pid → j = i
  | .fgRemoving i =>
      Follows s.table s.children none (some (s.table.jobs i).pid) ∧
        ∀ j, s.table.Holds j (s.table.jobs i).pid → j = i
  | .piping pid =>
      Follows s.table s.children none none ∧ ∀ c, s.children pid = some c → c.isJob = false

/-- The two operations on children that any mode allows: a child that `exec_cmd` or
`exec_pipe` has started changes its state, and the handler reaps one. -/
theorem Consistent.change {s : Wsh} {pid : Nat} {c c' : Child} (h : Consistent s)
    (hc : s.children pid = some c) (hjob : c'.isJob = c.isJob) :
    Consistent (s.setChild pid (some c')) := by
  obtain ⟨t, children, mode⟩ := s
  cases mode with
  | prompt | waiting _ | pipingAny | removing _ => exact Follows.change h hc hjob
  | fgWaiting i | fgRemoving i => exact ⟨h.1.change hc hjob, h.2⟩
  | forked p _ _ | piping p =>
      refine ⟨h.1.change hc hjob, fun d hd => ?_⟩
      obtain rfl | hp := eq_or_ne p pid
      · obtain rfl : c' = d := by simpa [Wsh.setChild] using hd
        exact hjob.trans (h.2 c hc)
      · exact h.2 d (by simpa [Wsh.setChild, hp] using hd)

theorem Consistent.reap {s : Wsh} {pid : Nat} {c : Child} (h : Consistent s)
    (hc : s.children pid = some c) :
    Consistent { s.setChild pid none with table := s.table.removePid pid } := by
  obtain ⟨t, children, mode⟩ := s
  cases mode with
  | prompt | waiting _ | pipingAny | removing _ => exact Follows.reap h hc
  | fgWaiting i =>
      refine ⟨h.1.reap hc, fun j hj => h.2 j ?_⟩
      simpa using ((JobTable.holds_removePid h.1.unique).mp hj).1
  | fgRemoving i =>
      refine ⟨by simpa [Wsh.setChild] using h.1.reap hc, fun j hj => h.2 j ?_⟩
      simpa using ((JobTable.holds_removePid h.1.unique).mp hj).1
  | forked p _ _ | piping p =>
      refine ⟨h.1.reap hc, fun d hd => h.2 d ?_⟩
      obtain rfl | hp := eq_or_ne p pid
      · simp [Wsh.setChild] at hd
      · simpa [Wsh.setChild, hp] using hd

theorem Consistent.handlerTurn {s s' : Wsh} {pid : Nat} (h : Consistent s)
    (hturn : s.handlerTurn pid = some s') : Consistent s' := by
  unfold Wsh.handlerTurn at hturn
  split at hturn
  · rename_i isJob hc
    cases hturn
    exact h.reap hc
  · rename_i isJob hc
    cases hturn
    exact h.change hc rfl
  · cases hturn

/-- A run of the handler, by its turns. -/
theorem Consistent.handler {s s' : Wsh} {pids : List Nat} (h : Consistent s)
    (hrun : pids.foldlM Wsh.handlerTurn s = some s') : Consistent s' := by
  induction pids generalizing s with
  | nil =>
      cases hrun
      exact h
  | cons pid pids ih =>
      obtain ⟨t, hturn, hrest⟩ := Option.bind_eq_some_iff.mp hrun
      exact ih (h.handlerTurn hturn) hrest

/-- The child is still there when `add_job` registers it and a job id is free, and no child
is left when `exec_pipe` waits for any. -/
def InTime (s : Wsh) (a : Act) : Prop :=
  (a = .addJob → ∀ pid command isBg, s.mode = .forked pid command isBg →
    s.children pid ≠ none ∧ s.table.HasRoom) ∧
  (a = .waitpid → s.mode = .pipingAny → ∀ pid, s.children pid = none)

/-- What `waitpid` for one child leaves: the child is stopped, or it is gone. -/
theorem Waited.follows {s s' : Wsh} {pid : Nat} {stopped : Bool} (hwait : Waited s pid s' stopped)
    (h : Follows s.table s.children none none) :
    s'.table = s.table ∧
      (stopped = false → Follows s'.table s'.children none (some pid)) ∧
      (stopped = true → Follows s'.table s'.children none none) := by
  cases hwait with
  | exited hc => exact ⟨rfl, fun _ => h.forget, nofun⟩
  | stopped hc => exact ⟨rfl, nofun, fun _ => h.change hc rfl⟩
  | gone hc => exact ⟨rfl, fun _ => h.missing hc, fun _ => h⟩

/-- One step. -/
theorem Step.consistent {s s' : Wsh} {a : Act} (hstep : Step s a s') (hin : InTime s a)
    (h : Consistent s) : Consistent s' := by
  cases hstep with
  | fork hmode hpid =>
      simp only [Consistent, hmode] at h
      refine ⟨h.start hpid, fun c hc => ?_⟩
      obtain rfl : (⟨.running, true⟩ : Child) = c := by simpa [Wsh.setChild] using hc
      rfl
  | @addJob pid command isBg hmode =>
      simp only [Consistent, hmode] at h
      obtain ⟨hpid, hroom⟩ := hin.1 rfl pid command isBg hmode
      obtain ⟨c, hc⟩ := Option.ne_none_iff_exists'.mp hpid
      have hadd := h.1.add command isBg hroom hc (h.2 c hc)
      cases isBg <;> exact hadd
  | @waitpid t pid stopped hmode hwait =>
      simp only [Consistent, hmode] at h
      obtain ⟨-, hgone, hstopped⟩ := hwait.follows h
      cases stopped
      · exact hgone rfl
      · exact hstopped rfl
  | removeJob hmode =>
      simp only [Consistent, hmode] at h
      exact h.clear fun j p => JobTable.holds_removePid h.unique
  | fg hmode huse =>
      simp only [Consistent, hmode] at h
      exact ⟨h, fun j hj => h.unique j _ _ hj ⟨huse, rfl⟩⟩
  | @fgWait t i stopped hmode hwait =>
      simp only [Consistent, hmode] at h
      obtain ⟨htable, hgone, hstopped⟩ := hwait.follows h.1
      cases stopped
      · refine ⟨?_, ?_⟩
        · simpa [htable] using hgone rfl
        · simpa [htable] using h.2
      · exact hstopped rfl
  | @fgRemove i hmode =>
      simp only [Consistent, hmode] at h
      refine h.1.clear fun j p => JobTable.holds_removeJob.trans ⟨fun ⟨hj, hne⟩ => ⟨hj, ?_⟩,
        fun ⟨hj, hne⟩ => ⟨hj, ?_⟩⟩
      · rintro rfl
        exact hne (h.2 j hj)
      · rintro rfl
        exact hne hj.2.symm
  | forkPipe hmode hpid =>
      simp only [Consistent, hmode] at h
      refine ⟨h.startPipe hpid rfl, fun c hc => ?_⟩
      obtain rfl : (⟨.running, false⟩ : Child) = c := by simpa [Wsh.setChild] using hc
      rfl
  | @pipeWait t pid hmode hwait =>
      simp only [Consistent, hmode] at h
      cases hwait with
      | exited hc => exact h.1.reapPipe hc (h.2 _ hc)
      | gone hc => exact h.1
  | forkPipeFails hmode =>
      simp only [Consistent, hmode] at h
      exact h
  | @pipeWaitAny t pid hmode hwait hnone =>
      have hempty := hin.2 rfl hmode
      simp only [Consistent, hmode] at h
      cases hwait with
      | exited hc => simp [hempty pid] at hc
      | gone hc => exact h
  | childExit hc => exact h.change hc rfl
  | childStop hc => exact h.change hc rfl
  | childContinue hc => exact h.change hc rfl
  | handler hrun hdone => exact h.handler hrun

theorem consistent_start : Consistent start where
  live i pid hi := by simp [JobTable.Holds, start] at hi
  covered pid c hc := by simp [start] at hc
  unique i j pid hi := by simp [JobTable.Holds, start] at hi
  lostOut i pid hp := by simp at hp
  deadOut pid hp := by simp at hp

/-- The job table tracks the live children, in every run in which each child is registered
before it is reaped. -/
theorem tracked_of_inTime {acts : List Act} {s : Wsh}
    (hrun : Run (fun s a s' => Step s a s' ∧ InTime s a) start acts s)
    (hprompt : s.mode = .prompt) : Tracked s := by
  have hconsistent := hrun.invariant (P := Consistent)
    (fun _ _ _ h hstep => hstep.1.consistent hstep.2 h) consistent_start
  obtain ⟨t, children, mode⟩ := s
  subst hprompt
  exact Follows.tracked hconsistent

/-- `ls &`. -/
private def lsLine : List UInt8 := [108, 115, 32, 38]

/-- A child that exits after it was registered. -/
theorem tracked_after_exit :
    ∃ s, s.mode = .prompt ∧ s.children 100 = none ∧ Tracked s := by
  let s₁ : Wsh := { start.setChild 100 (some ⟨.running, true⟩) with mode := .forked 100 lsLine true }
  let s₂ : Wsh := { s₁ with table := s₁.table.addJob 100 lsLine true, mode := .prompt }
  let s₃ : Wsh := s₂.setChild 100 (some ⟨.zombie, true⟩)
  let s₄ : Wsh := { s₃.setChild 100 none with table := s₃.table.removePid 100 }
  have hfork : Step start (.fork 100 lsLine true) s₁ := .fork rfl rfl
  have hadd : Step s₁ .addJob s₂ := @Step.addJob s₁ 100 lsLine true rfl
  have hexit : Step s₂ (.childExit 100) s₃ := @Step.childExit s₂ 100 .running true rfl
  have hhandler : Step s₃ (.handler [100]) s₄ := by
    refine .handler rfl fun pid c hc => ?_
    obtain rfl | hpid := eq_or_ne pid 100 <;>
      simp_all [s₄, s₃, s₂, s₁, Wsh.setChild, start]
  have hfirst : Run (fun s a s' => Step s a s' ∧ InTime s a) start [.fork 100 lsLine true] s₁ :=
    Run.single ⟨hfork, nofun, nofun⟩
  have hrun := ((hfirst.concat ⟨hadd, ?_, nofun⟩).concat ⟨hexit, nofun, nofun⟩).concat
    ⟨hhandler, nofun, nofun⟩
  · exact ⟨s₄, rfl, by simp [s₄, Wsh.setChild], tracked_of_inTime hrun rfl⟩
  · intro _ pid command isBg hmode
    cases hmode
    exact ⟨by simp [s₁, Wsh.setChild], 1, by decide, rfl⟩

/-- The handler reaps a child before `add_job`, and the shell is at its prompt with a job
that has no process. -/
theorem reaped_before_add_job :
    ¬ ∀ acts s, Run Step start acts s → s.mode = .prompt → Tracked s := by
  intro htracked
  let s₁ : Wsh := { start.setChild 100 (some ⟨.running, true⟩) with mode := .forked 100 lsLine true }
  let s₂ : Wsh := s₁.setChild 100 (some ⟨.zombie, true⟩)
  let s₃ : Wsh := { s₂.setChild 100 none with table := s₂.table.removePid 100 }
  let s₄ : Wsh := { s₃ with table := s₃.table.addJob 100 lsLine true, mode := .prompt }
  have hfork : Step start (.fork 100 lsLine true) s₁ := .fork rfl rfl
  have hexit : Step s₁ (.childExit 100) s₂ := @Step.childExit s₁ 100 .running true rfl
  have hhandler : Step s₂ (.handler [100]) s₃ := by
    refine .handler rfl fun pid c hc => ?_
    obtain rfl | hpid := eq_or_ne pid 100 <;>
      simp_all [s₃, s₂, s₁, Wsh.setChild, start]
  have hadd : Step s₃ .addJob s₄ := @Step.addJob s₃ 100 lsLine true rfl
  have hrun := (((Run.single hfork).concat hexit).concat hhandler).concat hadd
  have hroom : s₃.table.HasRoom := ⟨1, by decide, by decide +kernel⟩
  obtain ⟨k, hk⟩ := JobTable.holds_addJob 100 lsLine true hroom
  obtain ⟨huse, hpid⟩ := (hk k 100).mpr (Or.inr ⟨rfl, rfl⟩)
  refine (htracked _ s₄ hrun rfl).1 k huse ?_
  rw [show (s₄.table.jobs k).pid = 100 from hpid]
  simp [s₄, s₃, Wsh.setChild]

end OSProjects.Shell
