import Mathlib.Data.Fintype.Card
import OSProjects.Foundation.Touching
import OSProjects.Shell.DefaultJob

/-!
# The array of the job table

The indices of `jobs` that the functions of `wsh.c` read and write. An id that has not been
found is -1, and memory goes on in front of the array and behind it.
-/

namespace OSProjects.Shell

open LeastScan StepSystem StringSearch Touching

/-- The array `jobs` with what lies around it, and `counter`. -/
structure JobMemory where
  jobs : Int → Job
  counter : Nat

namespace JobMemory

/-- The array alone. -/
def table (m : JobMemory) : JobTable := ⟨fun i => m.jobs i.val, m.counter⟩

/-- A computation on the jobs, with the indices that it touches. -/
abbrev OnJobs (β : Type) := Touching JobMemory Int β

def readJob (i : Int) : OnJobs Job := readAt i fun m => m.jobs i

def writeJob (i : Int) (f : Job → Job) : OnJobs Unit :=
  writeAt i fun m => { m with jobs := Function.update m.jobs i (f (m.jobs i)) }

/-- `for (int i = 1; i < MAX_JOB_COUNT; i++)`. -/
def jobIds : List Int := (List.range' 1 (maxJobCount - 1)).map Int.ofNat

/-- `for (int i = 0; i < MAX_JOB_COUNT; i++)`. -/
def slots : List Int := (List.range maxJobCount).map Int.ofNat

/-! ## Adding and removing -/

/-- A turn of the loop of `find_next_job_id`. -/
def takeId (i : Int) : OnJobs (Option Int) := do
  let job ← readJob i
  if job.inUse then pure none
  else do
    writeJob i fun job => { job with inUse := true }
    pure (some i)

/-- `find_next_job_id`. -/
def findNextJobId : OnJobs Int := do
  let found ← firstSome takeId jobIds
  pure (found.getD (-1))

/-- `allocate_command`. `strdup` does not fail here. -/
def allocateCommand (id : Int) (command : List UInt8) : OnJobs Unit := do
  writeJob id fun job => { job with command := command }
  let _ ← readJob id

/-- `add_job`. -/
def addJob (pid : Nat) (command : List UInt8) (isBg : Bool) : OnJobs Unit := do
  let id ← findNextJobId
  writeJob id fun job => { job with pid := pid }
  writeJob id fun job => { job with isBg := isBg }
  allocateCommand id command
  let counter ← look counter
  change fun m => { m with counter := m.counter + 1 }
  writeJob id fun job => { job with counterValue := counter }

/-- `remove_job`. The id is tested after the job has been read. -/
def removeJob (id : Int) : OnJobs Unit := do
  let job ← readJob id
  if id < 0 ∨ job.inUse = false then pure ()
  else do
    let _ ← readJob id
    writeJob id fun job => { job with inUse := false }

/-- A turn of a loop that looks for the job of a process and acts on it. -/
def findTurn (pid : Nat) (act : Int → OnJobs Unit) (i : Int) : OnJobs (Option Unit) := do
  let job ← readJob i
  if job.inUse then do
    let job ← readJob i
    if job.pid = pid then do
      act i
      pure (some ())
    else pure none
  else pure none

/-- `handle_exit_or_signal`. -/
def handleExitOrSignal (pid : Nat) : OnJobs (Option Unit) :=
  firstSome (findTurn pid removeJob) jobIds

/-- `handle_stopped`. -/
def handleStopped (pid : Nat) : OnJobs (Option Unit) :=
  firstSome (findTurn pid fun _ => pure ()) jobIds

/-- The loops of `exec_cmd` behind `waitpid`. -/
def afterWaitpid (pid : Nat) (stopped : Bool) : OnJobs (Option Unit) :=
  firstSome (findTurn pid fun i => if stopped then pure () else removeJob i) slots

/-! ## Moving -/

/-- The loop of `find_most_recently_added_job`. -/
def mostRecentLoop : List Int → Nat → Int → OnJobs Int
  | [], _, id => pure id
  | i :: rest, biggest, id => do
      let job ← readJob i
      if job.inUse ∧ biggest < job.counterValue then mostRecentLoop rest job.counterValue i
      else mostRecentLoop rest biggest id

/-- `find_most_recently_added_job`. -/
def findMostRecentlyAddedJob : OnJobs Int := mostRecentLoop jobIds 0 (-1)

/-- `wait_for_job`, up to `waitpid`. -/
def waitForJob (id : Int) : OnJobs Nat := do
  let job ← readJob id
  pure job.pid

/-- `wait_for_job`, behind `waitpid`. -/
def waitedForJob (id : Int) (stopped : Bool) : OnJobs Unit :=
  if stopped then pure () else removeJob id

/-- `move_to_foreground`, up to `waitpid`: the job that it waits for. -/
def moveToForeground (id : Int) : OnJobs (Option Int) :=
  if id < 0 ∨ maxJobCount ≤ id then pure none
  else do
    let job ← readJob id
    if job.inUse = false then pure none
    else do
      let _ ← readJob id
      let _ ← readJob id
      let _ ← waitForJob id
      pure (some id)

/-- The id that `handle_fg` takes. -/
def fgId (argc : Nat) (arg : List UInt8) : OnJobs Int :=
  if argc = 1 then findMostRecentlyAddedJob else pure (atoi arg)

/-- `is_valid_job`. -/
def isValidJob (id : Int) : OnJobs Bool :=
  if 0 ≤ id ∧ id < maxJobCount then do
    let job ← readJob id
    pure job.inUse
  else pure false

/-- `resume_job`. -/
def resumeJob (id : Int) : OnJobs Unit := do
  let _ ← readJob id

/-- `move_to_background`. -/
def moveToBackground (id : Int) : OnJobs Unit := do
  let valid ← isValidJob id
  if valid then resumeJob id else pure ()

/-- The id that `handle_bg` takes. -/
def bgId (argc : Nat) (arg : List UInt8) : Int := if argc = 1 then maxJobCount - 1 else atoi arg

/-- A turn of the loop of `sigchld_handler`. -/
def sigchldTurn (pid : Nat) (stopped : Bool) : OnJobs (Option Unit) :=
  if stopped then handleStopped pid else handleExitOrSignal pid

end JobMemory

open JobMemory

/-! ## Sessions -/

/-- Where the shell is. -/
inductive Place
  | prompt
  /-- In `exec_cmd`, before `waitpid`. -/
  | waiting (pid : Nat)
  /-- In `exec_cmd`, before the loops behind `waitpid`. -/
  | waited (pid : Nat) (stopped : Bool)
  /-- In `wait_for_job`, before `waitpid`. -/
  | fgWaiting (id : Int)
  /-- In `wait_for_job`, before `remove_job`. -/
  | fgWaited (id : Int) (stopped : Bool)
  | exited

inductive SessionEvent
  /-- A command is forked and added. -/
  | start (pid : Nat) (command : List UInt8) (isBg : Bool)
  | fg (argc : Nat) (arg : List UInt8)
  | bg (argc : Nat) (arg : List UInt8)
  /-- `waitpid` returns. -/
  | waitpid (stopped : Bool)
  /-- The shell goes on behind `waitpid`. -/
  | goOn
  /-- A turn of the loop of `sigchld_handler`. -/
  | child (pid : Nat) (stopped : Bool)

/-- What the shell runs for an event, by the place where it ends. -/
def code : Place → SessionEvent → Option (OnJobs Place)
  | .prompt, .start pid command isBg => some do
      addJob pid command isBg
      pure (if isBg then .prompt else .waiting pid)
  | .prompt, .fg argc arg => some do
      let id ← fgId argc arg
      if 2 < argc then pure .exited
      else do
        let found ← moveToForeground id
        pure (found.elim .prompt .fgWaiting)
  | .prompt, .bg argc arg => some (
      if 2 < argc then pure .exited
      else do
        moveToBackground (bgId argc arg)
        pure .prompt)
  | .waiting pid, .waitpid stopped => some (pure (.waited pid stopped))
  | .waited pid stopped, .goOn => some do
      let _ ← afterWaitpid pid stopped
      pure .prompt
  | .fgWaiting id, .waitpid stopped => some (pure (.fgWaited id stopped))
  | .fgWaited id stopped, .goOn => some do
      waitedForJob id stopped
      pure .prompt
  | .exited, _ => none
  | place, .child pid stopped => some do
      let _ ← sigchldTurn pid stopped
      pure place
  | _, _ => none

structure Session where
  memory : JobMemory
  place : Place

/-- An event, with the indices that the shell touches for it. -/
inductive SessionStep : Session → SessionEvent × List Int → Session → Prop
  | run {s event m} (hcode : code s.place event = some m) :
      SessionStep s (event, (m.run s.memory).touched) ⟨(m.run s.memory).state, (m.run s.memory).value⟩

/-- The shell at its first prompt. -/
def newSession (outside : Int → Job) : Session where
  memory := ⟨fun i => if 0 ≤ i ∧ i < maxJobCount then ⟨0, [], false, false, 0⟩ else outside i, 1⟩
  place := .prompt

/-! ## Indices -/

def InArray (i : Int) : Prop := 0 ≤ i ∧ i < maxJobCount

namespace JobMemory

section Indices

variable {m : JobMemory} {i id : Int} {pid : Nat}

theorem inArray_jobIds (h : i ∈ jobIds) : InArray i := by
  obtain ⟨n, hn, rfl⟩ := List.mem_map.mp h
  rw [List.mem_range'_1] at hn
  exact ⟨Int.natCast_nonneg n, Int.ofNat_lt.mpr (by omega)⟩

theorem inArray_slots (h : i ∈ slots) : InArray i := by
  obtain ⟨n, hn, rfl⟩ := List.mem_map.mp h
  exact ⟨Int.natCast_nonneg n, Int.ofNat_lt.mpr (List.mem_range.mp hn)⟩

theorem within_takeId (hi : InArray i) : Within InArray (takeId i) m := by
  rw [takeId, readJob, within_readAt_bind]
  refine ⟨hi, ?_⟩
  split
  · exact within_pure none
  · exact within_bind.mpr ⟨within_writeAt.mpr hi, within_pure (some i)⟩

theorem within_findNextJobId : Within InArray findNextJobId m :=
  within_bind.mpr ⟨within_firstSome fun _ hi _ => within_takeId (inArray_jobIds hi), within_pure _⟩

theorem within_removeJob (hid : InArray id) : Within InArray (removeJob id) m := by
  rw [removeJob, readJob, within_readAt_bind]
  refine ⟨hid, ?_⟩
  split
  · exact within_pure ()
  · exact within_readAt_bind.mpr ⟨hid, within_writeAt.mpr hid⟩

theorem within_findTurn {act : Int → OnJobs Unit} (hi : InArray i)
    (hact : ∀ m, Within InArray (act i) m) : Within InArray (findTurn pid act i) m := by
  rw [findTurn, readJob, within_readAt_bind]
  refine ⟨hi, ?_⟩
  split
  · rw [within_readAt_bind]
    refine ⟨hi, ?_⟩
    split
    · exact within_bind.mpr ⟨hact m, within_pure (some ())⟩
    · exact within_pure none
  · exact within_pure none

theorem within_handleExitOrSignal : Within InArray (handleExitOrSignal pid) m :=
  within_firstSome fun _ hi _ => within_findTurn (inArray_jobIds hi)
    fun _ => within_removeJob (inArray_jobIds hi)

theorem within_handleStopped : Within InArray (handleStopped pid) m :=
  within_firstSome fun _ hi _ => within_findTurn (inArray_jobIds hi) fun _ => within_pure ()

theorem within_waitedForJob (hid : InArray id) (stopped : Bool) :
    Within InArray (waitedForJob id stopped) m := by
  rw [waitedForJob]
  split
  · exact within_pure ()
  · exact within_removeJob hid

theorem within_afterWaitpid (stopped : Bool) : Within InArray (afterWaitpid pid stopped) m :=
  within_firstSome fun _ hi _ => within_findTurn (inArray_slots hi)
    fun _ => within_waitedForJob (inArray_slots hi) stopped

theorem within_mostRecentLoop {ids : List Int} (h : ∀ i ∈ ids, InArray i) (biggest : Nat)
    (id : Int) : Within InArray (mostRecentLoop ids biggest id) m := by
  induction ids generalizing biggest id with
  | nil => exact within_pure id
  | cons i rest ih =>
      rw [List.forall_mem_cons] at h
      rw [mostRecentLoop, readJob, within_readAt_bind]
      refine ⟨h.1, ?_⟩
      split
      · exact ih h.2 _ i
      · exact ih h.2 biggest id

theorem within_findMostRecentlyAddedJob : Within InArray findMostRecentlyAddedJob m :=
  within_mostRecentLoop (fun _ => inArray_jobIds) 0 (-1)

/-- `move_to_foreground` tests every id before it reads. -/
theorem within_moveToForeground (id : Int) : Within InArray (moveToForeground id) m := by
  rw [moveToForeground]
  split
  case isTrue => exact within_pure none
  case isFalse hin =>
    have hid : InArray id := by
      rw [not_or, not_lt, not_le] at hin
      exact hin
    rw [readJob, within_readAt_bind]
    refine ⟨hid, ?_⟩
    split
    · exact within_pure none
    · rw [within_readAt_bind, within_readAt_bind, waitForJob, readJob, within_bind,
        within_readAt_bind]
      exact ⟨hid, hid, ⟨hid, within_pure _⟩, within_pure (some id)⟩

theorem within_fgId (argc : Nat) (arg : List UInt8) : Within InArray (fgId argc arg) m := by
  rw [fgId]
  split
  · exact within_findMostRecentlyAddedJob
  · exact within_pure _

theorem within_sigchldTurn (stopped : Bool) : Within InArray (sigchldTurn pid stopped) m := by
  rw [sigchldTurn]
  split
  · exact within_handleStopped
  · exact within_handleExitOrSignal

/-- The job that `fg` waits for is in the array. -/
theorem inArray_moveToForeground {found : Int}
    (h : ((moveToForeground id).run m).value = some found) : InArray found := by
  rw [moveToForeground, run_ite] at h
  split at h
  case isTrue => cases h
  case isFalse hin =>
    rw [not_or, not_lt, not_le] at hin
    rw [readJob, value_readAt_bind, run_ite] at h
    split at h
    · cases h
    · obtain rfl : id = found := Option.some.inj h
      exact hin

/-- So does `move_to_background`. -/
theorem within_moveToBackground (id : Int) : Within InArray (moveToBackground id) m := by
  rw [moveToBackground, within_bind, isValidJob]
  by_cases hid : 0 ≤ id ∧ id < maxJobCount
  · rw [if_pos hid, readJob, within_readAt_bind]
    refine ⟨⟨hid, within_pure _⟩, ?_⟩
    rw [value_readAt_bind, state_readAt_bind]
    split
    · exact within_readAt_bind.mpr ⟨hid, within_pure ()⟩
    · exact within_pure ()
  · rw [if_neg hid]
    exact ⟨within_pure false, within_pure ()⟩

end Indices

/-! ## A new job -/

section Adding

variable {m : JobMemory} {pid : Nat} {command : List UInt8} {isBg : Bool}

theorem jobIds_eq : jobIds =
    ((List.finRange maxJobCount).filter fun i => i ≠ 0).map fun i => (i.val : Int) := by
  decide +kernel

theorem find?_jobIds (m : JobMemory) :
    jobIds.find? (fun i => !(m.jobs i).inUse) =
      m.table.findNextJobId.map fun i => (i.val : Int) := by
  rw [jobIds_eq, List.find?_map, List.find?_filter, JobTable.findNextJobId]
  congr 2
  funext i
  rw [decide_eq_decide]
  simp [table]

/-- The id that the search takes. -/
theorem findNextJobId_eq (m : JobMemory) :
    (findNextJobId.run m).value = (m.table.findNextJobId.map fun i => (i.val : Int)).getD (-1) ∧
      (findNextJobId.run m).state =
        (m.table.findNextJobId.map fun i =>
          { m with jobs := Function.update m.jobs i.val { m.jobs i.val with inUse := true } }).getD
            m := by
  have htaken : ∀ i, (m.jobs i).inUse = false → ((takeId i).run m).value = some i ∧
      ((takeId i).run m).state =
        { m with jobs := Function.update m.jobs i { m.jobs i with inUse := true } } := by
    intro i hfree
    rw [takeId, readJob, value_readAt_bind, state_readAt_bind, run_ite, if_neg (by simp [hfree])]
    exact ⟨rfl, rfl⟩
  have hsearch := @firstSome_eq _ _ _ _ takeId jobIds m (fun i => !(m.jobs i).inUse)
    (fun i _ huse => by
      rw [Bool.not_eq_false'] at huse
      rw [takeId, readJob, value_readAt_bind, state_readAt_bind, run_ite, if_pos huse]
      exact ⟨rfl, rfl⟩)
    (fun i _ hfree => by
      rw [Bool.not_eq_true'] at hfree
      rw [(htaken i hfree).1]
      rfl)
  rw [find?_jobIds] at hsearch
  rw [findNextJobId, value_bind, state_bind, hsearch.1, hsearch.2]
  cases hfind : m.table.findNextJobId with
  | none => exact ⟨rfl, rfl⟩
  | some i =>
      have hfree : (m.jobs i.val).inUse = false := by
        have hfound := List.find?_some hfind
        simp only [decide_eq_true_eq] at hfound
        exact hfound.2
      obtain ⟨hvalue, hstate⟩ := htaken i.val hfree
      exact ⟨congrArg (fun o => Option.getD o (-1)) hvalue, hstate⟩

theorem findNextJobId_isSome {t : JobTable} : t.findNextJobId.isSome ↔ t.HasRoom := by
  constructor
  · intro h
    obtain ⟨i, hi⟩ := Option.isSome_iff_exists.mp h
    have hfound := List.find?_some hi
    simp only [decide_eq_true_eq] at hfound
    exact ⟨i, hfound⟩
  · intro h
    obtain ⟨i, hi, -⟩ := JobTable.findNextJobId_lowest_iff.mpr h
    rw [hi]
    rfl

/-- What `add_job` does behind the search. -/
theorem addJob_eq (m : JobMemory) (pid : Nat) (command : List UInt8) (isBg : Bool) :
    ∃ i : Int, (findNextJobId.run m).value = i ∧
      (Within InArray (addJob pid command isBg) m ↔ InArray i) ∧
      ((addJob pid command isBg).run m).state =
        { jobs := Function.update (findNextJobId.run m).state.jobs i
            ⟨pid, command, isBg, ((findNextJobId.run m).state.jobs i).inUse,
              (findNextJobId.run m).state.counter⟩
          counter := (findNextJobId.run m).state.counter + 1 } := by
  refine ⟨_, rfl, ?_, ?_⟩
  · rw [addJob, within_bind, and_iff_right within_findNextJobId]
    simp [writeJob, allocateCommand, readJob]
  · simp [addJob, writeJob, allocateCommand, readJob]

/-- A job is added inside the array exactly when an id is free. -/
theorem within_addJob : Within InArray (addJob pid command isBg) m ↔ m.table.HasRoom := by
  obtain ⟨i, hi, hwithin, -⟩ := addJob_eq m pid command isBg
  rw [hwithin, ← hi, (findNextJobId_eq m).1, ← findNextJobId_isSome]
  cases m.table.findNextJobId with
  | none => exact iff_of_false (fun h => absurd h.1 (by decide)) nofun
  | some i => exact iff_of_true ⟨Int.natCast_nonneg _, Int.ofNat_lt.mpr i.isLt⟩ rfl

/-- Without a free id, a new job is written in front of the array. -/
theorem addJob_full (hfull : ¬m.table.HasRoom) {i : Int} (hi : InArray i) :
    ((addJob pid command isBg).run m).state.jobs i = m.jobs i := by
  rw [← findNextJobId_isSome, Option.not_isSome_iff_eq_none] at hfull
  obtain ⟨hvalue, hstate⟩ := findNextJobId_eq m
  obtain ⟨id, hid, -, hadd⟩ := addJob_eq m pid command isBg
  rw [hfull] at hvalue hstate
  rw [hvalue] at hid
  rw [hadd, hstate, ← hid]
  exact Function.update_of_ne (by rintro rfl; exact absurd hi.1 (by decide)) _ _

/-- In the array, `add_job` does what it does to the table. -/
theorem table_addJob (m : JobMemory) (pid : Nat) (command : List UInt8) (isBg : Bool) :
    ((addJob pid command isBg).run m).state.table = m.table.addJob pid command isBg := by
  obtain ⟨hvalue, hstate⟩ := findNextJobId_eq m
  obtain ⟨id, hid, -, hadd⟩ := addJob_eq m pid command isBg
  rw [JobTable.addJob]
  cases hfind : m.table.findNextJobId with
  | none =>
      rw [hfind] at hvalue hstate
      rw [hvalue] at hid
      rw [hadd, hstate, ← hid, table, JobTable.mk.injEq]
      refine ⟨funext fun j => ?_, rfl⟩
      have hval : (j.val : Int) ≠ -1 := by omega
      simp [table, hval]
  | some i =>
      rw [hfind] at hvalue hstate
      rw [hvalue] at hid
      rw [hadd, hstate, ← hid, table, JobTable.mk.injEq]
      refine ⟨funext fun j => ?_, rfl⟩
      rcases eq_or_ne j i with rfl | hne
      · simp [table]
      · have hval : (j.val : Int) ≠ i.val := fun h => hne (Fin.ext (Int.ofNat_inj.mp h))
        simp [table, hval, hne]

end Adding

/-! ## The table -/

section Same

variable (m : JobMemory)

theorem table_update (i : Fin maxJobCount) (job : Job) :
    table { m with jobs := Function.update m.jobs i.val job } =
      { m.table with jobs := Function.update m.table.jobs i job } := by
  rw [table, JobTable.mk.injEq]
  refine ⟨funext fun j => ?_, rfl⟩
  rcases eq_or_ne j i with rfl | hne
  · simp
  · have hval : (j.val : Int) ≠ i.val := fun h => hne (Fin.ext (Int.ofNat_inj.mp h))
    simp [table, hval, hne]

theorem table_removeJob (i : Fin maxJobCount) :
    ((removeJob i.val).run m).state.table = m.table.removeJob i := by
  have hnat : ¬((i.val : Int) < 0) := by omega
  rw [removeJob, readJob, state_readAt_bind, run_ite, JobTable.removeJob]
  cases huse : (m.jobs i.val).inUse with
  | false =>
      rw [if_pos (Or.inr rfl), if_neg (by rw [table, huse]; decide)]
      rfl
  | true =>
      rw [if_neg (by simp [hnat]), if_pos (by rw [table, huse])]
      exact table_update m i _

end Same

/-! ## The job of `fg` -/

section Foreground
variable (m : JobMemory)

/-- The number of a job, or -1. -/
def idOf (job : Option (Fin maxJobCount)) : Int := (job.map fun i => (i.val : Int)).getD (-1)

/-- The loop keeps the job that the scan of the table keeps. -/
theorem mostRecentLoop_eq (l : List (Fin maxJobCount)) (kept : Option (Fin maxJobCount))
    (biggest : Nat) :
    ((mostRecentLoop (l.map fun i => (i.val : Int)) biggest (idOf kept)).run m).value =
      idOf (l.foldl (scanTurn (fun i => (m.table.jobs i).inUse = true)
        fun i => OrderDual.toDual (m.table.jobs i).counterValue)
          (kept, OrderDual.toDual biggest)).1 := by
  induction l generalizing kept biggest with
  | nil => rfl
  | cons i rest ih =>
      rw [List.map_cons, mostRecentLoop, readJob, value_readAt_bind, run_ite, List.foldl_cons]
      by_cases hkeep : (m.jobs i.val).inUse = true ∧ biggest < (m.jobs i.val).counterValue
      · have hturn : scanTurn (fun i => (m.table.jobs i).inUse = true)
            (fun i => OrderDual.toDual (m.table.jobs i).counterValue)
              (kept, OrderDual.toDual biggest) i =
            (some i, OrderDual.toDual (m.table.jobs i).counterValue) := if_pos hkeep
        rw [if_pos hkeep, hturn]
        exact ih (some i) _
      · have hturn : scanTurn (fun i => (m.table.jobs i).inUse = true)
            (fun i => OrderDual.toDual (m.table.jobs i).counterValue)
              (kept, OrderDual.toDual biggest) i = (kept, OrderDual.toDual biggest) := if_neg hkeep
        rw [if_neg hkeep, hturn]
        exact ih kept biggest

theorem findMostRecentlyAddedJob_eq :
    (findMostRecentlyAddedJob.run m).value = idOf m.table.findMostRecentlyAddedJob := by
  rw [findMostRecentlyAddedJob, jobIds_eq]
  exact mostRecentLoop_eq m _ none 0

/-- `move_to_foreground` waits for the job that it finds in the table. -/
theorem moveToForeground_eq (id : Int) :
    ((moveToForeground id).run m).value =
      (m.table.moveToForeground id).map fun i => (i.val : Int) := by
  rw [moveToForeground, JobTable.moveToForeground, JobTable.validJob, run_ite]
  by_cases hid : 0 ≤ id ∧ id.toNat < maxJobCount
  · have hval : (id.toNat : Int) = id := Int.toNat_of_nonneg hid.1
    have hjob : m.table.jobs ⟨id.toNat, hid.2⟩ = m.jobs id := congrArg m.jobs hval
    rw [if_neg (by omega), dif_pos hid, readJob, value_readAt_bind, run_ite, hjob]
    cases huse : (m.jobs id).inUse with
    | false =>
        rw [if_pos rfl, if_neg (by decide)]
        rfl
    | true =>
        rw [if_neg (by decide), if_pos rfl]
        exact congrArg some hval.symm
  · rw [if_pos (by omega), dif_neg hid]
    rfl


/-- The id that `fg` takes is that of the table. -/
theorem fgId_eq (argc : Nat) (arg : List UInt8) :
    ((fgId argc arg).run m).value =
      if argc = 1 then idOf m.table.findMostRecentlyAddedJob else atoi arg := by
  rw [fgId, run_ite]
  split
  · exact findMostRecentlyAddedJob_eq m
  · rfl

end Foreground

/-! ## Calls -/

/-- The table is as one call of `add_job` or `remove_job` leaves it, or unchanged. -/
def OneCall (m m' : JobMemory) : Prop :=
  m'.table = m.table ∨ ∃ call, m'.table = TableCall.apply m.table call

section Calls

variable (m : JobMemory) (pid : Nat) {id : Int}

theorem OneCall.refl : OneCall m m := .inl rfl

theorem oneCall_removeJob (hid : InArray id) : OneCall m ((removeJob id).run m).state := by
  obtain ⟨n, rfl⟩ := Int.eq_ofNat_of_zero_le hid.1
  have hn : n < maxJobCount := Int.ofNat_lt.mp hid.2
  exact .inr ⟨.removeJob ⟨n, hn⟩, table_removeJob m ⟨n, hn⟩⟩

theorem oneCall_waitedForJob (hid : InArray id) (stopped : Bool) :
    OneCall m ((waitedForJob id stopped).run m).state := by
  rw [waitedForJob]
  split
  · exact .refl m
  · exact oneCall_removeJob m hid

/-- A loop that acts on the job of a process acts on one at most. -/
theorem oneCall_findLoop {act : Int → OnJobs Unit} {ids : List Int}
    (hact : ∀ i ∈ ids, OneCall m ((act i).run m).state) :
    OneCall m ((firstSome (findTurn pid act) ids).run m).state := by
  have hturn : ∀ i, ((findTurn pid act i).run m).value = none ∧
      ((findTurn pid act i).run m).state = m ∨
        ((findTurn pid act i).run m).value = some () ∧
          ((findTurn pid act i).run m).state = ((act i).run m).state := by
    intro i
    rw [findTurn, readJob, value_readAt_bind, state_readAt_bind]
    split
    · rw [value_readAt_bind, state_readAt_bind]
      split
      · exact .inr ⟨rfl, rfl⟩
      · exact .inl ⟨rfl, rfl⟩
    · exact .inl ⟨rfl, rfl⟩
  have hskip : ∀ i ∈ ids, ((findTurn pid act i).run m).value = none →
      ((findTurn pid act i).run m).state = m := by
    intro i _ hnone
    rcases hturn i with ⟨-, hsame⟩ | ⟨hfound, -⟩
    · exact hsame
    · rw [hnone] at hfound
      cases hfound
  rcases firstSome_state hskip with h | ⟨i, hi, h⟩
  · rw [h]
    exact .refl m
  · rw [h]
    rcases hturn i with ⟨-, hsame⟩ | ⟨-, hdone⟩
    · rw [hsame]
      exact .refl m
    · rw [hdone]
      exact hact i hi

theorem oneCall_sigchldTurn (stopped : Bool) :
    OneCall m ((sigchldTurn pid stopped).run m).state := by
  rw [sigchldTurn]
  split
  · exact oneCall_findLoop m pid fun _ _ => .refl m
  · exact oneCall_findLoop m pid fun _ hi => oneCall_removeJob m (inArray_jobIds hi)

theorem mostRecentLoop_state (ids : List Int) (biggest : Nat) (id : Int) :
    ((mostRecentLoop ids biggest id).run m).state = m := by
  induction ids generalizing biggest id with
  | nil => rfl
  | cons i rest ih =>
      rw [mostRecentLoop, readJob, state_readAt_bind]
      split
      · exact ih _ i
      · exact ih biggest id

theorem fgId_state (argc : Nat) (arg : List UInt8) : ((fgId argc arg).run m).state = m := by
  rw [fgId]
  split
  · exact mostRecentLoop_state m jobIds 0 (-1)
  · rfl

theorem moveToForeground_state (id : Int) : ((moveToForeground id).run m).state = m := by
  rw [moveToForeground]
  split
  · rfl
  · rw [readJob, state_readAt_bind]
    split <;> rfl

theorem moveToBackground_state (id : Int) : ((moveToBackground id).run m).state = m := by
  rw [moveToBackground, isValidJob, state_bind]
  split
  · rw [readJob, state_readAt_bind, value_readAt_bind]
    split <;> rfl
  · rfl

end Calls

end JobMemory

/-! ## Runs -/

/-- Where the shell is behind `fg`. -/
def Acted.place : Acted → Place
  | .exits => .exited
  | .on job => job.elim .prompt fun i => .fgWaiting i.val

/-- The ids that the shell keeps while it waits are in the array. -/
def Place.Sound : Place → Prop
  | .fgWaiting id | .fgWaited id _ => InArray id
  | _ => True

/-- What one event touches, and where the shell goes. -/
theorem code_spec {place : Place} {event : SessionEvent} {m : OnJobs Place}
    (hcode : code place event = some m) (hplace : place.Sound) (memory : JobMemory) :
    (m.run memory).value.Sound ∧
      (Within InArray m memory ↔
        ∀ pid command isBg, event = .start pid command isBg → memory.table.HasRoom) := by
  unfold code at hcode
  split at hcode
  case h_1 pid command isBg =>
    cases hcode
    refine ⟨?_, ?_⟩
    · rw [value_bind, run_pure]
      split <;> trivial
    · rw [within_bind, within_addJob]
      refine ⟨fun h _ _ _ _ => h.1, fun h => ⟨h pid command isBg rfl, within_pure _⟩⟩
  case h_2 argc arg =>
    cases hcode
    refine ⟨?_, iff_of_true (within_bind.mpr ⟨within_fgId argc arg, ?_⟩) nofun⟩
    · rw [value_bind, run_ite]
      split
      · trivial
      · rw [value_bind, run_pure]
        cases hfound : ((moveToForeground _).run _).value with
        | none => trivial
        | some found => exact inArray_moveToForeground hfound
    · split
      · exact within_pure _
      · exact within_bind.mpr ⟨within_moveToForeground _, within_pure _⟩
  case h_3 argc arg =>
    cases hcode
    refine ⟨?_, iff_of_true ?_ nofun⟩
    · rw [run_ite]
      split <;> trivial
    · split
      · exact within_pure _
      · exact within_bind.mpr ⟨within_moveToBackground _, within_pure _⟩
  case h_4 pid stopped =>
    cases hcode
    exact ⟨trivial, iff_of_true (within_pure _) nofun⟩
  case h_5 pid stopped =>
    cases hcode
    exact ⟨trivial, iff_of_true (within_bind.mpr ⟨within_afterWaitpid stopped, within_pure _⟩) nofun⟩
  case h_6 id stopped =>
    cases hcode
    exact ⟨hplace, iff_of_true (within_pure _) nofun⟩
  case h_7 id stopped =>
    cases hcode
    exact ⟨trivial,
      iff_of_true (within_bind.mpr ⟨within_waitedForJob hplace stopped, within_pure _⟩) nofun⟩
  case h_8 => cases hcode
  case h_9 pid stopped _ =>
    cases hcode
    exact ⟨hplace,
      iff_of_true (within_bind.mpr ⟨within_sigchldTurn stopped, within_pure _⟩) nofun⟩
  case h_10 => cases hcode

/-- For one event, the table changes by one call at most. -/
theorem oneCall_code {place : Place} {event : SessionEvent} {m : OnJobs Place}
    (hcode : code place event = some m) (hplace : place.Sound) (memory : JobMemory) :
    OneCall memory (m.run memory).state := by
  unfold code at hcode
  split at hcode
  case h_1 pid command isBg =>
    cases hcode
    exact .inr ⟨.addJob pid command isBg, table_addJob memory pid command isBg⟩
  case h_2 argc arg =>
    cases hcode
    left
    rw [state_bind, run_ite]
    split
    · exact congrArg table (fgId_state memory argc arg)
    · rw [state_bind, fgId_state, run_pure, moveToForeground_state]
  case h_3 argc arg =>
    cases hcode
    left
    rw [run_ite]
    split
    · rfl
    · exact congrArg table (moveToBackground_state memory (bgId argc arg))
  case h_5 pid stopped =>
    cases hcode
    exact oneCall_findLoop memory pid fun _ hi => oneCall_waitedForJob memory (inArray_slots hi) stopped
  case h_7 id stopped =>
    cases hcode
    exact oneCall_waitedForJob memory hplace stopped
  case h_9 pid stopped _ =>
    cases hcode
    exact oneCall_sigchldTurn memory pid stopped
  case h_4 | h_6 =>
    cases hcode
    exact .refl memory
  case h_8 | h_10 => cases hcode

/-- Before each start of the run, an id is free. -/
def RoomAtStarts (outside : Int → Job) (labels : List (SessionEvent × List Int)) : Prop :=
  ∀ pre pid command isBg touched s,
    pre ++ [(.start pid command isBg, touched)] <+: labels →
      Run SessionStep (newSession outside) pre s → s.memory.table.HasRoom

/-- Every index is one of the array, and a start without a free id leaves the array as it is. -/
structure JobLaw (outside : Int → Job) (labels : List (SessionEvent × List Int)) : Prop where
  bounds : ∀ label ∈ labels, ∀ i ∈ label.2, InArray i
  full : ∀ pre pid command isBg touched s s',
    pre ++ [(.start pid command isBg, touched)] <+: labels →
      Run SessionStep (newSession outside) pre s →
      SessionStep s (.start pid command isBg, touched) s' →
      ¬s.memory.table.HasRoom → ∀ i, InArray i → s'.memory.jobs i = s.memory.jobs i

section Sessions

variable {outside : Int → Job} {labels : List (SessionEvent × List Int)} {s s' t : Session}
  {event : SessionEvent} {touched : List Int}

theorem SessionStep.inv (h : SessionStep s (event, touched) s') :
    ∃ m, code s.place event = some m ∧ touched = (m.run s.memory).touched ∧
      s' = ⟨(m.run s.memory).state, (m.run s.memory).value⟩ := by
  cases h with
  | run hcode => exact ⟨_, hcode, rfl, rfl⟩

theorem SessionStep.unique {label : SessionEvent × List Int} (h : SessionStep s label s')
    (h' : SessionStep s label t) : s' = t := by
  obtain ⟨m, hcode, -, rfl⟩ := h.inv
  obtain ⟨m', hcode', -, rfl⟩ := h'.inv
  obtain rfl : m = m' := Option.some.inj (hcode.symm.trans hcode')
  rfl

theorem sound (h : Run SessionStep (newSession outside) labels s) : s.place.Sound := by
  refine Run.invariant (P := fun s => s.place.Sound) ?_ h trivial
  rintro s label s' hs ⟨hcode⟩
  exact (code_spec hcode hs s.memory).1

/-- In the array, `fg` does what it does with the table. -/
theorem SessionStep.fg {argc : Nat} {arg : List UInt8}
    (h : SessionStep s (.fg argc arg, touched) s') :
    s'.memory = s.memory ∧ s'.place = (s.memory.table.handleFg argc arg).place := by
  obtain ⟨m, hcode, -, rfl⟩ := h.inv
  cases hplace : s.place with
  | prompt =>
      rw [hplace] at hcode
      obtain rfl := Option.some.inj hcode
      have hid : ((fgId argc arg).run s.memory).value =
          if argc = 1 then idOf s.memory.table.findMostRecentlyAddedJob else atoi arg :=
        fgId_eq s.memory argc arg
      rw [state_bind, value_bind, fgId_state, hid, JobTable.handleFg]
      by_cases hargc : 2 < argc
      · rw [if_pos hargc, if_pos hargc]
        exact ⟨rfl, rfl⟩
      · rw [if_neg hargc, if_neg hargc, state_bind, value_bind, moveToForeground_state,
          moveToForeground_eq]
        refine ⟨rfl, ?_⟩
        rw [run_pure, Option.elim_map, Acted.place]
        cases s.memory.table.findMostRecentlyAddedJob <;> rfl
  | waiting | waited | fgWaiting | fgWaited | exited =>
      rw [hplace] at hcode
      cases hcode

/-- The table of a session is that of a history of `add_job` and `remove_job`. -/
theorem exists_history (h : Run SessionStep (newSession outside) labels s) :
    ∃ calls : List TableCall, calls.length ≤ labels.length ∧
      s.memory.table = tableAfter calls := by
  induction h with
  | nil =>
      refine ⟨[], Nat.le_refl 0, ?_⟩
      simp [tableAfter, start, newSession, table]
  | @concat labels s label s' hrun hstep ih =>
      obtain ⟨calls, hlength, htable⟩ := ih
      rw [List.length_append]
      obtain ⟨hcode⟩ := hstep
      rcases oneCall_code hcode (sound hrun) s.memory with hsame | ⟨call, hcall⟩
      · exact ⟨calls, Nat.le_succ_of_le hlength, hsame.trans htable⟩
      · refine ⟨calls ++ [call], ?_, ?_⟩
        · rw [List.length_append]
          exact Nat.succ_le_succ hlength
        · rw [hcall, htable, tableAfter, tableAfter, List.foldl_append]
          rfl

/-- The counter is bounded by the number of events. -/
theorem counter_le (h : Run SessionStep (newSession outside) labels s) :
    s.memory.counter ≤ labels.length + 1 := by
  obtain ⟨calls, hlength, htable⟩ := exists_history h
  have hcounter := tableAfter_counter calls
  rw [← htable] at hcounter
  exact hcounter.trans (Nat.succ_le_succ hlength)

theorem SessionStep.indices (h : SessionStep s (event, touched) s') (hs : s.place.Sound) :
    (∀ i ∈ touched, InArray i) ↔
      ∀ pid command isBg, event = .start pid command isBg → s.memory.table.HasRoom := by
  obtain ⟨m, hcode, rfl, -⟩ := h.inv
  exact (code_spec hcode hs s.memory).2

/-- The memory after a start. -/
theorem SessionStep.start {pid : Nat} {command : List UInt8} {isBg : Bool}
    (h : SessionStep s (.start pid command isBg, touched) s') :
    s'.memory = ((addJob pid command isBg).run s.memory).state := by
  obtain ⟨m, hcode, -, rfl⟩ := h.inv
  cases hplace : s.place with
  | prompt =>
      rw [hplace] at hcode
      cases hcode
      rfl
  | waiting | waited | fgWaiting | fgWaited | exited =>
      rw [hplace] at hcode
      cases hcode

theorem roomAtStarts_concat (hrun : Run SessionStep (newSession outside) labels s) :
    RoomAtStarts outside (labels ++ [(event, touched)]) ↔ RoomAtStarts outside labels ∧
      ∀ pid command isBg, event = .start pid command isBg → s.memory.table.HasRoom := by
  constructor
  · intro h
    refine ⟨fun pre pid command isBg touched t hpre =>
      h pre pid command isBg touched t (hpre.trans (List.prefix_append _ _)), ?_⟩
    rintro pid command isBg rfl
    exact h labels pid command isBg touched s (List.prefix_refl _) hrun
  · rintro ⟨hbefore, hlast⟩ pre pid command isBg touched' t hpre ht
    rcases List.prefix_concat_iff.mp hpre with heq | hpre
    · obtain ⟨rfl, hlabel⟩ := List.append_inj' heq rfl
      obtain ⟨rfl, -⟩ := Prod.mk.inj (List.singleton_inj.mp hlabel)
      have hdet : ∀ t l u v, SessionStep t l u → SessionStep t l v → u = v :=
        fun _ _ _ _ => SessionStep.unique
      rw [ht.unique hdet hrun]
      exact hlast pid command isBg rfl
    · exact hbefore pre pid command isBg touched' t hpre ht

theorem bounds_iff (h : Run SessionStep (newSession outside) labels s) :
    (∀ label ∈ labels, ∀ i ∈ label.2, InArray i) ↔ RoomAtStarts outside labels := by
  induction h with
  | nil => exact iff_of_true nofun fun pre _ _ _ _ _ hpre => absurd hpre (by simp)
  | @concat labels s label s' hrun hstep ih =>
      rw [roomAtStarts_concat hrun, ← ih, ← hstep.indices (sound hrun), List.forall_mem_append,
        List.forall_mem_singleton]

/-- In every run, the shell stays in its array, and keeps it when it is full, exactly when an
id is free for every job that is started. -/
theorem job_indices_iff (h : Run SessionStep (newSession outside) labels s) :
    JobLaw outside labels ↔ RoomAtStarts outside labels := by
  refine ⟨fun law => (bounds_iff h).mp law.bounds, fun hroom => ⟨(bounds_iff h).mpr hroom, ?_⟩⟩
  intro pre pid command isBg touched s s' _ _ hstep hfull i hi
  rw [hstep.start]
  exact addJob_full hfull hi

end Sessions

/-- One background job. -/
theorem job_indices_iff_one : ∃ labels, labels.map Prod.fst = [.start 7 [] true] ∧
    (JobLaw (fun _ => ⟨0, [], false, false, 0⟩) labels ↔
      RoomAtStarts (fun _ => ⟨0, [], false, false, 0⟩) labels) :=
  have hstep := @SessionStep.run (newSession fun _ => ⟨0, [], false, false, 0⟩)
    (.start 7 [] true) _ rfl
  ⟨_, rfl, job_indices_iff (Run.single hstep)⟩

/-! ## A full table -/

/-- The ids that are free. -/
def freeIds (t : JobTable) : Finset (Fin maxJobCount) :=
  Finset.univ.filter fun i => i ≠ 0 ∧ (t.jobs i).inUse = false

theorem card_freeIds_addJob {t : JobTable} (hroom : t.HasRoom) (pid : Nat) (command : List UInt8)
    (isBg : Bool) : (freeIds (t.addJob pid command isBg)).card + 1 = (freeIds t).card := by
  obtain ⟨i, hi, hne, hfree, -⟩ := JobTable.findNextJobId_lowest_iff.mpr hroom
  have hmem : i ∈ freeIds t := by simpa [freeIds] using ⟨hne, hfree⟩
  have herase : freeIds (t.addJob pid command isBg) = (freeIds t).erase i := by
    ext j
    rw [JobTable.addJob, hi]
    rcases eq_or_ne j i with rfl | hj
    · simp [freeIds]
    · simp [freeIds, hj]
  rw [herase, Finset.card_erase_add_one hmem]

theorem card_freeIds_newSession (outside : Int → Job) :
    (freeIds (newSession outside).memory.table).card = maxJobCount - 1 := by
  have hall : freeIds (newSession outside).memory.table = Finset.univ.erase 0 := by
    ext i
    simp [freeIds, newSession, table]
  rw [hall, Finset.card_erase_of_mem (Finset.mem_univ 0), Finset.card_univ, Fintype.card_fin]

/-- So many background jobs, one after the other. -/
def starts (n : Nat) : List SessionEvent := (List.range n).map fun k => .start (k + 2) [] true

/-- Background jobs can always be started, and each takes an id as long as one is free. -/
theorem exists_starts (outside : Int → Job) (n : Nat) :
    ∃ labels s, Run SessionStep (newSession outside) labels s ∧ s.place = .prompt ∧
      labels.map Prod.fst = starts n ∧
      (RoomAtStarts outside labels → (freeIds s.memory.table).card + n = maxJobCount - 1) := by
  induction n with
  | zero =>
      exact ⟨[], _, Run.nil, rfl, rfl, fun _ => card_freeIds_newSession outside⟩
  | succ n ih =>
      obtain ⟨labels, s, hrun, hplace, hevents, hcard⟩ := ih
      have hstep := @SessionStep.run s (.start (n + 2) [] true) _ (by rw [hplace]; rfl)
      refine ⟨_, _, hrun.concat hstep, rfl, ?_, fun hroom => ?_⟩
      · rw [List.map_append, hevents, starts, starts, List.range_succ, List.map_append]
        rfl
      · obtain ⟨hbefore, hlast⟩ := (roomAtStarts_concat hrun).mp hroom
        have hone := card_freeIds_addJob (hlast _ _ _ rfl) (n + 2) [] true
        rw [hstep.start, table_addJob]
        have hall := hcard hbefore
        omega

/-- The 256th of 256 background jobs is written in front of the array. -/
theorem table_overrun : ¬∀ outside labels s, Run SessionStep (newSession outside) labels s →
    JobLaw outside labels := by
  intro h
  obtain ⟨labels, s, hrun, -, -, hcard⟩ := exists_starts (fun _ => ⟨0, [], false, false, 0⟩) 256
  have hfull := hcard ((bounds_iff hrun).mp (h _ _ _ hrun).bounds)
  have hcount : maxJobCount = 256 := rfl
  omega

end OSProjects.Shell
