import Mathlib.Data.List.Pairwise
import Mathlib.Order.OrderDual
import OSProjects.Foundation.LeastScan
import OSProjects.Foundation.StringSearch
import OSProjects.Shell.Tracking

/-!
# The default job

`fg` and `bg` without an argument. The table keeps the order in which jobs were added in its
counter, while ids are handed out again from the lowest on.
-/

namespace OSProjects.Shell

open LeastScan StringSearch

/-! ## The commands -/

/-- What `handle_fg` and `handle_bg` do: leave the shell, or act on a job or on none. -/
inductive Acted
  | exits
  | on (job : Option (Fin maxJobCount))
  deriving DecidableEq, Repr

/-- The number that `handle_bg` takes without an argument. -/
def lastJob : Fin maxJobCount := ⟨maxJobCount - 1, by decide⟩

namespace JobTable

/-- `find_most_recently_added_job`: a job with a greater counter than all before it is kept. -/
def findMostRecentlyAddedJob (t : JobTable) : Option (Fin maxJobCount) :=
  leastScan (fun i => (t.jobs i).inUse = true) (fun i => OrderDual.toDual (t.jobs i).counterValue)
    (OrderDual.toDual 0) ((List.finRange maxJobCount).filter fun i => i ≠ 0)

/-- The job with this number, when it is in the table and in use. -/
def validJob (t : JobTable) (id : Int) : Option (Fin maxJobCount) :=
  if h : 0 ≤ id ∧ id.toNat < maxJobCount then
    if (t.jobs ⟨id.toNat, h.2⟩).inUse then some ⟨id.toNat, h.2⟩ else none
  else none

/-- `move_to_foreground`, by the job that it continues and waits for. -/
def moveToForeground (t : JobTable) (id : Int) : Option (Fin maxJobCount) := t.validJob id

/-- `move_to_background`, by the job that it continues. -/
def moveToBackground (t : JobTable) (id : Int) : Option (Fin maxJobCount) := t.validJob id

/-- `handle_fg`, with `args[1]`. -/
def handleFg (t : JobTable) (argc : Nat) (arg : List UInt8) : Acted :=
  let id : Int :=
    if argc = 1 then
      match t.findMostRecentlyAddedJob with
      | none => -1
      | some i => i.val
    else atoi arg
  if 2 < argc then .exits else .on (t.moveToForeground id)

/-- `handle_bg`, with `args[1]`. -/
def handleBg (t : JobTable) (argc : Nat) (arg : List UInt8) : Acted :=
  let id : Int := if argc = 1 then maxJobCount - 1 else atoi arg
  if 2 < argc then .exits else .on (t.moveToBackground id)

end JobTable

/-! ## Histories -/

/-- A call that changes the table. -/
inductive TableCall
  | addJob (pid : Nat) (command : List UInt8) (isBg : Bool)
  | removeJob (i : Fin maxJobCount)

def TableCall.apply (t : JobTable) : TableCall → JobTable
  | .addJob pid command isBg => t.addJob pid command isBg
  | .removeJob i => t.removeJob i

/-- The table after a sequence of calls. -/
def tableAfter (calls : List TableCall) : JobTable := calls.foldl TableCall.apply start.table

/-- `counter` is a `long` of the source: it grows by one with each call of `add_job`. -/
theorem tableAfter_counter (calls : List TableCall) :
    (tableAfter calls).counter ≤ calls.length + 1 := by
  induction calls using List.reverseRecOn with
  | nil => exact Nat.le_refl 1
  | append_singleton calls call ih =>
      rw [tableAfter, List.foldl_append, List.length_append]
      refine le_trans ?_ (Nat.succ_le_succ ih)
      cases call with
      | addJob pid command isBg =>
          rw [List.foldl_cons, List.foldl_nil, TableCall.apply, JobTable.addJob]
          split <;> exact Nat.le_refl _
      | removeJob i =>
          rw [List.foldl_cons, List.foldl_nil, TableCall.apply, JobTable.removeJob]
          split <;> exact Nat.le_succ _

/-- The lowest number from 1 on that is not in the list. -/
def lowestFree (jobs : List (Fin maxJobCount)) : Option (Fin maxJobCount) :=
  (List.finRange maxJobCount).find? fun i => i ≠ 0 ∧ i ∉ jobs

/-- What a call does to the jobs in use, listed from the one added last on. -/
def TableCall.order (jobs : List (Fin maxJobCount)) : TableCall → List (Fin maxJobCount)
  | .addJob _ _ _ =>
      match lowestFree jobs with
      | none => jobs
      | some i => i :: jobs
  | .removeJob i => jobs.erase i

/-- The jobs in use after a sequence of calls, from the one added last on. -/
def jobsAfter (calls : List TableCall) : List (Fin maxJobCount) := calls.foldl TableCall.order []

/-- Before each call of `add_job` in the sequence, an id is free. -/
def RoomAtAdds (calls : List TableCall) : Prop :=
  ∀ pre pid command isBg, pre ++ [.addJob pid command isBg] <+: calls → (tableAfter pre).HasRoom

/-- Both commands act on the job that was added last, each call of `add_job` has been given the
lowest id that was free, and no two jobs in use have one counter. -/
structure DefaultLaw (calls : List TableCall) : Prop where
  fg : ∀ arg, (tableAfter calls).handleFg 1 arg = .on (jobsAfter calls).head?
  bg : ∀ arg, (tableAfter calls).handleBg 1 arg = .on (jobsAfter calls).head?
  ids : ∀ pre pid command isBg, pre ++ [.addJob pid command isBg] <+: calls →
    ∃ i, (tableAfter pre).findNextJobId = some i ∧ i ≠ 0 ∧
      ((tableAfter pre).jobs i).inUse = false ∧
      ∀ j, j ≠ 0 → ((tableAfter pre).jobs j).inUse = false → i ≤ j
  counters : ∀ i j, ((tableAfter calls).jobs i).inUse = true →
    ((tableAfter calls).jobs j).inUse = true →
      ((tableAfter calls).jobs i).counterValue = ((tableAfter calls).jobs j).counterValue → i = j

/-! ## The table and the order -/

/-- The search for an id finds the lowest that is free. -/
theorem JobTable.findNextJobId_lowest_iff {t : JobTable} :
    (∃ i, t.findNextJobId = some i ∧ i ≠ 0 ∧ (t.jobs i).inUse = false ∧
      ∀ j, j ≠ 0 → (t.jobs j).inUse = false → i ≤ j) ↔ t.HasRoom := by
  constructor
  · rintro ⟨i, -, hne, hfree, -⟩
    exact ⟨i, hne, hfree⟩
  · rintro ⟨k, hne, hfree⟩
    have hsome : (t.findNextJobId).isSome := by
      refine List.find?_isSome.mpr ⟨k, List.mem_finRange k, ?_⟩
      simpa using ⟨hne, hfree⟩
    obtain ⟨i, hi⟩ := Option.isSome_iff_exists.mp hsome
    have hfound := List.find?_some hi
    simp only [decide_eq_true_eq] at hfound
    refine ⟨i, hi, hfound.1, hfound.2, fun j hj hfreej => ?_⟩
    by_contra hlt
    obtain ⟨-, n, hn, hnth, hbefore⟩ := List.find?_eq_some_iff_getElem.mp hi
    have hin : n = i.val := by
      rw [List.getElem_finRange] at hnth
      exact congrArg Fin.val hnth
    have hlater := hbefore j.val (by rw [hin]; exact Fin.lt_def.mp (not_le.mp hlt))
    rw [List.getElem_finRange] at hlater
    simp [hj, hfreej] at hlater

/-- The table holds the jobs of the list, and their counters fall along it. -/
structure Ordered (t : JobTable) (jobs : List (Fin maxJobCount)) : Prop where
  inUse : ∀ i, (t.jobs i).inUse = true ↔ i ∈ jobs
  noZero : 0 ∉ jobs
  falling : jobs.Pairwise fun i j => (t.jobs j).counterValue < (t.jobs i).counterValue
  positive : ∀ i ∈ jobs, 0 < (t.jobs i).counterValue
  below : ∀ i ∈ jobs, (t.jobs i).counterValue < t.counter
  counter : 0 < t.counter

namespace Ordered

variable {t : JobTable} {jobs : List (Fin maxJobCount)} {i : Fin maxJobCount}

theorem free_iff (h : Ordered t jobs) : (t.jobs i).inUse = false ↔ i ∉ jobs := by
  rw [← h.inUse i, Bool.not_eq_true]

theorem nodup (h : Ordered t jobs) : jobs.Nodup :=
  h.falling.imp fun hlt heq => by
    rw [heq] at hlt
    exact absurd hlt (Nat.lt_irrefl _)

/-- The search for a free slot is the one for a free number. -/
theorem findNextJobId_eq (h : Ordered t jobs) : t.findNextJobId = lowestFree jobs := by
  rw [JobTable.findNextJobId, lowestFree]
  simp only [h.free_iff]

theorem start : Ordered start.table [] where
  inUse i := by simp [Shell.start]
  noZero := List.not_mem_nil
  falling := List.Pairwise.nil
  positive := nofun
  below := nofun
  counter := Nat.one_pos

theorem removeJob (h : Ordered t jobs) (i : Fin maxJobCount) :
    Ordered (t.removeJob i) (jobs.erase i) := by
  have hsame : ∀ j, ((t.removeJob i).jobs j).counterValue = (t.jobs j).counterValue := by
    intro j
    rw [JobTable.removeJob]
    split
    · rcases eq_or_ne j i with rfl | hne
      · simp
      · simp [hne]
    · rfl
  have hcounter : (t.removeJob i).counter = t.counter := by
    rw [JobTable.removeJob]
    split <;> rfl
  have hmem : ∀ j, j ∈ jobs.erase i → j ∈ jobs := fun j hj => List.mem_of_mem_erase hj
  constructor
  case inUse =>
    intro j
    rw [h.nodup.mem_erase_iff, JobTable.removeJob]
    split
    case isTrue huse =>
      rcases eq_or_ne j i with rfl | hne
      · simp
      · simp [hne, h.inUse j]
    case isFalse hfree =>
      rw [h.inUse j, iff_and_self]
      rintro hj rfl
      exact hfree ((h.inUse j).mpr hj)
  case noZero => exact fun hzero => h.noZero (hmem 0 hzero)
  case falling =>
    simp only [hsame]
    exact h.falling.sublist List.erase_sublist
  case positive =>
    intro j hj
    rw [hsame]
    exact h.positive j (hmem j hj)
  case below =>
    intro j hj
    rw [hsame, hcounter]
    exact h.below j (hmem j hj)
  case counter =>
    rw [hcounter]
    exact h.counter

theorem addJob (h : Ordered t jobs) (pid : Nat) (command : List UInt8) (isBg : Bool) :
    Ordered (t.addJob pid command isBg) ((TableCall.addJob pid command isBg).order jobs) := by
  rw [JobTable.addJob, TableCall.order, h.findNextJobId_eq]
  cases hfind : lowestFree jobs with
  | none =>
      exact ⟨h.inUse, h.noZero, h.falling, h.positive,
        fun i hi => (h.below i hi).trans (Nat.lt_succ_self _), Nat.succ_pos _⟩
  | some k =>
      have hfound := List.find?_some hfind
      simp only [decide_eq_true_eq] at hfound
      obtain ⟨hzero, hfree⟩ := hfound
      have hother : ∀ j ∈ jobs, j ≠ k := by
        rintro j hj rfl
        exact hfree hj
      constructor
      case inUse =>
        intro j
        rcases eq_or_ne j k with rfl | hne
        · simp
        · simp [hne, h.inUse j]
      case noZero =>
        rw [List.mem_cons, not_or]
        exact ⟨hzero.symm, h.noZero⟩
      case falling =>
        refine List.pairwise_cons.mpr ⟨fun j hj => ?_, ?_⟩
        · simpa [hother j hj] using h.below j hj
        · refine h.falling.imp_of_mem fun {i j} hi hj hlt => ?_
          simpa [hother i hi, hother j hj] using hlt
      case positive =>
        rw [List.forall_mem_cons]
        refine ⟨by simpa using h.counter, fun j hj => ?_⟩
        simpa [hother j hj] using h.positive j hj
      case below =>
        rw [List.forall_mem_cons]
        refine ⟨by simp, fun j hj => ?_⟩
        have hlt := h.below j hj
        simp [hother j hj]
        omega
      case counter => exact Nat.succ_pos _

/-- Every sequence of calls keeps the table and the order together. -/
theorem after (calls : List TableCall) : Ordered (tableAfter calls) (jobsAfter calls) := by
  induction calls using List.reverseRecOn with
  | nil => exact start
  | append_singleton calls call ih =>
      rw [tableAfter, jobsAfter, List.foldl_append, List.foldl_append]
      cases call with
      | addJob pid command isBg => exact ih.addJob pid command isBg
      | removeJob i => exact ih.removeJob i

/-! ## The two commands -/

/-- The search with the counter finds the job that was added last. -/
theorem findMostRecentlyAddedJob_eq (h : Ordered t jobs) :
    t.findMostRecentlyAddedJob = jobs.head? := by
  have hmem : ∀ i ∈ jobs, i ∈ (List.finRange maxJobCount).filter fun i => i ≠ 0 := by
    intro i hi
    have hne : i ≠ 0 := by
      rintro rfl
      exact h.noZero hi
    simpa using hne
  cases hscan : t.findMostRecentlyAddedJob with
  | none =>
      rw [JobTable.findMostRecentlyAddedJob, leastScan_eq_none] at hscan
      cases jobs with
      | nil => rfl
      | cons a rest =>
          have hzero := OrderDual.toDual_le_toDual.mp
            (hscan a (hmem a List.mem_cons_self) ((h.inUse a).mpr List.mem_cons_self))
          exact absurd (h.positive a List.mem_cons_self) (by omega)
  | some b =>
      rw [JobTable.findMostRecentlyAddedJob] at hscan
      obtain ⟨huse, -, hleast, -⟩ := leastScan_eq_some hscan
      have hb := (h.inUse b).mp huse
      cases jobs with
      | nil => cases hb
      | cons a rest =>
          have hle := OrderDual.toDual_le_toDual.mp
            (hleast a (hmem a List.mem_cons_self) ((h.inUse a).mpr List.mem_cons_self))
          rcases List.mem_cons.mp hb with rfl | hrest
          · rfl
          · exact absurd (List.rel_of_pairwise_cons h.falling hrest) (by omega)

theorem validJob_of_mem (h : Ordered t jobs) (hi : i ∈ jobs) : t.validJob i.val = some i := by
  have hbounds : 0 ≤ (i.val : Int) ∧ (i.val : Int).toNat < maxJobCount :=
    ⟨Int.natCast_nonneg _, by simp⟩
  rw [JobTable.validJob, dif_pos hbounds]
  exact if_pos ((h.inUse i).mpr hi)

/-- `fg` acts on the job that was added last. -/
theorem handleFg_eq (h : Ordered t jobs) (arg : List UInt8) :
    t.handleFg 1 arg = .on jobs.head? := by
  rw [JobTable.handleFg, if_neg (by decide), if_pos rfl, h.findMostRecentlyAddedJob_eq]
  cases jobs with
  | nil => rfl
  | cons a rest => exact congrArg Acted.on (h.validJob_of_mem List.mem_cons_self)

/-- `bg` acts on the last slot of the table. -/
theorem handleBg_eq (h : Ordered t jobs) (arg : List UInt8) :
    t.handleBg 1 arg = .on (if lastJob ∈ jobs then some (lastJob) else none) := by
  have hlast : ((maxJobCount : Int) - 1) = (lastJob.val : Int) := rfl
  rw [JobTable.handleBg, if_neg (by decide), if_pos rfl, hlast]
  refine congrArg Acted.on ?_
  split
  case isTrue hmem => exact h.validJob_of_mem hmem
  case isFalse hfree =>
    rw [JobTable.moveToBackground, JobTable.validJob]
    split
    case isTrue hbounds =>
      have hunused : (t.jobs lastJob).inUse = false := h.free_iff.mpr hfree
      exact if_neg (by rw [← Bool.not_eq_true] at hunused; exact hunused)
    case isFalse => rfl

theorem counters (h : Ordered t jobs) {i j : Fin maxJobCount} (hi : (t.jobs i).inUse = true)
    (hj : (t.jobs j).inUse = true)
    (heq : (t.jobs i).counterValue = (t.jobs j).counterValue) : i = j := by
  have hdistinct : (jobs.map fun k => (t.jobs k).counterValue).Nodup :=
    List.pairwise_map.mpr (h.falling.imp fun hlt => (Nat.ne_of_lt hlt).symm)
  exact List.inj_on_of_nodup_map hdistinct ((h.inUse i).mp hi) ((h.inUse j).mp hj) heq

end Ordered

/-- After every sequence of calls, the commands agree on the job that was added last, and ids
and counters are as they should be, exactly when no job is in use or the one added last has
the last id, and an id was free for every job. -/
theorem default_law_iff (calls : List TableCall) :
    DefaultLaw calls ↔
      (jobsAfter calls = [] ∨ (jobsAfter calls).head? = some lastJob) ∧ RoomAtAdds calls := by
  have h := Ordered.after calls
  have hbg : (∀ arg, (tableAfter calls).handleBg 1 arg = .on (jobsAfter calls).head?) ↔
      jobsAfter calls = [] ∨ (jobsAfter calls).head? = some lastJob := by
    simp only [h.handleBg_eq, forall_const, Acted.on.injEq]
    cases jobsAfter calls with
    | nil => simp
    | cons a rest =>
        rw [List.head?_cons]
        split
        case isTrue => simp [eq_comm]
        case isFalse hnot =>
          refine iff_of_false nofun ?_
          rintro (hnil | hlast)
          · cases hnil
          · rw [Option.some.inj hlast] at hnot
            exact hnot List.mem_cons_self
  constructor
  · intro law
    refine ⟨hbg.mp law.bg, fun pre pid command isBg hpre => ?_⟩
    exact JobTable.findNextJobId_lowest_iff.mp (law.ids pre pid command isBg hpre)
  · rintro ⟨hnewest, hroom⟩
    refine ⟨h.handleFg_eq, hbg.mpr hnewest, fun pre pid command isBg hpre => ?_,
      fun _ _ => h.counters⟩
    exact JobTable.findNextJobId_lowest_iff.mpr (hroom pre pid command isBg hpre)

/-- With one job, `fg` acts on it and `bg` on none. -/
theorem bg_misses_the_job : ¬∀ calls, RoomAtAdds calls → DefaultLaw calls := by
  intro hall
  have hroom : RoomAtAdds [.addJob 7 [] true] := by
    intro pre pid command isBg hpre
    have hlength := hpre.length_le
    obtain rfl : pre = [] := by
      rw [List.length_append, List.length_singleton, List.length_singleton] at hlength
      exact List.eq_nil_of_length_eq_zero (by omega)
    exact ⟨lastJob, by decide, rfl⟩
  have hlaw := hall _ hroom
  have hbg := hlaw.bg []
  have hfg := hlaw.fg []
  rw [← hbg] at hfg
  revert hfg
  decide +kernel

end OSProjects.Shell
