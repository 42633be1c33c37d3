import Mathlib.Data.List.Infix
import OSProjects.Wfs.Runs

/-!
# Running calls on a concrete disk

The requirements on a call are decided by evaluating the server's own lookups, so
that a run on a concrete disk is checked by evaluation. Lookups store nothing.
-/

namespace OSProjects.Wfs

open ByteMemory CString WfsM StepSystem

/-! ## Computations without stores -/

/-- The computation stores nothing. -/
def ReadOnly {α : Type} (p : WfsM α) : Prop := ∀ img r, p img = some r → r.2 = []

namespace ReadOnly

variable {α β : Type}

theorem pure (a : α) : ReadOnly (Pure.pure a : WfsM α) := by
  intro img r h
  cases h
  rfl

theorem fault : ReadOnly (WfsM.fault : WfsM α) := by
  intro img r h
  cases h

theorem load (w off : Nat) : ReadOnly (WfsM.load w off) := by
  intro img r h
  unfold WfsM.load at h
  split at h
  · cases h
    rfl
  · cases h

theorem bind {p : WfsM α} {f : α → WfsM β} (hp : ReadOnly p) (hf : ∀ a, ReadOnly (f a)) :
    ReadOnly (p >>= f) := by
  intro img r h
  obtain ⟨a, done, b, more, ha, hb, rfl⟩ := of_bind_eq_some h
  have hdone := hp img _ ha
  have hmore := hf a _ _ hb
  simp_all

theorem ite {c : Prop} [Decidable c] {p q : WfsM α} (hp : ReadOnly p) (hq : ReadOnly q) :
    ReadOnly (if c then p else q) := by
  split
  · exact hp
  · exact hq

/-- The result is known with the image it was computed on. -/
theorem eq_of_bind {p : WfsM α} {f : α → WfsM β} (hp : ReadOnly p) {img : Image}
    {r : β × List Store} (h : (p >>= f) img = some r) :
    ∃ a, exec p img = some (a, img) ∧ f a img = some r := by
  obtain ⟨a, done, b, more, ha, hb, rfl⟩ := of_bind_eq_some h
  obtain rfl : done = [] := hp img _ ha
  exact ⟨a, by simp [exec, ha], hb⟩

theorem of_bind {p : WfsM α} {f : α → WfsM β} (hp : ReadOnly p) {img : Image} {a : α}
    (ha : exec p img = some (a, img)) {r : β × List Store} (h : (p >>= f) img = some r) :
    f a img = some r := by
  obtain ⟨b, hb, hrest⟩ := hp.eq_of_bind h
  rw [ha, Option.some.injEq, Prod.mk.injEq] at hb
  rwa [hb.1]

/-- The image is part of the result only as itself. -/
theorem exec_eq {p : WfsM α} (hp : ReadOnly p) {img : Image} {a : α}
    (h : (exec p img).map Prod.fst = some a) : exec p img = some (a, img) := by
  obtain ⟨⟨b, img1⟩, hb, rfl⟩ := Option.map_eq_some_iff.mp h
  obtain ⟨⟨c, done⟩, hc, heq⟩ := Option.map_eq_some_iff.mp hb
  obtain rfl : done = [] := hp img _ hc
  rw [hb, ← heq]
  rfl

end ReadOnly

theorem readOnly_getLogEntry (ino : Nat) : ReadOnly (getLogEntry ino) := by
  refine (ReadOnly.load 4 4).bind fun head => ?_
  generalize head + 1 = fuel
  generalize sizeofSb = log
  generalize (none : Option Nat) = res
  induction fuel generalizing log res with
  | zero => exact ReadOnly.fault
  | succ fuel ih =>
      refine ReadOnly.ite ?_ (ReadOnly.pure res)
      exact (ReadOnly.load _ _).bind fun _ => (ReadOnly.load _ _).bind fun _ =>
        (ReadOnly.load _ _).bind fun _ => ih _ _

theorem readOnly_maxInodeNum : ReadOnly maxInodeNum := by
  refine (ReadOnly.load 4 4).bind fun head => ?_
  generalize head + 1 = fuel
  generalize sizeofSb = log
  generalize 0 = acc
  induction fuel generalizing log acc with
  | zero => exact ReadOnly.fault
  | succ fuel ih =>
      refine ReadOnly.ite ?_ (ReadOnly.pure acc)
      exact (ReadOnly.load _ _).bind fun _ => (ReadOnly.load _ _).bind fun _ =>
        (ReadOnly.load _ _).bind fun _ => ih _ _

theorem readOnly_strcmpEq (name : List UInt8) (off : Nat) : ReadOnly (strcmpEq name off) := by
  induction name generalizing off with
  | nil => exact (ReadOnly.load _ _).bind fun _ => ReadOnly.pure _
  | cons c s ih =>
      exact (ReadOnly.load _ _).bind fun _ => ReadOnly.ite (ih _) (ReadOnly.pure _)

theorem readOnly_getInodeNumber (name : List UInt8) (logEntry : Option Nat) :
    ReadOnly (getInodeNumber name logEntry) := by
  cases logEntry with
  | none => exact ReadOnly.fault
  | some log =>
      refine (ReadOnly.load _ _).bind fun size => ?_
      show ReadOnly (getInodeNumberLoop name (log + sizeofInode + size) (size + 1)
        (log + sizeofInode))
      generalize log + sizeofInode + size = endPtr
      generalize size + 1 = fuel
      generalize log + sizeofInode = cur
      induction fuel generalizing cur with
      | zero => exact ReadOnly.fault
      | succ fuel ih =>
          refine ReadOnly.ite ?_ (ReadOnly.pure _)
          exact (readOnly_strcmpEq _ _).bind fun _ => ReadOnly.ite (ReadOnly.load _ _) (ih _)

theorem readOnly_pathToLogEntry (path : List UInt8) : ReadOnly (pathToLogEntry path) := by
  refine (readOnly_getLogEntry 0).bind fun root => ?_
  generalize strtok slash path = tokens
  induction tokens generalizing root with
  | nil => exact ReadOnly.pure root
  | cons token rest ih =>
      cases root with
      | none => exact ReadOnly.pure none
      | some cur =>
          refine (readOnly_getInodeNumber _ _).bind fun _ => ReadOnly.ite (ReadOnly.pure _) ?_
          exact (readOnly_getLogEntry _).bind ih

theorem readOnly_findParentLogPath (path : List UInt8) : ReadOnly (findParentLogPath path) := by
  rw [findParentLogPath]
  refine ReadOnly.ite (readOnly_getLogEntry 0) ?_
  dsimp only
  split
  · exact readOnly_getLogEntry 0
  · exact readOnly_getLogEntry 0
  · exact readOnly_pathToLogEntry _

/-! ## Deciding the requirements on a call -/

/-- The offset that `path_to_log_entry` returns, `none` for NULL and for a fault. -/
def lookupPath (img : Image) (p : Path) : Option Nat :=
  ((exec (pathToLogEntry (render p)) img).map Prod.fst).join

theorem resolves_iff_lookupPath {img : Image} {p : Path} {log : Nat} :
    Resolves img p log ↔ lookupPath img p = some log := by
  constructor
  · intro h
    rw [lookupPath, h]
    rfl
  · intro h
    apply (readOnly_pathToLogEntry _).exec_eq
    exact Option.join_eq_some_iff.mp h

/-- Decides `PrefixDirs`. -/
def prefixDirsCheck (img : Image) (p : Path) : Bool :=
  p.inits.all fun q => q = p || (lookupPath img q).any fun log => isDirMode (inodeAt img.byte log .mode)

theorem prefixDirs_of_check {img : Image} {p : Path} (h : prefixDirsCheck img p = true) :
    PrefixDirs img p := by
  intro q hq hne
  have hone := List.all_eq_true.mp h q ((List.mem_inits q p).mpr hq)
  simp only [hne, decide_false, Bool.false_or, Option.any_eq_true] at hone
  obtain ⟨log, hlog, hdir⟩ := hone
  exact ⟨log, resolves_iff_lookupPath.mpr hlog, hdir⟩

/-- Decides `Call.Issued`. -/
def Call.issuedCheck (img : Image) : Call → Bool
  | .create _ dir name _ _ _ =>
      prefixDirsCheck img (dir ++ [name]) && decide (name.bytes.length < maxFileNameLen)
  | .write path _ _ _ =>
      prefixDirsCheck img path &&
        (lookupPath img path).all fun log => isRegMode (inodeAt img.byte log .mode)
  | .unlink path => prefixDirsCheck img path

instance (img : Image) (n : Nat) : Decidable (img.Room n) :=
  inferInstanceAs (Decidable (img.head + n ≤ img.size ∧ img.head + n < 2 ^ 32))

/-- Decides `Call.Fits`; it asks for the room also where the name exists already. -/
def Call.fitsCheck (img : Image) : Call → Bool
  | .create _ dir name _ _ _ =>
      ((exec (findParentLogPath (render (dir ++ [name]))) img).map Prod.fst).join.all fun log =>
        decide (img.Room (sizeofInode + (inodeAt img.byte log .size + sizeofDentry) + sizeofInode))
  | .write path buffer writeOffset _ =>
      (lookupPath img path).all fun log =>
        decide (img.Room (sizeofInode +
          writtenSize (inodeAt img.byte log .size) writeOffset.toNat buffer.length))
  | .unlink _ => true

theorem Call.issued_of_check {img : Image} {c : Call} (h : c.issuedCheck img = true) :
    c.Issued img := by
  cases c with
  | create kind dir name mode uid t =>
      obtain ⟨h1, h2⟩ := Bool.and_eq_true_iff.mp h
      exact ⟨prefixDirs_of_check h1, by simpa using h2⟩
  | write path buffer writeOffset t =>
      obtain ⟨h1, h2⟩ := Bool.and_eq_true_iff.mp h
      refine ⟨prefixDirs_of_check h1, fun log hlog => ?_⟩
      exact (Option.all_eq_true _ _).mp h2 log (resolves_iff_lookupPath.mp hlog)
  | unlink path => exact prefixDirs_of_check h

theorem Call.fits_of_check {img : Image} {c : Call} (h : c.fitsCheck img = true) :
    c.Fits img := by
  cases c with
  | create kind dir name mode uid t =>
      intro log hlog _
      have hall := (Option.all_eq_true _ _).mp h log (by rw [hlog]; rfl)
      simpa using hall
  | write path buffer writeOffset t =>
      intro log hlog _
      have hall := (Option.all_eq_true _ _).mp h log (resolves_iff_lookupPath.mp hlog)
      simpa using hall
  | unlink path => trivial

/-! ## Checked runs -/

/-- A disk file full of zero bytes. -/
def zeroDisk (size : Nat) : Image := ⟨size, fun _ => 0⟩

/-- A disk file in which every byte is 7. -/
def usedDisk (size : Nat) : Image := ⟨size, fun _ => 7⟩

/-- The name `a`. -/
def nameA : Name := ⟨[97], by decide, by decide, by decide⟩

/-- The name `b`. -/
def nameB : Name := ⟨[98], by decide, by decide, by decide⟩

/-- Serve the calls in order while each is issued, fits and passes the check. -/
def runCalls (check : Image → Call → Bool) : List Call → Image → Option (List Event × Image)
  | [], img => some ([], img)
  | c :: cs, img =>
      if c.issuedCheck img && c.fitsCheck img && check img c then
        match exec c.run img with
        | none => none
        | some (r, img1) => (runCalls check cs img1).map fun res => ((c, r) :: res.1, res.2)
      else none

/-- The run on a disk that `init_wfs` has just initialised at time zero. -/
def runFromDisk (check : Image → Call → Bool) (disk : Image) (cs : List Call) :
    Option (List Event × Image) :=
  if sizeofSb + sizeofInode ≤ disk.size then
    match exec (initWfs 0) disk with
    | none => none
    | some (_, img) => runCalls check cs img
  else none

theorem run_of_runCalls {cond : Image → Call → Prop} {check : Image → Call → Bool}
    (hcheck : ∀ img c, c.Issued img → check img c = true → cond img c) {cs : List Call}
    {img img' : Image} {evs : List Event} (h : runCalls check cs img = some (evs, img')) :
    Run (StepIf cond) img evs img' := by
  induction cs generalizing img evs with
  | nil =>
      simp only [runCalls, Option.some.injEq, Prod.mk.injEq] at h
      obtain ⟨rfl, rfl⟩ := h
      exact Run.nil
  | cons c cs ih =>
      unfold runCalls at h
      split at h
      · next hall =>
        simp only [Bool.and_eq_true] at hall
        obtain ⟨⟨hissued, hfits⟩, hcond⟩ := hall
        have hissued' := Call.issued_of_check hissued
        cases hexec : exec c.run img with
        | none => simp [hexec] at h
        | some res =>
            obtain ⟨r, img1⟩ := res
            rw [hexec] at h
            obtain ⟨⟨evs1, img2⟩, hrest, hres⟩ := Option.map_eq_some_iff.mp h
            simp only [Prod.mk.injEq] at hres
            obtain ⟨rfl, rfl⟩ := hres
            have hstep : StepIf cond img (c, r) img1 :=
              ⟨⟨hissued', Call.fits_of_check hfits, hexec⟩, hcheck img c hissued' hcond⟩
            exact (Run.single hstep).append (ih hrest)
      · cases h

/-- A run that exists because evaluating it succeeds, with a checked property of its end. -/
theorem exists_run_of_check {cond : Image → Call → Prop} {check : Image → Call → Bool}
    (hcheck : ∀ img c, c.Issued img → check img c = true → cond img c) {disk : Image}
    {cs : List Call} {P : List Event × Image → Bool}
    (h : (runFromDisk check disk cs).any P = true) :
    ∃ img0 evs img, Fresh img0 ∧ Run (StepIf cond) img0 evs img ∧ P (evs, img) = true := by
  obtain ⟨⟨evs, img⟩, hrun, hP⟩ := (Option.any_eq_true _ _).mp h
  unfold runFromDisk at hrun
  split at hrun
  · next hsize =>
    cases hexec : exec (initWfs 0) disk with
    | none => simp [hexec] at hrun
    | some res =>
        obtain ⟨u, img0⟩ := res
        rw [hexec] at hrun
        exact ⟨img0, evs, img, ⟨disk, 0, hsize, hexec⟩, run_of_runCalls hcheck hrun, hP⟩
  · cases hrun

/-- The same without a condition on the steps. -/
theorem exists_run_of_eval {disk : Image} {cs : List Call} {P : List Event × Image → Bool}
    (h : (runFromDisk (fun _ _ => true) disk cs).any P = true) :
    ∃ img0 evs img, Fresh img0 ∧ Run Step img0 evs img ∧ P (evs, img) = true := by
  obtain ⟨img0, evs, img, hfresh, hrun, hP⟩ :=
    @exists_run_of_check (fun _ _ => True) _ (fun _ _ _ _ => trivial) _ _ _ h
  exact ⟨img0, evs, img, hfresh, hrun.mono fun _ _ _ hs => hs.1, hP⟩

/-! ## Walking the log -/

/-- The entries from `off` on, `none` when they do not end at `stop`. -/
def walk (m : Memory) (stop : Nat) : Nat → Nat → Option (List LogEntry)
  | 0, _ => none
  | fuel + 1, off =>
      if off = stop then some []
      else (walk m stop fuel (entryAt m off).stop).map (entryAt m off :: ·)

theorem logFrom_of_walk {m : Memory} {stop fuel off : Nat} {es : List LogEntry}
    (h : walk m stop fuel off = some es) : LogFrom m off es stop := by
  induction fuel generalizing off es with
  | zero => cases h
  | succ fuel ih =>
      unfold walk at h
      split at h
      · next hoff =>
        obtain rfl := Option.some.inj h
        exact hoff
      · obtain ⟨rest, hrest, rfl⟩ := Option.map_eq_some_iff.mp h
        exact ⟨rfl, ih hrest⟩

/-- The log of an image. -/
def logOf (img : Image) : Option (List LogEntry) :=
  walk img.byte img.head (img.head + 1) sizeofSb

theorem logFrom_of_logOf {img : Image} {es : List LogEntry} (h : logOf img = some es) :
    LogFrom img.byte sizeofSb es img.head :=
  logFrom_of_walk h

end OSProjects.Wfs
