import OSProjects.Storage.Log

/-!
# What holds at every step of the log

For every phase of `commit` and `recover_from_log`: what the header names, which blocks are
copied and which are installed. From it, what each step does to the disk that recovery would
leave and to the blocks that the system sees.
-/

namespace OSProjects.Storage

open ByteMemory RedoLog Xv6

/-! ## Headers -/

/-- A header that `read_head` accepts fits into `log.lh`. -/
theorem decodeHead_bounds {buf : Block} {bs : List Nat} (h : decodeHead buf = some bs) :
    bs.length ≤ logSize ∧ ∀ b ∈ bs, b < 2 ^ 32 := by
  unfold decodeHead at h
  simp only at h
  split at h
  · obtain rfl : [] = bs := Option.some.inj h
    exact ⟨Nat.zero_le _, fun b hb => by cases hb⟩
  · split at h
    · cases h
    · next hsize =>
      obtain rfl := Option.some.inj h
      refine ⟨by simpa using hsize, fun b hb => ?_⟩
      obtain ⟨i, _, rfl⟩ := List.mem_map.mp hb
      exact readWord_lt _ 4 _

variable {L : LogArea} {s t : LogState} {pid b : Nat} {w : Block}

@[simp] theorem LogArea.format_start : L.format.start = L.start := rfl

/-- The header of a disk names `bs`. -/
def LogArea.Named (L : LogArea) (d : Disk Block) (bs : List Nat) : Prop :=
  decodeHead (d L.start) = some bs

theorem LogArea.Named.names {d : Disk Block} {bs : List Nat} (h : L.Named d bs) :
    L.format.names (d L.format.start) = bs := by
  change (decodeHead (d L.start)).getD [] = bs
  rw [h, Option.getD_some]

/-! ## The invariant -/

namespace LogState

/-- What the system sees: the cache, or what recovery will leave in it. -/
def current (s : LogState) (L : LogArea) : Disk Block :=
  if s.recovering then L.format.contents s.disk else s.cache

/-- A block that differs between cache and disk is in the log, or a system call that has
changed it has yet to log it. -/
def Tracked (s : LogState) (L : LogArea) : Prop :=
  ∀ b, L.format.Home b → s.cache b ≠ s.disk b → b ∈ s.lh ∨ ∃ o ∈ s.ops, b ∈ o.changed

/-- The first `n` logged blocks are copied behind the header. -/
def Copied (s : LogState) (L : LogArea) (n : Nat) : Prop :=
  ∀ k, (hk : k < s.lh.length) → k < n → s.disk (L.start + k + 1) = s.cache s.lh[k]

/-- `commit` runs, with no system call between `begin_op` and `end_op`. -/
structure Commits (s : LogState) : Prop where
  ops : s.ops = []
  committing : s.committing = true
  mounted : s.recovering = false

/-- `install_trans` runs, called by `commit` or by `recover_from_log`. -/
structure Installs (s : LogState) (L : LogArea) : Prop where
  ops : s.ops = []
  committing : s.committing = !s.recovering
  named : L.Named s.disk s.lh
  cached : s.recovering = true → s.cache = s.disk
  copied : s.recovering = false → s.Copied L s.lh.length
  seen : s.recovering = false → L.format.Agree s.cache (L.format.contents s.disk)

/-- What each phase knows. -/
def Knows (s : LogState) (L : LogArea) : Phase → Prop
  | .idle => s.committing = false ∧ s.recovering = false ∧ L.Named s.disk [] ∧ s.Tracked L ∧
      (s.ops = [] → s.lh = [])
  | .writeLog tail => s.Commits ∧ L.Named s.disk [] ∧ s.Tracked L ∧ s.Copied L tail
  | .writeHead => s.Commits ∧ L.Named s.disk [] ∧ s.Tracked L ∧ s.Copied L s.lh.length
  | .install tail => s.Installs L ∧ L.format.Installed tail s.disk
  | .clearHead => s.Installs L ∧ L.format.Agree s.disk (L.format.contents s.disk)
  | .committed => s.Commits ∧ L.Named s.disk [] ∧ s.lh = [] ∧ L.format.Agree s.cache s.disk
  | .readHead => s.ops = [] ∧ s.committing = false ∧ s.recovering = true ∧ s.cache = s.disk ∧
      ∃ bs, L.Named s.disk bs ∧ L.format.Fits bs
  | .stopped why => why = .tooBig ∧ s.recovering = false ∧ L.Named s.disk []

/-- What holds in every state. -/
structure Inv (s : LogState) (L : LogArea) : Prop where
  fits : L.format.Fits s.lh
  words : ∀ b ∈ s.lh, b < 2 ^ 32
  short : s.lh.length ≤ logSize
  counted : s.outstanding = s.ops.length
  area : ∀ b, ¬ L.format.Home b → s.cache b = s.disk b
  knows : s.Knows L s.phase

theorem Inv.boot {d : Disk Block} {bs : List Nat} (hnamed : L.Named d bs)
    (hfits : L.format.Fits bs) : (boot d).Inv L where
  fits := .nil
  words := fun b hb => by cases hb
  short := Nat.zero_le _
  counted := rfl
  area := fun _ _ => rfl
  knows := ⟨rfl, rfl, rfl, rfl, bs, hnamed, hfits⟩

theorem Inv.knows_at {p : Phase} (h : s.Inv L) (hphase : s.phase = p) : s.Knows L p :=
  hphase ▸ h.knows

/-- In every state the header on disk is one that recovery can follow. -/
theorem Inv.header (h : s.Inv L) : ∃ bs, L.Named s.disk bs ∧ L.format.Fits bs := by
  cases hphase : s.phase with
  | idle => exact ⟨[], (h.knows_at hphase).2.2.1, .nil⟩
  | writeLog tail => exact ⟨[], (h.knows_at hphase).2.1, .nil⟩
  | writeHead => exact ⟨[], (h.knows_at hphase).2.1, .nil⟩
  | install tail => exact ⟨s.lh, (h.knows_at hphase).1.named, h.fits⟩
  | clearHead => exact ⟨s.lh, (h.knows_at hphase).1.named, h.fits⟩
  | committed => exact ⟨[], (h.knows_at hphase).2.1, .nil⟩
  | readHead => exact (h.knows_at hphase).2.2.2.2
  | stopped why => exact ⟨[], (h.knows_at hphase).2.2, .nil⟩

/-- A running system that does not commit is idle. -/
theorem Inv.idle_of_mounted (h : s.Inv L) (hmounted : s.recovering = false)
    (hcommitting : s.committing = false) (halive : ∀ why, s.phase ≠ .stopped why) :
    s.phase = .idle := by
  have hbusy : ¬ s.Commits := fun hc => by
    rw [hc.committing] at hcommitting
    cases hcommitting
  have hinst : ¬ s.Installs L := fun hi => by
    rw [hi.committing, hmounted] at hcommitting
    cases hcommitting
  cases hphase : s.phase with
  | idle => rfl
  | writeLog tail => exact absurd (h.knows_at hphase).1 hbusy
  | writeHead => exact absurd (h.knows_at hphase).1 hbusy
  | install tail => exact absurd (h.knows_at hphase).1 hinst
  | clearHead => exact absurd (h.knows_at hphase).1 hinst
  | committed => exact absurd (h.knows_at hphase).1 hbusy
  | readHead =>
      rw [(h.knows_at hphase).2.2.1] at hmounted
      cases hmounted
  | stopped why => exact absurd hphase (halive why)

/-- While a system call is between `begin_op` and `end_op`, nothing is written to disk. -/
theorem Inv.idle_of_inside (h : s.Inv L) (hin : s.Inside pid) : s.phase = .idle := by
  have hne : s.ops ≠ [] := by
    obtain ⟨o, ho, _⟩ := hin.op
    exact List.ne_nil_of_mem ho
  cases hphase : s.phase with
  | idle => rfl
  | writeLog tail => exact absurd (h.knows_at hphase).1.ops hne
  | writeHead => exact absurd (h.knows_at hphase).1.ops hne
  | install tail => exact absurd (h.knows_at hphase).1.ops hne
  | clearHead => exact absurd (h.knows_at hphase).1.ops hne
  | committed => exact absurd (h.knows_at hphase).1.ops hne
  | readHead => exact absurd (h.knows_at hphase).1 hne
  | stopped why => exact absurd hphase (hin.alive why)

/-! ## bwrite -/

@[simp] theorem bwrite_disk : (s.bwrite b w).disk = (⟨b, w⟩ : Write Block).apply s.disk := rfl

@[simp] theorem bwrite_cache :
    (s.bwrite b w).cache = (⟨b, w⟩ : Write Block).apply s.cache := rfl

/-- A block written through the cache is the same in both. -/
theorem area_bwrite (h : ∀ x, ¬ L.format.Home x → s.cache x = s.disk x) {x : Nat}
    (hx : ¬ L.format.Home x) : (s.bwrite b w).cache x = (s.bwrite b w).disk x := by
  rw [bwrite_cache, bwrite_disk]
  rcases eq_or_ne x b with rfl | hne
  · exact (Write.apply_block ⟨x, w⟩ s.cache).trans (Write.apply_block ⟨x, w⟩ s.disk).symm
  · rw [Write.apply_of_ne (show x ≠ (⟨b, w⟩ : Write Block).block from hne),
      Write.apply_of_ne (show x ≠ (⟨b, w⟩ : Write Block).block from hne)]
    exact h x hx

/-- A write inside the log area is not seen by the file system. -/
theorem agree_bwrite_cache (hb : ¬ L.format.Home b) :
    L.format.Agree (s.bwrite b w).cache s.cache := by
  intro x hx
  rw [bwrite_cache, Write.apply_of_ne]
  rintro rfl
  exact hb hx

theorem agree_bwrite_disk (hb : ¬ L.format.Home b) :
    L.format.Agree (s.bwrite b w).disk s.disk := by
  intro x hx
  rw [bwrite_disk, Write.apply_of_ne]
  rintro rfl
  exact hb hx

/-- A write to a block other than the header leaves what the header names. -/
theorem named_bwrite {bs : List Nat} (h : L.Named s.disk bs) (hb : b ≠ L.start) :
    L.Named (s.bwrite b w).disk bs := by
  unfold LogArea.Named
  rw [bwrite_disk, Write.apply_of_ne (show L.start ≠ b from hb.symm)]
  exact h

/-! ## The blocks that commit and recovery write -/

/-- What one step of `commit` or `recover_from_log` does: no system call starts or ends, the
system sees the same blocks, and what the disk stands for is unchanged or becomes what the
system sees. -/
structure Proceeds (s t : LogState) (L : LogArea) : Prop where
  inv : t.Inv L
  ops : t.ops = s.ops
  current : L.format.Agree (t.current L) (s.current L)
  durable : L.format.Agree (L.format.contents t.disk) (L.format.contents s.disk) ∨
    s.ops = [] ∧ s.recovering = false ∧ L.format.Agree (L.format.contents t.disk) (s.current L)

theorem current_of_mounted (h : s.recovering = false) : s.current L = s.cache := by
  rw [current, h]
  rfl

theorem current_of_recovering (h : s.recovering = true) :
    s.current L = L.format.contents s.disk := by
  rw [current, h]
  rfl

@[simp] theorem current_goto (p : Phase) : (s.goto p).current L = s.current L := rfl

theorem current_bwrite (h : s.recovering = false) :
    (s.bwrite b w).current L = (s.bwrite b w).cache := current_of_mounted h

/-- Where everything that differs is logged, the rest of the cache is on disk. -/
theorem Tracked.eq_of_not_mem (h : s.Tracked L) (hops : s.ops = []) (hb : L.format.Home b)
    (hnot : b ∉ s.lh) : s.cache b = s.disk b := by
  by_contra hne
  rcases h b hb hne with hmem | ⟨o, ho, _⟩
  · exact hnot hmem
  · rw [hops] at ho
    cases ho

/-- `write_log` copies one block. -/
theorem proceed_copy {tail : Nat} (h : s.Inv L) (hphase : s.phase = .writeLog tail)
    (htail : tail < s.lh.length) :
    Proceeds s ((s.bwrite (L.start + tail + 1) (s.cache s.lh[tail])).goto (.writeLog (tail + 1)))
      L := by
  obtain ⟨hcommits, hclear, htracked, hcopied⟩ := h.knows_at hphase
  have hroom : tail < L.format.capacity := Nat.lt_of_lt_of_le htail h.fits.length_le
  have hblock : ¬ L.format.Home (L.start + tail + 1) := Format.not_home_copy hroom
  have hcache := agree_bwrite_cache (s := s) (w := s.cache s.lh[tail]) hblock
  have hdisk := agree_bwrite_disk (s := s) (w := s.cache s.lh[tail]) hblock
  refine ⟨⟨h.fits, h.words, h.short, h.counted, fun x hx => area_bwrite h.area hx, ?_⟩, rfl, ?_,
    .inl (Format.contents_write_copy hclear.names hroom)⟩
  · refine ⟨⟨hcommits.ops, hcommits.committing, hcommits.mounted⟩,
      named_bwrite hclear (by omega), ?_, ?_⟩
    · intro x hx hne
      exact htracked x hx (by rwa [← hcache x hx, ← hdisk x hx])
    · intro k hk hlt
      have hhome := h.fits.home _ (List.getElem_mem hk)
      refine Eq.trans ?_ (hcache _ hhome).symm
      rcases eq_or_ne k tail with rfl | hne
      · exact Write.apply_block (⟨L.start + k + 1, s.cache s.lh[k]⟩ : Write Block) s.disk
      · have hold : (s.bwrite (L.start + tail + 1) (s.cache s.lh[tail])).disk (L.start + k + 1) =
            s.disk (L.start + k + 1) := by
          rw [bwrite_disk, Write.apply_of_ne]
          exact fun heq => hne (by simp only at heq; omega)
        exact hold.trans (hcopied k hk (by omega))
  · rw [current_goto, current_bwrite hcommits.mounted, current_of_mounted hcommits.mounted]
    exact hcache

/-- The write of the header commits the transaction. -/
theorem proceed_writeHead (h : s.Inv L) (hphase : s.phase = .writeHead) :
    Proceeds s ((s.bwrite L.start (encodeHead (s.cache L.start) s.lh)).goto (.install 0)) L := by
  obtain ⟨hcommits, hclear, htracked, hcopied⟩ := h.knows_at hphase
  obtain ⟨v, hv, hdecode⟩ : ∃ v, encodeHead (s.cache L.start) s.lh = v ∧
      decodeHead v = some s.lh := ⟨_, rfl, decodeHead_encodeHead h.short h.words⟩
  rw [hv]
  have hnamesv : L.format.names v = s.lh := by
    change (decodeHead v).getD [] = s.lh
    rw [hdecode, Option.getD_some]
  have hcache := agree_bwrite_cache (s := s) (w := v) (Format.not_home_start (F := L.format))
  have hnamed : L.Named (s.bwrite L.start v).disk s.lh := by
    unfold LogArea.Named
    rw [bwrite_disk, Write.apply_block (⟨L.start, v⟩ : Write Block)]
    exact hdecode
  have hwrite : L.format.Agree (L.format.contents (s.bwrite L.start v).disk) s.cache := by
    refine Format.contents_write_header hclear.names ?_ fun b hb hnot => ?_
    · rw [hnamesv]
      exact fun k hk => hcopied k hk hk
    · rw [hnamesv] at hnot
      rw [Format.contents_of_clear hclear.names]
      exact (htracked.eq_of_not_mem hcommits.ops hb hnot).symm
  have hcurrent : s.current L = s.cache := current_of_mounted hcommits.mounted
  refine ⟨⟨h.fits, h.words, h.short, h.counted, fun x hx => area_bwrite h.area hx, ?_⟩, rfl, ?_,
    .inr ⟨hcommits.ops, hcommits.mounted, ?_⟩⟩
  · refine ⟨⟨hcommits.ops, ?_, hnamed, ?_, ?_, fun _ => hcache.trans hwrite.symm⟩,
      Format.installed_zero _⟩
    · change s.committing = !s.recovering
      rw [hcommits.committing, hcommits.mounted]
      rfl
    · exact fun hrec => absurd (hcommits.mounted.symm.trans hrec) (by decide)
    · intro _ k hk _
      have hhome := h.fits.home _ (List.getElem_mem hk)
      have hold : (s.bwrite L.start v).disk (L.start + k + 1) = s.disk (L.start + k + 1) := by
        rw [bwrite_disk, Write.apply_of_ne]
        exact fun heq => by simp only at heq; omega
      exact (hold.trans (hcopied k hk hk)).trans (hcache _ hhome).symm
  · rw [current_goto, current_bwrite hcommits.mounted, hcurrent]
    exact hcache
  · rwa [hcurrent]

theorem Commits.goto {p : Phase} (h : s.Commits) : (s.goto p).Commits :=
  ⟨h.ops, h.committing, h.mounted⟩

theorem Installs.goto {p : Phase} (h : s.Installs L) : (s.goto p).Installs L :=
  ⟨h.ops, h.committing, h.named, h.cached, h.copied, h.seen⟩

/-- A step that only moves on writes nothing. -/
theorem proceed_goto {p : Phase} (h : s.Inv L) (hknows : (s.goto p).Knows L p) :
    Proceeds s (s.goto p) L :=
  ⟨⟨h.fits, h.words, h.short, h.counted, h.area, hknows⟩, rfl, Format.Agree.refl _,
    .inl (Format.Agree.refl _)⟩

/-- `install_trans` copies one block to its home. -/
theorem proceed_install {tail : Nat} (h : s.Inv L) (hphase : s.phase = .install tail)
    (htail : tail < s.lh.length) :
    Proceeds s ((s.bwrite s.lh[tail] (s.cache (L.start + tail + 1))).goto (.install (tail + 1)))
      L := by
  obtain ⟨hinst, hdone⟩ := h.knows_at hphase
  have hroom : tail < L.format.capacity := Nat.lt_of_lt_of_le htail h.fits.length_le
  have hcopy : s.cache (L.start + tail + 1) = s.disk (L.start + tail + 1) :=
    h.area _ (Format.not_home_copy hroom)
  have hmem : s.lh[tail] ∈ s.lh := List.getElem_mem htail
  have hhome := h.fits.home _ hmem
  have hnames := hinst.named.names
  have hnamed : L.Named (s.bwrite s.lh[tail] (s.cache (L.start + tail + 1))).disk s.lh :=
    named_bwrite hinst.named hhome.ne_start
  have hcontents : L.format.Agree
      (L.format.contents (s.bwrite s.lh[tail] (s.cache (L.start + tail + 1))).disk)
      (L.format.contents s.disk) :=
    Format.contents_write_named (by rw [hnames]; exact h.fits) (by rw [hnames]; exact hmem)
  -- While `commit` installs, the cache has the block already.
  have hcache : s.recovering = false →
      (s.bwrite s.lh[tail] (s.cache (L.start + tail + 1))).cache = s.cache := by
    intro hmounted
    rw [hcopy, hinst.copied hmounted tail htail htail]
    exact Function.update_eq_self _ _
  refine ⟨⟨h.fits, h.words, h.short, h.counted, fun x hx => area_bwrite h.area hx, ?_⟩, rfl, ?_,
    .inl hcontents⟩
  · refine ⟨⟨hinst.ops, hinst.committing, hnamed, ?_, ?_, ?_⟩, ?_⟩
    · intro hrec
      change (⟨_, _⟩ : Write Block).apply s.cache = (⟨_, _⟩ : Write Block).apply s.disk
      rw [hinst.cached hrec]
    · intro hmounted k hk hlt
      have hne : L.start + k + 1 ≠ s.lh[tail] :=
        (hhome.ne_copy (Nat.lt_of_lt_of_le hk h.fits.length_le)).symm
      have hold : (s.bwrite s.lh[tail] (s.cache (L.start + tail + 1))).disk (L.start + k + 1) =
          s.disk (L.start + k + 1) := by
        rw [bwrite_disk, Write.apply_of_ne hne]
      refine hold.trans ((hinst.copied hmounted k hk hk).trans ?_)
      exact (congrFun (hcache hmounted) _).symm
    · intro hmounted
      have hsame := hcache hmounted
      intro x hx
      exact (congrFun hsame x).trans ((hinst.seen hmounted x hx).trans (hcontents x hx).symm)
    · have hsucc := hdone.succ (by rw [hnames]; exact h.fits) (by rw [hnames]; exact htail)
      simp only [hnames] at hsucc
      rw [hcopy]
      exact hsucc
  · rw [current_goto]
    cases hrec : s.recovering with
    | false =>
        rw [current_bwrite hrec, current_of_mounted hrec, hcache hrec]
        exact Format.Agree.refl _
    | true =>
        rw [current_of_recovering hrec, current_of_recovering (s := s.bwrite _ _) hrec]
        exact hcontents

/-- Clearing the header ends the installation. -/
theorem proceed_clearHead (h : s.Inv L) (hphase : s.phase = .clearHead) :
    Proceeds s (s.proceed L) L := by
  obtain ⟨hinst, hsame⟩ := h.knows_at hphase
  obtain ⟨v, hv, hdecode⟩ : ∃ v, encodeHead (s.cache L.start) [] = v ∧ decodeHead v = some [] :=
    ⟨_, rfl, decodeHead_encodeHead (Nat.zero_le _) fun b hb => by cases hb⟩
  have hproceed : s.proceed L = (s.bwrite L.start v).cleared := by
    rw [proceed, hphase, hv]
  have hnamesv : L.format.names v = [] := by
    change (decodeHead v).getD [] = []
    rw [hdecode, Option.getD_some]
  have hnamed : L.Named (s.bwrite L.start v).disk [] := by
    unfold LogArea.Named
    rw [bwrite_disk, Write.apply_block (⟨L.start, v⟩ : Write Block)]
    exact hdecode
  have hcache := agree_bwrite_cache (s := s) (w := v) (Format.not_home_start (F := L.format))
  have hdisk := agree_bwrite_disk (s := s) (w := v) (Format.not_home_start (F := L.format))
  have hcontents : L.format.Agree (L.format.contents (s.bwrite L.start v).disk)
      (L.format.contents s.disk) := Format.contents_clear_header hnamesv hsame
  -- The cache has caught up with the disk, in both uses of `install_trans`.
  have hcaught : L.format.Agree s.cache s.disk := by
    cases hrec : s.recovering with
    | false => exact (hinst.seen hrec).trans hsame.symm
    | true =>
        rw [hinst.cached hrec]
        exact Format.Agree.refl _
  have hnew : L.format.Agree (s.bwrite L.start v).cache (s.bwrite L.start v).disk :=
    hcache.trans (hcaught.trans hdisk.symm)
  rw [hproceed]
  refine ⟨⟨.nil, fun b hb => (by cases hb), Nat.zero_le _, h.counted,
    fun x hx => area_bwrite h.area hx, ?_⟩, rfl, ?_, .inl hcontents⟩
  · change (s.bwrite L.start v).cleared.Knows L (if s.recovering then .idle else .committed)
    cases hrec : s.recovering with
    | false =>
        have hcommitting : s.committing = true := by
          rw [hinst.committing, hrec]
          rfl
        exact ⟨⟨hinst.ops, hcommitting, rfl⟩, hnamed, rfl, hnew⟩
    | true =>
        have hcommitting : s.committing = false := by
          rw [hinst.committing, hrec]
          rfl
        exact ⟨hcommitting, rfl, hnamed, fun x hx hne => absurd (hnew x hx) hne, fun _ => rfl⟩
  · rw [current_of_mounted (show _ = false from rfl)]
    refine hcache.trans ?_
    cases hrec : s.recovering with
    | false =>
        rw [current_of_mounted hrec]
        exact Format.Agree.refl _
    | true =>
        rw [current_of_recovering hrec]
        exact hcaught.trans hsame

/-- Every step of `commit` and of `recover_from_log`. -/
theorem proceed_spec (h : s.Inv L) : Proceeds s (s.proceed L) L := by
  cases hphase : s.phase with
  | idle =>
      have hsame : s.proceed L = s.goto s.phase := by
        rw [proceed, hphase]
        exact congrArg s.goto hphase
      rw [hsame]
      exact proceed_goto h h.knows
  | stopped why =>
      have hsame : s.proceed L = s.goto s.phase := by
        rw [proceed, hphase]
        exact congrArg s.goto hphase
      rw [hsame]
      exact proceed_goto h h.knows
  | writeLog tail =>
      rw [proceed, hphase]
      simp only
      cases htail : s.lh[tail]? with
      | some b =>
          obtain ⟨hlt, rfl⟩ := List.getElem?_eq_some_iff.mp htail
          exact proceed_copy h hphase hlt
      | none =>
          have hk := h.knows_at hphase
          refine proceed_goto h ⟨hk.1.goto, hk.2.1, hk.2.2.1, fun k hlt _ => hk.2.2.2 k hlt ?_⟩
          exact Nat.lt_of_lt_of_le hlt (List.getElem?_eq_none_iff.mp htail)
  | writeHead =>
      rw [proceed, hphase]
      exact proceed_writeHead h hphase
  | install tail =>
      rw [proceed, hphase]
      simp only
      cases htail : s.lh[tail]? with
      | some b =>
          obtain ⟨hlt, rfl⟩ := List.getElem?_eq_some_iff.mp htail
          exact proceed_install h hphase hlt
      | none =>
          have hk := h.knows_at hphase
          refine proceed_goto h ⟨hk.1.goto, hk.2.agree ?_⟩
          rw [hk.1.named.names]
          exact List.getElem?_eq_none_iff.mp htail
  | clearHead => exact proceed_clearHead h hphase
  | committed =>
      obtain ⟨hcommits, hclear, hlh, hagree⟩ := h.knows_at hphase
      rw [proceed, hphase]
      refine ⟨⟨h.fits, h.words, h.short, h.counted, h.area, ?_⟩, rfl, Format.Agree.refl _,
        .inl (Format.Agree.refl _)⟩
      exact ⟨rfl, hcommits.mounted, hclear, fun x hx hne => absurd (hagree x hx) hne, fun _ => hlh⟩
  | readHead =>
      obtain ⟨hops, hcommitting, hrec, hcache, bs, hnamed, hfits⟩ := h.knows_at hphase
      have hread : s.proceed L = { s with lh := bs, phase := .install 0 } := by
        rw [proceed, hphase]
        simp only
        rw [show decodeHead (s.cache L.start) = some bs by rw [hcache]; exact hnamed]
      obtain ⟨hshort, hwords⟩ := decodeHead_bounds hnamed
      have hnot : ¬ s.recovering = false := by
        rw [hrec]
        decide
      rw [hread]
      refine ⟨⟨hfits, hwords, hshort, h.counted, h.area, ?_⟩, rfl, Format.Agree.refl _,
        .inl (Format.Agree.refl _)⟩
      exact ⟨⟨hops, by rw [hcommitting, hrec]; rfl, hnamed, fun _ => hcache,
        fun hmounted => absurd hmounted hnot, fun hmounted => absurd hmounted hnot⟩,
        Format.installed_zero _⟩

end LogState

end OSProjects.Storage
