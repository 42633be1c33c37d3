import OSProjects.Xv6.Growth

/-!
# The contents of file-backed pages

`mmap` reads page after page from the start of the file. A page that is added later is read
at offset `PGSIZE`, through the descriptor number that the record has kept.
-/

namespace OSProjects.Xv6

open ByteMemory StepSystem

variable {k k' : Kernel} {p : Fin nProc} {a : MmapArgs} {addr : Nat}

/-! ## Pages of a file -/

/-- Byte `b` of the page of the file at `off`, zero behind the end of the file. -/
def Inode.pageByte (ip : Inode) (off b : Nat) : UInt8 :=
  if off + b < ip.size then ip.data (off + b) else 0

/-- The pages of the file at the two offsets are equal. -/
def Inode.SamePage (ip : Inode) (off off' : Nat) : Prop :=
  ∀ b, b < pgSize → ip.pageByte off b = ip.pageByte off' b

/-- The page of the address is present and holds the page of the file at `off`. -/
def HoldsPage (k : Kernel) (p : Fin nProc) (va : Nat) (ip : Inode) (off : Nat) : Prop :=
  ∃ e, (k.procs p).pgdir.lookup va = some e ∧
    ∀ b, b < pgSize → k.mem.phys (e.pa + b) = ip.pageByte off b

section Read

variable {ip : Inode} {off n : Nat}

theorem Kernel.readi_file (h : ip.type ≠ .dev) (hlt : off + n < 2 ^ 32) :
    (k.readi ip off n).2 =
      if ip.size < off then [] else readBytes ip.data off (min n (ip.size - off)) := by
  rw [Kernel.readi, if_neg h]
  by_cases hpast : ip.size < off
  · rw [if_pos (Or.inl hpast), if_pos hpast]
  · rw [if_neg (by omega), if_neg hpast]

theorem Kernel.length_readi (h : ip.type ≠ .dev) : (k.readi ip off n).2.length ≤ n := by
  rw [Kernel.readi, if_neg h]
  split
  · exact Nat.zero_le n
  · rw [length_readBytes]
    exact Nat.min_le_left _ _

/-- What `readi` delivers, with zeros behind it, is the page of the file. -/
theorem Kernel.readi_getD {b : Nat} (h : ip.type ≠ .dev) (hlt : off + n < 2 ^ 32) (hb : b < n) :
    (k.readi ip off n).2.getD b 0 = ip.pageByte off b := by
  rw [k.readi_file h hlt, Inode.pageByte]
  by_cases hin : off + b < ip.size
  · rw [if_neg (by omega), if_pos hin, List.getD_eq_getElem?_getD,
      getElem?_readBytes _ (by omega), Option.getD_some]
  · rw [if_neg hin]
    rw [List.getD_eq_getElem?_getD, List.getElem?_eq_none, Option.getD_none]
    split
    · exact Nat.zero_le b
    · rw [length_readBytes]
      omega

end Read

/-- The descriptor of the call is open on the inode `ip`, which is no device. -/
structure NamesFile (k : Kernel) (p : Fin nProc) (a : MmapArgs) (ip : Nat) : Prop where
  fileBacked : has a.flags mapAnonymous = false
  opened : ∃ f, k.ofileAt p a.fd = .ok (some f) ∧ (k.ftable f).type = .inode ∧
    (k.ftable f).ip = ip
  plain : (k.inodes ip).type ≠ .dev

namespace NamesFile

variable {ip off : Nat}

theorem exists_ipOf (h : NamesFile k p a ip) :
    ∃ f, k.ofileAt p a.fd = .ok (some f) ∧ k.ipOf f = some ip := by
  obtain ⟨f, hf, htype, rfl⟩ := h.opened
  exact ⟨f, hf, if_pos htype⟩

theorem hasFile (h : NamesFile k p a ip) : k.HasFile p a := by
  obtain ⟨f, hf, hip⟩ := h.exists_ipOf
  exact Or.inr ⟨f, ip, hf, hip⟩

theorem mmapBytes (h : NamesFile k p a ip) (off : Nat) :
    k.mmapBytes p a off = (k.readi (k.inodes ip) off pgSize).2 := by
  obtain ⟨f, hf, hip⟩ := h.exists_ipOf
  simp [Kernel.mmapBytes, h.fileBacked, hf, hip]

theorem mmapBytes_getD {b : Nat} (h : NamesFile k p a ip) (hlt : off + pgSize < 2 ^ 32)
    (hb : b < pgSize) : (k.mmapBytes p a off).getD b 0 = (k.inodes ip).pageByte off b := by
  rw [h.mmapBytes, k.readi_getD h.plain hlt hb]

end NamesFile

/-! ## The pages that `mmap` fills -/

/-- The pages of a call that succeeds, at an aligned address inside the window. -/
theorem mmap_placed (hsound : k.mem.Sound) (hfile : k.HasFile p a) (halign : addr % pgSize = 0)
    (hwindow : addr + pageCount a.length * pgSize ≤ vmaEnd) (h : k.mmap p a = .ok (k', addr)) :
    ∃ frames tables k1 j v, frames.length = pageCount a.length ∧
      Placed k p a addr frames tables k1 ∧ k' = k1.setVma p j v := by
  have hout := mmap_outcome h
  generalize hr : (addr : Int) = r at hout
  cases hout with
  | refused => omega
  | gaveUp => omega
  | @mapped addr' j k1 f hlength haddr hslot hloop hf =>
      obtain rfl : addr = addr' := Int.ofNat.inj hr
      obtain ⟨hstart, hfree, -⟩ := mmapAddr_eq_some haddr
      simp only [pgSize, vmaEnd] at halign hwindow
      have hbig : a.length ≤ 0x20000000 := by
        simp only [pageCount, pgSize] at hwindow
        omega
      have hturns := mmapTurns_of_le hlength (by omega)
      rw [ofInt_pgRoundUpInt hlength (by omega), isRegionFree_iff (by omega)] at hfree
      rw [mmapTurns, pgSize] at hturns
      rw [hturns] at hloop
      rcases mmapLoop_places hsound hfile halign (by omega) hfree with
        ⟨-, frames, tables, k2, hlen, hplaced, hloop'⟩ | ⟨-, tables, k2, hloop', -⟩
      · obtain ⟨rfl, -⟩ := Prod.mk.inj (Except.ok.inj (hloop.symm.trans hloop'))
        exact ⟨frames, tables, k1, j, _, hlen, hplaced, rfl⟩
      · rw [hloop] at hloop'
        cases hloop'

/-- Page `t` of the region holds the page of the file at `t * PGSIZE`, whatever the offset
of the call. -/
theorem mmap_holdsPage {ip t : Nat} (hsound : k.mem.Sound) (hnodup : k.mem.freelist.Nodup)
    (hfile : NamesFile k p a ip) (halign : addr % pgSize = 0)
    (hwindow : addr + pageCount a.length * pgSize ≤ vmaEnd) (h : k.mmap p a = .ok (k', addr))
    (ht : t < pageCount a.length) :
    ∃ e, (k'.procs p).pgdir.lookup (addr + t * pgSize) = some e ∧
      ∀ b, b < pgSize → k'.mem.phys (e.pa + b) = (k.inodes ip).pageByte (t * pgSize) b := by
  obtain ⟨frames, tables, k1, j, v, hlen, hplaced, rfl⟩ :=
    mmap_placed hsound hfile.hasFile halign hwindow h
  obtain ⟨f, hf⟩ : ∃ f, frames[t]? = some f := ⟨_, List.getElem?_eq_getElem (by omega)⟩
  simp only [pgSize, vmaEnd] at hwindow
  have hshort : ∀ off, (k.mmapBytes p a off).length ≤ pgSize := by
    intro off
    rw [hfile.mmapBytes]
    exact k.length_readi hfile.plain
  refine ⟨⟨f, pteW ||| pteU⟩, ?_, fun b hb => ?_⟩
  · simpa [Kernel.setVma, Kernel.space] using hplaced.taken.mapped t f hf
  · have hcontents := hplaced.contents hsound hnodup hshort t f hf b hb
    rw [← hfile.mmapBytes_getD (by simp only [pgSize]; omega) hb]
    simpa [Kernel.setVma] using hcontents

/-! ## The pages that the handler fills -/

/-- A page that the handler adds holds what is read at offset `PGSIZE` for the record, with
zeros behind it. -/
theorem pageFault_fills {i : Fin nVma} (h : GrowsSlot k p addr i) (hword : addr < 2 ^ 32)
    (habsent : (k.procs p).pgdir.lookup addr = none)
    (hmemory : pageNeeds (k.procs p).pgdir addr ≤ k.mem.freelist.length)
    (hfile : k.HasFile p ((k.procs p).vmas i).args) :
    ∃ k' e, k.pageFault p addr = .ok k' ∧ (k'.procs p).pgdir.lookup addr = some e ∧
      ∀ b, b < pgSize → k'.mem.phys (e.pa + b) =
        (k.mmapBytes p ((k.procs p).vmas i).args pgSize).getD b 0 := by
  obtain ⟨frame, mem, s, hk, hm⟩ := exists_faultPage habsent hmemory
  obtain ⟨-, hlookup, took, htook⟩ := Space.mapPage_eq_true hm
  refine ⟨_, ⟨frame, pteW ||| pteU⟩, pageFault_adds h hfile hword hk hm, ?_, fun b hb => ?_⟩
  · rw [pgdir_recordGrowth, hlookup, if_pos (pageOf_pgRoundDown addr).symm]
  · simp only [mem_recordGrowth, Mem.storeBytes, htook.phys, Mem.zeroPage, Store.apply,
      Nat.le_add_right, if_true, Nat.add_sub_cancel_left, List.getD, fill_at hb]

/-! ## The law -/

/-- The kernel, and the number of pages that the mapping has grown to. -/
structure FileSession where
  kernel : Kernel
  pages : Nat

/-- The call is a fault in the page at `va`, and makes that page present. -/
def AddsPage (p : Fin nProc) (va : Nat) (k : Kernel) (c : ProcCall) (k' : Kernel) : Prop :=
  (∃ b, c = (p, .fault b) ∧ pageOf b = pageOf va) ∧ (k.procs p).pgdir.lookup va = none ∧
    (k'.procs p).pgdir.lookup va ≠ none

/-- What happens after the call of `mmap`. -/
inductive FileEvent
  | call (c : ProcCall)
  /-- A system call that is not among those of the model, such as `pipe` or `write`. -/
  | other

/-- Page tables and records are as before; descriptors, entries, files and memory may be any. -/
def KeepsMappings (k k' : Kernel) : Prop :=
  ∀ q, (k'.procs q).pgdir = (k.procs q).pgdir ∧ (k'.procs q).vmas = (k.procs q).vmas

/-- Any call of any process. A fault of the owner that adds the page behind the mapping
grows it by that page. -/
def FileStep (p : Fin nProc) (addr : Nat) (s : FileSession) (e : FileEvent) (s' : FileSession) :
    Prop :=
  let next := addr + s.pages * pgSize
  match e with
  | .call c =>
      CallStep s.kernel c s'.kernel ∧
        ((AddsPage p next s.kernel c s'.kernel ∧ s'.pages = s.pages + 1) ∨
          (¬AddsPage p next s.kernel c s'.kernel ∧ s'.pages = s.pages))
  | .other => KeepsMappings s.kernel s'.kernel ∧ s'.pages = s.pages

/-- The fault at `va` grows the mapping from the record in slot `i`: it hits the page behind
the mapping, which is absent, and there is memory for it. -/
structure GrowsFile (s : FileSession) (p : Fin nProc) (addr va : Nat) (i : Fin nVma) : Prop where
  word : va < 2 ^ 32
  behind : pageOf va = pageOf (addr + s.pages * pgSize)
  grows : GrowsSlot s.kernel p va i
  absent : (s.kernel.procs p).pgdir.lookup va = none
  memory : pageNeeds (s.kernel.procs p).pgdir va ≤ s.kernel.mem.freelist.length

/-- Every page of the mapping starts out with its part of the file: those that `mmap` makes,
and those that are added along the events. -/
structure ContentLaw (k : Kernel) (p : Fin nProc) (a : MmapArgs) (ip addr : Nat) (k' : Kernel)
    (events : List FileEvent) : Prop where
  mapped : ∀ t, t < pageCount a.length →
    HoldsPage k' p (addr + t * pgSize) (k.inodes ip) (a.offset.toNat + t * pgSize)
  grown : has a.flags mapGrowsup = true → ∀ pre s, pre <+: events →
    Run (FileStep p addr) ⟨k', pageCount a.length⟩ pre s → ∀ va i, GrowsFile s p addr va i →
      ∃ k'', s.kernel.pageFault p va = .ok k'' ∧
        HoldsPage k'' p va (s.kernel.inodes ip) (a.offset.toNat + s.pages * pgSize)

/-- The descriptor that the record names is open and leads to an inode, and a read through it at
offset `PGSIZE` delivers the page of `ip` at `off`. -/
def ReadsPage (k : Kernel) (p : Fin nProc) (v : Vma) (ip : Inode) (off : Nat) : Prop :=
  k.HasFile p v.args ∧
    ∀ b, b < pgSize → (k.mmapBytes p v.args pgSize).getD b 0 = ip.pageByte off b

/-- A page that the handler adds is the right one exactly when the record reads it. -/
theorem pageFault_holds_iff {i : Fin nVma} {ip : Inode} {off : Nat} (h : GrowsSlot k p addr i)
    (hword : addr < 2 ^ 32) (habsent : (k.procs p).pgdir.lookup addr = none)
    (hmemory : pageNeeds (k.procs p).pgdir addr ≤ k.mem.freelist.length) :
    (∃ k', k.pageFault p addr = .ok k' ∧ HoldsPage k' p addr ip off) ↔
      ReadsPage k p ((k.procs p).vmas i) ip off := by
  constructor
  · rintro ⟨k', hcall, e, he, hbytes⟩
    have hfile : k.HasFile p ((k.procs p).vmas i).args := by
      by_contra hno
      exact pageFault_noFile h hno hcall
    obtain ⟨k1, e1, hcall1, he1, hbytes1⟩ := pageFault_fills h hword habsent hmemory hfile
    obtain rfl : k' = k1 := Except.ok.inj (hcall.symm.trans hcall1)
    obtain rfl : e = e1 := Option.some.inj (he.symm.trans he1)
    exact ⟨hfile, fun b hb => (hbytes1 b hb).symm.trans (hbytes b hb)⟩
  · rintro ⟨hfile, hbytes⟩
    obtain ⟨k', e, hcall, he, hfilled⟩ := pageFault_fills h hword habsent hmemory hfile
    exact ⟨k', hcall, e, he, fun b hb => (hfilled b hb).trans (hbytes b hb)⟩

/-- Every page holds its part of the file exactly when the pages that the offset asks for
equal those from the start of the file, and every page that is added is read, at `PGSIZE`
and through what the record's descriptor names then, as the page of its place. -/
theorem content_law_iff {ip : Nat} {events : List FileEvent} (hsound : k.mem.Sound)
    (hnodup : k.mem.freelist.Nodup) (hfile : NamesFile k p a ip) (halign : addr % pgSize = 0)
    (hwindow : addr + pageCount a.length * pgSize ≤ vmaEnd)
    (h : k.mmap p a = .ok (k', addr)) :
    ContentLaw k p a ip addr k' events ↔
      (∀ t, t < pageCount a.length →
        (k.inodes ip).SamePage (t * pgSize) (a.offset.toNat + t * pgSize)) ∧
      (has a.flags mapGrowsup = true → ∀ pre s, pre <+: events →
        Run (FileStep p addr) ⟨k', pageCount a.length⟩ pre s → ∀ va i, GrowsFile s p addr va i →
          ReadsPage s.kernel p ((s.kernel.procs p).vmas i) (s.kernel.inodes ip)
            (a.offset.toNat + s.pages * pgSize)) := by
  constructor
  · intro hlaw
    constructor
    · intro t ht b hb
      obtain ⟨e, he, hbytes⟩ := hlaw.mapped t ht
      obtain ⟨e1, he1, hbytes1⟩ := mmap_holdsPage hsound hnodup hfile halign hwindow h ht
      obtain rfl : e = e1 := Option.some.inj (he.symm.trans he1)
      exact (hbytes1 b hb).symm.trans (hbytes b hb)
    · intro hgrowsup pre s hpre hrun va i hva
      exact (pageFault_holds_iff hva.grows hva.word hva.absent hva.memory).mp
        (hlaw.grown hgrowsup pre s hpre hrun va i hva)
  · rintro ⟨hsame, hreads⟩
    constructor
    case mapped =>
      intro t ht
      obtain ⟨e, he, hbytes⟩ := mmap_holdsPage hsound hnodup hfile halign hwindow h ht
      exact ⟨e, he, fun b hb => (hbytes b hb).trans (hsame t ht b hb)⟩
    case grown =>
      intro hgrowsup pre s hpre hrun va i hva
      exact (pageFault_holds_iff hva.grows hva.word hva.absent hva.memory).mpr
        (hreads hgrowsup pre s hpre hrun va i hva)

/-! ## Two runs -/

/-- `NamesFile`, as a test. -/
def namesFileCheck (k : Kernel) (p : Fin nProc) (a : MmapArgs) (ip : Nat) : Bool :=
  !has a.flags mapAnonymous && decide ((k.inodes ip).type = .file) &&
    match k.ofileAt p a.fd with
    | .ok (some f) => decide ((k.ftable f).type = .inode) && (k.ftable f).ip == ip
    | _ => false

theorem namesFile_of_check {ip : Nat} (h : namesFileCheck k p a ip = true) :
    NamesFile k p a ip := by
  simp only [namesFileCheck, Bool.and_eq_true, Bool.not_eq_true', decide_eq_true_eq] at h
  obtain ⟨⟨hanon, htype⟩, hopen⟩ := h
  refine ⟨hanon, ?_, by simp [htype]⟩
  split at hopen
  case h_1 f hf =>
    rw [Bool.and_eq_true, decide_eq_true_eq, beq_iff_eq] at hopen
    exact ⟨f, hf, hopen⟩
  case h_2 => cases hopen

/-- A growable mapping of the first page of the file behind descriptor 0. -/
def growingFile : MmapArgs := { filePage with flags := mapShared ||| mapGrowsup }

/-- A mapping of one page from the start of the file, and its first growth. -/
theorem content_law_iff_run : ∃ k0 k k', bootKernel 80 [7] = .ok k0 ∧
    Run CallStep k0 [(0, .sysOpen (some 0) 2)] k ∧
    k.mmap 0 growingFile = .ok (k', 0x60000000) ∧
    ContentLaw k 0 growingFile 0 0x60000000 k' [] := by
  obtain ⟨k0, hboot, hcalls⟩ := @exists_ok _ (bootKernel 80 [7]) (fun k0 =>
    (runCalls k0 [(0, .sysOpen (some 0) 2)]).any fun k : Kernel =>
      decide (0 < k.mem.imageEnd) && decide (∀ f ∈ k.mem.freelist, k.mem.Freeable f) &&
        decide k.mem.freelist.Nodup && namesFileCheck k 0 growingFile 0 &&
        okWith (k.mmap 0 growingFile) fun x => x.2 == 0x60000000 &&
          decide (∀ i, i ≠ 0 → ((x.1.procs 0).vmas i).endAddr = 0) &&
          namesFileCheck x.1 0 ((x.1.procs 0).vmas 0).args 0) (by decide +kernel)
  obtain ⟨k, hk, hcheck⟩ := (Option.any_eq_true _ _).mp hcalls
  simp only [Bool.and_eq_true, decide_eq_true_eq] at hcheck
  obtain ⟨⟨⟨⟨himage, hfreeable⟩, hnodup⟩, hfile⟩, hcall⟩ := hcheck
  obtain ⟨⟨k', r⟩, hk', hreturn⟩ := exists_ok hcall
  simp only [Bool.and_eq_true, beq_iff_eq, decide_eq_true_eq] at hreturn
  obtain ⟨⟨rfl, hends⟩, hrecord⟩ := hreturn
  refine ⟨k0, k, k', hboot, run_of_runCalls hk, hk', ?_⟩
  refine (content_law_iff ⟨himage, hfreeable⟩ hnodup
    (namesFile_of_check hfile) (by decide) (by decide) hk').mpr ⟨fun t _ b _ => ?_, ?_⟩
  · rw [show growingFile.offset.toNat = 0 from rfl, Nat.zero_add]
  · intro _ pre s hpre hrun va i hva
    obtain rfl := List.prefix_nil.mp hpre
    obtain rfl := hrun.eq_of_nil
    have hi : i = 0 := by
      by_contra hne
      have hbelow := hva.grows.selected.ends.2
      have hstart := hva.grows.checks.start
      simp only [hends i hne, vmaStart, uint, pgSize] at hbelow hstart
      omega
    subst hi
    have hnames := namesFile_of_check hrecord
    have hoff : growingFile.offset.toNat + pageCount growingFile.length * pgSize = pgSize := by
      decide
    refine ⟨hnames.hasFile, fun b hb => ?_⟩
    rw [hoff]
    exact hnames.mmapBytes_getD (by decide) hb

/-- The offset of the call is not looked at. -/
theorem offset_ignored : ¬∀ k p a ip (addr : Nat) k' events, k.mem.Sound →
    k.mem.freelist.Nodup → NamesFile k p a ip → (k.inodes ip).type = .file →
    a.offset % pgSize = 0 → addr % pgSize = 0 →
    addr + pageCount a.length * pgSize ≤ vmaEnd → k.mmap p a = .ok (k', addr) →
    ContentLaw k p a ip addr k' events := by
  intro hall
  obtain ⟨k0, -, hcalls⟩ := @exists_ok _ (bootKernel 80 [7]) (fun k0 =>
    (runCalls k0 [(0, .sysOpen (some 0) 2)]).any fun k : Kernel =>
      decide (0 < k.mem.imageEnd) && decide (∀ f ∈ k.mem.freelist, k.mem.Freeable f) &&
        decide k.mem.freelist.Nodup && namesFileCheck k 0 { filePage with offset := 4096 } 0 &&
        decide ((k.inodes 0).type = .file) && decide ((k.inodes 0).size = 1) &&
        okWith (k.mmap 0 { filePage with offset := 4096 }) fun x => x.2 == 0x60000000 &&
          ((x.1.procs 0).pgdir.lookup 0x60000000).any fun e : Pte => x.1.mem.phys e.pa == 7)
    (by decide +kernel)
  obtain ⟨k, -, hcheck⟩ := (Option.any_eq_true _ _).mp hcalls
  simp only [Bool.and_eq_true, decide_eq_true_eq] at hcheck
  obtain ⟨⟨⟨⟨⟨⟨himage, hfreeable⟩, hnodup⟩, hfile⟩, htype⟩, hsize⟩, hcall⟩ := hcheck
  obtain ⟨⟨k', r⟩, hk', hreturn⟩ := exists_ok hcall
  simp only [Bool.and_eq_true, beq_iff_eq] at hreturn
  obtain ⟨rfl, hseven⟩ := hreturn
  have hlaw := hall k 0 _ 0 0x60000000 k' [] ⟨himage, hfreeable⟩ hnodup
    (namesFile_of_check hfile) htype (by decide) (by decide) (by decide) hk'
  obtain ⟨e, he, hbytes⟩ := hlaw.mapped 0 (by decide)
  obtain ⟨e', he', hdata⟩ := (Option.any_eq_true _ _).mp hseven
  obtain rfl : e = e' := Option.some.inj (he.symm.trans he')
  have hzero := hbytes 0 (by decide)
  rw [Nat.add_zero, beq_iff_eq.mp hdata, Inode.pageByte, hsize, if_neg (by decide)] at hzero
  exact absurd hzero (by decide)

end OSProjects.Xv6
