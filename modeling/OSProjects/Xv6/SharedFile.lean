import OSProjects.Xv6.KeptFiles
import OSProjects.Xv6.Visits

/-!
# Which shared mappings are written back

`munmap` writes the page it is asked for, and one more for every record behind it in the chain
that growth leaves. A shared mapping reaches the file that `mmap` mapped, as a whole, exactly
when these pages are its pages and every one of them goes to its own place in that file. The
records name entries of the file table, which other files take over once a descriptor is closed.
-/

namespace OSProjects.Xv6

open ByteMemory StepSystem

/-! ## The law -/

/-- The call of `mmap` maps the regular file of inode `i`, open for writing, shared and at
`addr`. -/
structure MapsShared (k : Kernel) (p : Fin nProc) (a : MmapArgs) (i addr : Nat) : Prop where
  returns : ∃ k', k.mmap p a = .ok (k', addr)
  shared : has a.flags mapShared = true
  backed : has a.flags mapAnonymous = false
  offset : 0 ≤ a.offset
  file : ∃ f, k.ofileAt p a.fd = .ok (some f) ∧ (k.ftable f).type = .inode ∧
    (k.ftable f).writable = true ∧ (k.ftable f).ip = i
  regular : (k.inodes i).type ≠ .dev
  size_le : (k.inodes i).size ≤ maxFile * bSize

/-- What has become of the mapping of inode `i` from `offset` on: all its pages are there, and
the file covers it. -/
structure SharedMapping (k : Kernel) (p : Fin nProc) (i addr : Nat) (length : Int)
    (offset : Nat) : Prop where
  range : RangeMapped k p addr length
  inside : offset + length.toNat ≤ (k.inodes i).size
  regular : (k.inodes i).type ≠ .dev
  size_le : (k.inodes i).size ≤ maxFile * bSize

/-- `munmap` of the mapping returns, hands over present pages only, and the file is what it was
with the memory of the mapping written over it at the offset. -/
structure WritesBack (k : Kernel) (p : Fin nProc) (i addr : Nat) (length : Int)
    (offset : Nat) : Prop where
  returns : ∃ k' bytes, k.munmap p addr length = .ok (k', 0) ∧
    (k.space p).loadBytes addr length.toNat = some bytes ∧
    (k'.inodes i).contents =
      overlay (fun _ => 0) (k.inodes i).contents offset bytes
  handed : AllPresent p (k.munmapHanded p addr length)

/-- The same tables, with the given bytes in memory and in inode `i`. -/
def Kernel.withContents (k : Kernel) (phys : Memory) (i : Nat) (data : Memory) : Kernel :=
  { k with
    mem := { k.mem with phys := phys }
    inodes := Function.update k.inodes i { k.inodes i with data := data } }

/-- `munmap` writes the mapping back, whatever the process has made of its memory and whatever
the file holds. -/
def AlwaysWritesBack (k : Kernel) (p : Fin nProc) (i addr : Nat) (length : Int)
    (offset : Nat) : Prop :=
  ∀ phys data, WritesBack (k.withContents phys i data) p i addr length offset

/-- Every page of the mapping has its visit, which reaches the file at the place of the page,
and no other visit reaches the file. -/
structure Flushes (k : Kernel) (p : Fin nProc) (i addr : Nat) (length : Int)
    (offset : Nat) (visits : List Visit) : Prop where
  ready : VisitsReady k p addr 0 visits
  pages : pageCount length ≤ visits.length
  reach : ∀ t x, visits[t]? = some x →
    (0 < k.reach i x (x.place addr t) ↔ t < pageCount length)
  start : ∀ x, visits[0]? = some x → x.place addr 0 = offset
  rest : offset = 0 ∨ pageCount length = 1
  frames : ∀ s t e e', s < t → t < pageCount length →
    (k.procs p).pgdir.lookup (addr + s * pgSize) = some e →
    (k.procs p).pgdir.lookup (addr + t * pgSize) = some e' → e.pa ≠ e'.pa

/-- The visits of the call flush the mapping. -/
def FlushReady (k : Kernel) (p : Fin nProc) (i addr : Nat) (length : Int)
    (offset : Nat) : Prop :=
  ∃ visits, munmapVisits (k.procs p) addr length = some visits ∧
    Flushes k p i addr length offset visits

/-- A mapping that has been written back, byte by byte. -/
theorem WritesBack.file_eq {k : Kernel} {p : Fin nProc} {i addr offset : Nat}
    {length : Int} (h : WritesBack k p i addr length offset)
    (hmap : SharedMapping k p i addr length offset) :
    ∃ k' bytes, k.munmap p addr length = .ok (k', 0) ∧
      (k.space p).loadBytes addr length.toNat = some bytes ∧
      (k'.inodes i).size = (k.inodes i).size ∧
      ∀ y, y < (k.inodes i).size → (k'.inodes i).data y =
        if offset ≤ y ∧ y < offset + length.toNat then bytes.getD (y - offset) 0
        else (k.inodes i).data y := by
  obtain ⟨k', bytes, hcall, hload, hcontents⟩ := h.returns
  have hlen := Space.length_loadBytes hload
  obtain ⟨hsize, hdata⟩ :=
    (readBytes_eq_overlay_iff (by rw [hlen]; exact hmap.inside) _).mp hcontents
  rw [hlen] at hdata
  exact ⟨k', bytes, hcall, hload, hsize, hdata⟩

/-- The file of a mapping stays regular and short enough. -/
theorem SharedMapping.of_run {k k' : Kernel} {p : Fin nProc} {a : MmapArgs} {i addr offset : Nat}
    {length : Int} {acts : List (Fin nProc × Act)} (hmap : MapsShared k p a i addr)
    (hrun : Run ActStep k acts k') (hrange : RangeMapped k' p addr length)
    (hinside : offset + length.toNat ≤ (k'.inodes i).size) :
    SharedMapping k' p i addr length offset := by
  have hkept := keepsFiles_of_run hrun
  refine ⟨hrange, hinside, ?_, hkept.size i hmap.size_le⟩
  rw [hkept.type i]
  exact hmap.regular

/-! ## Other contents -/

section Contents

variable {k : Kernel} {p : Fin nProc} {addr i offset : Nat} {length : Int}
  {visits : List Visit} (phys data : Memory)

theorem Kernel.withContents_size (j : Nat) :
    ((k.withContents phys i data).inodes j).size = (k.inodes j).size := by
  rw [Kernel.withContents]
  dsimp only
  rcases eq_or_ne j i with rfl | hne
  · rw [Function.update_self]
  · rw [Function.update_of_ne hne]

theorem Kernel.withContents_type (j : Nat) :
    ((k.withContents phys i data).inodes j).type = (k.inodes j).type := by
  rw [Kernel.withContents]
  dsimp only
  rcases eq_or_ne j i with rfl | hne
  · rw [Function.update_self]
  · rw [Function.update_of_ne hne]

theorem Kernel.withContents_data : ((k.withContents phys i data).inodes i).data = data := by
  rw [Kernel.withContents]
  dsimp only
  rw [Function.update_self]

theorem Kernel.withContents_fileSize : (k.withContents phys i data).fileSize = k.fileSize := by
  funext j
  rw [Kernel.fileSize, Kernel.withContents_type, Kernel.withContents_size, Kernel.fileSize]

theorem VisitsReady.withContents_iff {t : Nat} :
    VisitsReady (k.withContents phys i data) p addr t visits ↔
      VisitsReady k p addr t visits := by
  constructor
  · intro h
    have hblocks := h.blocks
    rw [Kernel.withContents_fileSize] at hblocks
    exact ⟨fun x hx => ⟨(h.ready x hx).file, (h.ready x hx).present, (h.ready x hx).frames⟩,
      h.apart, hblocks⟩
  · intro h
    refine ⟨fun x hx => ⟨(h.ready x hx).file, (h.ready x hx).present, (h.ready x hx).frames⟩,
      h.apart, ?_⟩
    rw [Kernel.withContents_fileSize]
    exact h.blocks

theorem Kernel.reach_withContents (j : Nat) (x : Visit) :
    (k.withContents phys i data).reach j x offset = k.reach j x offset := by
  rw [Kernel.reach, Kernel.withContents_size, Kernel.reach]
  rfl

theorem SharedMapping.withContents (h : SharedMapping k p i addr length offset) :
    SharedMapping (k.withContents phys i data) p i addr length offset := by
  constructor
  case range =>
    exact ⟨h.range.pos, h.range.word, h.range.aligned, h.range.stop, h.range.present⟩
  case inside =>
    rw [Kernel.withContents_size]
    exact h.inside
  case regular =>
    rw [Kernel.withContents_type]
    exact h.regular
  case size_le =>
    rw [Kernel.withContents_size]
    exact h.size_le

theorem FlushReady.withContents (h : FlushReady k p i addr length offset) :
    FlushReady (k.withContents phys i data) p i addr length offset := by
  obtain ⟨visits, hvisits, hflush⟩ := h
  refine ⟨visits, hvisits, (VisitsReady.withContents_iff phys data).mpr hflush.ready, hflush.pages,
    fun t x hx => ?_, hflush.start, hflush.rest, hflush.frames⟩
  rw [Kernel.reach_withContents]
  exact hflush.reach t x hx

end Contents

/-! ## The way of a call -/

section Call

variable {k : Kernel} {p : Fin nProc} {i addr offset : Nat} {length : Int}
  {visits : List Visit}

/-- The first page of the mapping is there, so there is a page table for it. -/
theorem SharedMapping.table (h : SharedMapping k p i addr length offset) :
    (k.procs p).pgdir.table (pdx addr) ≠ none := by
  intro hnone
  have hthere := h.range.present 0 (pageCount_pos h.range.pos)
  rw [Nat.zero_mul, Nat.add_zero, Pgdir.present, Pgdir.lookup_of_table_none hnone] at hthere
  cases hthere

theorem SharedMapping.addr_lt (h : SharedMapping k p i addr length offset) :
    addr < 0x80000000 := by
  have hpages := pageCount_pos h.range.pos
  have hstop := h.range.stop
  simp only [pgSize, vmaEnd] at hstop
  omega

/-- The call returns and hands over present pages only exactly when its visits are ready. -/
theorem SharedMapping.visits_iff (h : SharedMapping k p i addr length offset)
    (hd : PinnedHalf (k.procs p).pgdir) :
    ((∃ k' r, k.munmap p addr length = .ok (k', r)) ∧
        AllPresent p (k.munmapHanded p addr length)) ↔
      ∃ visits, munmapVisits (k.procs p) addr length = some visits ∧
        VisitsReady k p addr 0 visits := by
  obtain ⟨t, ht⟩ := Option.ne_none_iff_exists'.mp h.table
  have hvisits := @munmap_visits_iff k p addr length hd (h.addr_lt.trans (by decide))
  rwa [firstPlace, ht] at hvisits

/-- The call goes the way of its visits when they are ready. -/
theorem SharedMapping.exists_walk (h : SharedMapping k p i addr length offset)
    (hd : PinnedHalf (k.procs p).pgdir)
    (hvisits : munmapVisits (k.procs p) addr length = some visits)
    (hready : VisitsReady k p addr 0 visits) :
    ∃ K, k.munmap p addr length = .ok (K visits.length, 0) ∧
      AllPresent p (k.munmapHanded p addr length) ∧ visits ≠ [] ∧
      Walk k p addr length visits i K := by
  have hbelow := h.addr_lt
  obtain ⟨j, hslot⟩ : ∃ j, munmapSlot (k.procs p).vmas addr = some j := by
    rw [munmapVisits] at hvisits
    split at hvisits
    case h_1 => cases hvisits
    case h_2 j hslot => exact ⟨j, hslot⟩
  obtain ⟨⟨k', r, hcall⟩, hhanded⟩ := (h.visits_iff hd).mpr ⟨visits, hvisits, hready⟩
  rw [munmap_eq_visitAll hslot h.table hvisits] at hcall ⊢
  obtain ⟨k1, hall⟩ := exists_map_iff.mp ⟨k', r, hcall⟩
  obtain ⟨K, hstart, hend, hturn⟩ := exists_moments hall
  obtain ⟨hpaged, hne⟩ := Paged.of_munmap hbelow h.table hvisits
  refine ⟨K, by rw [hall, hend]; rfl, hhanded, hne, hstart, fun t x hx => ?_, hpaged,
    h.range.aligned, ?_, h.range.pos, hd, hready, h.regular⟩
  · rw [← hturn t x hx, Nat.zero_add]
  · simp only [vmaEnd]
    omega

/-- The frame byte behind an address of the mapping. -/
theorem SharedMapping.bytes_getD (h : SharedMapping k p i addr length offset)
    {bytes : List UInt8} (hload : (k.space p).loadBytes addr length.toNat = some bytes) {t j : Nat}
    {e : Pte} (hj : j < pgSize) (hlt : t * pgSize + j < length.toNat)
    (he : (k.procs p).pgdir.lookup (addr + t * pgSize) = some e) :
    bytes.getD (t * pgSize + j) 0 = k.mem.phys (e.pa + j) := by
  have halign := h.range.aligned
  have hstop := h.range.stop
  have hword : addr + (t * pgSize + j) < 2 ^ 32 := by
    simp only [pageCount, pgSize, vmaEnd] at hstop hlt ⊢
    omega
  simp only [pgSize] at halign hj
  have hsame : pageOf (addr + (t * pgSize + j)) = pageOf (addr + t * pgSize) := by
    simp only [pageOf, pgSize]
    omega
  have hrest : (addr + (t * pgSize + j)) % pgSize = j := by
    simp only [pgSize]
    omega
  have hbyte := loadBytes_getD hload hlt hword
    ((Pgdir.lookup_congr _ hsame).trans he)
  rwa [hrest] at hbyte

/-- The memory of the mapping can be loaded. -/
theorem SharedMapping.exists_bytes (h : SharedMapping k p i addr length offset) :
    ∃ bytes, (k.space p).loadBytes addr length.toNat = some bytes := by
  refine loadBytes_of_present fun j hj => ?_
  have halign := h.range.aligned
  have hstop := h.range.stop
  simp only [pageCount, pgSize, vmaEnd] at halign hstop
  have hthere := h.range.present (j / pgSize) (by simp only [pageCount, pgSize]; omega)
  have hsame : pageOf (uint (addr + j)) = pageOf (addr + j / pgSize * pgSize) := by
    simp only [pageOf, uint, pgSize]
    omega
  rw [Pgdir.present_congr _ hsame]
  exact hthere

end Call

/-! ## Mappings that are flushed -/

section Flushed

variable {k : Kernel} {p : Fin nProc} {i addr offset : Nat} {length : Int}
  {visits : List Visit} {K : Nat → Kernel} {bytes : List UInt8}

/-- What `t` visits have made of the file: the pages up to there are in it. -/
structure Flushed (k : Kernel) (i offset t : Nat) (bytes : List UInt8)
    (k' : Kernel) : Prop where
  size : (k'.inodes i).size = (k.inodes i).size
  data : ∀ y, (k'.inodes i).data y =
    if offset ≤ y ∧ y < offset + min bytes.length (t * pgSize) then bytes.getD (y - offset) 0
    else (k.inodes i).data y

/-- The place of a page of the mapping in the file. -/
theorem Flushes.place_eq (h : Flushes k p i addr length offset visits) {t : Nat} {x : Visit}
    (hx : visits[t]? = some x) (ht : t < pageCount length) :
    x.place addr t = offset + t * pgSize := by
  rcases Nat.eq_zero_or_pos t with rfl | hpos
  · rw [h.start x hx, Nat.zero_mul, Nat.add_zero]
  · have hzero : offset = 0 := h.rest.resolve_right (by omega)
    rw [Visit.place, if_neg (by omega), hzero, Nat.zero_add]

/-- No page of the mapping has its frame given back before its turn. -/
theorem Flushes.not_freed (h : Flushes k p i addr length offset visits)
    (hw : Walk k p addr length visits i K) {t j : Nat} {e : Pte}
    (ht : t < pageCount length) (hj : j < pgSize)
    (he : (k.procs p).pgdir.lookup (addr + t * pgSize) = some e) :
    ¬Freed (k.procs p).pgdir addr t (e.pa + j) := by
  have hframe : ∀ s e, s < pageCount length →
      (k.procs p).pgdir.lookup (addr + s * pgSize) = some e → e.pa % pgSize = 0 := by
    intro s e hs he
    have hlen := h.pages
    obtain ⟨x, hx⟩ : ∃ x, visits[s]? = some x := ⟨_, List.getElem?_eq_getElem (by omega)⟩
    have hpage := hw.onPage hx
    have haddr := hw.paged.addr s x hx
    have hbelow := hpage.below
    simp only [vmaEnd, nVma, pgSize] at hbelow
    have htakes := (h.ready.ready x (List.mem_of_getElem? hx)).frames (addr + s * pgSize) e
      (by omega) ((hpage.clears_iff (by omega)).mpr (by rw [haddr])) he
    exact htakes.2.1
  rintro ⟨s, hs, e', he', hlow, hhigh⟩
  have hne := h.frames s t e' e hs ht he' he
  have halign := hframe t e ht he
  have halign' := hframe s e' (by omega) he'
  simp only [pgSize] at halign halign' hj hlow hhigh
  omega

/-- The visits of the mapping write all that the length covers of their pages. -/
theorem Flushes.reach_eq (h : Flushes k p i addr length offset visits)
    (hmap : SharedMapping k p i addr length offset) (hpaged : Paged addr length visits) {t : Nat}
    {x : Visit} (hx : visits[t]? = some x) :
    k.reach i x (x.place addr t) =
      min length.toNat ((t + 1) * pgSize) - min length.toNat (t * pgSize) := by
  have hmust := h.reach t x hx
  rcases Nat.lt_or_ge t (pageCount length) with hlt | hge
  · have hplace := h.place_eq hx hlt
    have hpart := hpaged.part_toNat hmap.range.pos hx hlt
    have hinside := hmap.inside
    have hmax := hmap.size_le
    have hpos := hmust.mpr hlt
    have hstart : t * pgSize < length.toNat := by
      simp only [pageCount, pgSize] at hlt ⊢
      omega
    rw [Kernel.reach] at hpos ⊢
    split at hpos
    case isFalse => exact absurd hpos (Nat.lt_irrefl 0)
    case isTrue hin =>
      rw [if_pos hin, putCount, if_pos (by omega), Nat.succ_mul]
      omega
  · have hall : length.toNat ≤ t * pgSize := by
      simp only [pageCount, pgSize] at hge ⊢
      omega
    rw [Nat.succ_mul]
    omega

/-- After `t` visits the first `t` pages of the mapping are in the file. -/
theorem Flushes.flushed (h : Flushes k p i addr length offset visits)
    (hmap : SharedMapping k p i addr length offset)
    (hw : Walk k p addr length visits i K)
    (hload : (k.space p).loadBytes addr length.toNat = some bytes) {t : Nat}
    (ht : t ≤ visits.length) : Flushed k i offset t bytes (K t) := by
  have hlen := Space.length_loadBytes hload
  have hinside := hmap.inside
  induction t with
  | zero =>
      rw [hw.start]
      refine ⟨rfl, fun y => ?_⟩
      rw [if_neg (by omega)]
  | succ t ih =>
      have hbefore := ih (by omega)
      obtain ⟨x, hx⟩ : ∃ x, visits[t]? = some x := ⟨_, List.getElem?_eq_getElem (by omega)⟩
      have hputs := hw.puts hx
      have hreach : (K t).reach i x (x.place addr t) =
          min length.toNat ((t + 1) * pgSize) - min length.toNat (t * pgSize) := by
        rw [Kernel.reach, hbefore.size, (hw.passed (by omega)).ftable,
          ← h.reach_eq hmap hw.paged hx, Kernel.reach]
      -- A visit that writes anything is one of the mapping's, at its place.
      have hplace : 0 < (K t).reach i x (x.place addr t) →
          t < pageCount length ∧ x.place addr t = offset + t * pgSize := by
        intro hpos
        have hlt : t < pageCount length := by
          simp only [pageCount, pgSize] at hreach ⊢
          omega
        exact ⟨hlt, h.place_eq hx hlt⟩
      rw [Nat.succ_mul] at hreach
      constructor
      case size =>
        rw [hputs.size, hbefore.size]
        split <;> omega
      case data =>
        intro y
        rw [Nat.succ_mul]
        by_cases hin : x.place addr t ≤ y ∧
            y < x.place addr t + (K t).reach i x (x.place addr t)
        · obtain ⟨hlt, hat⟩ := hplace (by omega)
          obtain ⟨j, rfl⟩ := Nat.exists_eq_add_of_le hin.1
          obtain ⟨e, he⟩ := hw.exists_entry hx (by omega)
          have hpage : j < pgSize := by omega
          have hbyte := hmap.bytes_getD hload hpage (by omega) he
          rw [hputs.inside j (by omega) e (by rw [hw.lookup_page hx, he]),
            hw.kept (by omega) (h.not_freed hw hlt hpage he), if_pos (by omega), ← hbyte, hat,
            Nat.add_assoc, Nat.add_sub_cancel_left]
        · rw [hputs.outside y (by omega), hbefore.data y]
          by_cases hfront : offset ≤ y ∧ y < offset + min bytes.length (t * pgSize)
          · rw [if_pos hfront, if_pos (by omega)]
          · rw [if_neg hfront, if_neg (by omega)]

/-- A mapping that the visits flush is written back. -/
theorem FlushReady.writesBack (h : FlushReady k p i addr length offset)
    (hmap : SharedMapping k p i addr length offset) (hd : PinnedHalf (k.procs p).pgdir) :
    WritesBack k p i addr length offset := by
  obtain ⟨visits, hvisits, hflush⟩ := h
  obtain ⟨K, hcall, hhanded, -, hw⟩ := hmap.exists_walk hd hvisits hflush.ready
  obtain ⟨bytes, hload⟩ := hmap.exists_bytes
  have hdone := hflush.flushed hmap hw hload (Nat.le_refl _)
  have hlen := Space.length_loadBytes hload
  have hinside := hmap.inside
  have hall : min bytes.length (visits.length * pgSize) = bytes.length := by
    have hpages := hflush.pages
    simp only [pageCount, pgSize] at hpages ⊢
    omega
  refine ⟨⟨_, bytes, hcall, hload, ?_⟩, hhanded⟩
  refine (readBytes_eq_overlay_iff (by omega) _).mpr ⟨hdone.size, fun y _ => ?_⟩
  rw [hdone.data y, hall]

end Flushed

/-! ## What writing back needs -/

/-- The way of a call from the given contents, at whose end the mapping is in the file. -/
structure Outcome (k : Kernel) (p : Fin nProc) (i addr : Nat) (length : Int)
    (offset : Nat) (visits : List Visit) (phys data : Memory) (K : Nat → Kernel)
    (bytes : List UInt8) : Prop where
  walk : Walk (k.withContents phys i data) p addr length visits i K
  load : ((k.withContents phys i data).space p).loadBytes addr length.toNat =
    some bytes
  size : ((K visits.length).inodes i).size = (k.inodes i).size
  data : ∀ y, y < (k.inodes i).size →
    ((K visits.length).inodes i).data y =
      if offset ≤ y ∧ y < offset + length.toNat then bytes.getD (y - offset) 0 else data y

/-- From all contents of memory and file the call comes to such an end. -/
def Outcomes (k : Kernel) (p : Fin nProc) (i addr : Nat) (length : Int)
    (offset : Nat) (visits : List Visit) : Prop :=
  ∀ phys data, ∃ K bytes, Outcome k p i addr length offset visits phys data K bytes

/-- Byte `y` of inode `i` is one that the visit in place `t` writes. -/
def Visit.Covers (x : Visit) (k : Kernel) (i addr t y : Nat) : Prop :=
  x.place addr t ≤ y ∧ y < x.place addr t + k.reach i x (x.place addr t)

section Outcomes

variable {k : Kernel} {p : Fin nProc} {i addr offset t y : Nat} {length : Int}
  {visits : List Visit} {x : Visit} {phys data data' : Memory} {K K' : Nat → Kernel}
  {bytes bytes' : List UInt8}

theorem AlwaysWritesBack.outcomes (h : AlwaysWritesBack k p i addr length offset)
    (hmap : SharedMapping k p i addr length offset) (hd : PinnedHalf (k.procs p).pgdir) :
    ∃ visits, munmapVisits (k.procs p) addr length = some visits ∧ VisitsReady k p addr 0 visits ∧
      visits ≠ [] ∧ Outcomes k p i addr length offset visits := by
  obtain ⟨⟨k', bytes, hcall, -, -⟩, hhanded⟩ := h (fun _ => 0) (fun _ => 0)
  obtain ⟨visits, hsome, hready⟩ :=
    ((hmap.withContents (fun _ => 0) (fun _ => 0)).visits_iff hd).mp ⟨⟨k', 0, hcall⟩, hhanded⟩
  rw [VisitsReady.withContents_iff] at hready
  have hwalk : ∀ phys data, ∃ K,
      (k.withContents phys i data).munmap p addr length =
        .ok (K visits.length, 0) ∧ visits ≠ [] ∧
      Walk (k.withContents phys i data) p addr length visits i K := by
    intro phys data
    obtain ⟨K, hcall, -, hne, hw⟩ := (hmap.withContents phys data).exists_walk hd hsome
      ((VisitsReady.withContents_iff phys data).mpr hready)
    exact ⟨K, hcall, hne, hw⟩
  refine ⟨visits, hsome, hready, (hwalk (fun _ => 0) fun _ => 0).choose_spec.2.1,
    fun phys data => ?_⟩
  obtain ⟨K, hcall, -, hw⟩ := hwalk phys data
  obtain ⟨k', bytes, hcall', hload, hsize, hdata⟩ :=
    (h phys data).file_eq (hmap.withContents phys data)
  obtain ⟨rfl, -⟩ := Prod.mk.inj (Except.ok.inj (hcall'.symm.trans hcall))
  rw [Kernel.withContents_size] at hsize hdata
  rw [Kernel.withContents_data] at hdata
  exact ⟨K, bytes, hw, hload, hsize, hdata⟩

namespace Outcome

/-- The file never changes its size on the way. -/
theorem size_at (h : Outcome k p i addr length offset visits phys data K bytes)
    (ht : t ≤ visits.length) :
    ((K t).inodes i).size = (k.inodes i).size := by
  have hgrown := (h.walk.passed ht).grown
  have hend := h.walk.size_mono ht (Nat.le_refl _)
  rw [Kernel.withContents_size] at hgrown
  rw [h.size] at hend
  omega

theorem reach_at (h : Outcome k p i addr length offset visits phys data K bytes)
    (ht : t ≤ visits.length) (x : Visit) (o : Nat) :
    (K t).reach i x o = k.reach i x o := by
  rw [Kernel.reach, h.size_at ht, (h.walk.passed ht).ftable, Kernel.reach]
  rfl

theorem covers_lt (h : Outcome k p i addr length offset visits phys data K bytes)
    (hx : visits[t]? = some x) (hcovers : x.Covers k i addr t y) :
    y < (k.inodes i).size := by
  have ht := (List.getElem?_eq_some_iff.mp hx).1
  have hsize := (h.walk.puts hx).size
  rw [h.reach_at ht.le, h.size_at ht.le, h.size_at (by omega)] at hsize
  obtain ⟨hlow, hhigh⟩ := hcovers
  rw [if_neg (by omega)] at hsize
  omega

/-- A byte that no visit covers stays. -/
theorem data_later (h : Outcome k p i addr length offset visits phys data K bytes) {u : Nat}
    (htu : t ≤ u) (hu : u ≤ visits.length)
    (hfree : ∀ s x, t ≤ s → s < u → visits[s]? = some x →
      ¬x.Covers k i addr s y) :
    ((K u).inodes i).data y = ((K t).inodes i).data y := by
  induction u with
  | zero =>
      obtain rfl := Nat.le_zero.mp htu
      rfl
  | succ u ih =>
      rcases Nat.le_or_eq_of_le_succ htu with hle | rfl
      · obtain ⟨x, hx⟩ : ∃ x, visits[u]? = some x := ⟨_, List.getElem?_eq_getElem (by omega)⟩
        have hout := hfree u x hle (Nat.lt_succ_self u) hx
        rw [Visit.Covers, ← h.reach_at (show u ≤ visits.length by omega)] at hout
        rw [(h.walk.puts hx).outside y (by omega)]
        exact ih hle (by omega) fun s x hs hsu => hfree s x hs (Nat.lt_succ_of_lt hsu)
      · rfl

/-- Two ways from the same memory put the same bytes into the file. -/
theorem same_of_covered (h : Outcome k p i addr length offset visits phys data K bytes)
    (h' : Outcome k p i addr length offset visits phys data' K' bytes')
    (ht : t ≤ visits.length)
    (hcovered : ∃ s x, s < t ∧ visits[s]? = some x ∧ x.Covers k i addr s y) :
    ((K t).inodes i).data y = ((K' t).inodes i).data y := by
  induction t with
  | zero =>
      obtain ⟨s, x, hs, -⟩ := hcovered
      omega
  | succ t ih =>
      obtain ⟨x, hx⟩ : ∃ x, visits[t]? = some x := ⟨_, List.getElem?_eq_getElem (by omega)⟩
      have hputs := h.walk.puts hx
      have hputs' := h'.walk.puts hx
      by_cases hlast : x.Covers k i addr t y
      · obtain ⟨hlow, hhigh⟩ := hlast
        obtain ⟨j, rfl⟩ := Nat.exists_eq_add_of_le hlow
        rw [← h.reach_at (show t ≤ visits.length by omega)] at hhigh
        have hsame : (K' t).reach i x (x.place addr t) =
            (K t).reach i x (x.place addr t) := by
          rw [h.reach_at (by omega), h'.reach_at (by omega)]
        obtain ⟨e, he⟩ := h.walk.exists_entry hx (by omega)
        rw [hputs.inside j (by omega) e (by rw [h.walk.lookup_page hx, he]),
          hputs'.inside j (by omega) e (by rw [h'.walk.lookup_page hx]; exact he)]
        exact (h.walk.agree h'.walk rfl rfl (by omega)).2 _ (Or.inl rfl)
      · obtain ⟨s, z, hs, hz, hcovers⟩ := hcovered
        have hbefore : s < t := by
          refine Nat.lt_of_le_of_ne (Nat.le_of_lt_succ hs) ?_
          rintro rfl
          obtain rfl := Option.some.inj (hx.symm.trans hz)
          exact hlast hcovers
        rw [Visit.Covers] at hlast
        rw [hputs.outside y (by rw [h.reach_at (by omega)]; omega),
          hputs'.outside y (by rw [h'.reach_at (by omega)]; omega)]
        exact ih (by omega) ⟨s, z, hbefore, hz, hcovers⟩

end Outcome

/-- The visits cover the range of the mapping in the file and nothing else. -/
theorem Outcomes.covered_iff (hall : Outcomes k p i addr length offset visits)
    (hinside : offset + length.toNat ≤ (k.inodes i).size) (y : Nat) :
    (∃ t x, visits[t]? = some x ∧ Visit.Covers x k i addr t y) ↔
      offset ≤ y ∧ y < offset + length.toNat := by
  -- Two files without a common byte, and the same memory.
  obtain ⟨K, bytes, hzero⟩ := hall (fun _ => 0) (fun _ => 0)
  obtain ⟨K', bytes', hone⟩ := hall (fun _ => 0) (fun _ => 1)
  obtain rfl : bytes = bytes' := Option.some.inj (hzero.load.symm.trans hone.load)
  constructor
  · rintro ⟨t, x, hx, hcovers⟩
    have hlt := hzero.covers_lt hx hcovers
    have hsame := hzero.same_of_covered hone (Nat.le_refl _)
      ⟨t, x, (List.getElem?_eq_some_iff.mp hx).1, hx, hcovers⟩
    rw [hzero.data y hlt, hone.data y hlt] at hsame
    by_contra hout
    rw [if_neg hout, if_neg hout] at hsame
    cases hsame
  · intro hin
    by_contra hnone
    have hfree : ∀ s x, 0 ≤ s → s < visits.length → visits[s]? = some x →
        ¬x.Covers k i addr s y :=
      fun s x _ _ hx hcovers => hnone ⟨s, x, hx, hcovers⟩
    have hstay := hzero.data_later (Nat.zero_le _) (Nat.le_refl _) hfree
    have hstay' := hone.data_later (Nat.zero_le _) (Nat.le_refl _) hfree
    rw [hzero.data y (by omega), if_pos hin, hzero.walk.start, Kernel.withContents_data] at hstay
    rw [hone.data y (by omega), if_pos hin, hone.walk.start, Kernel.withContents_data] at hstay'
    rw [hstay] at hstay'
    cases hstay'

/-- The first byte that a visit behind the first page puts into the file stays there, so it is
the byte of the mapping that belongs there. -/
theorem Outcome.first_byte (h : Outcome k p i addr length offset visits phys data K bytes)
    (hmap : SharedMapping k p i addr length offset) (hx : visits[t]? = some x) (ht : t ≠ 0)
    (hreach : 0 < k.reach i x (x.place addr t)) {s j : Nat} {e0 : Pte}
    (hj : j < pgSize) (hlt : s * pgSize + j < length.toNat)
    (hplace : t * pgSize = offset + (s * pgSize + j))
    (he0 : (k.procs p).pgdir.lookup (addr + s * pgSize) = some e0) :
    ∃ e, (k.procs p).pgdir.lookup (addr + t * pgSize) = some e ∧
      (K t).mem.phys e.pa = phys (e0.pa + j) := by
  have hlen := (List.getElem?_eq_some_iff.mp hx).1
  have hinside := hmap.inside
  rw [← h.reach_at hlen.le] at hreach
  obtain ⟨e, he⟩ := h.walk.exists_entry hx hreach
  have hput := (h.walk.puts hx).inside 0 hreach e (by rw [h.walk.lookup_page hx, he])
  simp only [Visit.place, if_neg ht, Nat.add_zero] at hput
  have hlater := h.data_later (y := t * pgSize) (show t + 1 ≤ visits.length by omega)
    (Nat.le_refl _) fun u z hu _ _ hcovers => by
      rw [Visit.Covers, Visit.place, if_neg (by omega)] at hcovers
      simp only [pgSize] at hcovers
      omega
  have hbyte : bytes.getD (s * pgSize + j) 0 = phys (e0.pa + j) :=
    (hmap.withContents phys data).bytes_getD h.load hj hlt he0
  rw [h.data _ (by omega), if_pos (by omega),
    show t * pgSize - offset = s * pgSize + j by omega, hbyte] at hlater
  exact ⟨e, he, hput.symm.trans hlater.symm⟩

/-- Behind the first page, only a mapping from the start of the file is written to the right
place, and from frames that no earlier page gives back. -/
theorem Outcomes.chain_reach (hall : Outcomes k p i addr length offset visits)
    (hmap : SharedMapping k p i addr length offset) (hx : visits[t]? = some x) (ht : t ≠ 0)
    (hreach : 0 < k.reach i x (x.place addr t)) :
    offset = 0 ∧ ∀ s e e', s < t → (k.procs p).pgdir.lookup (addr + s * pgSize) = some e →
      (k.procs p).pgdir.lookup (addr + t * pgSize) = some e' → e.pa ≠ e'.pa := by
  have hcovers : x.Covers k i addr t (t * pgSize) := by
    rw [Visit.place, if_neg ht] at hreach
    rw [Visit.Covers, Visit.place, if_neg ht]
    omega
  obtain ⟨hlow, hhigh⟩ := (hall.covered_iff hmap.inside (t * pgSize)).mp ⟨t, x, hx, hcovers⟩
  -- The byte of the mapping that belongs there, and two memories that differ in it alone.
  obtain ⟨q, hq⟩ := Nat.exists_eq_add_of_le hlow
  have hsplit : q / pgSize * pgSize + q % pgSize = q := Nat.div_add_mod' q pgSize
  have hrest : q % pgSize < pgSize := Nat.mod_lt _ (by decide)
  obtain ⟨e0, he0⟩ := Option.isSome_iff_exists.mp (hmap.range.present (q / pgSize) (by
    simp only [pageCount, pgSize] at hq hhigh ⊢
    omega))
  have hvalue : ∀ phys data K bytes, Outcome k p i addr length offset visits phys data K bytes →
      ∃ e, (k.procs p).pgdir.lookup (addr + t * pgSize) = some e ∧
        (K t).mem.phys e.pa = phys (e0.pa + q % pgSize) := fun _ _ _ _ ho =>
    ho.first_byte hmap hx ht hreach hrest (by omega) (by omega) he0
  obtain ⟨K, bytes, hzero⟩ := hall (fun _ => 0) (fun _ => 0)
  obtain ⟨K', bytes', hmark⟩ :=
    hall (fun a => if a = e0.pa + q % pgSize then 1 else 0) (fun _ => 0)
  obtain ⟨e, he, hread⟩ := hvalue _ _ _ _ hzero
  obtain ⟨e', he', hread'⟩ := hvalue _ _ _ _ hmark
  obtain rfl : e = e' := Option.some.inj (he.symm.trans he')
  have hlen := (List.getElem?_eq_some_iff.mp hx).1
  have hagree := (hzero.walk.agree hmark.walk rfl rfl hlen.le).2 e.pa
  rw [hread, hread', if_pos rfl] at hagree
  have hspecial : e.pa = e0.pa + q % pgSize := by
    by_contra hne
    have hsame := hagree (Or.inl (if_neg hne).symm)
    cases hsame
  have hkept : ¬Freed (k.procs p).pgdir addr t e.pa := by
    intro hfreed
    have hsame := hagree (Or.inr hfreed)
    cases hsame
  constructor
  · -- Otherwise the byte lies on a page that has had its turn.
    by_contra hne
    refine hkept ⟨q / pgSize, ?_, e0, he0, by omega, by omega⟩
    simp only [pgSize] at hq ⊢
    omega
  · intro s e1 e2 hs he1 he2 heq
    obtain rfl := Option.some.inj (he.symm.trans he2)
    refine hkept ⟨s, hs, e1, he1, heq.le, ?_⟩
    simp only [pgSize]
    omega

theorem Kernel.reach_le (k : Kernel) (i : Nat) (x : Visit) (o : Nat) :
    k.reach i x o ≤ x.part.toNat := by
  rw [Kernel.reach]
  split
  · exact putCount_le_size _ _
  · exact Nat.zero_le _

theorem Outcomes.reach_le (hall : Outcomes k p i addr length offset visits)
    (hx : visits[t]? = some x) : k.reach i x (x.place addr t) ≤ pgSize := by
  obtain ⟨K, bytes, hout⟩ := hall (fun _ => 0) (fun _ => 0)
  have hpart := (hout.walk.onPage hx).le
  have hreach := k.reach_le i x (x.place addr t)
  omega

/-- The first visit starts at the start of the range. -/
theorem Outcomes.first_place (hall : Outcomes k p i addr length offset visits)
    (hmap : SharedMapping k p i addr length offset) (hx : visits[0]? = some x) :
    x.place addr 0 = offset ∧ 0 < k.reach i x (x.place addr 0) := by
  have hcovered := hall.covered_iff hmap.inside
  have hlength := hmap.range.pos
  obtain ⟨s, z, hz, hlow, hhigh⟩ := (hcovered offset).mpr ⟨Nat.le_refl _, by omega⟩
  have hreach : 0 < k.reach i z (z.place addr s) := by omega
  have hback := (hcovered (z.place addr s)).mp ⟨s, z, hz, Nat.le_refl _, by omega⟩
  rcases Nat.eq_zero_or_pos s with rfl | hpos
  · obtain rfl := Option.some.inj (hx.symm.trans hz)
    exact ⟨by omega, hreach⟩
  · -- A visit behind the first page does not reach the start of the range.
    obtain ⟨hzero, -⟩ := hall.chain_reach hmap hz (by omega) hreach
    rw [Visit.place, if_neg (by omega)] at hlow
    simp only [pgSize] at hlow
    omega

theorem Outcomes.offset_eq_zero (hall : Outcomes k p i addr length offset visits)
    (hmap : SharedMapping k p i addr length offset) (hlong : pgSize < length.toNat) :
    offset = 0 := by
  obtain ⟨s, z, hz, hlow, hhigh⟩ :=
    (hall.covered_iff hmap.inside (offset + pgSize)).mpr ⟨by omega, by omega⟩
  have hbound := hall.reach_le hz
  rcases Nat.eq_zero_or_pos s with rfl | hpos
  · have hplace := (hall.first_place hmap hz).1
    omega
  · exact (hall.chain_reach hmap hz (by omega) (by omega)).1

/-- Every page of the mapping behind the first has a visit that reaches the file. -/
theorem Outcomes.page_reached (hall : Outcomes k p i addr length offset visits)
    (hmap : SharedMapping k p i addr length offset) (ht : t ≠ 0) (hlt : t < pageCount length) :
    ∃ x, visits[t]? = some x ∧ 0 < k.reach i x (x.place addr t) := by
  have hin : t * pgSize < length.toNat := by
    simp only [pageCount, pgSize] at hlt ⊢
    omega
  have hzero := hall.offset_eq_zero hmap (by simp only [pgSize] at hin ⊢; omega)
  obtain ⟨s, z, hz, hlow, hhigh⟩ :=
    (hall.covered_iff hmap.inside (t * pgSize)).mpr ⟨by omega, by omega⟩
  have hbound := hall.reach_le hz
  rcases Nat.eq_zero_or_pos s with rfl | hpos
  · have hplace := (hall.first_place hmap hz).1
    simp only [pgSize] at hhigh hbound
    omega
  · have hplace : z.place addr s = s * pgSize := by rw [Visit.place, if_neg (by omega)]
    obtain rfl : s = t := by
      simp only [pgSize] at hplace hlow hhigh hbound
      omega
    exact ⟨z, hz, by omega⟩

theorem Outcomes.reach_iff (hall : Outcomes k p i addr length offset visits)
    (hmap : SharedMapping k p i addr length offset) (hx : visits[t]? = some x) :
    0 < k.reach i x (x.place addr t) ↔ t < pageCount length := by
  rcases Nat.eq_zero_or_pos t with rfl | hpos
  · exact iff_of_true (hall.first_place hmap hx).2 (pageCount_pos hmap.range.pos)
  · constructor
    · intro hreach
      obtain ⟨hzero, -⟩ := hall.chain_reach hmap hx (by omega) hreach
      have hin := (hall.covered_iff hmap.inside (x.place addr t)).mp
        ⟨t, x, hx, Nat.le_refl _, by omega⟩
      rw [Visit.place, if_neg (by omega)] at hin
      simp only [pageCount, pgSize] at hin ⊢
      omega
    · intro hlt
      obtain ⟨z, hz, hreach⟩ := hall.page_reached hmap (by omega) hlt
      obtain rfl := Option.some.inj (hx.symm.trans hz)
      exact hreach

/-- A mapping that is always written back is flushed by the visits. -/
theorem AlwaysWritesBack.flushReady (h : AlwaysWritesBack k p i addr length offset)
    (hmap : SharedMapping k p i addr length offset) (hd : PinnedHalf (k.procs p).pgdir) :
    FlushReady k p i addr length offset := by
  obtain ⟨visits, hsome, hready, hne, hall⟩ := h.outcomes hmap hd
  have hpages := pageCount_pos hmap.range.pos
  refine ⟨visits, hsome, hready, ?_, fun t x hx => hall.reach_iff hmap hx,
    fun x hx => (hall.first_place hmap hx).1, ?_, fun s t e e' hst ht he he' => ?_⟩
  · rcases Nat.lt_or_ge 1 (pageCount length) with hmany | hone
    · obtain ⟨x, hx, -⟩ := hall.page_reached hmap
        (show pageCount length - 1 ≠ 0 by omega) (by omega)
      have hlen := (List.getElem?_eq_some_iff.mp hx).1
      omega
    · have hlen := List.length_pos_iff.mpr hne
      omega
  · rcases Nat.lt_or_ge pgSize length.toNat with hlong | hshort
    · exact Or.inl (hall.offset_eq_zero hmap hlong)
    · right
      simp only [pageCount, pgSize] at hpages hshort ⊢
      omega
  · obtain ⟨x, hx, hreach⟩ := hall.page_reached hmap (by omega) ht
    exact (hall.chain_reach hmap hx (by omega) hreach).2 s e e' hst he he'

/-- A mapping of more than a page is flushed only through a record that grows. -/
theorem FlushReady.grows (h : FlushReady k p i addr length offset)
    (hlong : pgSize < length.toNat) : ∃ j, munmapSlot (k.procs p).vmas addr = some j ∧
      has ((k.procs p).vmas j).flags mapGrowsup = true := by
  obtain ⟨visits, hvisits, hflush⟩ := h
  have hpages := hflush.pages
  simp only [pageCount, pgSize] at hpages hlong
  rw [munmapVisits] at hvisits
  split at hvisits
  case h_1 => cases hvisits
  case h_2 j hslot =>
    refine ⟨j, hslot, ?_⟩
    by_contra hfixed
    rw [Bool.not_eq_true] at hfixed
    dsimp only at hvisits
    rw [hfixed, Bool.false_and, Bool.false_and, if_neg Bool.false_ne_true] at hvisits
    obtain rfl := Option.some.inj hvisits
    rw [firstVisit] at hpages
    split at hpages <;> simp at hpages <;> omega

end Outcomes

/-! ## Reachable states -/

/-- A call of `mmap`, anywhere after boot, maps a file shared. However the acts go on from there,
and however many pages the mapping grows by, `munmap` of it writes it back to that file, whatever
memory and file hold, exactly when nothing stands in the way of its visits, every page of the
mapping has a visit that reaches the file at the place of the page and from a frame that is
still there, and no other visit reaches the file. -/
theorem always_writes_back_iff {mem : Mem} {inodes : Nat → Inode} {blocks : Nat}
    {devsw : Nat → Option Devsw} {init : List UInt8} {k0 k1 k : Kernel}
    {before later : List (Fin nProc × Act)} {p : Fin nProc} {a : MmapArgs} {i addr grown : Nat}
    (hboot : (Kernel.zero mem inodes blocks devsw).userinit init = .ok k0)
    (hbefore : Run ActStep k0 before k1) (hmap : MapsShared k1 p a i addr)
    (hlater : Run ActStep k1 ((p, .call (.mmap a)) :: later) k) (hp : k.Runs p)
    (hrange : RangeMapped k p addr (a.length + grown * pgSize))
    (hinside : a.offset.toNat + (a.length + grown * pgSize).toNat ≤ (k.inodes i).size) :
    AlwaysWritesBack k p i addr (a.length + grown * pgSize) a.offset.toNat ↔
      FlushReady k p i addr (a.length + grown * pgSize) a.offset.toNat := by
  have hd : PinnedHalf (k.procs p).pgdir :=
    halved_of_run hboot (hbefore.append hlater) p hp.not_dead
  have hshared := SharedMapping.of_run hmap hlater hrange hinside
  constructor
  · intro h
    exact h.flushReady hshared hd
  · intro h phys data
    exact (h.withContents phys data).writesBack (hshared.withContents phys data) hd

/-! ## Two runs -/

/-- `MapsShared`, as a test. -/
def mapsSharedCheck (k : Kernel) (p : Fin nProc) (a : MmapArgs) (f : Fin nFile) (i addr : Nat) :
    Bool :=
  (okWith (k.mmap p a) fun x => decide (x.2 = addr)) &&
    (okWith (k.ofileAt p a.fd) fun g => decide (g = some f)) &&
    decide (has a.flags mapShared = true ∧ has a.flags mapAnonymous = false ∧ 0 ≤ a.offset ∧
      (k.ftable f).type = .inode ∧ (k.ftable f).writable = true ∧ (k.ftable f).ip = i ∧
      (k.inodes i).type ≠ .dev ∧ (k.inodes i).size ≤ maxFile * bSize)

theorem mapsShared_of_check {k : Kernel} {p : Fin nProc} {a : MmapArgs} {f : Fin nFile}
    {i addr : Nat} (h : mapsSharedCheck k p a f i addr = true) : MapsShared k p a i addr := by
  simp only [mapsSharedCheck, Bool.and_eq_true, decide_eq_true_eq] at h
  obtain ⟨⟨hmmap, hfile⟩, hshared, hanon, hoffset, htype, hwritable, hip, hregular, hsize⟩ := h
  obtain ⟨⟨k', r⟩, hcall, hr⟩ := exists_ok hmmap
  obtain ⟨g, hg, hsame⟩ := exists_ok hfile
  obtain rfl : r = addr := of_decide_eq_true hr
  obtain rfl : g = some f := of_decide_eq_true hsame
  exact ⟨⟨k', hcall⟩, hshared, hanon, hoffset, ⟨f, hg, htype, hwritable, hip⟩, hregular, hsize⟩

/-- `RangeMapped`, as a test. -/
def rangeMappedCheck (k : Kernel) (p : Fin nProc) (addr : Nat) (length : Int) : Bool :=
  decide (0 < length ∧ length < 2 ^ 31 ∧ addr % pgSize = 0 ∧
      addr + pageCount length * pgSize ≤ vmaEnd) &&
    (List.range (pageCount length)).all fun t => (k.procs p).pgdir.present (addr + t * pgSize)

theorem rangeMapped_of_check {k : Kernel} {p : Fin nProc} {addr : Nat} {length : Int}
    (h : rangeMappedCheck k p addr length = true) : RangeMapped k p addr length := by
  simp only [rangeMappedCheck, Bool.and_eq_true, decide_eq_true_eq, List.all_eq_true,
    List.mem_range] at h
  obtain ⟨⟨hpos, hword, halign, hstop⟩, hpresent⟩ := h
  exact ⟨hpos, hword, halign, hstop, hpresent⟩

/-- A machine on which every file has two pages of zeros. -/
def zeroFiles : Result Kernel :=
  (Kernel.zero (freeMem 150) (fun _ => ⟨.file, 0, 8192, fun _ => 0⟩) 500 fun _ => none).userinit []

/-- A shared mapping of both pages of the file behind descriptor 0. -/
def twoFilePages : MmapArgs := { filePage with length := 8192 }

/-- A shared mapping of the first page of a file is always written back, as long as the entry of
the file table is kept. -/
theorem always_writes_back_iff_run : ∃ k0 k1 k, zeroFiles = .ok k0 ∧
    Run ActStep k0 [(0, .call (.sysOpen (some 0) 2))] k1 ∧ MapsShared k1 0 filePage 0 0x60000000 ∧
    Run ActStep k1 [(0, .call (.mmap filePage)), (0, .call (.sysOpen (some 1) 2))] k ∧
    AlwaysWritesBack k 0 0 0x60000000 4096 0 := by
  obtain ⟨k0, hboot, hcalls⟩ := @exists_ok _ zeroFiles (fun k0 =>
    (runCalls k0 [(0, .sysOpen (some 0) 2)]).any fun k1 : Kernel =>
      mapsSharedCheck k1 0 filePage firstFile 0 0x60000000 &&
      (runCalls k1 [(0, .mmap filePage), (0, .sysOpen (some 1) 2)]).any fun k : Kernel =>
        decide (k.Runs 0) && rangeMappedCheck k 0 0x60000000 4096 &&
        decide (4096 ≤ (k.inodes 0).size) &&
        decide (munmapSlot (k.procs 0).vmas 0x60000000 = some 0) &&
        decide (((k.procs 0).vmas 0).addr = 0x60000000) &&
        decide (((k.procs 0).vmas 0).flags = mapShared) &&
        decide (((k.procs 0).vmas 0).pf = some firstFile) &&
        decide ((k.ftable firstFile).type = .inode) &&
        decide ((k.ftable firstFile).writable = true) &&
        decide ((k.ftable firstFile).ip = 0) &&
        decide (grownBlocks 0 4096 (k.fileSize 0) ≤ k.freeBlocks) &&
        ((k.procs 0).pgdir.lookup 0x60000000).any fun e : Pte =>
          decide (e.pa ≠ 0) && decide (k.mem.Freeable e.pa)) (by decide +kernel)
  obtain ⟨k1, hk1, hcheck⟩ := (Option.any_eq_true _ _).mp hcalls
  obtain ⟨hmap, hcalls⟩ := Bool.and_eq_true_iff.mp hcheck
  obtain ⟨k, hk, hcheck⟩ := (Option.any_eq_true _ _).mp hcalls
  simp only [Bool.and_eq_true, decide_eq_true_eq] at hcheck
  obtain ⟨⟨⟨⟨⟨⟨⟨⟨⟨⟨⟨hp, hrange⟩, hinside⟩, hslot⟩, haddr⟩, hflags⟩, hpf⟩, htype⟩, hwritable⟩, hip⟩,
    hblocks⟩, hpage⟩ := hcheck
  have hmapped := mapsShared_of_check hmap
  have hbefore := run_acts (run_of_runCalls hk1)
  have hlater := run_acts (run_of_runCalls hk)
  refine ⟨k0, k1, k, hboot, hbefore, hmapped, hlater,
    (@always_writes_back_iff _ _ _ _ _ k0 k1 k _ _ 0 filePage 0 0x60000000 0 hboot hbefore hmapped
      hlater hp (rangeMapped_of_check hrange) hinside).mpr ?_⟩
  obtain ⟨e, he, hpage⟩ := (Option.any_eq_true _ _).mp hpage
  simp only [Bool.and_eq_true, decide_eq_true_eq] at hpage
  obtain ⟨hvisits, hready⟩ :=
    filePage_ready hslot haddr hflags hpf htype (by rw [hip]; exact hblocks) he hpage
  obtain ⟨t, ht⟩ := Pgdir.exists_table_of_lookup he
  rw [firstPlace, ht] at hready
  have hcount : pageCount 4096 = 1 := by decide
  have hput : putCount 0 4096 = 4096 := by decide
  have hplace : Visit.place ⟨(k.procs 0).vmas 0, 0x60000000, 4096, true⟩ 0x60000000 0 = 0 := by
    rw [Visit.place, if_pos rfl]
    dsimp only
    rw [haddr]
  refine ⟨_, hvisits, hready, hcount.le, fun t x hx => ?_, fun x hx => ?_, Or.inl rfl,
    fun s t _ _ hst ht => absurd ht (by
      have hone : t < 1 := hcount ▸ ht
      omega)⟩
  · obtain ⟨ht, rfl⟩ := List.getElem?_eq_some_iff.mp hx
    obtain rfl : t = 0 := Nat.lt_one_iff.mp ht
    have hone : 0 < pageCount 4096 := hcount.ge
    rw [List.getElem_cons_zero, hplace, Kernel.reach, if_pos]
    · exact iff_of_true (hput.symm ▸ Nat.zero_lt_succ 4095) hone
    · refine ⟨?_, Nat.zero_le _⟩
      rw [Visit.target, if_pos rfl]
      dsimp only
      rw [hpf, Option.bind_some, if_pos hwritable, hip]
  · obtain rfl := Option.some.inj hx
    exact hplace

/-- Without growth the second page of a mapping never gets into its file. -/
theorem second_page_lost : ¬∀ mem inodes blocks devsw init k0 before k1 p a i addr later k,
    (Kernel.zero mem inodes blocks devsw).userinit init = .ok k0 → Run ActStep k0 before k1 →
    MapsShared k1 p a i addr → Run ActStep k1 ((p, .call (.mmap a)) :: later) k → k.Runs p →
    RangeMapped k p addr a.length →
    a.offset.toNat + a.length.toNat ≤ (k.inodes i).size →
    AlwaysWritesBack k p i addr a.length a.offset.toNat := by
  intro hall
  obtain ⟨k0, hboot, hcalls⟩ := @exists_ok _ zeroFiles (fun k0 =>
    (runCalls k0 [(0, .sysOpen (some 0) 2)]).any fun k1 : Kernel =>
      mapsSharedCheck k1 0 twoFilePages firstFile 0 0x60000000 &&
      (runCalls k1 [(0, .mmap twoFilePages)]).any fun k : Kernel =>
        decide (k.Runs 0) && rangeMappedCheck k 0 0x60000000 8192 &&
        decide (8192 ≤ (k.inodes 0).size) &&
        okWith ((k.withContents (fun _ => 1) 0 fun _ => 0).munmap 0 0x60000000 8192) fun x =>
          (x.1.inodes 0).data 4096 == 0) (by decide +kernel)
  obtain ⟨k1, hk1, hcheck⟩ := (Option.any_eq_true _ _).mp hcalls
  obtain ⟨hmap, hcalls⟩ := Bool.and_eq_true_iff.mp hcheck
  obtain ⟨k, hk, hcheck⟩ := (Option.any_eq_true _ _).mp hcalls
  simp only [Bool.and_eq_true, decide_eq_true_eq] at hcheck
  obtain ⟨⟨⟨hp, hrange⟩, hinside⟩, hcall⟩ := hcheck
  have hmapped := mapsShared_of_check hmap
  have hmapping := rangeMapped_of_check hrange
  have hlater := run_acts (run_of_runCalls hk)
  -- The process has filled its memory with ones, and the file holds zeros.
  have hback := hall _ _ _ _ _ k0 _ k1 0 _ 0 0x60000000 _ k hboot
    (run_acts (run_of_runCalls hk1)) hmapped hlater hp hmapping hinside (fun _ => 1) (fun _ => 0)
  have hshared := (SharedMapping.of_run hmapped hlater hmapping hinside).withContents
    (fun _ => 1) (fun _ => 0)
  obtain ⟨k', bytes, hreturn, hload, -, hdata⟩ := hback.file_eq hshared
  obtain ⟨e, he⟩ := Option.isSome_iff_exists.mp (hmapping.present 1 (by decide))
  have hone := hshared.bytes_getD hload (t := 1) (j := 0) (by decide) (by decide) he
  have hbyte := hdata 4096 (Nat.lt_of_lt_of_le (by decide) hshared.inside)
  rw [if_pos (by decide)] at hbyte
  have hreturned : (k.withContents (fun _ => 1) 0 fun _ => 0).munmap 0 0x60000000 8192 =
      .ok (k', 0) := hreturn
  rw [hreturned, okWith, beq_iff_eq, hbyte] at hcall
  have hzero : bytes.getD (1 * pgSize + 0) 0 = 0 := hcall
  rw [hzero] at hone
  cases hone

end OSProjects.Xv6
