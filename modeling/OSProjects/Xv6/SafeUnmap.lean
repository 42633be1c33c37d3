import OSProjects.Xv6.Acts
import OSProjects.Xv6.Clearing
import OSProjects.Xv6.WriteBack

/-!
# Which calls of `munmap` are safe

`munmap` trusts the records. It visits the page it is asked for and the records behind it one
after the other, hands the page to `filewriteoff` and gives its frame back. It comes to its
end exactly when for every visit the file is open and the pages are there, and the disk has the
blocks that the files take.
-/

namespace OSProjects.Xv6

open StepSystem

/-! ## What the call hands over -/

/-- `sys_munmap`, with the arguments that `argint` delivers. -/
def Kernel.sysMunmap (k : Kernel) (p : Fin nProc) (addr length : Int) : Result (Kernel × Int) :=
  k.munmap p (ofInt addr) length

/-- A range given to `filewriteoff`, with the kernel at that moment. -/
structure Handed where
  kernel : Kernel
  data : Nat
  size : Int

/-- Every byte of the range lies on a page that is present. -/
def Pgdir.HasBytes (d : Pgdir) (data : Nat) (size : Int) : Prop :=
  ∀ i, i < size.toNat → d.present (uint (data + i)) = true

/-- What `munmapFirst` hands over. -/
def Kernel.firstHanded (k : Kernel) (p : Fin nProc) (v : Vma) (addr : Nat) (length : Int) :
    List Handed :=
  match (k.procs p).pgdir.table (pdx addr) with
  | none => []
  | some _ =>
      if !has v.flags mapAnonymous && !has v.flags mapPrivate then
        [⟨k, addr, pagePart length⟩]
      else []

/-- What `munmapLoop` hands over. -/
def Kernel.loopHanded (p : Fin nProc) :
    Nat → Fin nVma → Nat → Int → Int → Kernel → List Handed
  | 0, _, _, _, _, _ => []
  | fuel + 1, j, addr, length, off, k =>
      if ((k.procs p).vmas j).next ≠ 0 ∧ length > 0 then
        let j := ((k.procs p).vmas j).next
        let addr := uint (addr + pgSize)
        let v := (k.procs p).vmas j
        (if !has v.flags mapAnonymous then [⟨k, addr, pagePart length⟩] else []) ++
          match k.munmapPage p v addr length off with
          | .error _ => []
          | .ok k => loopHanded p fuel j addr (restPart length) (off + pgSize) k
      else []

/-- What `munmap` hands over. -/
def Kernel.munmapHanded (k : Kernel) (p : Fin nProc) (addr : Nat) (length : Int) :
    List Handed :=
  match munmapSlot (k.procs p).vmas addr with
  | none => []
  | some j =>
      let v := (k.procs p).vmas j
      k.firstHanded p v addr length ++
        match k.munmapFirst p v addr length with
        | .error _ => []
        | .ok (k, length) =>
            if has v.flags mapGrowsup && !has v.flags mapAnonymous && !has v.flags mapPrivate then
              k.loopHanded p (nVma + 1) j addr length pgSize
            else []

/-- The call returns, hands over pages that are present only, and without a record for the
address it returns -1 and changes nothing. -/
structure MunmapSafe (k : Kernel) (p : Fin nProc) (addr length : Int) : Prop where
  returns : ∃ k' r, k.sysMunmap p addr length = .ok (k', r)
  handed : ∀ x ∈ k.munmapHanded p (ofInt addr) length,
    (x.kernel.procs p).pgdir.HasBytes x.data x.size
  unmapped : munmapSlot (k.procs p).vmas (ofInt addr) = none →
    ∃ k', k.sysMunmap p addr length = .ok (k', -1) ∧
      (k'.procs p).pgdir = (k.procs p).pgdir ∧ (k'.procs p).vmas = (k.procs p).vmas ∧
      k'.inodes = k.inodes ∧ k'.ftable = k.ftable

/-! ## The visits of a call -/

/-- A page that the call comes to: the record it consults, the address, how much of the page
the length covers, and whether the page goes to `filewriteoff`. -/
structure Visit where
  record : Vma
  addr : Nat
  part : Int
  written : Bool

/-- The visits of the loop, unless it has no end. -/
def chainVisits (vmas : Fin nVma → Vma) : Nat → Fin nVma → Nat → Int → Option (List Visit)
  | 0, _, _, _ => none
  | fuel + 1, j, addr, length =>
      if (vmas j).next ≠ 0 ∧ length > 0 then
        let j := (vmas j).next
        let addr := uint (addr + pgSize)
        (chainVisits vmas fuel j addr (restPart length)).map
          (⟨vmas j, addr, pagePart length, !has (vmas j).flags mapAnonymous⟩ :: ·)
      else some []

/-- The visit of the first page, and the length that is left. -/
def firstVisit (d : Pgdir) (v : Vma) (addr : Nat) (length : Int) : List Visit × Int :=
  match d.table (pdx addr) with
  | none => ([], length)
  | some _ =>
      ([⟨v, addr, pagePart length, !has v.flags mapAnonymous && !has v.flags mapPrivate⟩],
        restPart length)

/-- The visits of `munmap`, if it finds a record and comes to an end. -/
def munmapVisits (x : Proc) (addr : Nat) (length : Int) : Option (List Visit) :=
  match munmapSlot x.vmas addr with
  | none => none
  | some j =>
      let v := x.vmas j
      let first := firstVisit x.pgdir v addr length
      if has v.flags mapGrowsup && !has v.flags mapAnonymous && !has v.flags mapPrivate then
        (chainVisits x.vmas (nVma + 1) j addr first.2).map (first.1 ++ ·)
      else some first.1

/-- The visit gives the page of `b` to `deallocuvm`. -/
def Visit.Clears (x : Visit) (b : Nat) : Prop := InRange x.addr (ofInt (x.addr + x.part)) b

/-- Where in its file the visit in place `t` of the call writes. -/
def Visit.place (x : Visit) (addr t : Nat) : Nat :=
  if t = 0 then addr - x.record.addr else t * pgSize

/-- The inode that the visit writes to. -/
def Visit.target (x : Visit) (ftable : Fin nFile → File) : Option Nat :=
  if x.written then
    x.record.pf.bind fun f => if (ftable f).writable then some (ftable f).ip else none
  else none

/-- The sizes of the files behind the visit. -/
def Visit.sizes (x : Visit) (ftable : Fin nFile → File) (offset : Nat)
    (size : Nat → Option Nat) : Nat → Option Nat :=
  match x.target ftable with
  | none => size
  | some i => Function.update size i ((size i).map (grownSize offset x.part.toNat))

/-- The blocks that the visit takes. -/
def Visit.blocks (x : Visit) (ftable : Fin nFile → File) (offset : Nat)
    (size : Nat → Option Nat) : Nat :=
  match x.target ftable with
  | none => 0
  | some i => grownBlocks offset x.part.toNat (size i)

/-- The blocks that the visits take, the first of them in place `t`. -/
def visitsBlocks (ftable : Fin nFile → File) (addr : Nat) :
    Nat → List Visit → (Nat → Option Nat) → Nat
  | _, [], _ => 0
  | t, x :: rest, size =>
      x.blocks ftable (x.place addr t) size +
        visitsBlocks ftable addr (t + 1) rest (x.sizes ftable (x.place addr t) size)

/-- The place of the first visit. A page without a page table is passed over. -/
def firstPlace (d : Pgdir) (addr : Nat) : Nat :=
  match d.table (pdx addr) with
  | none => 1
  | some _ => 0

/-- Nothing stands in the way of the visit. -/
structure Visit.Ready (k : Kernel) (p : Fin nProc) (x : Visit) : Prop where
  /-- The file of the record is not writable or still open on an inode. -/
  file : x.written = true → ∃ f, x.record.pf = some f ∧
    ((k.ftable f).writable = false ∨ (k.ftable f).type = .inode)
  present : x.written = true → (k.procs p).pgdir.HasBytes x.addr x.part
  frames : ∀ b e, b < 2 ^ 32 → x.Clears b → (k.procs p).pgdir.lookup b = some e →
    k.mem.Takes e

/-- The first visit leaves the bytes that the second hands over. -/
def Visit.Apart (x y : Visit) : Prop :=
  y.written = true → ∀ i, i < y.part.toNat → ¬x.Clears (uint (y.addr + i))

/-- Nothing stands in the way of any visit, the first of them in place `t`. -/
structure VisitsReady (k : Kernel) (p : Fin nProc) (addr t : Nat) (visits : List Visit) :
    Prop where
  ready : ∀ x ∈ visits, x.Ready k p
  apart : visits.Pairwise Visit.Apart
  blocks : visitsBlocks k.ftable addr t visits k.fileSize ≤ k.freeBlocks

/-- There is a record for the address, and nothing stands in the way of any visit. -/
def MunmapReady (k : Kernel) (p : Fin nProc) (addr length : Int) : Prop :=
  ∃ visits, munmapVisits (k.procs p) (ofInt addr) length = some visits ∧
    VisitsReady k p (ofInt addr) (firstPlace (k.procs p).pgdir (ofInt addr)) visits

/-! ## Handing a page over -/

section Files

variable {k k' : Kernel} {p : Fin nProc}

/-- With its bytes at hand, `filewriteoff` panics about the type of the file and for want of
blocks only. -/
theorem filewriteoff_returns_iff {f : Fin nFile} {data offset : Nat} {size : Int}
    (h : (k.procs p).pgdir.HasBytes data size) (hword : offset < 2 ^ 32) :
    (∃ k' r, k.filewriteoff p f data size offset = .ok (k', r)) ↔
      (k.ftable f).writable = false ∨ ((k.ftable f).type = .inode ∧
        grownBlocks offset size.toNat (k.fileSize (k.ftable f).ip) ≤ k.freeBlocks) := by
  obtain ⟨bytes, hload⟩ := @loadBytes_of_present (k.space p) data size.toNat h
  obtain ⟨hloop, -⟩ :=
    @Kernel.writeoffLoop_blocks k p (k.ftable f).ip data size.toNat offset bytes hload hword
  rw [Kernel.filewriteoff, ← hloop]
  by_cases hwritable : (k.ftable f).writable = false
  case pos =>
    rw [if_pos hwritable]
    exact iff_of_true ⟨k, -1, rfl⟩ (Or.inl hwritable)
  case neg =>
    rw [if_neg hwritable]
    by_cases htype : (k.ftable f).type = .inode
    case pos =>
      rw [if_pos htype]
      constructor
      · rintro ⟨k', r, hcall⟩
        split at hcall
        case h_1 => cases hcall
        case h_2 k1 w hw => exact Or.inr ⟨htype, k1, w, hw⟩
      · rintro (h1 | ⟨-, k1, w, hw⟩)
        · exact absurd h1 hwritable
        · rw [hw]
          exact ⟨_, _, rfl⟩
    case neg =>
      rw [if_neg htype]
      refine iff_of_false ?_ ?_
      · rintro ⟨k', r, hcall⟩
        cases hcall
      · rintro (h1 | ⟨h1, -⟩)
        · exact hwritable h1
        · exact htype h1

/-- What `filewriteoff` makes of the sizes and the free blocks. -/
theorem filewriteoff_takes {f : Fin nFile} {data offset : Nat} {size r : Int}
    (h : (k.procs p).pgdir.HasBytes data size) (hword : offset < 2 ^ 32)
    (hcall : k.filewriteoff p f data size offset = .ok (k', r)) :
    if (k.ftable f).writable then
      k'.fileSize = Function.update k.fileSize (k.ftable f).ip
        ((k.fileSize (k.ftable f).ip).map (grownSize offset size.toNat)) ∧
      k'.freeBlocks =
        k.freeBlocks - grownBlocks offset size.toNat (k.fileSize (k.ftable f).ip)
    else k' = k := by
  obtain ⟨bytes, hload⟩ := @loadBytes_of_present (k.space p) data size.toNat h
  rw [Kernel.filewriteoff] at hcall
  cases hwritable : (k.ftable f).writable with
  | false =>
      rw [if_pos hwritable] at hcall
      exact (Prod.mk.inj (Except.ok.inj hcall)).1.symm
  | true =>
      rw [if_neg (by rw [hwritable]; exact Bool.noConfusion)] at hcall
      split at hcall
      case isFalse => cases hcall
      case isTrue =>
        split at hcall
        case h_1 => cases hcall
        case h_2 k1 w hloop =>
          obtain ⟨rfl, -⟩ := Prod.mk.inj (Except.ok.inj hcall)
          exact (Kernel.writeoffLoop_blocks hload hword).2 k1 w hloop

variable {x : Visit} {offset : Nat}

/-- A page is handed over exactly when its record leads to a file that can be written to or is
not writable, and there are blocks. -/
theorem written_returns_iff (hword : offset < 2 ^ 32)
    (h : x.written = true → (k.procs p).pgdir.HasBytes x.addr x.part) :
    (∃ k', (if x.written then k.writeBack p x.record x.addr x.part offset else .ok k) = .ok k') ↔
      (x.written = true → ∃ f, x.record.pf = some f ∧
        ((k.ftable f).writable = false ∨ (k.ftable f).type = .inode)) ∧
      x.blocks k.ftable offset k.fileSize ≤ k.freeBlocks := by
  rw [Visit.blocks, Visit.target]
  by_cases hwritten : x.written = true
  case neg =>
    rw [if_neg hwritten, if_neg hwritten]
    exact iff_of_true ⟨k, rfl⟩ ⟨fun hw => absurd hw hwritten, Nat.zero_le _⟩
  case pos =>
    rw [if_pos hwritten, if_pos hwritten, Kernel.writeBack]
    cases hpf : x.record.pf with
    | none =>
        refine iff_of_false ?_ ?_
        · rintro ⟨k', hcall⟩
          cases hcall
        · rintro ⟨hfile, -⟩
          obtain ⟨f, hf, -⟩ := hfile hwritten
          cases hf
    | some f =>
        have hfile := @filewriteoff_returns_iff k p f x.addr offset x.part (h hwritten) hword
        dsimp only
        refine Iff.trans
          (?_ : _ ↔ ∃ k' r, k.filewriteoff p f x.addr x.part offset = .ok (k', r)) ?_
        · cases k.filewriteoff p f x.addr x.part offset with
          | error e => simp
          | ok y => exact iff_of_true ⟨_, rfl⟩ ⟨_, _, rfl⟩
        rw [hfile, Option.bind_some]
        cases hwritable : (k.ftable f).writable with
        | false =>
            exact iff_of_true (Or.inl rfl) ⟨fun _ => ⟨f, rfl, Or.inl hwritable⟩, Nat.zero_le _⟩
        | true =>
            rw [if_pos rfl]
            constructor
            · rintro (hno | ⟨htype, hblocks⟩)
              · cases hno
              · exact ⟨fun _ => ⟨f, rfl, Or.inr htype⟩, hblocks⟩
            · rintro ⟨hopen, hblocks⟩
              obtain ⟨g, hg, hno | htype⟩ := hopen hwritten
              · obtain rfl := Option.some.inj hg
                rw [hwritable] at hno
                cases hno
              · obtain rfl := Option.some.inj hg
                exact Or.inr ⟨htype, hblocks⟩

theorem written_takes (hword : offset < 2 ^ 32)
    (h : x.written = true → (k.procs p).pgdir.HasBytes x.addr x.part)
    (hcall : (if x.written then k.writeBack p x.record x.addr x.part offset else .ok k) = .ok k') :
    k'.fileSize = x.sizes k.ftable offset k.fileSize ∧
      k'.freeBlocks = k.freeBlocks - x.blocks k.ftable offset k.fileSize := by
  rw [Visit.sizes, Visit.blocks, Visit.target]
  by_cases hwritten : x.written = true
  case neg =>
    rw [if_neg hwritten] at hcall ⊢
    obtain rfl := Except.ok.inj hcall
    exact ⟨rfl, rfl⟩
  case pos =>
    rw [if_pos hwritten] at hcall ⊢
    rw [Kernel.writeBack] at hcall
    cases hpf : x.record.pf with
    | none =>
        rw [hpf] at hcall
        cases hcall
    | some f =>
        rw [hpf] at hcall
        dsimp only at hcall
        split at hcall
        case h_1 => cases hcall
        case h_2 k1 r hw =>
          obtain rfl := Except.ok.inj hcall
          have htakes := filewriteoff_takes (h hwritten) hword hw
          rw [Option.bind_some]
          cases hwritable : (k.ftable f).writable with
          | false =>
              rw [hwritable, if_neg Bool.false_ne_true] at htakes
              rw [htakes]
              exact ⟨rfl, rfl⟩
          | true =>
              rw [hwritable, if_pos rfl] at htakes
              exact htakes

end Files

/-! ## One visit -/

/-- A visit: hand the page over if its record asks for it, and give its frame back. -/
def Kernel.visit (k : Kernel) (p : Fin nProc) (x : Visit) (off : Int) : Result Kernel :=
  match (if x.written then k.writeBack p x.record x.addr x.part off else .ok k) with
  | .error h => .error h
  | .ok k => k.dealloc p (ofInt (x.addr + x.part)) x.addr

/-- What a visit that writes at the offset leaves behind. -/
structure Visited (k : Kernel) (p : Fin nProc) (x : Visit) (offset : Nat) (k' : Kernel) :
    Prop where
  vmas : (k'.procs p).vmas = (k.procs p).vmas
  ftable : k'.ftable = k.ftable
  imageEnd : k'.mem.imageEnd = k.mem.imageEnd
  half : PinnedHalf (k'.procs p).pgdir
  absent : ∀ b, b < 2 ^ 32 → x.Clears b → (k'.procs p).pgdir.lookup b = none
  other : ∀ b, b < 2 ^ 32 → ¬x.Clears b →
    (k'.procs p).pgdir.lookup b = (k.procs p).pgdir.lookup b
  sizes : k'.fileSize = x.sizes k.ftable offset k.fileSize
  blocks : k'.freeBlocks = k.freeBlocks - x.blocks k.ftable offset k.fileSize

section Visits

variable {k k' : Kernel} {p : Fin nProc} {x y : Visit} {visits : List Visit}
  {addr offset t : Nat}

theorem ofInt_lt (z : Int) : ofInt z < 2 ^ 32 := by
  rw [ofInt]
  omega

theorem uint_lt (n : Nat) : uint n < 2 ^ 32 := Nat.mod_lt _ (by decide)

theorem Visited.of_visit (hd : PinnedHalf (k.procs p).pgdir) (hword : offset < 2 ^ 32)
    (hpresent : x.written = true → (k.procs p).pgdir.HasBytes x.addr x.part)
    (h : k.visit p x offset = .ok k') : Visited k p x offset k' := by
  rw [Kernel.visit] at h
  split at h
  case h_1 => cases h
  case h_2 k1 hw =>
    obtain ⟨hsizes, hblocks⟩ := written_takes hword hpresent hw
    obtain ⟨inodes, blocks, rfl⟩ := FilesOnly.of_written hw
    rw [Kernel.dealloc] at h
    split at h
    case h_1 => cases h
    case h_2 s hclear =>
      cases h
      constructor
      case vmas => simp
      case ftable => rfl
      case imageEnd =>
        have hend := Space.dealloc_imageEnd hclear
        exact hend
      case half =>
        have hhalf := (Space.dealloc_keepsPinned hclear).pinnedHalf hd
        simpa using hhalf
      case absent =>
        intro b hb hin
        have hgone := (Space.dealloc_clears hclear hb hin).2
        simpa using hgone
      case other =>
        intro b hb hout
        have hsame := Space.dealloc_outside hd (ofInt_lt _) hclear hb hout
        rw [Kernel.procs_setSpace, Function.update_self]
        exact hsame
      case sizes => exact hsizes
      case blocks => exact hblocks

/-- A visit that hands over present pages only returns exactly when it is ready and has its
blocks. -/
theorem visit_returns_iff (hd : PinnedHalf (k.procs p).pgdir) (hword : offset < 2 ^ 32) :
    ((∃ k', k.visit p x offset = .ok k') ∧
        (x.written = true → (k.procs p).pgdir.HasBytes x.addr x.part)) ↔
      x.Ready k p ∧ x.blocks k.ftable offset k.fileSize ≤ k.freeBlocks := by
  have hclear : ∀ (inodes : Nat → Inode) (blocks : Nat),
      (∃ k', Kernel.dealloc { k with inodes := inodes, freeBlocks := blocks } p
        (ofInt (x.addr + x.part)) x.addr = .ok k') ↔
        ∀ b e, b < 2 ^ 32 → x.Clears b → (k.procs p).pgdir.lookup b = some e →
          k.mem.Takes e := by
    intro inodes blocks
    have hreturns := @Space.dealloc_returns_iff (k.space p) (ofInt (x.addr + x.part)) x.addr hd
      (ofInt_lt _)
    have hspace : Kernel.space { k with inodes := inodes, freeBlocks := blocks } p = k.space p :=
      rfl
    refine Iff.trans ?_ hreturns
    rw [Kernel.dealloc, hspace]
    constructor
    · rintro ⟨k', h⟩
      split at h
      case h_1 => cases h
      case h_2 s hs => exact ⟨s, hs⟩
    · rintro ⟨s, hs⟩
      rw [hs]
      exact ⟨_, rfl⟩
  rw [Kernel.visit]
  constructor
  · rintro ⟨⟨k', hcall⟩, hpresent⟩
    split at hcall
    case h_1 => cases hcall
    case h_2 k1 hw =>
      obtain ⟨hfile, hblocks⟩ := (written_returns_iff hword hpresent).mp ⟨k1, hw⟩
      obtain ⟨inodes, blocks, rfl⟩ := FilesOnly.of_written hw
      exact ⟨⟨hfile, hpresent, (hclear inodes blocks).mp ⟨k', hcall⟩⟩, hblocks⟩
  · rintro ⟨hready, hblocks⟩
    obtain ⟨k1, hw⟩ := (written_returns_iff hword hready.present).mpr ⟨hready.file, hblocks⟩
    rw [hw]
    obtain ⟨inodes, blocks, rfl⟩ := FilesOnly.of_written hw
    exact ⟨(hclear inodes blocks).mpr hready.frames, hready.present⟩

/-- What a visit takes away matters to the later ones only where it clears their bytes. -/
theorem Visited.ready_iff (h : Visited k p x offset k') (hx : x.Ready k p) :
    y.Ready k' p ↔ y.Ready k p ∧ x.Apart y := by
  constructor
  · intro hy
    refine ⟨⟨fun hw => ?_, fun hw i hi => ?_, fun b e hb hin he => ?_⟩, fun hw i hi hin => ?_⟩
    · rw [← h.ftable]
      exact hy.file hw
    · have hthere := hy.present hw i hi
      by_cases hin : x.Clears (uint (y.addr + i))
      · rw [Pgdir.present, h.absent _ (uint_lt _) hin] at hthere
        cases hthere
      · rwa [Pgdir.present, ← h.other _ (uint_lt _) hin]
    · by_cases hin' : x.Clears b
      · exact hx.frames b e hb hin' he
      · rw [← h.other b hb hin'] at he
        exact (hy.frames b e hb hin he).congr h.imageEnd.symm
    · have hthere := hy.present hw i hi
      rw [Pgdir.present, h.absent _ (uint_lt _) hin] at hthere
      cases hthere
  · rintro ⟨hy, hapart⟩
    refine ⟨fun hw => ?_, fun hw i hi => ?_, fun b e hb hin he => ?_⟩
    · rw [h.ftable]
      exact hy.file hw
    · rw [Pgdir.present, h.other _ (uint_lt _) (hapart hw i hi)]
      exact hy.present hw i hi
    · by_cases hin' : x.Clears b
      · rw [h.absent b hb hin'] at he
        cases he
      · rw [h.other b hb hin'] at he
        exact (hy.frames b e hb hin he).congr h.imageEnd

/-- The visits behind the first one. -/
theorem Visited.visitsReady_iff (h : Visited k p x (x.place addr t) k') (hx : x.Ready k p)
    (hblocks : x.blocks k.ftable (x.place addr t) k.fileSize ≤ k.freeBlocks) :
    VisitsReady k' p addr (t + 1) visits ↔ VisitsReady k p addr t (x :: visits) := by
  have hcount : visitsBlocks k'.ftable addr (t + 1) visits k'.fileSize ≤ k'.freeBlocks ↔
      visitsBlocks k.ftable addr t (x :: visits) k.fileSize ≤ k.freeBlocks := by
    rw [visitsBlocks, h.ftable, h.sizes, h.blocks]
    omega
  constructor
  · intro hrest
    refine ⟨?_, List.pairwise_cons.mpr ⟨?_, hrest.apart⟩, hcount.mp hrest.blocks⟩
    · intro y hy
      rcases List.mem_cons.mp hy with rfl | hy
      · exact hx
      · exact ((h.ready_iff hx).mp (hrest.ready y hy)).1
    · intro y hy
      exact ((h.ready_iff hx).mp (hrest.ready y hy)).2
  · intro hall
    obtain ⟨hapart, hrest⟩ := List.pairwise_cons.mp hall.apart
    refine ⟨fun y hy => (h.ready_iff hx).mpr ⟨?_, hapart y hy⟩, hrest, hcount.mpr hall.blocks⟩
    exact hall.ready y (List.mem_cons_of_mem _ hy)

/-! ## All visits -/

theorem VisitsReady.nil : VisitsReady k p addr t [] :=
  ⟨fun _ hx => absurd hx List.not_mem_nil, List.Pairwise.nil, Nat.zero_le _⟩

theorem VisitsReady.head (h : VisitsReady k p addr t (x :: visits)) :
    x.Ready k p ∧ x.blocks k.ftable (x.place addr t) k.fileSize ≤ k.freeBlocks :=
  ⟨h.ready x List.mem_cons_self, (Nat.le_add_right _ _).trans h.blocks⟩

theorem forall_handed_iff {w : Bool} {a : Handed} {l : List Handed} {P : Handed → Prop} :
    (∀ y ∈ (if w then [a] else []) ++ l, P y) ↔ (w = true → P a) ∧ ∀ y ∈ l, P y := by
  cases w with
  | false => simp
  | true => simp

/-- Every handed range of a list lies on pages present at its moment. -/
def AllPresent (p : Fin nProc) (l : List Handed) : Prop :=
  ∀ x ∈ l, (x.kernel.procs p).pgdir.HasBytes x.data x.size

/-- A visit and what follows it: both return and hand over present pages only exactly when all
visits are ready. -/
theorem visit_safe_iff (hd : PinnedHalf (k.procs p).pgdir) (hword : x.place addr t < 2 ^ 32)
    {rest : Option (List Visit)} {after : Kernel → Result Kernel}
    {handed : Kernel → List Handed}
    (hafter : ∀ k', Visited k p x (x.place addr t) k' →
      (((∃ k'', after k' = .ok k'') ∧ AllPresent p (handed k')) ↔
        ∃ visits, rest = some visits ∧ VisitsReady k' p addr (t + 1) visits)) :
    ((∃ k'', (match k.visit p x (x.place addr t) with
        | .error e => .error e
        | .ok k' => after k') = Except.ok k'') ∧
      AllPresent p ((if x.written then [⟨k, x.addr, x.part⟩] else []) ++
        match k.visit p x (x.place addr t) with
        | .error _ => []
        | .ok k' => handed k')) ↔
      ∃ visits, rest.map (x :: ·) = some visits ∧ VisitsReady k p addr t visits := by
  have hvisit := @visit_returns_iff k p x (x.place addr t) hd hword
  rw [AllPresent, forall_handed_iff]
  cases hturn : k.visit p x (x.place addr t) with
  | error e =>
      rw [hturn] at hvisit
      refine iff_of_false ?_ ?_
      · rintro ⟨⟨k'', hcall⟩, -⟩
        cases hcall
      · rintro ⟨visits, hvisits, hready⟩
        obtain ⟨l, -, rfl⟩ := Option.map_eq_some_iff.mp hvisits
        obtain ⟨⟨k', hk'⟩, -⟩ := hvisit.mpr hready.head
        cases hk'
  | ok k' =>
      rw [hturn] at hvisit
      dsimp only
      constructor
      · rintro ⟨hcall, hpresent, hlater⟩
        obtain ⟨hx, hblocks⟩ := hvisit.mp ⟨⟨k', rfl⟩, hpresent⟩
        have hvisited := Visited.of_visit hd hword hpresent hturn
        obtain ⟨l, hl, hready⟩ := (hafter k' hvisited).mp ⟨hcall, hlater⟩
        refine ⟨x :: l, ?_, (hvisited.visitsReady_iff hx hblocks).mp hready⟩
        rw [hl]
        rfl
      · rintro ⟨visits, hvisits, hready⟩
        obtain ⟨l, hl, rfl⟩ := Option.map_eq_some_iff.mp hvisits
        obtain ⟨hx, hblocks⟩ := hready.head
        have hvisited := Visited.of_visit hd hword hx.present hturn
        obtain ⟨hcall, hlater⟩ :=
          (hafter k' hvisited).mpr ⟨l, hl, (hvisited.visitsReady_iff hx hblocks).mpr hready⟩
        exact ⟨hcall, hx.present, hlater⟩

theorem munmapPage_eq_visit (k : Kernel) (p : Fin nProc) (v : Vma) (addr : Nat)
    (length off : Int) : k.munmapPage p v addr length off =
      k.visit p ⟨v, addr, pagePart length, !has v.flags mapAnonymous⟩ off := rfl

theorem munmapLoop_safe_iff {fuel va : Nat} {j : Fin nVma} {length : Int}
    (hd : PinnedHalf (k.procs p).pgdir) (ht : t ≠ 0) (hword : (t + fuel) * pgSize < 2 ^ 32) :
    ((∃ k', Kernel.munmapLoop p fuel j va length (t * pgSize : Nat) k = .ok k') ∧
        AllPresent p (Kernel.loopHanded p fuel j va length (t * pgSize : Nat) k)) ↔
      ∃ visits, chainVisits (k.procs p).vmas fuel j va length = some visits ∧
        VisitsReady k p addr t visits := by
  induction fuel generalizing k j va length t with
  | zero =>
      refine iff_of_false ?_ ?_
      · rintro ⟨⟨k', hcall⟩, -⟩
        cases hcall
      · rintro ⟨visits, hvisits, -⟩
        cases hvisits
  | succ fuel ih =>
      rw [Kernel.munmapLoop, Kernel.loopHanded, chainVisits]
      by_cases hgo : ((k.procs p).vmas j).next ≠ 0 ∧ length > 0
      case neg =>
        rw [if_neg hgo, if_neg hgo, if_neg hgo]
        exact iff_of_true ⟨⟨k, rfl⟩, fun y hy => absurd hy List.not_mem_nil⟩
          ⟨[], rfl, VisitsReady.nil⟩
      case pos =>
        rw [if_pos hgo, if_pos hgo, if_pos hgo]
        dsimp only
        generalize ((k.procs p).vmas j).next = i
        rw [munmapPage_eq_visit]
        have hplace : ∀ x : Visit, x.place addr t = t * pgSize := fun x => if_neg ht
        have hnext : ((t * pgSize : Nat) : Int) + pgSize = ((t + 1) * pgSize : Nat) := by
          rw [Nat.succ_mul]
          omega
        have hfew : t * pgSize < 2 ^ 32 :=
          (Nat.mul_le_mul_right _ (Nat.le_add_right _ _)).trans_lt hword
        have hstep := @visit_safe_iff k p
          ⟨(k.procs p).vmas i, uint (va + pgSize), pagePart length,
            !has ((k.procs p).vmas i).flags mapAnonymous⟩ addr t hd (by rw [hplace]; exact hfew)
          (chainVisits (k.procs p).vmas fuel i (uint (va + pgSize)) (restPart length))
          (Kernel.munmapLoop p fuel i (uint (va + pgSize)) (restPart length)
            ((t + 1) * pgSize : Nat))
          (Kernel.loopHanded p fuel i (uint (va + pgSize)) (restPart length)
            ((t + 1) * pgSize : Nat))
          fun k' hvisited => by
            rw [← hvisited.vmas]
            refine ih hvisited.half (Nat.succ_ne_zero t) ?_
            rw [Nat.add_assoc, Nat.add_comm 1 fuel]
            exact hword
        rw [hplace] at hstep
        rw [hnext]
        exact hstep

/-- The part of `munmap` behind the first visit. -/
def Kernel.munmapRest (k : Kernel) (p : Fin nProc) (v : Vma) (j : Fin nVma) (addr : Nat)
    (length : Int) : Result Kernel :=
  if has v.flags mapGrowsup && !has v.flags mapAnonymous && !has v.flags mapPrivate then
    k.munmapLoop p (nVma + 1) j addr length pgSize
  else .ok k

/-- What it hands over. -/
def Kernel.restHanded (k : Kernel) (p : Fin nProc) (v : Vma) (j : Fin nVma) (addr : Nat)
    (length : Int) : List Handed :=
  if has v.flags mapGrowsup && !has v.flags mapAnonymous && !has v.flags mapPrivate then
    k.loopHanded p (nVma + 1) j addr length pgSize
  else []

/-- Its visits. -/
def restVisits (vmas : Fin nVma → Vma) (v : Vma) (j : Fin nVma) (addr : Nat) (length : Int) :
    Option (List Visit) :=
  if has v.flags mapGrowsup && !has v.flags mapAnonymous && !has v.flags mapPrivate then
    chainVisits vmas (nVma + 1) j addr length
  else some []

section Calls

variable {v : Vma} {j : Fin nVma} {addr : Nat} {length : Int}

theorem munmapRest_safe_iff (hd : PinnedHalf (k.procs p).pgdir) :
    ((∃ k', k.munmapRest p v j addr length = .ok k') ∧
        AllPresent p (k.restHanded p v j addr length)) ↔
      ∃ visits, restVisits (k.procs p).vmas v j addr length = some visits ∧
        VisitsReady k p addr 1 visits := by
  rw [Kernel.munmapRest, Kernel.restHanded, restVisits]
  split
  case isTrue =>
    have hloop := @munmapLoop_safe_iff k p addr 1 (nVma + 1) addr j length hd Nat.one_ne_zero
      (by decide)
    rwa [Nat.one_mul] at hloop
  case isFalse =>
    exact iff_of_true ⟨⟨k, rfl⟩, fun y hy => absurd hy List.not_mem_nil⟩
      ⟨[], rfl, VisitsReady.nil⟩

/-- The visit of the first page. -/
def pageVisit (v : Vma) (addr : Nat) (length : Int) : Visit :=
  ⟨v, addr, pagePart length, !has v.flags mapAnonymous && !has v.flags mapPrivate⟩

theorem munmapFirst_eq : k.munmapFirst p v addr length =
    match (k.procs p).pgdir.table (pdx addr) with
    | none => .ok (k, length)
    | some _ =>
        match k.visit p (pageVisit v addr length) ((addr : Int) - v.addr) with
        | .error h => .error h
        | .ok k => .ok (k, restPart length) := by
  rw [Kernel.munmapFirst, Kernel.visit]
  cases (k.procs p).pgdir.table (pdx addr) with
  | none => rfl
  | some t =>
      cases hw : (!has v.flags mapAnonymous && !has v.flags mapPrivate) with
      | false =>
          have hwritten : (pageVisit v addr length).written = false := hw
          rw [hwritten]
          rfl
      | true =>
          have hwritten : (pageVisit v addr length).written = true := hw
          rw [hwritten]
          dsimp only [pageVisit]
          rw [if_pos rfl]
          cases k.writeBack p v addr (pagePart length) ((addr : Int) - v.addr) with
          | error e => rfl
          | ok k1 => rfl

theorem munmapSlot_le {vmas : Fin nVma → Vma} (h : munmapSlot vmas addr = some j) :
    (vmas j).addr ≤ addr := by
  have hfound := List.find?_some h
  simp only [Bool.and_eq_true, decide_eq_true_eq] at hfound
  exact hfound.2.1

theorem munmap_eq (hslot : munmapSlot (k.procs p).vmas addr = some j) :
    k.munmap p addr length =
      match k.munmapFirst p ((k.procs p).vmas j) addr length with
      | .error h => .error h
      | .ok (k', length) =>
          (k'.munmapRest p ((k.procs p).vmas j) j addr length).map fun k => (k, 0) := by
  rw [Kernel.munmap, hslot]
  dsimp only
  cases k.munmapFirst p ((k.procs p).vmas j) addr length with
  | error e => rfl
  | ok r =>
      obtain ⟨k1, rest⟩ := r
      dsimp only [Kernel.munmapRest]
      split
      case isTrue =>
        cases k1.munmapLoop p (nVma + 1) j addr rest pgSize with
        | error e => rfl
        | ok k2 => rfl
      case isFalse => rfl

theorem munmapHanded_eq (hslot : munmapSlot (k.procs p).vmas addr = some j) :
    k.munmapHanded p addr length =
      k.firstHanded p ((k.procs p).vmas j) addr length ++
        match k.munmapFirst p ((k.procs p).vmas j) addr length with
        | .error _ => []
        | .ok (k', length) => k'.restHanded p ((k.procs p).vmas j) j addr length := by
  rw [Kernel.munmapHanded, hslot]
  rfl

theorem munmapVisits_eq (hslot : munmapSlot (k.procs p).vmas addr = some j) :
    munmapVisits (k.procs p) addr length =
      (restVisits (k.procs p).vmas ((k.procs p).vmas j) j addr
        (firstVisit (k.procs p).pgdir ((k.procs p).vmas j) addr length).2).map
        ((firstVisit (k.procs p).pgdir ((k.procs p).vmas j) addr length).1 ++ ·) := by
  rw [munmapVisits, hslot]
  dsimp only
  rw [restVisits]
  split
  case isTrue => rfl
  case isFalse =>
    rw [Option.map_some]
    simp

theorem exists_map_iff {α β : Type} {r : Result α} {b : β} :
    (∃ a c, (r.map fun a => (a, b)) = .ok (a, c)) ↔ ∃ a, r = .ok a := by
  constructor
  · rintro ⟨a, c, h⟩
    cases r with
    | error e => cases h
    | ok a' => exact ⟨a', rfl⟩
  · rintro ⟨a, rfl⟩
    exact ⟨a, b, rfl⟩

/-- `munmap` returns and hands over present pages only exactly when all its visits are ready. -/
theorem munmap_visits_iff (hd : PinnedHalf (k.procs p).pgdir) (hword : addr < 2 ^ 32) :
    ((∃ k' r, k.munmap p addr length = .ok (k', r)) ∧
        AllPresent p (k.munmapHanded p addr length)) ↔
      ∃ visits, munmapVisits (k.procs p) addr length = some visits ∧
        VisitsReady k p addr (firstPlace (k.procs p).pgdir addr) visits := by
  cases hslot : munmapSlot (k.procs p).vmas addr with
  | none =>
      rw [Kernel.munmap, munmapVisits, hslot]
      refine iff_of_false ?_ ?_
      · rintro ⟨⟨k', r, hcall⟩, -⟩
        cases hcall
      · rintro ⟨visits, hvisits, -⟩
        cases hvisits
  | some j =>
      have hle := munmapSlot_le hslot
      have hplace : ((addr : Int) - ((k.procs p).vmas j).addr) =
          ((pageVisit ((k.procs p).vmas j) addr length).place addr 0 : Nat) := by
        rw [Visit.place, if_pos rfl]
        dsimp only [pageVisit]
        omega
      rw [munmap_eq hslot, munmapHanded_eq hslot, munmapVisits_eq hslot, munmapFirst_eq,
        Kernel.firstHanded, firstVisit, firstPlace, hplace]
      cases htable : (k.procs p).pgdir.table (pdx addr) with
      | none =>
          have hrest := @munmapRest_safe_iff k p ((k.procs p).vmas j) j addr length hd
          dsimp only
          rw [exists_map_iff]
          simpa using hrest
      | some t =>
          have hfirst : (pageVisit ((k.procs p).vmas j) addr length).place addr 0 < 2 ^ 32 := by
            rw [Visit.place, if_pos rfl]
            exact (Nat.sub_le _ _).trans_lt hword
          have hstep := @visit_safe_iff k p (pageVisit ((k.procs p).vmas j) addr length) addr 0 hd
            hfirst (restVisits (k.procs p).vmas ((k.procs p).vmas j) j addr (restPart length))
            (fun k' => k'.munmapRest p ((k.procs p).vmas j) j addr (restPart length))
            (fun k' => k'.restHanded p ((k.procs p).vmas j) j addr (restPart length))
            fun k' hvisited => by
              rw [← hvisited.vmas]
              exact munmapRest_safe_iff hvisited.half
          dsimp only
          cases hturn : k.visit p (pageVisit ((k.procs p).vmas j) addr length)
            ((pageVisit ((k.procs p).vmas j) addr length).place addr 0 : Nat) with
          | error e =>
              rw [hturn] at hstep
              refine Iff.trans (and_congr_left' ?_) hstep
              refine iff_of_false ?_ ?_
              · rintro ⟨k', r, hcall⟩
                cases hcall
              · rintro ⟨k', hcall⟩
                cases hcall
          | ok k' =>
              rw [hturn] at hstep
              refine Iff.trans (and_congr_left' ?_) hstep
              exact exists_map_iff

end Calls

end Visits

/-! ## Reachable states -/

/-- In every state that acts lead to after boot, and for all arguments of a process that runs,
`sys_munmap` is safe exactly when a record covers the address, nothing stands in the way of any
of its visits and there are blocks for what they write. -/
theorem munmap_safe_iff {mem : Mem} {inodes : Nat → Inode} {blocks : Nat}
    {devsw : Nat → Option Devsw} {init : List UInt8} {k0 k : Kernel}
    {acts : List (Fin nProc × Act)} {p : Fin nProc}
    (hboot : (Kernel.zero mem inodes blocks devsw).userinit init = .ok k0)
    (hrun : Run ActStep k0 acts k) (hp : k.Runs p) (addr length : Int) :
    MunmapSafe k p addr length ↔ MunmapReady k p addr length := by
  have hd : PinnedHalf (k.procs p).pgdir := halved_of_run hboot hrun p hp.not_dead
  have hvisits := @munmap_visits_iff k p (ofInt addr) length hd (ofInt_lt addr)
  constructor
  · intro hsafe
    exact hvisits.mp ⟨hsafe.returns, hsafe.handed⟩
  · intro hready
    obtain ⟨hreturns, hpresent⟩ := hvisits.mpr hready
    refine ⟨hreturns, hpresent, fun hnone => ?_⟩
    -- Without a record the call would not have returned.
    obtain ⟨k', r, hcall⟩ := hreturns
    rw [Kernel.munmap, hnone] at hcall
    cases hcall

/-- A shared page of an open file, in a window of one page: the call has one visit, and nothing
stands in its way. -/
theorem filePage_ready {k : Kernel} {p : Fin nProc} {j : Fin nVma} {f : Fin nFile} {e : Pte}
    (hslot : munmapSlot (k.procs p).vmas 0x60000000 = some j)
    (haddr : ((k.procs p).vmas j).addr = 0x60000000)
    (hflags : ((k.procs p).vmas j).flags = mapShared) (hpf : ((k.procs p).vmas j).pf = some f)
    (htype : (k.ftable f).type = .inode)
    (hblocks : grownBlocks 0 4096 (k.fileSize (k.ftable f).ip) ≤ k.freeBlocks)
    (he : (k.procs p).pgdir.lookup 0x60000000 = some e) (htakes : k.mem.Takes e) :
    munmapVisits (k.procs p) 0x60000000 4096 =
        some [⟨(k.procs p).vmas j, 0x60000000, 4096, true⟩] ∧
      VisitsReady k p 0x60000000 (firstPlace (k.procs p).pgdir 0x60000000)
        [⟨(k.procs p).vmas j, 0x60000000, 4096, true⟩] := by
  obtain ⟨t, ht⟩ := Pgdir.exists_table_of_lookup he
  have hpart : pagePart 4096 = 4096 := by decide
  have hshared : (!has mapShared mapAnonymous && !has mapShared mapPrivate) = true := by decide
  refine ⟨?_, ?_, List.pairwise_singleton _ _, ?_⟩
  · rw [munmapVisits_eq hslot, firstVisit, ht, restVisits, hflags, if_neg (by decide), hpart,
      hshared]
    rfl
  · intro x hx
    obtain rfl := List.mem_singleton.mp hx
    constructor
    case file => exact fun _ => ⟨f, hpf, Or.inr htype⟩
    case present =>
      intro _ i hi
      have hlt : i < 4096 := hi
      have hsame : pageOf (uint (0x60000000 + i)) = pageOf 0x60000000 := by
        simp only [pageOf, uint]
        omega
      rw [Pgdir.present_congr _ hsame, Pgdir.present, he]
      rfl
    case frames =>
      intro b e' hb hin he'
      obtain ⟨-, hlow, hhigh⟩ := hin
      have hup : pgRoundUp 0x60000000 = 0x60000000 := by decide
      have hend : ofInt (((0x60000000 : Nat) : Int) + 4096) = 0x60001000 := by decide
      dsimp only at hlow hhigh
      rw [hup] at hlow
      rw [hend] at hhigh
      simp only [pgRoundDown, pgSize] at hlow hhigh
      have hsame : pageOf b = pageOf 0x60000000 := by
        simp only [pageOf]
        omega
      rw [Pgdir.lookup_congr _ hsame, he] at he'
      obtain rfl := Option.some.inj he'
      exact htakes
  · rw [firstPlace, ht, visitsBlocks, visitsBlocks, Nat.add_zero, Visit.blocks, Visit.target,
      if_pos rfl, Visit.place, if_pos rfl]
    dsimp only
    rw [hpf, Option.bind_some, haddr]
    cases (k.ftable f).writable with
    | false => exact Nat.zero_le _
    | true => exact hblocks

/-- The first process maps the first page of a file, shared, and unmaps it. The file grows. -/
theorem munmap_safe_iff_run : ∃ k0 k, bootKernel 150 [7] = .ok k0 ∧
    Run ActStep k0 [(0, .call (.sysOpen (some 0) 2)), (0, .call (.mmap filePage))] k ∧
    MunmapSafe k 0 0x60000000 4096 := by
  obtain ⟨k0, hboot, hcalls⟩ := @exists_ok _ (bootKernel 150 [7]) (fun k0 =>
    (runCalls k0 [(0, .sysOpen (some 0) 2), (0, .mmap filePage)]).any fun k : Kernel =>
      decide (k.Runs 0) && decide (munmapSlot (k.procs 0).vmas 0x60000000 = some 0) &&
        decide (((k.procs 0).vmas 0).addr = 0x60000000) &&
        decide (((k.procs 0).vmas 0).flags = mapShared) &&
        decide (((k.procs 0).vmas 0).pf = some firstFile) &&
        decide ((k.ftable firstFile).type = .inode) &&
        decide (grownBlocks 0 4096 (k.fileSize (k.ftable firstFile).ip) ≤ k.freeBlocks) &&
        ((k.procs 0).pgdir.lookup 0x60000000).any fun e : Pte =>
          decide (e.pa ≠ 0) && decide (k.mem.Freeable e.pa)) (by decide +kernel)
  obtain ⟨k, hk, hcheck⟩ := (Option.any_eq_true _ _).mp hcalls
  simp only [Bool.and_eq_true, decide_eq_true_eq] at hcheck
  obtain ⟨⟨⟨⟨⟨⟨⟨hp, hslot⟩, haddr⟩, hflags⟩, hpf⟩, htype⟩, hblocks⟩, hpage⟩ := hcheck
  have hrun := run_acts (run_of_runCalls hk)
  refine ⟨k0, k, hboot, hrun, (munmap_safe_iff hboot hrun hp _ _).mpr ?_⟩
  obtain ⟨e, he, hpage⟩ := (Option.any_eq_true _ _).mp hpage
  simp only [Bool.and_eq_true, decide_eq_true_eq] at hpage
  have hword : ofInt 0x60000000 = 0x60000000 := by decide
  rw [MunmapReady, hword]
  exact ⟨_, filePage_ready hslot haddr hflags hpf htype hblocks he hpage⟩

/-- The record outlives the call. Unmapping the page again hands over a page that is absent,
and the kernel faults. -/
theorem second_munmap_unsafe : ¬∀ mem inodes blocks devsw init k0 acts k p addr length,
    (Kernel.zero mem inodes blocks devsw).userinit init = .ok k0 → Run ActStep k0 acts k →
    k.Runs p → MunmapSafe k p addr length := by
  intro hall
  obtain ⟨k0, hboot, hcalls⟩ := @exists_ok _ (bootKernel 150 [7]) (fun k0 =>
    (runCalls k0 [(0, .sysOpen (some 0) 2), (0, .mmap filePage),
      (0, .munmap 0x60000000 4096)]).any fun k : Kernel =>
        decide (k.Runs 0) && haltsWith (k.sysMunmap 0 0x60000000 4096) .kernelFault)
    (by decide +kernel)
  obtain ⟨k, hk, hcheck⟩ := (Option.any_eq_true _ _).mp hcalls
  rw [Bool.and_eq_true, decide_eq_true_eq] at hcheck
  obtain ⟨hp, hfault⟩ := hcheck
  obtain ⟨k', r, hcall⟩ := (hall _ _ _ _ _ k0 _ k 0 0x60000000 4096 hboot
    (run_acts (run_of_runCalls hk)) hp).returns
  cases hcall.symm.trans (error_of_check hfault)

end OSProjects.Xv6
