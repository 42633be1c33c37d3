import OSProjects.Xv6.SafeUnmap
import OSProjects.Xv6.Unmap

/-!
# What the visits of `munmap` do

`munmap` is a run over its visits. Every visit puts bytes of its page into the file that its
record names, at an offset of its own, and gives the frame of the page back, which fills the
frame with junk.
-/

namespace OSProjects.Xv6

open ByteMemory

/-! ## The call as a run -/

/-- The visits one after the other, the first of them in place `t`. -/
def Kernel.visitAll (p : Fin nProc) (addr : Nat) : Nat → List Visit → Kernel → Result Kernel
  | _, [], k => .ok k
  | t, x :: rest, k =>
      match k.visit p x (x.place addr t) with
      | .error h => .error h
      | .ok k => visitAll p addr (t + 1) rest k

section Run

variable {k k' : Kernel} {p : Fin nProc} {addr va t : Nat} {j : Fin nVma} {length : Int}
  {visits : List Visit}

theorem SpaceAndFiles.of_visit {x : Visit} {off : Int} (h : k.visit p x off = .ok k') :
    SpaceAndFiles p k k' := by
  rw [Kernel.visit] at h
  split at h
  case h_1 => cases h
  case h_2 k1 hw => exact (of_filesOnly (.of_written hw)).trans (of_dealloc h)

variable (addr) in
/-- The loop of `munmap` is the run over the visits behind the first one. -/
theorem munmapLoop_eq_visitAll {fuel : Nat} (ht : t ≠ 0)
    (hvisits : chainVisits (k.procs p).vmas fuel j va length = some visits) :
    Kernel.munmapLoop p fuel j va length (t * pgSize : Nat) k =
      Kernel.visitAll p addr t visits k := by
  induction fuel generalizing k j va length t visits with
  | zero => cases hvisits
  | succ fuel ih =>
      rw [chainVisits] at hvisits
      rw [Kernel.munmapLoop]
      by_cases hgo : ((k.procs p).vmas j).next ≠ 0 ∧ length > 0
      case neg =>
        rw [if_neg hgo] at hvisits
        obtain rfl := Option.some.inj hvisits
        rw [if_neg hgo]
        rfl
      case pos =>
        rw [if_pos hgo] at hvisits
        obtain ⟨rest, hrest, rfl⟩ := Option.map_eq_some_iff.mp hvisits
        rw [if_pos hgo, Kernel.visitAll]
        dsimp only at hrest ⊢
        generalize ((k.procs p).vmas j).next = i at hrest ⊢
        rw [Visit.place, if_neg ht, munmapPage_eq_visit]
        cases hturn : k.visit p ⟨(k.procs p).vmas i, uint (va + pgSize), pagePart length,
            !has ((k.procs p).vmas i).flags mapAnonymous⟩ (t * pgSize : Nat) with
        | error e => rfl
        | ok k1 =>
            dsimp only
            rw [← (SpaceAndFiles.of_visit hturn).vmas] at hrest
            have hnext : ((t * pgSize : Nat) : Int) + pgSize = ((t + 1) * pgSize : Nat) := by
              rw [Nat.succ_mul]
              omega
            rw [hnext]
            exact ih (Nat.succ_ne_zero t) hrest

/-- `munmap` of an address with a page table is the run over its visits. -/
theorem munmap_eq_visitAll (hslot : munmapSlot (k.procs p).vmas addr = some j)
    (htable : (k.procs p).pgdir.table (pdx addr) ≠ none)
    (hvisits : munmapVisits (k.procs p) addr length = some visits) :
    k.munmap p addr length = (Kernel.visitAll p addr 0 visits k).map fun k => (k, 0) := by
  obtain ⟨table, htable⟩ := Option.ne_none_iff_exists'.mp htable
  have hle := munmapSlot_le hslot
  rw [munmapVisits_eq hslot, firstVisit, htable] at hvisits
  obtain ⟨chain, hchain, rfl⟩ := Option.map_eq_some_iff.mp hvisits
  dsimp only at hchain
  have hfirst : ((addr : Int) - ((k.procs p).vmas j).addr) =
      ((pageVisit ((k.procs p).vmas j) addr length).place addr 0 : Nat) := by
    rw [Visit.place, if_pos rfl]
    dsimp only [pageVisit]
    omega
  rw [munmap_eq hslot, munmapFirst_eq, htable, hfirst]
  dsimp only
  rw [List.cons_append, List.nil_append, Kernel.visitAll, ← pageVisit]
  cases hturn : k.visit p (pageVisit ((k.procs p).vmas j) addr length)
      ((pageVisit ((k.procs p).vmas j) addr length).place addr 0 : Nat) with
  | error e => rfl
  | ok k1 =>
      dsimp only
      rw [Kernel.munmapRest]
      rw [restVisits] at hchain
      have hsame := (SpaceAndFiles.of_visit hturn).vmas
      split at hchain
      case isTrue hgrows =>
        rw [if_pos hgrows]
        rw [← hsame] at hchain
        have hloop := munmapLoop_eq_visitAll addr Nat.one_ne_zero hchain
        rw [Nat.one_mul] at hloop
        rw [hloop]
      case isFalse hgrows =>
        rw [if_neg hgrows]
        obtain rfl := Option.some.inj hchain
        rfl

/-- The kernels between the visits. -/
theorem exists_moments (h : Kernel.visitAll p addr t visits k = .ok k') :
    ∃ K : Nat → Kernel, K 0 = k ∧ K visits.length = k' ∧
      ∀ u x, visits[u]? = some x → (K u).visit p x (x.place addr (t + u)) = .ok (K (u + 1)) := by
  induction visits generalizing t k with
  | nil =>
      obtain rfl := Except.ok.inj h
      exact ⟨fun _ => k, rfl, rfl, fun u x hx => by cases hx⟩
  | cons y rest ih =>
      rw [Kernel.visitAll] at h
      split at h
      case h_1 => cases h
      case h_2 k1 hy =>
        obtain ⟨K, hstart, hend, hturn⟩ := ih h
        refine ⟨fun u => Nat.casesOn u k K, rfl, hend, fun u x hx => ?_⟩
        cases u with
        | zero =>
            obtain rfl := Option.some.inj hx
            dsimp only
            rw [hstart]
            exact hy
        | succ u =>
            have hnext := hturn u x hx
            rwa [Nat.add_right_comm, Nat.add_assoc] at hnext

end Run

/-! ## Page by page -/

/-- The length that is left in front of page `t`: the last page is never taken off. -/
theorem restPart_iterate {length : Int} (h : 0 < length) (t : Nat) :
    restPart^[t] length = length - (min t (pageCount length - 1) * pgSize : Nat) := by
  induction t with
  | zero => simp
  | succ t ih =>
      rw [Function.iterate_succ_apply', ih, restPart]
      simp only [pageCount, pgSize, gt_iff_lt]
      split <;> omega

/-- The visits go from page to page, and each covers what the length leaves of its page. -/
structure Paged (addr : Nat) (length : Int) (visits : List Visit) : Prop where
  count : visits.length ≤ nVma + 1
  addr : ∀ t x, visits[t]? = some x → x.addr = addr + t * pgSize
  part : ∀ t x, visits[t]? = some x → x.part = pagePart (restPart^[t] length)

namespace Paged

variable {addr t : Nat} {length : Int} {visits : List Visit} {x : Visit}

theorem part_pos (h : Paged addr length visits) (hlength : 0 < length)
    (hx : visits[t]? = some x) : 0 < x.part ∧ x.part ≤ pgSize := by
  have hleft := restPart_iterate hlength t
  rw [h.part t x hx]
  refine ⟨pagePart_pos ?_, pagePart_le _⟩
  simp only [pageCount, pgSize] at hleft
  omega

/-- The pages of the length are covered as far as it goes. -/
theorem part_toNat (h : Paged addr length visits) (hlength : 0 < length)
    (hx : visits[t]? = some x) (ht : t < pageCount length) :
    x.part.toNat = min pgSize (length.toNat - t * pgSize) := by
  have hleft := restPart_iterate hlength t
  rw [h.part t x hx, hleft, pagePart]
  simp only [pageCount, pgSize, gt_iff_lt] at ht ⊢
  split <;> omega

theorem of_chain {vmas : Fin nVma → Vma} {fuel va : Nat} {j : Fin nVma}
    (hlt : va + fuel * 4096 < 2 ^ 32)
    (h : chainVisits vmas fuel j va length = some visits) :
    visits.length < fuel ∧ ∀ t x, visits[t]? = some x →
      x.addr = va + (t + 1) * pgSize ∧ x.part = pagePart (restPart^[t] length) := by
  induction fuel generalizing j va length visits with
  | zero => cases h
  | succ fuel ih =>
      rw [chainVisits] at h
      split at h
      case isFalse =>
        obtain rfl := Option.some.inj h
        exact ⟨Nat.succ_pos fuel, fun t x hx => by cases hx⟩
      case isTrue =>
        obtain ⟨rest, hrest, rfl⟩ := Option.map_eq_some_iff.mp h
        have hva : uint (va + pgSize) = va + 4096 := by
          simp only [uint, pgSize]
          omega
        rw [hva] at hrest
        obtain ⟨hcount, hall⟩ := ih (by omega) hrest
        refine ⟨Nat.succ_lt_succ hcount, fun t x hx => ?_⟩
        cases t with
        | zero =>
            obtain rfl := Option.some.inj hx
            dsimp only
            rw [hva, Nat.zero_add, Nat.one_mul]
            exact ⟨rfl, rfl⟩
        | succ t =>
            obtain ⟨haddr, hpart⟩ := hall t x hx
            refine ⟨?_, hpart⟩
            rw [haddr]
            simp only [pgSize]
            omega

theorem of_munmap {y : Proc} (hlt : addr < 0x80000000)
    (htable : y.pgdir.table (pdx addr) ≠ none) (h : munmapVisits y addr length = some visits) :
    Paged addr length visits ∧ visits ≠ [] := by
  obtain ⟨table, htable⟩ := Option.ne_none_iff_exists'.mp htable
  rw [munmapVisits] at h
  split at h
  case h_1 => cases h
  case h_2 j hslot =>
    dsimp only at h
    rw [firstVisit, htable] at h
    dsimp only at h
    -- Behind the visit of the first page there is the chain, or nothing.
    obtain ⟨rest, hcount, hall, rfl⟩ : ∃ rest, rest.length < nVma + 1 ∧
        (∀ t x, rest[t]? = some x → x.addr = addr + (t + 1) * pgSize ∧
          x.part = pagePart (restPart^[t] (restPart length))) ∧
        visits = pageVisit (y.vmas j) addr length :: rest := by
      split at h
      case isTrue =>
        obtain ⟨rest, hrest, rfl⟩ := Option.map_eq_some_iff.mp h
        obtain ⟨hcount, hall⟩ := of_chain (by simp only [nVma]; omega) hrest
        exact ⟨rest, hcount, hall, rfl⟩
      case isFalse =>
        obtain rfl := Option.some.inj h
        exact ⟨[], Nat.succ_pos _, fun t x hx => (by cases hx), rfl⟩
    refine ⟨⟨hcount, fun t x hx => ?_, fun t x hx => ?_⟩, List.cons_ne_nil _ _⟩
    · cases t with
      | zero =>
          obtain rfl := Option.some.inj hx
          rw [Nat.zero_mul, Nat.add_zero, pageVisit]
      | succ t => exact (hall t x hx).1
    · cases t with
      | zero =>
          obtain rfl := Option.some.inj hx
          rfl
      | succ t => exact (hall t x hx).2

end Paged

/-! ## What a visit does to the memory -/

section Junk

variable {m m' : Mem} {pa a : Nat}

theorem Mem.junked_outside (h : a < pa ∨ pa + pgSize ≤ a) : (m.junked pa).phys a = m.phys a := by
  rw [Mem.junked]
  dsimp only
  rcases h with hlt | hge
  · rw [Store.apply_of_lt _ _ hlt, fill_of_outside (Or.inl hlt)]
  · have hstop : pa + 4 ≤ a := by
      simp only [pgSize] at hge
      omega
    rw [Store.apply_of_stop_le _ _ (by simpa [Store.stop] using hstop),
      fill_of_outside (Or.inr hge)]

/-- The junk in a frame depends on the free list only. -/
theorem Mem.junked_inside (hlist : m.freelist = m'.freelist) (h : pa ≤ a) (h' : a < pa + pgSize) :
    (m.junked pa).phys a = (m'.junked pa).phys a := by
  have hnext : m.nextFree = m'.nextFree := by
    rw [Mem.nextFree, hlist, Mem.nextFree]
  simp only [Mem.junked, Store.apply, fill, if_pos h, if_pos (And.intro h h'), hnext]

end Junk

section Page

variable {k k' : Kernel} {p : Fin nProc} {x : Visit} {off : Int}

/-- A visit as `munmap` makes it: it starts on a page and stays on it. -/
structure Visit.OnPage (x : Visit) : Prop where
  aligned : x.addr % pgSize = 0
  below : x.addr < vmaEnd + (nVma + 1) * pgSize
  pos : 0 < x.part
  le : x.part ≤ pgSize

theorem Visit.OnPage.stop (hx : x.OnPage) : ofInt (x.addr + x.part) = x.addr + x.part.toNat := by
  obtain ⟨-, hbelow, hpos, hle⟩ := hx
  simp only [pgSize, vmaEnd, nVma] at hbelow hle
  simp only [ofInt]
  omega

/-- Such a visit gives its own page back. -/
theorem Visit.OnPage.clears_iff (hx : x.OnPage) {b : Nat} (hb : b < 2 ^ 32) :
    x.Clears b ↔ pageOf b = pageOf x.addr := by
  have hstop := hx.stop
  obtain ⟨halign, hbelow, hpos, hle⟩ := hx
  simp only [pgSize, vmaEnd, nVma] at halign hbelow hle
  rw [Visit.Clears, hstop]
  simp only [InRange, pgRoundUp, pgRoundDown, pgSize, uint, pageOf]
  omega

theorem Visit.OnPage.mem_of_visit (hx : x.OnPage) (h : k.visit p x off = .ok k') :
    k'.mem = match (k.procs p).pgdir.lookup x.addr with
      | none => k.mem
      | some e => k.mem.junked e.pa := by
  rw [Kernel.visit] at h
  split at h
  case h_1 => cases h
  case h_2 k1 hw =>
    obtain ⟨inodes, blocks, rfl⟩ := FilesOnly.of_written hw
    rw [hx.stop, Kernel.dealloc] at h
    split at h
    case h_1 => cases h
    case h_2 s hclear =>
      obtain rfl := Except.ok.inj h
      obtain ⟨halign, hbelow, hpos, hle⟩ := hx
      simp only [pgSize, vmaEnd, nVma] at halign hbelow hle
      obtain ⟨a', hturn⟩ :=
        Space.dealloc_part halign (by omega) (by omega) (by omega) hclear
      exact Space.deallocPage_mem hturn

end Page

/-! ## What a visit does to a file -/

/-- How many bytes of its page the visit puts into inode `i` at the offset. -/
def Kernel.reach (k : Kernel) (i : Nat) (x : Visit) (offset : Nat) : Nat :=
  if x.target k.ftable = some i ∧ offset ≤ (k.inodes i).size then putCount offset x.part.toNat
  else 0

section File

variable {k k' : Kernel} {p : Fin nProc} {x : Visit} {i offset : Nat}

/-- `filewriteoff` writes what fits of the bytes into the inode of a writable file that reaches up
to the offset, and leaves every other inode alone. -/
theorem Kernel.inode_of_filewriteoff {f : Fin nFile} {data : Nat} {size r : Int}
    {bytes : List UInt8} (hreg : (k.inodes i).type ≠ .dev) (hword : offset < 2 ^ 32)
    (hload : (k.space p).loadBytes data size.toNat = some bytes)
    (h : k.filewriteoff p f data size (offset : Int) = .ok (k', r)) :
    k'.inodes i =
      if (k.ftable f).writable = true ∧ (k.ftable f).ip = i ∧ offset ≤ (k.inodes i).size then
        (k.inodes i).write offset (bytes.take (putCount offset size.toNat))
      else k.inodes i := by
  rw [Kernel.filewriteoff] at h
  by_cases hwritable : (k.ftable f).writable = true
  case neg =>
    rw [if_pos (by simpa using hwritable)] at h
    obtain ⟨rfl, -⟩ := Prod.mk.inj (Except.ok.inj h)
    rw [if_neg fun hall => hwritable hall.1]
  case pos =>
    rw [if_neg (by simp [hwritable])] at h
    split at h
    case isFalse => cases h
    case isTrue =>
      split at h
      case h_1 => cases h
      case h_2 k2 w hloop =>
        obtain ⟨rfl, -⟩ := Prod.mk.inj (Except.ok.inj h)
        by_cases hip : (k.ftable f).ip = i
        case neg =>
          rw [if_neg fun hall => hip hall.2.1]
          exact Kernel.writeoffLoop_others hloop (Ne.symm hip)
        case pos =>
          subst hip
          rcases Nat.lt_or_ge (k.inodes (k.ftable f).ip).size offset with hlt | hge
          · rw [Kernel.writeoffLoop_behind hreg hlt hword] at hloop
            obtain ⟨rfl, -⟩ := Prod.mk.inj (Except.ok.inj hloop)
            rw [if_neg fun hall => absurd hall.2.2 (Nat.not_le.mpr hlt)]
          · rw [Kernel.writeoffLoop_put hreg hload hge hword] at hloop
            split at hloop
            case isFalse => cases hloop
            case isTrue =>
              obtain ⟨rfl, -⟩ := Prod.mk.inj (Except.ok.inj hloop)
              rw [if_pos ⟨hwritable, rfl, hge⟩]
              exact Kernel.afterBytes_inode _ _ _ _ _

/-- A visit leaves the inode alone, or writes what fits of its page into it. -/
theorem Visit.inode_of_visit (hready : x.Ready k p) (hreg : (k.inodes i).type ≠ .dev)
    (hword : offset < 2 ^ 32) (h : k.visit p x offset = .ok k') :
    (k.reach i x offset = 0 ∧ k'.inodes i = k.inodes i) ∨
      ∃ bytes, (k.space p).loadBytes x.addr x.part.toNat = some bytes ∧
        offset ≤ (k.inodes i).size ∧ k.reach i x offset = putCount offset x.part.toNat ∧
        k'.inodes i =
          (k.inodes i).write offset (bytes.take (putCount offset x.part.toNat)) := by
  rw [Kernel.visit] at h
  split at h
  case h_1 => cases h
  case h_2 k1 hw =>
    have hinodes : k'.inodes = k1.inodes := by
      rw [Kernel.dealloc] at h
      split at h
      case h_1 => cases h
      case h_2 s _ =>
        obtain rfl := Except.ok.inj h
        rfl
    rw [hinodes, Kernel.reach, Visit.target]
    by_cases hwritten : x.written = true
    case neg =>
      rw [if_neg hwritten] at hw ⊢
      obtain rfl := Except.ok.inj hw
      exact Or.inl ⟨if_neg (by simp), rfl⟩
    case pos =>
      obtain ⟨f, hf, -⟩ := hready.file hwritten
      obtain ⟨bytes, hbytes⟩ :=
        @loadBytes_of_present (k.space p) x.addr x.part.toNat (hready.present hwritten)
      rw [if_pos hwritten] at hw ⊢
      rw [Kernel.writeBack, hf] at hw
      rw [hf, Option.bind_some]
      dsimp only at hw
      split at hw
      case h_1 => cases hw
      case h_2 k2 r hcall =>
        obtain rfl := Except.ok.inj hw
        have hput := Kernel.inode_of_filewriteoff hreg hword hbytes hcall
        split at hput
        case isTrue hall =>
          obtain ⟨hwritable, hip, hge⟩ := hall
          exact Or.inr ⟨bytes, hbytes, hge, if_pos ⟨by rw [if_pos hwritable, hip], hge⟩, hput⟩
        case isFalse hnot =>
          refine Or.inl ⟨if_neg ?_, hput⟩
          rintro ⟨htarget, hge⟩
          split at htarget
          case isTrue hwritable => exact hnot ⟨hwritable, Option.some.inj htarget, hge⟩
          case isFalse => cases htarget

/-- A loaded byte is the one in the frame of its page. -/
theorem loadBytes_getD {s : Space} {va n j : Nat} {bytes : List UInt8} {e : Pte}
    (h : s.loadBytes va n = some bytes) (hj : j < n) (hword : va + j < 2 ^ 32)
    (he : s.pgdir.lookup (va + j) = some e) :
    bytes.getD j 0 = s.mem.phys (e.pa + (va + j) % pgSize) := by
  have hslice : s.loadBytes (va + j) 1 = some ((bytes.drop j).take 1) :=
    Space.loadBytes_slice h (by omega)
  have huint : uint (va + j) = va + j := Nat.mod_eq_of_lt hword
  rw [Space.loadBytes, huint, Space.load, he, Option.map_some] at hslice
  obtain ⟨rest, -, hbytes⟩ := Option.map_eq_some_iff.mp hslice
  have hhead := congrArg (fun l : List UInt8 => l[0]?) hbytes
  simp only [List.getElem?_cons_zero, List.getElem?_take, Nat.zero_lt_one, if_true,
    List.getElem?_drop, Nat.add_zero] at hhead
  rw [List.getD_eq_getElem?_getD, ← hhead, Option.getD_some]

/-- What a visit leaves of an inode. -/
structure Visit.Puts (x : Visit) (k k' : Kernel) (p : Fin nProc) (i offset : Nat) : Prop where
  type : (k'.inodes i).type = (k.inodes i).type
  size : (k'.inodes i).size =
    max (k.inodes i).size (if k.reach i x offset = 0 then 0 else offset + k.reach i x offset)
  inside : ∀ j, j < k.reach i x offset → ∀ e, (k.procs p).pgdir.lookup x.addr = some e →
    (k'.inodes i).data (offset + j) = k.mem.phys (e.pa + j)
  outside : ∀ y, y < offset ∨ offset + k.reach i x offset ≤ y →
    (k'.inodes i).data y = (k.inodes i).data y

theorem Visit.OnPage.puts_of_visit (hx : x.OnPage) (hready : x.Ready k p)
    (hreg : (k.inodes i).type ≠ .dev) (hword : offset < 2 ^ 32)
    (h : k.visit p x offset = .ok k') : x.Puts k k' p i offset := by
  rcases Visit.inode_of_visit hready hreg hword h with
    ⟨hreach, hsame⟩ | ⟨bytes, hbytes, hoffset, hreach, hwrite⟩
  · constructor
    case type => rw [hsame]
    case size => rw [hsame, hreach, if_pos rfl, Nat.max_zero]
    case inside => exact fun j hj => absurd hj (by omega)
    case outside => exact fun y _ => by rw [hsame]
  · have hlen := Space.length_loadBytes hbytes
    have hcount := putCount_le_size offset x.part.toNat
    have htaken : (bytes.take (putCount offset x.part.toNat)).length =
        putCount offset x.part.toNat := by
      rw [List.length_take]
      omega
    rw [← hreach] at hwrite htaken hcount
    constructor
    case type => rw [hwrite, Inode.write]
    case size =>
      rw [hwrite, Inode.write, htaken]
      dsimp only
      split <;> omega
    case inside =>
      intro j hj e he
      obtain ⟨halign, hbelow, hpos, hle⟩ := hx
      simp only [pgSize, vmaEnd, nVma] at halign hbelow hle
      have hsame : pageOf (x.addr + j) = pageOf x.addr := by
        simp only [pageOf]
        omega
      have hrest : (x.addr + j) % pgSize = j := by
        simp only [pgSize]
        omega
      have hbyte := loadBytes_getD hbytes (by omega) (by omega)
        ((Pgdir.lookup_congr _ hsame).trans he)
      rw [hrest, List.getD_eq_getElem?_getD, List.getElem?_eq_getElem (by omega),
        Option.getD_some] at hbyte
      rw [hwrite, Inode.write]
      dsimp only
      have hput := Store.apply_at ⟨offset, bytes.take (k.reach i x offset)⟩ (k.inodes i).data
        (show j < (bytes.take (k.reach i x offset)).length by omega)
      rw [hput, List.getElem_take]
      exact hbyte
    case outside =>
      intro y hy
      rw [hwrite, Inode.write]
      dsimp only
      rcases hy with hlt | hge
      · exact Store.apply_of_lt _ _ hlt
      · exact Store.apply_of_stop_le _ _ (by rw [Store.stop, htaken]; exact hge)

end File

/-! ## The whole way -/

/-- The kernels on the way of a call over its visits, which nothing stands in the way of, and
a regular file. -/
structure Walk (k : Kernel) (p : Fin nProc) (addr : Nat) (length : Int) (visits : List Visit)
    (i : Nat) (K : Nat → Kernel) : Prop where
  start : K 0 = k
  turn : ∀ t x, visits[t]? = some x → (K t).visit p x (x.place addr t) = .ok (K (t + 1))
  paged : Paged addr length visits
  aligned : addr % pgSize = 0
  below : addr < vmaEnd
  length : 0 < length
  half : PinnedHalf (k.procs p).pgdir
  ready : VisitsReady k p addr 0 visits
  regular : (k.inodes i).type ≠ .dev

/-- What `t` visits have left of the kernel. -/
structure Passed (k : Kernel) (p : Fin nProc) (addr : Nat) (visits : List Visit) (i t : Nat)
    (k' : Kernel) : Prop where
  half : PinnedHalf (k'.procs p).pgdir
  ready : VisitsReady k' p addr t (visits.drop t)
  ftable : k'.ftable = k.ftable
  other : ∀ b, b < 2 ^ 32 → (∀ s, s < t → pageOf b ≠ pageOf (addr + s * pgSize)) →
    (k'.procs p).pgdir.lookup b = (k.procs p).pgdir.lookup b
  type : (k'.inodes i).type = (k.inodes i).type
  grown : (k.inodes i).size ≤ (k'.inodes i).size

namespace Walk

variable {k : Kernel} {p : Fin nProc} {addr i t : Nat} {length : Int} {visits : List Visit}
  {K : Nat → Kernel} {x : Visit}

theorem onPage (h : Walk k p addr length visits i K) (hx : visits[t]? = some x) : x.OnPage := by
  have ht := (List.getElem?_eq_some_iff.mp hx).1
  have haddr := h.paged.addr t x hx
  have hcount := h.paged.count
  have halign := h.aligned
  have hbelow := h.below
  obtain ⟨hpos, hle⟩ := h.paged.part_pos h.length hx
  simp only [pgSize, nVma, vmaEnd] at haddr hcount halign hbelow
  refine ⟨?_, ?_, hpos, hle⟩
  · simp only [pgSize]
    omega
  · simp only [pgSize, nVma, vmaEnd]
    omega

theorem place_lt (h : Walk k p addr length visits i K) (hx : visits[t]? = some x) :
    x.place addr t < 2 ^ 32 := by
  have ht := (List.getElem?_eq_some_iff.mp hx).1
  have hcount := h.paged.count
  have hbelow := h.below
  simp only [nVma, vmaEnd] at hcount hbelow
  rw [Visit.place, pgSize]
  split <;> omega

theorem passed (h : Walk k p addr length visits i K) (ht : t ≤ visits.length) :
    Passed k p addr visits i t (K t) := by
  induction t with
  | zero =>
      rw [h.start]
      exact ⟨h.half, h.ready, rfl, fun _ _ _ => rfl, rfl, Nat.le_refl _⟩
  | succ t ih =>
      have hbefore := ih (by omega)
      obtain ⟨x, hx⟩ : ∃ x, visits[t]? = some x := ⟨_, List.getElem?_eq_getElem (by omega)⟩
      have hdrop : visits.drop t = x :: visits.drop (t + 1) := by
        rw [List.drop_eq_getElem_cons (by omega)]
        obtain ⟨_, rfl⟩ := List.getElem?_eq_some_iff.mp hx
        rfl
      have hpage := h.onPage hx
      have hready := hbefore.ready
      rw [hdrop] at hready
      obtain ⟨hxready, hblocks⟩ := hready.head
      have hturn := h.turn t x hx
      have hvisited := Visited.of_visit hbefore.half (h.place_lt hx) hxready.present hturn
      have hregular : ((K t).inodes i).type ≠ .dev := by
        rw [hbefore.type]
        exact h.regular
      have hputs := hpage.puts_of_visit hxready hregular (h.place_lt hx) hturn
      constructor
      case half => exact hvisited.half
      case ready => exact (hvisited.visitsReady_iff hxready hblocks).mpr hready
      case ftable => rw [hvisited.ftable, hbefore.ftable]
      case other =>
        intro b hb hout
        have hother : ¬x.Clears b := by
          rw [hpage.clears_iff hb, h.paged.addr t x hx]
          exact hout t (Nat.lt_succ_self t)
        rw [hvisited.other b hb hother]
        exact hbefore.other b hb fun s hs => hout s (Nat.lt_succ_of_lt hs)
      case type => rw [hputs.type, hbefore.type]
      case grown =>
        rw [hputs.size]
        exact hbefore.grown.trans (Nat.le_max_left _ _)

theorem lookup_page (h : Walk k p addr length visits i K) (hx : visits[t]? = some x) :
    ((K t).procs p).pgdir.lookup x.addr = (k.procs p).pgdir.lookup (addr + t * pgSize) := by
  have ht := (List.getElem?_eq_some_iff.mp hx).1
  have hcount := h.paged.count
  have hbelow := h.below
  have halign := h.aligned
  simp only [pgSize, nVma, vmaEnd] at hcount hbelow halign
  rw [h.paged.addr t x hx]
  refine (h.passed ht.le).other _ ?_ fun s hs => ?_
  · simp only [pgSize]
    omega
  · rw [pgSize, Ne, pageOf_add halign (by omega) (by omega)]
    omega

theorem ready_at (h : Walk k p addr length visits i K) (hx : visits[t]? = some x) :
    x.Ready (K t) p := by
  obtain ⟨ht, rfl⟩ := List.getElem?_eq_some_iff.mp hx
  refine (h.passed ht.le).ready.ready _ ?_
  rw [List.drop_eq_getElem_cons ht]
  exact List.mem_cons_self

theorem puts (h : Walk k p addr length visits i K) (hx : visits[t]? = some x) :
    x.Puts (K t) (K (t + 1)) p i (x.place addr t) := by
  have hpassed := h.passed (List.getElem?_eq_some_iff.mp hx).1.le
  refine (h.onPage hx).puts_of_visit (h.ready_at hx) ?_ (h.place_lt hx) (h.turn t x hx)
  rw [hpassed.type]
  exact h.regular

theorem mem_succ (h : Walk k p addr length visits i K) (hx : visits[t]? = some x) :
    (K (t + 1)).mem = match (k.procs p).pgdir.lookup (addr + t * pgSize) with
      | none => (K t).mem
      | some e => (K t).mem.junked e.pa := by
  rw [(h.onPage hx).mem_of_visit (h.turn t x hx), h.lookup_page hx]

/-- The page of a visit that reaches the file is there. -/
theorem exists_entry (h : Walk k p addr length visits i K) (hx : visits[t]? = some x)
    (hreach : 0 < (K t).reach i x (x.place addr t)) :
    ∃ e, (k.procs p).pgdir.lookup (addr + t * pgSize) = some e := by
  have hwritten : x.written = true := by
    by_contra hnot
    rw [Kernel.reach, Visit.target, if_neg hnot, if_neg (by simp)] at hreach
    exact absurd hreach (Nat.lt_irrefl 0)
  obtain ⟨halign, hbelow, hpos, -⟩ := h.onPage hx
  simp only [vmaEnd, nVma, pgSize] at hbelow
  have hthere := (h.ready_at hx).present hwritten 0 (by omega)
  rw [Nat.add_zero, uint, Nat.mod_eq_of_lt (by omega), Pgdir.present, h.lookup_page hx] at hthere
  exact Option.isSome_iff_exists.mp hthere

theorem size_mono (h : Walk k p addr length visits i K) {u : Nat} (htu : t ≤ u)
    (hu : u ≤ visits.length) : ((K t).inodes i).size ≤ ((K u).inodes i).size := by
  induction u with
  | zero =>
      obtain rfl := Nat.le_zero.mp htu
      exact Nat.le_refl _
  | succ u ih =>
      rcases Nat.le_or_eq_of_le_succ htu with hle | rfl
      · obtain ⟨x, hx⟩ : ∃ x, visits[u]? = some x := ⟨_, List.getElem?_eq_getElem (by omega)⟩
        rw [(h.puts hx).size]
        exact (ih hle (by omega)).trans (Nat.le_max_left _ _)
      · exact Nat.le_refl _

end Walk

/-! ## The junk on the way -/

/-- The address lies in a frame that the first `t` pages give back. -/
def Freed (d : Pgdir) (addr t a : Nat) : Prop :=
  ∃ s, s < t ∧ ∃ e, d.lookup (addr + s * pgSize) = some e ∧ e.pa ≤ a ∧ a < e.pa + pgSize

section Junk

variable {k k1 k2 : Kernel} {p : Fin nProc} {addr i t a : Nat} {length : Int}
  {visits : List Visit} {K K1 K2 : Nat → Kernel}

theorem Freed.succ_iff {d : Pgdir} : Freed d addr (t + 1) a ↔ Freed d addr t a ∨
    ∃ e, d.lookup (addr + t * pgSize) = some e ∧ e.pa ≤ a ∧ a < e.pa + pgSize := by
  constructor
  · rintro ⟨s, hs, hframe⟩
    rcases Nat.lt_succ_iff_lt_or_eq.mp hs with hlt | rfl
    · exact Or.inl ⟨s, hlt, hframe⟩
    · exact Or.inr hframe
  · rintro (⟨s, hs, hframe⟩ | hframe)
    · exact ⟨s, Nat.lt_succ_of_lt hs, hframe⟩
    · exact ⟨t, Nat.lt_succ_self t, hframe⟩

/-- Outside the frames that have been given back the memory is as it was. -/
theorem Walk.kept (h : Walk k p addr length visits i K) (ht : t ≤ visits.length)
    (ha : ¬Freed (k.procs p).pgdir addr t a) : (K t).mem.phys a = k.mem.phys a := by
  induction t with
  | zero => rw [h.start]
  | succ t ih =>
      obtain ⟨x, hx⟩ : ∃ x, visits[t]? = some x := ⟨_, List.getElem?_eq_getElem (by omega)⟩
      rw [Freed.succ_iff, not_or] at ha
      rw [h.mem_succ hx, ← ih (by omega) ha.1]
      cases he : (k.procs p).pgdir.lookup (addr + t * pgSize) with
      | none => rfl
      | some e =>
          refine Mem.junked_outside ?_
          by_contra hin
          exact ha.2 ⟨e, he, by omega, by omega⟩

/-- On two ways from the same page table and free list, the memories agree where they did at
the start and in every frame that has been given back. -/
theorem Walk.agree (h1 : Walk k1 p addr length visits i K1)
    (h2 : Walk k2 p addr length visits i K2)
    (hpgdir : (k2.procs p).pgdir = (k1.procs p).pgdir)
    (hlist : k1.mem.freelist = k2.mem.freelist) (ht : t ≤ visits.length) :
    (K1 t).mem.freelist = (K2 t).mem.freelist ∧
      ∀ a, k1.mem.phys a = k2.mem.phys a ∨ Freed (k1.procs p).pgdir addr t a →
        (K1 t).mem.phys a = (K2 t).mem.phys a := by
  induction t with
  | zero =>
      rw [h1.start, h2.start]
      refine ⟨hlist, fun a ha => ha.elim id ?_⟩
      rintro ⟨s, hs, -⟩
      omega
  | succ t ih =>
      obtain ⟨x, hx⟩ : ∃ x, visits[t]? = some x := ⟨_, List.getElem?_eq_getElem (by omega)⟩
      obtain ⟨hfree, hphys⟩ := ih (by omega)
      rw [h1.mem_succ hx, h2.mem_succ hx, hpgdir]
      cases he : (k1.procs p).pgdir.lookup (addr + t * pgSize) with
      | none =>
          refine ⟨hfree, fun a ha => hphys a (ha.imp_right fun hfreed => ?_)⟩
          rcases Freed.succ_iff.mp hfreed with hbefore | ⟨e, he', -⟩
          · exact hbefore
          · rw [he] at he'
            cases he'
      | some e =>
          refine ⟨congrArg (e.pa :: ·) hfree, fun a ha => ?_⟩
          by_cases hin : e.pa ≤ a ∧ a < e.pa + pgSize
          · exact Mem.junked_inside hfree hin.1 hin.2
          · rw [Mem.junked_outside (by omega), Mem.junked_outside (by omega)]
            refine hphys a (ha.imp_right fun hfreed => ?_)
            rcases Freed.succ_iff.mp hfreed with hbefore | ⟨e', he', hlow, hhigh⟩
            · exact hbefore
            · rw [he] at he'
              obtain rfl := Option.some.inj he'
              exact absurd ⟨hlow, hhigh⟩ hin

end Junk

end OSProjects.Xv6
