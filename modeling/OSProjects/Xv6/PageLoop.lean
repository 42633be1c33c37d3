import OSProjects.Xv6.Allocation
import OSProjects.Xv6.Mapping

/-!
# The page loop of `mmap`

A turn takes one frame from the allocator, and one more where the page table is missing.
The loop either places every page or gives all of them back; it never stops for another
reason while the pages are absent and the descriptor leads to an inode.
-/

namespace OSProjects.Xv6

open ByteMemory

variable {k k' : Kernel} {p : Fin nProc} {a : MmapArgs} {addr i : Nat}

/-! ## One turn -/

/-- The call reads no file, or its descriptor is open and leads to an inode. -/
def Kernel.HasFile (k : Kernel) (p : Fin nProc) (a : MmapArgs) : Prop :=
  has a.flags mapAnonymous = true ∨
    ∃ f ip, k.ofileAt p a.fd = .ok (some f) ∧ k.ipOf f = some ip

/-- What `readi` delivers for the page at offset `i`; nothing for an anonymous mapping. -/
def Kernel.mmapBytes (k : Kernel) (p : Fin nProc) (a : MmapArgs) (i : Nat) : List UInt8 :=
  if has a.flags mapAnonymous then []
  else
    match k.ofileAt p a.fd with
    | .ok (some f) =>
        match k.ipOf f with
        | none => []
        | some ip => (k.readi (k.inodes ip) i pgSize).2
    | _ => []

@[simp] theorem Kernel.ofileAt_setSpace (k : Kernel) (p : Fin nProc) (s : Space) (fd : Int) :
    (k.setSpace p s).ofileAt p fd = k.ofileAt p fd := by simp [Kernel.ofileAt]

@[simp] theorem Kernel.ipOf_setSpace (k : Kernel) (p : Fin nProc) (s : Space) (f : Fin nFile) :
    (k.setSpace p s).ipOf f = k.ipOf f := rfl

@[simp] theorem Kernel.hasFile_setSpace (k : Kernel) (p : Fin nProc) (s : Space)
    (a : MmapArgs) : (k.setSpace p s).HasFile p a ↔ k.HasFile p a := by simp [Kernel.HasFile]

@[simp] theorem Kernel.readi_setSpace (k : Kernel) (p : Fin nProc) (s : Space) (ip : Inode)
    (off n : Nat) : (k.setSpace p s).readi ip off n = k.readi ip off n := rfl

@[simp] theorem Kernel.mmapBytes_setSpace (k : Kernel) (p : Fin nProc) (s : Space)
    (a : MmapArgs) (i : Nat) : (k.setSpace p s).mmapBytes p a i = k.mmapBytes p a i := by
  simp [Kernel.mmapBytes]

@[simp] theorem Mem.storeBytes_nil (m : Mem) (f : Nat) : m.storeBytes f [] = m := by
  simp only [Mem.storeBytes]
  congr
  funext b
  simp [Store.apply]

/-- A turn that maps the page also fills it. -/
theorem mmapPage_of_mapPage {frame : Nat} {mem : Mem} {s : Space} (hfile : k.HasFile p a)
    (halign : (addr + i) % 4096 = 0) (hlt : addr + i < 2 ^ 32)
    (hk : k.mem.kalloc = some (frame, mem))
    (hm : Space.mapPage ⟨mem.zeroPage frame, (k.procs p).pgdir⟩ (addr + i) frame
      (pteW ||| pteU) = .ok (s, true)) :
    k.mmapPage p a addr i = .ok (k.setSpace p
      ⟨s.mem.storeBytes frame (k.mmapBytes p a i), s.pgdir⟩, true) := by
  have hva : uint (addr + i) = addr + i := Nat.mod_eq_of_lt hlt
  rw [Kernel.mmapPage, hk]
  simp only [hva, Space.mappages_aligned halign hlt, hm]
  cases hanon : has a.flags mapAnonymous with
  | true => simp [Kernel.mmapBytes, hanon]
  | false =>
      obtain ⟨f, ip, hf, hip⟩ : ∃ f ip, k.ofileAt p a.fd = .ok (some f) ∧ k.ipOf f = some ip := by
        simpa [Kernel.HasFile, hanon] using hfile
      simp only [Bool.false_eq_true, if_false, Kernel.mmapRead, Kernel.ofileAt_setSpace, hf,
        Kernel.ipOf_setSpace, hip, Kernel.mmapBytes, hanon, Kernel.setMem_eq_setSpace _ p,
        Kernel.setSpace_setSpace]
      simp

/-! ## The pages that the loop has placed -/

/-- The loop has placed the pages from `addr` on in `frames`. -/
structure Placed (k : Kernel) (p : Fin nProc) (a : MmapArgs) (addr : Nat)
    (frames tables : List Nat) (k' : Kernel) : Prop where
  space : ∃ s, k' = k.setSpace p s
  taken : PagesTaken (k.space p) addr (pteW ||| pteU) frames tables (k'.space p)
  contents : k.mem.Sound → k.mem.freelist.Nodup →
    (∀ i, (k.mmapBytes p a i).length ≤ pgSize) → ∀ m f, frames[m]? = some f → ∀ b, b < pgSize →
      k'.mem.phys (f + b) = (k.mmapBytes p a (m * 4096)).getD b 0

namespace Placed

variable {frames tables : List Nat}

theorem nil (k : Kernel) (p : Fin nProc) (a : MmapArgs) (addr : Nat) :
    Placed k p a addr [] [] k :=
  ⟨⟨k.space p, (k.setSpace_space p).symm⟩, .nil _ _ _, by simp⟩

theorem mmapBytes (h : Placed k p a addr frames tables k') (i : Nat) :
    k'.mmapBytes p a i = k.mmapBytes p a i := by
  obtain ⟨s, rfl⟩ := h.space
  simp

theorem hasFile (h : Placed k p a addr frames tables k') : k'.HasFile p a ↔ k.HasFile p a := by
  obtain ⟨s, rfl⟩ := h.space
  simp

/-- A page behind the placed ones is as it was. -/
theorem lookup_next (h : Placed k p a addr frames tables k') (halign : addr % 4096 = 0)
    {m : Nat} (hm : frames.length ≤ m) (hlt : m < 2 ^ 20) :
    (k'.procs p).pgdir.lookup (addr + m * 4096) =
      (k.procs p).pgdir.lookup (addr + m * 4096) :=
  h.taken.other _ fun j hj heq =>
    absurd ((pageOf_add halign hlt (by omega)).mp heq) (by omega)

/-- One more page. -/
theorem snoc {frame : Nat} {mem : Mem} {s : Space} (h : Placed k p a addr frames tables k')
    (halign : addr % 4096 = 0) (hlen : frames.length < 2 ^ 20)
    (hk : k'.mem.kalloc = some (frame, mem))
    (hm : Space.mapPage ⟨mem.zeroPage frame, (k'.procs p).pgdir⟩
      (addr + frames.length * 4096) frame (pteW ||| pteU) = .ok (s, true)) :
    ∃ tables', Placed k p a addr (frames ++ [frame]) (tables ++ tables') (k'.setSpace p
      ⟨s.mem.storeBytes frame (k'.mmapBytes p a (frames.length * 4096)), s.pgdir⟩) := by
  have hkalloc := Mem.kalloc_eq_some hk
  obtain ⟨tables', htaken⟩ := @PageTaken.of_mapPage (k'.space p) (mem.zeroPage frame) _ _ _ _
    hkalloc.freelist hkalloc.imageEnd hm
  obtain ⟨-, -, took, htook⟩ := Space.mapPage_eq_true hm
  obtain ⟨s1, hs1⟩ := h.space
  have hpages := h.taken.snoc htaken halign hlen
  refine ⟨tables', ⟨_, by rw [hs1, Kernel.setSpace_setSpace]⟩,
    hpages.congr (by simp) (by simp [Mem.storeBytes]) (by simp [Mem.storeBytes]), ?_⟩
  intro hsound hnodup hbytes m f hf b hb
  have hall : (frames ++ [frame]).Nodup :=
    (hpages.freelist.nodup_iff.mp hnodup).sublist (List.sublist_append_left _ _)
  have hmod : ∀ g ∈ frames ++ [frame], g % 4096 = 0 := fun g hg =>
    (hsound.freeable g (hpages.freelist.mem_iff.mpr (List.mem_append_left _ hg))).1
  have hlen4096 := hbytes (frames.length * 4096)
  simp only [pgSize] at hb hlen4096
  have hphys : (k'.setSpace p ⟨s.mem.storeBytes frame
      (k'.mmapBytes p a (frames.length * 4096)), s.pgdir⟩).mem.phys =
      Store.apply ⟨frame, k.mmapBytes p a (frames.length * 4096)⟩
        (fill k'.mem.phys frame 4096 0) := by
    rw [h.mmapBytes]
    simp [Mem.storeBytes, htook.phys, Mem.zeroPage, hkalloc.phys]
  rw [hphys]
  rcases getElem?_concat_cases hf with ⟨hlt, hf⟩ | ⟨rfl, rfl⟩
  · -- An earlier page lies in another frame.
    have hmem : f ∈ frames := List.mem_of_getElem? hf
    have hne : f ≠ frame := fun heq =>
      (List.nodup_append.mp hall).2.2 f hmem frame (List.mem_singleton_self _) heq
    have hf0 := hmod f (List.mem_append_left _ hmem)
    have hframe0 := hmod frame (List.mem_append_right _ (List.mem_singleton_self _))
    have hout : f + b < frame ∨ frame + 4096 ≤ f + b := by omega
    have hstore : Store.apply ⟨frame, k.mmapBytes p a (frames.length * 4096)⟩
        (fill k'.mem.phys frame 4096 0) (f + b) = fill k'.mem.phys frame 4096 0 (f + b) := by
      rcases hout with hbelow | habove
      · exact Store.apply_of_lt _ _ hbelow
      · exact Store.apply_of_stop_le _ _ (by simp only [Store.stop]; omega)
    rw [hstore, fill_of_outside hout]
    exact h.contents hsound hnodup hbytes m f hf b hb
  · simp only [Store.apply, Nat.le_add_right, if_true, Nat.add_sub_cancel_left, List.getD,
      fill_at hb]

end Placed

/-! ## Giving up -/

/-- The pages are what they were, and only frames of new page tables have left the free
list. -/
structure Restored (k : Kernel) (p : Fin nProc) (tables : List Nat) (k' : Kernel) : Prop where
  space : ∃ s, k' = k.setSpace p s
  lookup : ∀ b, (k'.procs p).pgdir.lookup b = (k.procs p).pgdir.lookup b
  freelist : k.mem.freelist.Perm (tables ++ k'.mem.freelist)
  new : ∀ f ∈ tables, ∃ i, i < 1024 ∧ (k.procs p).pgdir.tableFrame i = none ∧
    (k'.procs p).pgdir.tableFrame i = some f

/-- What `deallocuvm` makes of placed pages. -/
theorem PagesTaken.dealloc {s s1 : Space} {perm oldsz : Nat} {frames tables : List Nat}
    (h : PagesTaken s addr perm frames tables s1) (s2 : Space) (hpgdir : s2.pgdir = s1.pgdir)
    (himage : s2.mem.imageEnd = s1.mem.imageEnd) (hsound : s.mem.Sound)
    (halign : addr % 4096 = 0) (hbound : addr + frames.length * 4096 < 0xFFC00000)
    (hle : addr + frames.length * 4096 ≤ oldsz)
    (hend : oldsz ≤ addr + frames.length * 4096 + 4096)
    (hlast : addr + frames.length * 4096 < oldsz →
      s1.pgdir.table (pdx (addr + frames.length * 4096)) = none) :
    ∃ s3, s2.dealloc oldsz addr = .ok s3 ∧ (∀ b, s3.pgdir.lookup b = s.pgdir.lookup b) ∧
      PagesFreed s2 addr frames s3 := by
  have hfree := h.freeable hsound
  obtain ⟨s3, hd, hfreed⟩ := Space.dealloc_pages halign hle hend hbound (hpgdir ▸ hlast)
    (fun m f hf => by rw [hpgdir, h.mapped m f hf, Option.map_some])
    (fun f hf => ⟨(hfree f hf).congr himage,
      (hfree f hf).ne_zero (h.imageEnd ▸ hsound.image)⟩)
  refine ⟨s3, hd, fun b => ?_, hfreed⟩
  by_cases hb : ∃ m, m < frames.length ∧ pageOf b = pageOf (addr + m * 4096)
  · obtain ⟨m, hm, hpage⟩ := hb
    rw [Pgdir.lookup_congr _ hpage, Pgdir.lookup_congr _ hpage, hfreed.absent m hm,
      h.absent m hm]
  · have hout : ∀ m, m < frames.length → pageOf b ≠ pageOf (addr + m * 4096) :=
      fun m hm heq => hb ⟨m, hm, heq⟩
    rw [hfreed.other b hout, hpgdir, h.other b hout]

/-- If the allocator cannot serve the next page, everything is given back. -/
theorem Placed.fails {frames tables : List Nat} (h : Placed k p a addr frames tables k')
    (hsound : k.mem.Sound) (halign : addr % 4096 = 0)
    (hbound : addr + frames.length * 4096 < 0xFFBFF000)
    (hfail : k'.mem.freelist.length <
      pageNeeds (k'.procs p).pgdir (addr + frames.length * 4096)) :
    ∃ k'', k'.mmapPage p a addr (frames.length * 4096) = .ok (k'', false) ∧
      Restored k p tables k'' := by
  obtain ⟨s0, hs0⟩ := h.space
  have hva : uint (addr + frames.length * 4096) = addr + frames.length * 4096 :=
    Nat.mod_eq_of_lt (by omega)
  have hspace : ∀ s, ∃ s1, k'.setSpace p s = k.setSpace p s1 := fun s =>
    ⟨s, by rw [hs0, Kernel.setSpace_setSpace]⟩
  have hnew : ∀ d : Pgdir, (∀ i, d.tableFrame i = (k'.procs p).pgdir.tableFrame i) →
      ∀ g ∈ tables, ∃ i, i < 1024 ∧ (k.procs p).pgdir.tableFrame i = none ∧
        d.tableFrame i = some g := by
    intro d hd g hg
    obtain ⟨i, hi, hnone, hsome⟩ := h.taken.new g hg
    exact ⟨i, hi, hnone, (hd i).trans hsome⟩
  -- The placed frames come back in the order in which they are freed.
  have hperm : ∀ l, l = frames.reverse ++ k'.mem.freelist →
      k.mem.freelist.Perm (tables ++ l) := by
    rintro l rfl
    refine h.taken.freelist.trans ?_
    rw [← List.append_assoc, ← List.append_assoc]
    exact (List.perm_append_comm.trans
      ((List.reverse_perm frames).symm.append_left tables)).append_right _
  have hcases : k'.mem.freelist = [] ∨ ∃ f, k'.mem.freelist = [f] ∧
      (k'.procs p).pgdir.table (pdx (addr + frames.length * 4096)) = none :=
    lt_pageNeeds_cases (s := k'.space p) hfail
  rcases hcases with hnil | ⟨f, hf, ht⟩
  · obtain ⟨s, hd, hlookup, hfreed⟩ := h.taken.dealloc (k'.space p) rfl rfl hsound halign
      (by omega) le_rfl (by omega) (fun hlt => absurd hlt (lt_irrefl _))
    refine ⟨k'.setSpace p s, ?_, hspace s, by simpa [Kernel.space] using hlookup, hperm _ ?_,
      hnew _ (by simpa [Kernel.space] using hfreed.tableFrame)⟩
    · rw [Kernel.mmapPage, Mem.kalloc_nil hnil]
      simp only [hva, hd]
    · rw [Kernel.mem_setSpace, hfreed.freelist]
      rfl
  · have hk : k'.mem.kalloc = some (f, { k'.mem with freelist := [] }) := Mem.kalloc_cons hf
    have hmap : Space.mappages ⟨Mem.zeroPage { k'.mem with freelist := [] } f,
        (k'.procs p).pgdir⟩ (addr + frames.length * 4096) pgSize f (pteW ||| pteU) =
        .ok (⟨Mem.zeroPage { k'.mem with freelist := [] } f, (k'.procs p).pgdir⟩, false) := by
      rw [Space.mappages_aligned (by omega) (by omega)]
      exact Space.mapPage_of_none ht (Mem.kalloc_nil rfl)
    have hvanext : uint (addr + frames.length * 4096 + pgSize) =
        addr + frames.length * 4096 + 4096 := Nat.mod_eq_of_lt (by simp only [pgSize]; omega)
    obtain ⟨s, hd, hlookup, hfreed⟩ := h.taken.dealloc
      ⟨Mem.zeroPage { k'.mem with freelist := [] } f, (k'.procs p).pgdir⟩ rfl rfl
      hsound halign (by omega) (by omega) le_rfl (fun _ => ht)
    have hfreeable : s.mem.Freeable f := by
      have hmem : f ∈ k.mem.freelist := h.taken.freelist.mem_iff.mpr (by
        simp [Kernel.space, hf])
      exact (hsound.freeable f hmem).congr (hfreed.imageEnd.trans h.taken.imageEnd)
    obtain ⟨mem, hmem⟩ := Mem.exists_kfree hfreeable
    have hlast := (Mem.kfree_eq_ok hmem).2
    refine ⟨k'.setSpace p ⟨mem, s.pgdir⟩, ?_, hspace _, by simpa [Kernel.space] using hlookup, ?_,
      hnew _ (by simpa [Kernel.space] using hfreed.tableFrame)⟩
    · rw [Kernel.mmapPage, hk]
      simp only [hva, hmap, hvanext, hd, hmem]
    · have hfl : mem.freelist = f :: frames.reverse := by
        rw [hlast.freelist, hfreed.freelist]
        simp [Mem.zeroPage]
      have hall := hperm _ rfl
      rw [hf] at hall
      rw [Kernel.mem_setSpace, hfl]
      exact hall.trans (List.perm_append_comm.append_left tables)

/-- A page that is there already is mapped again. -/
theorem mmapPage_remap {frame : Nat} {mem : Mem} (halign : (addr + i) % 4096 = 0)
    (hlt : addr + i < 2 ^ 32) (hk : k.mem.kalloc = some (frame, mem))
    (hpresent : (k.procs p).pgdir.present (addr + i) = true) :
    k.mmapPage p a addr i = .error .remap := by
  have hva : uint (addr + i) = addr + i := Nat.mod_eq_of_lt hlt
  rw [Kernel.mmapPage, hk]
  simp only [hva, Space.mappages_aligned halign hlt]
  rw [Space.mapPage_of_present (s := ⟨mem.zeroPage frame, (k.procs p).pgdir⟩) hpresent]

/-! ## The loop -/

/-- As long as the frames suffice, the loop places the absent pages. -/
theorem exists_placed (hfile : k.HasFile p a) (halign : addr % 4096 = 0) {m : Nat}
    (hbound : addr + m * 4096 ≤ 2 ^ 32)
    (habsent : ∀ j, j < m → (k.procs p).pgdir.lookup (addr + j * 4096) = none)
    (hframes : framesNeeded (k.procs p).pgdir addr m ≤ k.mem.freelist.length) :
    ∃ frames tables k', frames.length = m ∧ Placed k p a addr frames tables k' ∧
      ∀ n, k.mmapLoop p a addr (m + n) 0 = k'.mmapLoop p a addr n (m * 4096) := by
  induction m with
  | zero => exact ⟨[], [], k, rfl, .nil k p a addr, fun n => by rw [Nat.zero_add, Nat.zero_mul]⟩
  | succ m ih =>
      have hless : framesNeeded (k.procs p).pgdir addr m <
          framesNeeded (k.procs p).pgdir addr (m + 1) := framesNeeded_lt (Nat.lt_succ_self m)
      rw [Nat.succ_mul, ← Nat.add_assoc] at hbound
      obtain ⟨frames, tables, k1, rfl, hplaced, hloop⟩ :=
        ih (by omega) (fun j hj => habsent j (by omega)) (by omega)
      have hneeded := hplaced.taken.framesNeeded_succ
      have hlength := hplaced.taken.length_freelist
      have hnext : (k1.procs p).pgdir.lookup (addr + frames.length * 4096) = none := by
        rw [hplaced.lookup_next halign le_rfl (by omega)]
        exact habsent _ (by omega)
      obtain ⟨frame, mem, s, hk, hm⟩ := exists_mapPage (s := k1.space p) (pteW ||| pteU) hnext
        (by simp only [Kernel.space] at hneeded hlength ⊢; omega)
      obtain ⟨tables', hsnoc⟩ := hplaced.snoc halign (by omega) hk hm
      refine ⟨_, _, _, by simp, hsnoc, fun n => ?_⟩
      have hturn := mmapPage_of_mapPage (hplaced.hasFile.mpr hfile) (by omega) (by omega) hk hm
      rw [show frames.length + 1 + n = frames.length + (n + 1) by omega, hloop (n + 1),
        Kernel.mmapLoop, hturn]
      simp only [pgSize, Nat.succ_mul]

theorem framesNeeded_zero (d : Pgdir) (addr : Nat) : framesNeeded d addr 0 = 0 := by
  simp [framesNeeded, missingTables]

/-- The turn at which the frames run out. -/
theorem exists_failing_turn {d : Pgdir} {addr n len : Nat} (h : len < framesNeeded d addr n) :
    ∃ m, m < n ∧ framesNeeded d addr m ≤ len ∧ len < framesNeeded d addr (m + 1) := by
  induction n with
  | zero => rw [framesNeeded_zero] at h; omega
  | succ n ih =>
      rcases Nat.lt_or_ge len (framesNeeded d addr n) with hlt | hge
      · obtain ⟨m, hm, hle, hgt⟩ := ih hlt
        exact ⟨m, by omega, hle, hgt⟩
      · exact ⟨n, by omega, hge, h⟩

/-- Where the frames run out before a page that is there already, the pages placed so far
are given back. -/
theorem mmapLoop_fails {m n : Nat} (hsound : k.mem.Sound) (halign : addr % 4096 = 0)
    (hbound : addr + m * 4096 < 0xFFBFF000) (hm : m < n) (hfile : 0 < m → k.HasFile p a)
    (habsent : ∀ j, j < m → (k.procs p).pgdir.lookup (addr + j * 4096) = none)
    (hframes : framesNeeded (k.procs p).pgdir addr m ≤ k.mem.freelist.length)
    (hout : k.mem.freelist.length < framesNeeded (k.procs p).pgdir addr (m + 1)) :
    ∃ tables k', k.mmapLoop p a addr n 0 = .ok (k', false) ∧ Restored k p tables k' := by
  have hplaced : ∃ frames tables k1, frames.length = m ∧ Placed k p a addr frames tables k1 ∧
      ∀ n, k.mmapLoop p a addr (m + n) 0 = k1.mmapLoop p a addr n (m * 4096) := by
    rcases Nat.eq_zero_or_pos m with rfl | hpos
    · exact ⟨[], [], k, rfl, .nil k p a addr, fun n => by rw [Nat.zero_add, Nat.zero_mul]⟩
    · exact exists_placed (hfile hpos) halign (by omega) habsent hframes
  obtain ⟨frames, tables, k1, rfl, hplaced, hloop⟩ := hplaced
  have hneeded := hplaced.taken.framesNeeded_succ
  have hlength := hplaced.taken.length_freelist
  obtain ⟨k2, hturn, hrestored⟩ := hplaced.fails hsound halign hbound (by
    simp only [Kernel.space] at hneeded hlength ⊢
    omega)
  refine ⟨tables, k2, ?_, hrestored⟩
  have hrest := hloop (n - frames.length - 1 + 1)
  rw [show frames.length + (n - frames.length - 1 + 1) = n by omega] at hrest
  rw [hrest, Kernel.mmapLoop, hturn]

/-- Over absent pages the loop places all of them or gives all of them back, and which of
the two happens depends on the number of free frames only. -/
theorem mmapLoop_places {n : Nat} (hsound : k.mem.Sound) (hfile : k.HasFile p a)
    (halign : addr % 4096 = 0) (hbound : addr + n * 4096 ≤ 0xFE000000)
    (habsent : ∀ j, j < n → (k.procs p).pgdir.lookup (addr + j * 4096) = none) :
    (framesNeeded (k.procs p).pgdir addr n ≤ k.mem.freelist.length ∧
      ∃ frames tables k', frames.length = n ∧ Placed k p a addr frames tables k' ∧
        k.mmapLoop p a addr n 0 = .ok (k', true)) ∨
    (k.mem.freelist.length < framesNeeded (k.procs p).pgdir addr n ∧
      ∃ tables k', k.mmapLoop p a addr n 0 = .ok (k', false) ∧ Restored k p tables k') := by
  rcases Nat.lt_or_ge k.mem.freelist.length (framesNeeded (k.procs p).pgdir addr n) with
    hout | hframes
  · obtain ⟨m, hm, hle, hgt⟩ := exists_failing_turn hout
    have hmul : m * 4096 ≤ n * 4096 := Nat.mul_le_mul_right _ (by omega)
    exact Or.inr ⟨hout, mmapLoop_fails hsound halign (by omega) hm (fun _ => hfile)
      (fun j hj => habsent j (by omega)) hle hgt⟩
  · obtain ⟨frames, tables, k', hlen, hplaced, hloop⟩ :=
      exists_placed hfile halign (by omega) habsent hframes
    refine Or.inl ⟨hframes, frames, tables, k', hlen, hplaced, ?_⟩
    have hall := hloop 0
    rwa [Nat.add_zero, Kernel.mmapLoop] at hall

end OSProjects.Xv6
