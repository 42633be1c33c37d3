import OSProjects.Storage.Volumes
import OSProjects.Xv6.Boot

/-!
# What runs of a file system keep

Every data block is marked exactly when one place of one inode has it, and the bytes of a file
are those that the operations on this file alone have left.
-/

namespace OSProjects.Storage

open ByteMemory RedoLog StepSystem Xv6

variable {sb : Superblock} {k : Kernel} {d e : Disk Block} {ip iq : Dinode} {i j : Nat}
  {s t : Volume} {acts : List FsAct}

/-- A disk with nothing in memory. -/
def Volume.mount (d : Disk Block) : Volume := ⟨d, fun _ => none⟩

theorem Volume.Ok.of_run (hd : Sound sb d (sb.dinode d))
    (hrun : Run (FsStep sb k) (.mount d) acts s) : s.Ok sb :=
  hrun.invariant (fun _ _ _ h hstep => h.step hstep) ⟨hd, fun _ _ h => by cases h⟩

/-! ## An empty file system -/

/-- A volume without files is sound. -/
theorem Sound.blank (hzero : ∀ i, i < sb.ninodes →
      (sb.dinode d i).size = 0 ∧ ∀ k, (sb.dinode d i).addrs k = 0)
    (hmarks : ∀ b, b < sb.size → (sb.marked d b = true ↔ ¬ sb.Data b)) :
    Sound sb d (sb.dinode d) where
  exact := by
    have hslot : ∀ x, slot sb d (sb.dinode d) x = none := fun x => if_neg fun hboth =>
      hboth.2 (lookup_of_zero (hzero x.1 hboth.1).2)
    refine ⟨fun x b hx => ?_, fun x y b hx => ?_, fun b hb => ?_⟩
    · rw [hslot] at hx
      cases hx
    · rw [hslot] at hx
      cases hx
    · exact absurd hb.1 ((hmarks b hb.1.2).mp hb.2)
  meta_marked := fun b hb hmeta => (hmarks b hb).mpr hmeta
  fits := fun _ _ => Superblock.dinode_fits
  size := fun i hi => by
    rw [(hzero i hi).1]
    exact Nat.zero_le _
  dense := fun i hi bn hbn => by
    rw [(hzero i hi).1] at hbn
    exact absurd hbn (Nat.not_lt_zero _)
  free := fun i hi _ => (hzero i hi).2

/-- Twenty blocks, of which the first five are no data blocks. -/
def smallSuperblock : Superblock where
  size := 20
  ninodes := 8
  inodestart := 2
  bmapstart := 4
  small := by decide
  inodes_before := by decide

def smallDisk : Disk Block := fun b i => if b = 4 ∧ i.val = 0 then 31 else 0

theorem smallDisk_sound : Sound smallSuperblock smallDisk (smallSuperblock.dinode smallDisk) :=
  .blank (by decide +kernel) (by decide +kernel)

def smallKernel : Kernel := .zero (freeMem 0) (plainInodes []) 0 fun _ => none

/-- The disk with an empty file. -/
def oneFile : Disk Block :=
  smallSuperblock.putDinode smallDisk 1 { Dinode.zero with type := tFile }

/-- A file is made, and a byte written to it. -/
theorem smallDisk_run : ∃ s, Run (FsStep smallSuperblock smallKernel) (.mount smallDisk)
    [.ialloc tFile 1, .ilock 1, .writei 1 0 [7]] s ∧ (s.cached 1).isSome = true := by
  have hmade : ialloc smallSuperblock smallDisk tFile = .ok (1, oneFile) := by
    have hfind : (List.range' 1 (smallSuperblock.ninodes - 1)).find?
        (fun i => (smallSuperblock.dinode smallDisk i).type = 0) = some 1 := by decide +kernel
    rw [ialloc, hfind]
    rfl
  have hlock := (Run.single (FsStep.ialloc (k := smallKernel) (v := .mount smallDisk) (by decide)
    (by decide) hmade)).concat (.ilock (i := 1) (by decide) rfl (by decide +kernel))
  have hwrites : (writei smallSuperblock smallKernel oneFile 1
      (smallSuperblock.dinode oneFile 1) 0 [7]).toBool = true := by decide +kernel
  cases hwrite : writei smallSuperblock smallKernel oneFile 1
      (smallSuperblock.dinode oneFile 1) 0 [7] with
  | error => rw [hwrite] at hwrites; cases hwrites
  | ok r =>
      have hcached : (Volume.setCached { Volume.mount smallDisk with disk := oneFile } 1
          (some (smallSuperblock.dinode oneFile 1))).cached 1 =
          some (smallSuperblock.dinode oneFile 1) := by
        simp only [Volume.setCached, Function.update_self]
      refine ⟨_, hlock.concat (.writei hcached hwrite), ?_⟩
      simp only [Function.update_self]
      rfl

/-! ## Ownership -/

/-- In every run the data blocks in use are those of some inode, and no block has two places.
The inodes in memory are those on the disk. The last `iput` frees the blocks of its inode and
nothing else, without a panic; and `writei` panics only for want of blocks. -/
theorem blocks_exact (hd : Sound sb d (sb.dinode d))
    (hrun : Run (FsStep sb k) (.mount d) acts s) :
    (∀ b, sb.Data b → (sb.marked s.disk b = true ↔
      ∃ i pl, i < sb.ninodes ∧ lookup s.disk (sb.dinode s.disk i) pl = b)) ∧
    (∀ i j pl pk, i < sb.ninodes → j < sb.ninodes → lookup s.disk (sb.dinode s.disk i) pl ≠ 0 →
      lookup s.disk (sb.dinode s.disk j) pk = lookup s.disk (sb.dinode s.disk i) pl →
        j = i ∧ pk = pl) ∧
    ∀ i ip, s.cached i = some ip → ip = sb.dinode s.disk i ∧
      (∃ t, lastPut sb s i ip = .ok t ∧ ∀ c, c < sb.size →
        (sb.marked t.disk c = true ↔ sb.marked s.disk c = true ∧ ¬ Holds s.disk ip c)) ∧
      ∀ off src p, writei sb k s.disk i ip off src = .error p → p = .outOfBlocks := by
  have hok := Volume.Ok.of_run hd hrun
  refine ⟨fun b hb => ⟨fun hm => ?_, ?_⟩, fun i j pl pk hi hj hne hsame =>
    hok.sound.place_unique hi hj hne hsame, fun i ip hvalid => ?_⟩
  · obtain ⟨⟨i, pl⟩, hslot⟩ := hok.sound.exact.owned b ⟨hb, hm⟩
    rw [slot] at hslot
    split at hslot
    · next hboth => exact ⟨i, pl, hboth.1, Option.some.inj hslot⟩
    · cases hslot
  · rintro ⟨i, pl, hi, rfl⟩
    exact (hok.sound.inUse hi hb.pos).2
  · obtain ⟨hi, rfl, _⟩ := hok.cached i ip hvalid
    obtain ⟨e, hput, _, hmarks⟩ := lastPut_spec hok.sound hi
    refine ⟨rfl, ⟨_, hput, hmarks⟩, fun off src p herror => ?_⟩
    rw [writei] at herror
    split at herror
    · split at herror <;> cases herror
    · split at herror
      · cases herror
      · split at herror
        · cases herror
        · next hmax => exact writeLoop_error (Nat.not_lt.mp hmax) (map_error herror)

theorem blocks_exact_run : ∃ s : Volume, (s.cached 1).isSome = true ∧
    ∀ b, smallSuperblock.Data b → (smallSuperblock.marked s.disk b = true ↔
      ∃ i pl, i < smallSuperblock.ninodes ∧
        lookup s.disk (smallSuperblock.dinode s.disk i) pl = b) := by
  obtain ⟨s, hrun, hcached⟩ := smallDisk_run
  exact ⟨s, hcached, (blocks_exact smallDisk_sound hrun).1⟩

/-! ## Contents -/

/-- What an action leaves of the file `i`. -/
def FsAct.leaves (k : Kernel) (i : Nat) (x : Inode) : FsAct → Inode
  | .ialloc type j => if j = i then ⟨inodeType type, 0, 0, fun _ => 0⟩ else x
  | .writei j off src =>
      if j = i then
        match k.writeBytes x (some src) off src.length with
        | .ok r => r.1
        | .error _ => x
      else x
  | .iupdate j major _ _ => if j = i then { x with major := short major } else x
  | .iput j => if j = i then { x with type := .file, size := 0, data := fun _ => 0 } else x
  | _ => x

theorem fileByte_of_zero (h : ∀ k, ip.addrs k = 0) : fileByte d ip = fun _ => 0 :=
  funext fun _ => if_pos (lookup_of_zero h)

theorem Changes.flat_ne (h : Changes sb d i ip e) (hj : j < sb.ninodes) (hji : j ≠ i) :
    flat e (sb.dinode e j) = flat d (sb.dinode d j) := by
  rw [flat, flat, (h.others j hj hji).1, (h.others j hj hji).2]

/-- A step changes the file that it names, as the file alone says. -/
theorem FsStep.leaves {a : FsAct} (h : s.Ok sb) (hstep : FsStep sb k s a t)
    (hj : j < sb.ninodes) :
    flat t.disk (sb.dinode t.disk j) = a.leaves k j (flat s.disk (sb.dinode s.disk j)) := by
  cases hstep with
  | @ialloc type i d htype hshort hdone =>
      obtain ⟨_, _, hchanges⟩ := ialloc_spec h.sound htype hshort hdone
      rw [FsAct.leaves]
      split
      · next heq =>
        subst heq
        simp only [hchanges.self]
        rw [flat, fileByte_of_zero fun _ => rfl]
        rfl
      · next hne => exact hchanges.flat_ne hj (Ne.symm hne)
  | ilock | recycle => rfl
  | readi hvalid hdone =>
      obtain ⟨hi, rfl, _⟩ := h.cached _ _ hvalid
      obtain rfl := Except.ok.inj ((readi_flat h.sound hi).symm.trans hdone)
      rfl
  | @writei i ip off src r hvalid hdone =>
      obtain ⟨hi, rfl, htype⟩ := h.cached _ _ hvalid
      obtain ⟨hflat, hchanges, _⟩ := writei_flat h.sound hi htype hdone
      rw [FsAct.leaves]
      split
      · next heq =>
        subst heq
        rw [hflat, hchanges.self]
      · next hne => exact hchanges.flat_ne hj (Ne.symm hne)
  | @iupdate i ip major minor nlink hvalid hmajor hminor hnlink =>
      obtain ⟨hi, rfl, htype⟩ := h.cached _ _ hvalid
      obtain ⟨hchanges, hbytes⟩ := iupdate_spec h.sound hi htype hmajor hminor hnlink _ rfl
      rw [FsAct.leaves]
      split
      · next heq =>
        subst heq
        simp only [hchanges.self]
        rw [flat, hbytes]
        rfl
      · next hne => exact hchanges.flat_ne hj (Ne.symm hne)
  | @iput t i ip hvalid _ hdone =>
      obtain ⟨hi, rfl, _⟩ := h.cached _ _ hvalid
      obtain ⟨e, hput, hchanges, _⟩ := lastPut_spec h.sound hi
      obtain rfl := Except.ok.inj (hput.symm.trans hdone)
      rw [FsAct.leaves]
      split
      · next heq =>
        subst heq
        simp only [hchanges.self]
        rw [flat, fileByte_of_zero fun _ => rfl]
        rfl
      · next hne => exact hchanges.flat_ne hj (Ne.symm hne)

/-- After every run a file has the bytes that the operations on this file have left, as if it
were flat and alone; and `readi` returns them, without a change to the volume. -/
theorem contents_of_run (hd : Sound sb d (sb.dinode d))
    (hrun : Run (FsStep sb k) (.mount d) acts s) (hi : i < sb.ninodes) :
    flat s.disk (sb.dinode s.disk i) =
        acts.foldl (fun x a => a.leaves k i x) (flat d (sb.dinode d i)) ∧
      ∀ ip off n, s.cached i = some ip → ∃ r, readi sb k s.disk ip off n = .ok r ∧
        (r.result, r.bytes) = k.readi
          (acts.foldl (fun x a => a.leaves k i x) (flat d (sb.dinode d i))) off n ∧
        r.ip = ip ∧ r.disk = s.disk := by
  have hcontents : flat s.disk (sb.dinode s.disk i) =
      acts.foldl (fun x a => a.leaves k i x) (flat d (sb.dinode d i)) := by
    induction hrun with
    | nil => rfl
    | concat hrun hstep ih =>
        rw [hstep.leaves (.of_run hd hrun) hi, ih, List.foldl_append]
        rfl
  refine ⟨hcontents, fun ip off n hvalid => ?_⟩
  have hok := Volume.Ok.of_run hd hrun
  obtain ⟨_, rfl, _⟩ := hok.cached i ip hvalid
  exact ⟨_, readi_flat hok.sound hi, by rw [← hcontents], rfl, rfl⟩

theorem contents_of_run_byte : ∃ s : Volume,
    flat s.disk (smallSuperblock.dinode s.disk 1) =
      [FsAct.ialloc tFile 1, .ilock 1, .writei 1 0 [7]].foldl
        (fun x a => a.leaves smallKernel 1 x)
        (flat smallDisk (smallSuperblock.dinode smallDisk 1)) := by
  obtain ⟨s, hrun, _⟩ := smallDisk_run
  exact ⟨s, (contents_of_run smallDisk_sound hrun (by decide)).1⟩

end OSProjects.Storage
