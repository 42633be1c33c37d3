import OSProjects.Foundation.StepSystem
import OSProjects.Storage.Links

/-!
# Runs of the calls on directories

The calls of all processes on the directories of a volume, in any order. A step is a stretch of a
call in which the inodes that it changes are locked; `sys_link` has two of them. An inode without
links can be freed at any time.
-/

namespace OSProjects.Storage

open ByteMemory RedoLog StepSystem Xv6

variable {sb : Superblock} {k : Kernel} {d e : Disk Block} {i j n : Nat} {name : List UInt8}

/-- The disk, and how many calls of `sys_link` have raised the count of an inode and not yet made
their entry. -/
structure Directories where
  disk : Disk Block
  linking : Nat → Nat

inductive DirAct
  /-- `create` in the directory `i`. -/
  | create (i : Nat) (name : List UInt8) (type major minor : Nat)
  /-- `ip->nlink++` of `sys_link`. -/
  | linkFirst (j : Nat)
  /-- `dirlink(dp, name, ip->inum)` of `sys_link`. -/
  | linkEntry (i : Nat) (name : List UInt8) (j : Nat)
  /-- `bad` of `sys_link`. -/
  | linkBad (j : Nat)
  | unlink (i : Nat) (name : List UInt8)
  | writei (i off : Nat) (src : List UInt8)
  /-- The last `iput` of an inode without links. -/
  | iput (i : Nat)

/-- One step. A directory was found to be one by `nameiparent`. -/
inductive DirStep (sb : Superblock) (k : Kernel) : Directories → DirAct → Directories → Prop
  | create {s : Directories} {i name type major minor r e} (hi : i < sb.ninodes)
      (hdir : (sb.dinode s.disk i).type = tDir) (htype : type ≠ 0) (hshort : type < 2 ^ 16)
      (hmajor : major < 2 ^ 16) (hminor : minor < 2 ^ 16)
      (hdone : create sb k s.disk i name type major minor = .ok (r, e)) :
      DirStep sb k s (.create i name type major minor) { s with disk := e }
  | linkFirst {s : Directories} {j} (hj : j < sb.ninodes) (htype : (sb.dinode s.disk j).type ≠ 0)
      (hfile : (sb.dinode s.disk j).type ≠ tDir) :
      DirStep sb k s (.linkFirst j)
        ⟨sb.putDinode s.disk j
          { sb.dinode s.disk j with nlink := incLink (sb.dinode s.disk j).nlink },
          Function.update s.linking j (s.linking j + 1)⟩
  | linkEntry {s : Directories} {i name j w} (hi : i < sb.ninodes)
      (hdir : (sb.dinode s.disk i).type = tDir) (hj : 0 < s.linking j)
      (hdone : dirlink sb k s.disk i (sb.dinode s.disk i) name j = .ok w) (hnew : w.result = 0) :
      DirStep sb k s (.linkEntry i name j)
        ⟨w.disk, Function.update s.linking j (s.linking j - 1)⟩
  | linkBad {s : Directories} {j} (hj : 0 < s.linking j) :
      DirStep sb k s (.linkBad j)
        ⟨sb.putDinode s.disk j
          { sb.dinode s.disk j with nlink := decLink (sb.dinode s.disk j).nlink },
          Function.update s.linking j (s.linking j - 1)⟩
  | unlink {s : Directories} {i name r e} (hi : i < sb.ninodes)
      (hdir : (sb.dinode s.disk i).type = tDir) (hdone : unlink sb k s.disk i name = .ok (r, e)) :
      DirStep sb k s (.unlink i name) { s with disk := e }
  | writei {s : Directories} {i off src w} (hi : i < sb.ninodes)
      (htype : (sb.dinode s.disk i).type ≠ 0) (hfile : (sb.dinode s.disk i).type ≠ tDir)
      (hdone : writei sb k s.disk i (sb.dinode s.disk i) off src = .ok w) :
      DirStep sb k s (.writei i off src) { s with disk := w.disk }
  | iput {s : Directories} {i t} (hi : i < sb.ninodes) (htype : (sb.dinode s.disk i).type ≠ 0)
      (hnlink : (sb.dinode s.disk i).nlink = 0)
      (hdone : lastPut sb (.mount s.disk) i (sb.dinode s.disk i) = .ok t) :
      DirStep sb k s (.iput i) { s with disk := t.disk }

/-- No entry is put into a directory that has been removed, and no count outgrows a `short`. A
call of `create` that finds the name puts no entry, and only a directory adds a link. -/
def DirAct.Tidy (sb : Superblock) (s : Directories) : DirAct → Prop
  | .create i name type _ _ =>
      (tree sb s.disk i).ls.find? (matching name) = none → (sb.dinode s.disk i).nlink ≠ 0 ∧
        (type = tDir → (sb.dinode s.disk i).nlink + 1 < 2 ^ 15)
  | .linkFirst j => (sb.dinode s.disk j).nlink + 1 < 2 ^ 15
  | .linkEntry i _ _ => (sb.dinode s.disk i).nlink ≠ 0
  | _ => True

/-- The volume is sound and its link counts are right. -/
structure Directories.Ok (sb : Superblock) (s : Directories) : Prop where
  sound : Sound sb s.disk (sb.dinode s.disk)
  linked : Linked sb.ninodes (tree sb s.disk) s.linking

namespace Directories.Ok

variable {s t : Directories}

theorem isDir (h : s.Ok sb) (hi : i < sb.ninodes) (hdir : (sb.dinode s.disk i).type = tDir) :
    IsDir sb s.disk i := by
  have htype := (tree_type hi).trans hdir
  exact ⟨h.sound, hi, htype, (h.linked.dirs i htype).1⟩

/-- What `sys_unlink` finds can be unlinked. -/
theorem found (h : s.Ok sb) (hdir : IsDir sb s.disk i) (hdot : namecmp name dot = false)
    (hdotdot : namecmp name dotdot = false) {de : List UInt8}
    (hfind : (tree sb s.disk i).ls.find? (matching name) = some de) :
    ((tree sb s.disk i).ls.drop 2)[((tree sb s.disk i).ls.drop 2).findIdx (matching name)]? =
        some de ∧
      entryInum de ≠ 0 ∧ Unlinkable sb s.disk i (entryInum de) := by
  obtain ⟨_, hdots⟩ := h.linked.dirs i hdir.type
  have hslot : ((tree sb s.disk i).ls.drop 2)[
      ((tree sb s.disk i).ls.drop 2).findIdx (matching name)]? = some de := by
    rw [← (hdots.find hdot hdotdot).2, hfind]
  have htaken : entryInum de ≠ 0 :=
    taken_iff.mp (Bool.and_eq_true_iff.mp (List.find?_some (p := matching name) hfind)).1
  have hkid : entryInum de ∈ (tree sb s.disk i).kids :=
    (inums_set hslot htaken).mem_iff.mpr List.mem_cons_self
  have hnamed := h.linked.kid_named hkid
  have hused : (tree sb s.disk (entryInum de)).type ≠ 0 :=
    h.linked.in_use (Nat.lt_of_lt_of_le hnamed (Nat.le_add_right _ _))
  refine ⟨hslot, htaken, (h.linked.inside hused).2, fun heq => h.linked.apart i (heq ▸ hkid), hused,
    ?_, fun hkind => (h.linked.dirs _ hkind).1⟩
  have hcount := h.linked.count (entryInum de)
  rw [short, if_pos (h.linked.small _)]
  omega

/-- `sys_unlink` never panics. -/
theorem unlink_returns (h : s.Ok sb) (hi : i < sb.ninodes)
    (hdir : (sb.dinode s.disk i).type = tDir) :
    ∃ r e, unlink sb k s.disk i name = .ok (r, e) := by
  by_cases hdots : namecmp name dot || namecmp name dotdot
  · exact ⟨none, s.disk, by rw [unlink, if_pos hdots]⟩
  · obtain ⟨hdot, hdotdot⟩ := Bool.or_eq_false_iff.mp (Bool.not_eq_true _ ▸ hdots)
    have hd := h.isDir hi hdir
    obtain ⟨r, e, hdone, _⟩ := hd.unlink (k := k) name fun de hde =>
      (h.found hd hdot hdotdot hde).2.2
    exact ⟨r, e, hdone⟩

theorem unlink (h : s.Ok sb) (hi : i < sb.ninodes) (hdir : (sb.dinode s.disk i).type = tDir)
    {r : Option Nat} (hdone : Storage.unlink sb k s.disk i name = .ok (r, e)) :
    Sound sb e (sb.dinode e) ∧
      TreeStep sb.ninodes (tree sb s.disk) s.linking (tree sb e) s.linking := by
  have hd := h.isDir hi hdir
  by_cases hdots : namecmp name dot || namecmp name dotdot
  · rw [Storage.unlink, if_pos hdots] at hdone
    obtain ⟨rfl, rfl⟩ := Prod.mk.inj (Except.ok.inj hdone)
    exact ⟨h.sound, .stay⟩
  · obtain ⟨hdot, hdotdot⟩ := Bool.or_eq_false_iff.mp (Bool.not_eq_true _ ▸ hdots)
    obtain ⟨r', e', hdone', hcases⟩ := hd.unlink (k := k) name fun de hde =>
      (h.found hd hdot hdotdot hde).2.2
    obtain ⟨rfl, rfl⟩ := Prod.mk.inj (Except.ok.inj (hdone'.symm.trans hdone))
    rcases hcases with ⟨_, rfl⟩ | ⟨de, _, _, _, hfind, hempty, hsound, htree⟩
    · exact ⟨h.sound, .stay⟩
    · obtain ⟨hslot, htaken, _⟩ := h.found hd hdot hdotdot hfind
      obtain ⟨_, hentries⟩ := h.linked.dirs i hd.type
      refine ⟨hsound, ?_⟩
      rw [htree, (hentries.find hdot hdotdot).1]
      refine .unlink hd.type hslot rfl htaken fun hkind => ?_
      rw [Node.kids, inums, List.filter_eq_nil_iff]
      intro a ha
      obtain ⟨x, hx, rfl⟩ := List.mem_map.mp ha
      have hnot := List.find?_eq_none.mp (hempty hkind) x hx
      simpa [taken] using hnot

/-- A file that is written stays where it is. -/
theorem writei_becomes {off : Nat} {src : List UInt8} {w : WriteDone}
    (hs : Sound sb d (sb.dinode d)) (hi : i < sb.ninodes) (htype : (sb.dinode d i).type ≠ 0)
    (hfile : (sb.dinode d i).type ≠ tDir)
    (hdone : Storage.writei sb k d i (sb.dinode d i) off src = .ok w) :
    Becomes sb d i (tree sb d i) w.disk := by
  have hstays : Becomes sb d i (tree sb d i) d :=
    ⟨hs, (Function.update_eq_self i _).symm, fun _ _ _ => rfl⟩
  rw [Storage.writei] at hdone
  split at hdone
  · split at hdone <;> obtain rfl := Except.ok.inj hdone <;> exact hstays
  · split at hdone
    · obtain rfl := Except.ok.inj hdone
      exact hstays
    · next hin =>
      split at hdone
      · obtain rfl := Except.ok.inj hdone
        exact hstays
      · next hmax =>
        obtain ⟨hoff, _⟩ := not_or.mp hin
        obtain ⟨hchanges, _, halike, _⟩ :=
          writei_spec hs hi htype (Nat.not_lt.mp hoff) (Nat.not_lt.mp hmax) hdone
        have hkind : w.ip.type = (sb.dinode d i).type := halike.type
        have hlinks : w.ip.nlink = (sb.dinode d i).nlink := halike.nlink
        have hnode : node w.disk w.ip = tree sb d i := by
          rw [tree_eq hi, node, node, hkind, hlinks, if_neg hfile, if_neg hfile, if_neg hfile,
            if_neg hfile]
        rw [← hnode]
        exact hchanges.becomes hi

/-- The calls on the disk are steps of the tree. -/
theorem tree_step {a : DirAct} (hn : sb.ninodes ≤ 2 ^ 16) (h : s.Ok sb)
    (hstep : DirStep sb k s a t) (htidy : a.Tidy sb s) :
    Sound sb t.disk (sb.dinode t.disk) ∧
      TreeStep sb.ninodes (tree sb s.disk) s.linking (tree sb t.disk) t.linking := by
  cases hstep with
  | create hi hdir htype hshort hmajor hminor hdone =>
      have hd := h.isDir hi hdir
      rcases hd.create hn htype hshort hmajor hminor hdone with
        ⟨_, rfl⟩ | ⟨hnew, j, _, hjpos, hj, hfree, hsound, htree⟩
      · exact ⟨h.sound, .stay⟩
      · obtain ⟨hlive, hroom⟩ := htidy hnew
        rw [← tree_nlink hi] at hlive hroom
        refine ⟨hsound, ?_⟩
        rw [htree]
        exact .create hd.type hlive hjpos hj hfree htype hroom
  | @linkFirst j hj htype hfile =>
      rw [← tree_type hj] at htype hfile
      obtain ⟨hbecomes, _⟩ := putLinks h.sound hj htype (incLink_lt (sb.dinode s.disk j).nlink)
      have hroom : (tree sb s.disk j).nlink + 1 < 2 ^ 15 := by
        rw [tree_nlink hj]
        exact htidy
      refine ⟨hbecomes.sound, ?_⟩
      rw [hbecomes.tree, ← tree_nlink hj, Linked.incLink_eq (h.linked.small j)]
      exact .relink htype hfile hroom (by omega)
  | @linkEntry i name j w hi hdir hj hdone hnew =>
      have hd := h.isDir hi hdir
      have hlive : (tree sb s.disk i).nlink ≠ 0 := by
        rw [tree_nlink hi]
        exact htidy
      rcases hd.dirlink_ok hdone with ⟨hold, _⟩ | ⟨_, _, _, hbecomes⟩
      · rw [hold] at hnew
        cases hnew
      · refine ⟨hbecomes.sound, ?_⟩
        rw [hbecomes.tree]
        exact .link hd.type hlive hj
  | @linkBad j hj =>
      have htype := h.linked.in_use (Nat.lt_of_lt_of_le hj (Nat.le_add_left _ _))
      have hfile := h.linked.halves j hj
      have hin := (h.linked.inside htype).2
      obtain ⟨hbecomes, _⟩ := putLinks h.sound hin htype (decLink_lt (sb.dinode s.disk j).nlink)
      have hcount := h.linked.count j
      have hsmall := h.linked.small j
      refine ⟨hbecomes.sound, ?_⟩
      rw [hbecomes.tree, ← tree_nlink hin, Linked.decLink_eq (by omega) hsmall]
      exact .relink htype hfile (by omega) (by omega)
  | unlink hi hdir hdone => exact h.unlink hi hdir hdone
  | writei hi htype hfile hdone =>
      have hbecomes := writei_becomes h.sound hi htype hfile hdone
      refine ⟨hbecomes.sound, ?_⟩
      rw [hbecomes.tree, Function.update_eq_self]
      exact .stay
  | @iput i t hi _ hnlink hdone =>
      obtain ⟨e, hput, hchanges, _⟩ := lastPut_spec (s := .mount s.disk) h.sound hi
      obtain rfl := Except.ok.inj (hput.symm.trans hdone)
      have hnode : ∀ ip : Dinode, ip.type = 0 → ip.nlink = 0 → node e ip = ⟨0, 0, [], 0⟩ := by
        intro ip hkind hlinks
        rw [node, hkind, hlinks]
        rfl
      have htree : tree sb e = Function.update (tree sb s.disk) i ⟨0, 0, [], 0⟩ := by
        refine (hchanges.tree hi).trans (congrArg (Function.update (tree sb s.disk) i) ?_)
        exact hnode _ rfl hnlink
      rw [← tree_nlink hi] at hnlink
      refine ⟨hchanges.sound, ?_⟩
      change TreeStep sb.ninodes (tree sb s.disk) s.linking (tree sb e) s.linking
      rw [htree]
      exact .put hnlink

theorem step {a : DirAct} (hn : sb.ninodes ≤ 2 ^ 16) (h : s.Ok sb) (hstep : DirStep sb k s a t)
    (htidy : a.Tidy sb s) : t.Ok sb := by
  obtain ⟨hsound, htree⟩ := h.tree_step hn hstep htidy
  exact ⟨hsound, h.linked.step hn htree⟩

end Directories.Ok

/-! ## An empty root -/

theorem Linked.empty {t : Nat → Node} (hn : rootino < n)
    (hroot : t rootino = ⟨tDir, 1, [Image.dirent rootino dot, Image.dirent rootino dotdot], 0⟩)
    (hrest : ∀ a, a ≠ rootino → t a = ⟨0, 0, [], 0⟩) : Linked n t fun _ => 0 := by
  have hkids : ∀ a, (t a).kids = [] := fun a => by
    by_cases ha : a = rootino
    · rw [ha, hroot]
      rfl
    · rw [hrest a ha]
      rfl
  have hnames : ∀ a, names n t a = 0 := fun a => by
    by_contra hne
    obtain ⟨i, _, hi⟩ := Citations.exists_of_cited_pos (Nat.pos_of_ne_zero hne)
    rw [hkids] at hi
    cases hi
  have hdir : ∀ a, (t a).type = tDir → a = rootino := fun a ha => by
    by_contra hne
    rw [hrest a hne] at ha
    cases ha
  refine ⟨by rw [hrest 0 (by decide)], fun a ha => ?_, by rw [hroot], fun a ha => ?_,
    fun a _ => hkids a, fun a => by rw [hkids]; exact List.not_mem_nil, fun a => ?_, fun a => ?_,
    fun a ha => ?_, fun a _ _ _ => hkids a, fun a ha => absurd ha (Nat.lt_irrefl 0)⟩
  · rw [hrest a fun heq => Nat.not_lt.mpr ha (heq ▸ hn)]
  · rw [hdir a ha, hroot]
    exact ⟨rfl, rootino, [], rfl, by decide, by decide⟩
  · rw [hnames, subdirs, hkids]
    by_cases ha : a = rootino
    · rw [ha, hroot, if_pos rfl]
      rfl
    · rw [hrest a ha, if_neg ha]
      rfl
  · by_cases ha : a = rootino
    · rw [ha, hroot]
      decide
    · rw [hrest a ha]
      decide
  · by_cases hr : a = rootino
    · rw [hr, hroot] at ha
      cases ha
    · rw [hrest a hr]

/-- The disk with a directory that has no entries. -/
def bareRoot : Disk Block :=
  smallSuperblock.putDinode (smallSuperblock.putDinode smallDisk 1
    { Dinode.zero with type := tDir }) 1 { Dinode.zero with type := tDir, nlink := 1 }

/-- A directory is made in an empty root. -/
theorem bareRoot_run : ∃ (d : Disk Block) (s : Directories),
    Sound smallSuperblock d (smallSuperblock.dinode d) ∧
    Linked smallSuperblock.ninodes (tree smallSuperblock d) (fun _ => 0) ∧
    (∀ a, (tree smallSuperblock d a).kids = []) ∧
    Run (fun s a t => DirStep smallSuperblock smallKernel s a t ∧ a.Tidy smallSuperblock s)
      ⟨d, fun _ => 0⟩ [.create rootino [97] tDir 0 0] s := by
  have hmade : ialloc smallSuperblock smallDisk tDir =
      .ok (1, smallSuperblock.putDinode smallDisk 1 { Dinode.zero with type := tDir }) := by
    have hfind : (List.range' 1 (smallSuperblock.ninodes - 1)).find?
        (fun i => (smallSuperblock.dinode smallDisk i).type = 0) = some 1 := by decide +kernel
    rw [ialloc, hfind]
  have hblank : ({ Dinode.zero with type := tDir, nlink := 1 } : Dinode) =
      { smallSuperblock.dinode (smallSuperblock.putDinode smallDisk 1
          { Dinode.zero with type := tDir }) 1 with major := 0, minor := 0, nlink := 1 } := by
    rw [Superblock.dinode_putDinode_self ⟨by decide, by decide, by decide, by decide, by decide,
      fun _ => Nat.two_pow_pos 32⟩]
    rfl
  obtain ⟨hin, _, hbare, hip⟩ := ialloc_becomes smallDisk_sound (by decide) (by decide) (by decide)
    (by decide) hmade hblank
  change Becomes smallSuperblock smallDisk 1 ⟨tDir, 1, [], 0⟩ bareRoot at hbare
  change smallSuperblock.dinode bareRoot 1 = _ at hip
  have hruns : ((dirlink smallSuperblock smallKernel bareRoot 1 (smallSuperblock.dinode bareRoot 1)
      dot 1).bind fun w => (dirlink smallSuperblock smallKernel w.disk 1 w.ip dotdot 1).bind fun w =>
        create smallSuperblock smallKernel w.disk 1 [97] tDir 0 0).toBool = true := by
    decide +kernel
  have hroot : IsDir smallSuperblock bareRoot 1 :=
    ⟨hbare.sound, hin, by rw [hbare.self], by rw [hbare.self]⟩
  cases hfirst : dirlink smallSuperblock smallKernel bareRoot 1
      (smallSuperblock.dinode bareRoot 1) dot 1 with
  | error => rw [hfirst] at hruns; cases hruns
  | ok w =>
  rw [hfirst, ok_bind] at hruns
  rcases hroot.dirlink_ok hfirst with ⟨_, hsome⟩ | ⟨_, _, hself, hone⟩
  · rw [hbare.self] at hsome
    cases hsome
  have hlist : tree smallSuperblock w.disk 1 = ⟨tDir, 1, [Image.dirent 1 dot], 0⟩ := by
    rw [hone.self, hbare.self]
    rfl
  rw [hself] at hruns
  have hroot' : IsDir smallSuperblock w.disk 1 :=
    ⟨hone.sound, hin, by rw [hlist], by rw [hlist]⟩
  cases hsecond : dirlink smallSuperblock smallKernel w.disk 1
      (smallSuperblock.dinode w.disk 1) dotdot 1 with
  | error => rw [hsecond] at hruns; cases hruns
  | ok w' =>
  rw [hsecond, ok_bind] at hruns
  rcases hroot'.dirlink_ok hsecond with ⟨_, hsome⟩ | ⟨_, _, _, htwo⟩
  · rw [hlist] at hsome
    simp only [List.find?_cons, matching_dot (show namecmp dotdot dot = false by decide)] at hsome
    cases hsome
  have htree : tree smallSuperblock w'.disk = Function.update (tree smallSuperblock smallDisk) 1
      ⟨tDir, 1, [Image.dirent 1 dot, Image.dirent 1 dotdot], 0⟩ := by
    have hput : putEntry [Image.dirent 1 dot] (freeSlot [Image.dirent 1 dot])
        (Image.dirent 1 dotdot) = [Image.dirent 1 dot, Image.dirent 1 dotdot] :=
      putEntry_cons (by decide)
    rw [htwo.tree, hlist, hone.tree, hbare.tree, Function.update_idem, Function.update_idem]
    simp only [hput]
  have hfree : ∀ a, tree smallSuperblock smallDisk a = ⟨0, 0, [], 0⟩ := by
    intro a
    rw [tree]
    split
    · next ha =>
      have hzero : smallSuperblock.dinode smallDisk a = .zero := by
        refine Superblock.dinode_of_zero ?_
        have hlow : smallSuperblock.iblock a < 4 := Superblock.iblock_lt ha
        funext x
        exact if_neg fun hboth => Nat.ne_of_lt hlow hboth.1
      rw [hzero]
      rfl
    · rfl
  cases hcreate : create smallSuperblock smallKernel w'.disk 1 [97] tDir 0 0 with
  | error => rw [hcreate] at hruns; cases hruns
  | ok r =>
  obtain ⟨r, e⟩ := r
  have htype : (smallSuperblock.dinode w'.disk 1).type = tDir := by
    rw [← tree_type hin, htree, Function.update_self]
  have hlinks : (smallSuperblock.dinode w'.disk 1).nlink = 1 := by
    rw [← tree_nlink hin, htree, Function.update_self]
  refine ⟨w'.disk, ⟨e, fun _ => 0⟩, htwo.sound, ?_, fun a => ?_,
    .single ⟨.create (s := ⟨w'.disk, fun _ => 0⟩) hin htype (by decide) (by decide) (by decide)
      (by decide) hcreate, ?_⟩⟩
  · rw [htree]
    refine .empty hin ?_ fun a ha => ?_
    · exact Function.update_self _ _ _
    · rw [Function.update_of_ne (show a ≠ 1 from ha), hfree]
  · rw [htree]
    by_cases ha : a = 1
    · rw [ha, Function.update_self]
      rfl
    · rw [Function.update_of_ne ha, hfree]
      rfl
  · exact fun _ => ⟨by rw [show (smallSuperblock.dinode _ rootino).nlink = 1 from hlinks]; decide,
      fun _ => by rw [show (smallSuperblock.dinode _ rootino).nlink = 1 from hlinks]; decide⟩

/-! ## Exact link counts -/

theorem links_exact (hn : sb.ninodes ≤ 2 ^ 16) (hd : Sound sb d (sb.dinode d))
    (hlinked : Linked sb.ninodes (tree sb d) fun _ => 0) {acts : List DirAct} {s : Directories}
    (hrun : Run (fun s a t => DirStep sb k s a t ∧ a.Tidy sb s) ⟨d, fun _ => 0⟩ acts s) :
    (∀ a, a < sb.ninodes → (sb.dinode s.disk a).nlink =
      names sb.ninodes (tree sb s.disk) a + subdirs (tree sb s.disk) a + s.linking a +
        if a = rootino then 1 else 0) ∧
    (∀ i j, i < sb.ninodes → j ∈ (tree sb s.disk i).kids →
      j < sb.ninodes ∧ (sb.dinode s.disk j).type ≠ 0) ∧
    ∀ i name, i < sb.ninodes → (sb.dinode s.disk i).type = tDir →
      ∃ r e, unlink sb k s.disk i name = .ok (r, e) := by
  have hok : s.Ok sb :=
    hrun.invariant (fun _ _ _ h hstep => h.step hn hstep.1 hstep.2) ⟨hd, hlinked⟩
  refine ⟨fun a ha => ?_, fun i j hi hj => ?_, fun i name hi hdir => hok.unlink_returns hi hdir⟩
  · rw [← tree_nlink ha]
    exact hok.linked.count a
  · have hused : (tree sb s.disk j).type ≠ 0 := hok.linked.in_use
      (Nat.lt_of_lt_of_le (hok.linked.kid_named hj) (Nat.le_add_right _ _))
    have hin := (hok.linked.inside hused).2
    rw [tree_type hin] at hused
    exact ⟨hin, hused⟩

theorem links_exact_create : ∃ (d : Disk Block) (s : Directories),
    Run (fun s a t => DirStep smallSuperblock smallKernel s a t ∧ a.Tidy smallSuperblock s)
      ⟨d, fun _ => 0⟩ [.create rootino [97] tDir 0 0] s ∧
    ∀ a, a < smallSuperblock.ninodes → (smallSuperblock.dinode s.disk a).nlink =
      names smallSuperblock.ninodes (tree smallSuperblock s.disk) a +
        subdirs (tree smallSuperblock s.disk) a + s.linking a + if a = rootino then 1 else 0 := by
  obtain ⟨d, s, hd, hlinked, _, hrun⟩ := bareRoot_run
  exact ⟨d, s, hrun, (links_exact (by decide) hd hlinked hrun).1⟩

/-! ## Removed directories -/

/-- `create` does not look at the link count of the directory. A file made in a removed directory
keeps its link when the directory is freed, and no entry names it. -/
theorem create_in_removed_leaks (hn : sb.ninodes ≤ 2 ^ 16) {s : Directories} (h : s.Ok sb)
    (hi : i < sb.ninodes) (hdir : (sb.dinode s.disk i).type = tDir)
    (hnlink : (sb.dinode s.disk i).nlink = 0) {type major minor : Nat} (htype : type ≠ 0)
    (hfile : type ≠ tDir) (hshort : type < 2 ^ 16) (hmajor : major < 2 ^ 16)
    (hminor : minor < 2 ^ 16)
    (hdone : create sb k s.disk i name type major minor = .ok (some j, e)) :
    (sb.dinode e i).nlink = 0 ∧ ∃ v, lastPut sb (.mount e) i (sb.dinode e i) = .ok v ∧
      (sb.dinode v.disk j).type = type ∧ (sb.dinode v.disk j).nlink = 1 ∧
      ∀ p, j ∉ (tree sb v.disk p).kids := by
  have hd := h.isDir hi hdir
  rcases hd.create hn htype hshort hmajor hminor hdone with
    ⟨hnone, _⟩ | ⟨_, c, hc, hjpos, hj, hfree, hsound, htree⟩
  · cases hnone
  obtain rfl := Option.some.inj hc
  have hji : j ≠ i := ne_of_free hd.type hfree
  have hadds : Adds (tree sb s.disk) i j (tree sb e) := by
    rw [htree]
    exact h.linked.adds_create hn hd.type hjpos hj hfree
  have hnone := (h.linked.without_links (h.linked.free j hfree)).2.1
  have hchild : (tree sb e j).type = type ∧ (tree sb e j).nlink = 1 := by
    rw [htree, created, Function.update_self]
    exact ⟨rfl, rfl⟩
  have hempty : (sb.dinode e i).nlink = 0 := by
    rw [← tree_nlink hi, htree, created, Function.update_of_ne hji.symm, Function.update_self,
      if_neg hfile, tree_nlink hi]
    exact hnlink
  obtain ⟨d', hput, hchanges, _⟩ := lastPut_spec (s := .mount e) hsound hi
  have hleft : ∀ a, a ≠ i → tree sb d' a = tree sb e a := fun a ha =>
    (congrFun (hchanges.tree hi) a).trans (Function.update_of_ne ha _ _)
  have hgone : (tree sb d' i).kids = [] := by
    refine tree_kids_of_file ?_
    have hfreed : (sb.dinode d' i).type = 0 := congrArg Dinode.type hchanges.self
    rw [tree_type hi, hfreed]
    decide
  refine ⟨hempty, _, hput, ?_, ?_, fun p hp => ?_⟩
  · rw [← tree_type hj, hleft j hji]
    exact hchild.1
  · rw [← tree_nlink hj, hleft j hji]
    exact hchild.2
  · by_cases hpi : p = i
    · rw [hpi] at hp
      change j ∈ (tree sb d' i).kids at hp
      rw [hgone] at hp
      cases hp
    · change j ∈ (tree sb d' p).kids at hp
      rw [hleft p hpi, hadds.others p hpi] at hp
      exact h.linked.not_kid hnone hp

end OSProjects.Storage
