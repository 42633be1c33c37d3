import OSProjects.Foundation.Rooted
import OSProjects.Storage.LinkRuns

/-!
# The tree of directories

The directories of a volume are a tree: the root leads to every entry, a directory has one name,
its `..` is the directory that it is in, and none is inside itself.
-/

namespace OSProjects.Storage

open ByteMemory Citations RedoLog Relation Rooted StepSystem Xv6

variable {n i j a : Nat} {t t' : Nat → Node} {linking linking' : Nat → Nat}

/-- `j` is in the directory `i`. -/
def InDir (t : Nat → Node) (i j : Nat) : Prop := j ∈ (t i).kids

structure Hierarchy (n : Nat) (t : Nat → Node) : Prop where
  single : ∀ a, (t a).type = tDir → names n t a + (if a = rootino then 1 else 0) ≤ 1
  up : ∀ i a, InDir t i a → (t a).type = tDir → (t a).ls[1]? = some (Image.dirent i dotdot)
  reach : ∀ a, 0 < names n t a → ReflTransGen (InDir t) rootino a

namespace Hierarchy

theorem empty (hkids : ∀ a, (t a).kids = []) : Hierarchy n t := by
  have hnames : ∀ a, names n t a = 0 := fun a => by
    by_contra hne
    obtain ⟨i, _, hi⟩ := exists_of_cited_pos (Nat.pos_of_ne_zero hne)
    rw [hkids] at hi
    cases hi
  refine ⟨fun a _ => ?_, fun i a hi _ => ?_, fun a ha => ?_⟩
  · rw [hnames, Nat.zero_add]
    split <;> decide
  · rw [InDir, hkids] at hi
    cases hi
  · rw [hnames] at ha
    exact absurd ha (Nat.lt_irrefl 0)

/-- A directory with links is reached. -/
theorem reach_dir (hh : Hierarchy n t) (hlive : i = rootino ∨ 0 < names n t i) :
    ReflTransGen (InDir t) rootino i := by
  rcases hlive with rfl | hpos
  · exact .refl
  · exact hh.reach i hpos

/-- An entry in a directory with links, of a file or of a new directory. -/
theorem add (hh : Hierarchy n t) (h : Linked n t linking) (hadds : Adds t i j t') (hi : i < n)
    (hlive : i = rootino ∨ 0 < names n t i) (htype : ∀ a, a ≠ j → (t' a).type = (t a).type)
    (hsecond : ∀ a, a ≠ j → (t a).type = tDir → (t' a).ls[1]? = (t a).ls[1]?)
    (hnew : (t' j).type = tDir → names n t j = 0 ∧ j ≠ rootino ∧
      (t' j).ls[1]? = some (Image.dirent i dotdot)) : Hierarchy n t' := by
  have hnames : ∀ a, names n t' a = names n t a + if j = a then 1 else 0 := fun _ =>
    Linked.names_add hadds hi
  have hpath : ∀ a, ReflTransGen (InDir t) rootino a → ReflTransGen (InDir t') rootino a :=
    fun _ => ReflTransGen.mono (fun _ _ hb => hadds.mem hb) _ _
  refine ⟨fun a ha => ?_, fun p a hp ha => ?_, fun a ha => ?_⟩
  · rw [hnames]
    by_cases haj : a = j
    · obtain ⟨hnone, hroot, _⟩ := hnew (haj ▸ ha)
      rw [haj, hnone, if_pos rfl, if_neg hroot]
    · rw [if_neg (Ne.symm haj)]
      exact hh.single a ((htype a haj).symm.trans ha)
  · by_cases haj : a = j
    · rw [haj] at hp ha ⊢
      obtain ⟨hnone, _, hdots⟩ := hnew ha
      rcases hadds.mem_cases hp with ⟨hpi, _⟩ | hold
      · rw [hpi, hdots]
      · exact absurd (h.kid_named hold) (Nat.not_lt.mpr (Nat.le_of_eq hnone))
    · rcases hadds.mem_cases hp with ⟨_, heq⟩ | hold
      · exact absurd heq haj
      · have hdir := (htype a haj).symm.trans ha
        rw [hsecond a haj hdir]
        exact hh.up p a hold hdir
  · by_cases haj : a = j
    · rw [haj]
      exact (hpath i (hh.reach_dir hlive)).tail (hadds.kids.mem_iff.mpr List.mem_cons_self)
    · rw [hnames, if_neg (Ne.symm haj)] at ha
      exact hpath a (hh.reach a ha)

/-- The entry of an inode without entries goes. -/
theorem remove (hh : Hierarchy n t) (h' : Linked n t' linking) (hadds : Adds t' i j t)
    (hi : i < n) (hleaf : (t j).kids = [])
    (hkept : ∀ a, (t' a).type = (t a).type ∧
      ((t a).type = tDir → (t' a).ls[1]? = (t a).ls[1]?)) :
    Hierarchy n t' := by
  have hnames : ∀ a, names n t a = names n t' a + if j = a then 1 else 0 := fun _ =>
    Linked.names_add hadds hi
  have hless : ∀ a, names n t' a ≤ names n t a := fun a => by
    rw [hnames]
    exact Nat.le_add_right _ _
  have hnone : ∀ b, ¬ InDir t j b := fun b hb => by
    rw [InDir, hleaf] at hb
    cases hb
  have hpath : ∀ a, 0 < names n t' a → a ≠ j → ReflTransGen (InDir t') rootino a :=
    fun a ha haj => reach_of_leaf hnone
      (fun _ _ hb hbj => (hadds.mem_cases hb).resolve_left fun hboth => hbj hboth.2)
      (hh.reach a (Nat.lt_of_lt_of_le ha (hless a))) haj
  refine ⟨fun a ha => ?_, fun p a hp ha => ?_, fun a ha => ?_⟩
  · have hold := hh.single a ((hkept a).1.symm.trans ha)
    have := hless a
    omega
  · have hdir := (hkept a).1.symm.trans ha
    rw [(hkept a).2 hdir]
    exact hh.up p a (hadds.mem hp) hdir
  · by_cases haj : a = j
    · -- another entry names it
      rw [haj] at ha ⊢
      obtain ⟨p, _, hp⟩ := exists_of_cited_pos ha
      have hpj : p ≠ j := by
        rintro rfl
        exact hnone p (hadds.mem hp)
      have hreach : ReflTransGen (InDir t') rootino p := by
        rcases h'.kid_live hp with rfl | hpos
        · exact .refl
        · exact hpath p hpos hpj
      exact hreach.tail hp
    · exact hpath a ha haj

theorem same (hh : Hierarchy n t) (hkids : ∀ a, (t' a).kids = (t a).kids)
    (hkept : ∀ a, (t' a).type = tDir → (t a).type = tDir ∧ (t' a).ls[1]? = (t a).ls[1]?) :
    Hierarchy n t' := by
  have hin : InDir t' = InDir t := by
    funext i a
    rw [InDir, InDir, hkids]
  refine ⟨fun a ha => ?_, fun p a hp ha => ?_, fun a ha => ?_⟩
  · rw [Linked.names_same hkids]
    exact hh.single a (hkept a ha).1
  · obtain ⟨hdir, hsecond⟩ := hkept a ha
    rw [hin] at hp
    rw [hsecond]
    exact hh.up p a hp hdir
  · rw [Linked.names_same hkids] at ha
    rw [hin]
    exact hh.reach a ha

end Hierarchy

/-- The second entry of a directory stays where it is. -/
theorem HasDots.second_put {l : List (List UInt8)} {de : List UInt8} (h : HasDots i l) (hi : 0 < i)
    (hi' : i < 2 ^ 16) : (putEntry l (freeSlot l) de)[1]? = l[1]? := by
  obtain ⟨p, tail, rfl, hp, hp'⟩ := h
  have hself : taken (Image.dirent i dot) = true :=
    taken_iff.mpr (by rw [entryInum_dirent hi']; exact Nat.ne_of_gt hi)
  have hparent : taken (Image.dirent p dotdot) = true :=
    taken_iff.mpr (by rw [entryInum_dirent hp']; exact Nat.ne_of_gt hp)
  rw [putEntry_cons hself, putEntry_cons hparent]
  rfl

theorem Hierarchy.step (hh : Hierarchy n t) (h : Linked n t linking) (hn : n ≤ 2 ^ 16)
    (hstep : TreeStep n t linking t' linking') : Hierarchy n t' := by
  have hlinked := h.step hn hstep
  cases hstep with
  | stay => exact hh
  | @create i j name ty hdir hlive hjpos hjn hfree hty hroom =>
      obtain ⟨hipos, hin⟩ := h.dir_inside hdir
      obtain ⟨hroot, hnone, _⟩ := h.without_links (h.free j hfree)
      have hchild : created t i j name ty j =
          ⟨ty, 1, if ty = tDir then [Image.dirent j dot, Image.dirent i dotdot] else [], 0⟩ :=
        Function.update_self ..
      refine hh.add h (h.adds_create hn hdir hjpos hjn hfree) hin (h.live hdir hlive)
        (fun _ => Linked.created_type) (fun a haj ha => ?_) fun hkind => ⟨hnone, hroot, ?_⟩
      · rw [created, Function.update_of_ne haj]
        by_cases hai : a = i
        · rw [hai, Function.update_self]
          exact (h.dirs i hdir).2.second_put hipos (Nat.lt_of_lt_of_le hin hn)
        · rw [Function.update_of_ne hai]
      · rw [hchild] at hkind ⊢
        change ty = tDir at hkind
        simp only [if_pos hkind]
        rfl
  | @relink j c halves hused hfile hsmall hcount =>
      have hother : ∀ a, a ≠ j → Function.update t j { t j with nlink := c } a = t a :=
        fun a ha => Function.update_of_ne ha ..
      refine hh.same (fun a => ?_) fun a ha => ?_
      · by_cases haj : a = j
        · rw [haj, Function.update_self, Node.kids, Node.kids]
        · rw [hother a haj]
      · by_cases haj : a = j
        · rw [haj, Function.update_self] at ha
          exact absurd ha hfile
        · rw [hother a haj] at ha ⊢
          exact ⟨ha, rfl⟩
  | @link i j name hdir hlive hj =>
      obtain ⟨hipos, hin⟩ := h.dir_inside hdir
      have hfile := h.halves j hj
      have hji : j ≠ i := fun heq => hfile (heq ▸ hdir)
      refine hh.add h (h.adds_link hn hdir hj) hin (h.live hdir hlive) (fun a _ => ?_)
        (fun a _ ha => ?_) fun hkind => ?_
      · by_cases hai : a = i
        · rw [hai, Function.update_self]
        · rw [Function.update_of_ne hai]
      · by_cases hai : a = i
        · rw [hai, Function.update_self]
          exact (h.dirs i hdir).2.second_put hipos (Nat.lt_of_lt_of_le hin hn)
        · rw [Function.update_of_ne hai]
      · rw [Function.update_of_ne hji] at hkind
        exact absurd hkind hfile
  | @unlink i m j de hdir hm hde hj hempty =>
      obtain ⟨hji, hadds⟩ := h.adds_unlink hdir hm hde hj
      have hleaf : (t j).kids = [] := by
        by_cases hkind : (t j).type = tDir
        · exact hempty hkind
        · exact h.files j hkind
      refine hh.remove hlinked hadds (h.dir_inside hdir).2 hleaf
        fun a => ⟨Linked.unlinked_type a, fun _ => ?_⟩
      rw [unlinked]
      by_cases haj : a = j
      · rw [haj, Function.update_self]
      · rw [Function.update_of_ne haj]
        by_cases hai : a = i
        · obtain ⟨p, tail, hls, _⟩ := (h.dirs i hdir).2
          rw [hai, Function.update_self]
          simp only [hls, List.set_cons_succ, List.getElem?_cons_succ, List.getElem?_cons_zero]
        · rw [Function.update_of_ne hai]
  | @put i hnlink =>
      obtain ⟨_, _, _, hkids⟩ := h.without_links hnlink
      refine hh.same (fun a => ?_) fun a ha => ?_
      · by_cases hai : a = i
        · rw [hai, Function.update_self, hkids]
          rfl
        · rw [Function.update_of_ne hai]
      · by_cases hai : a = i
        · rw [hai, Function.update_self] at ha
          cases ha
        · rw [Function.update_of_ne hai] at ha ⊢
          exact ⟨ha, rfl⟩

namespace Hierarchy

/-- A directory is in one directory. -/
theorem one (hh : Hierarchy n t) (h : Linked n t linking) (hdir : (t j).type = tDir) {p q : Nat}
    (hp : InDir t p j) (hq : InDir t q j) : p = q :=
  eq_of_cited (Nat.le_trans (Nat.le_add_right _ _) (hh.single j hdir))
    (h.dir_inside (h.kid_dir hp)).2 (h.dir_inside (h.kid_dir hq)).2 hp hq

theorem root_top (hh : Hierarchy n t) (h : Linked n t linking) : ¬ InDir t i rootino := by
  intro hi
  have hsingle := hh.single rootino h.root
  have hnamed := h.kid_named hi
  rw [if_pos rfl] at hsingle
  omega

theorem acyclic (hh : Hierarchy n t) (h : Linked n t linking) (a : Nat) :
    ¬ TransGen (InDir t) a a := by
  intro hcycle
  obtain ⟨p, _, hp⟩ := TransGen.tail'_iff.mp hcycle
  have hone : ∀ p q b c, InDir t p b → InDir t q b → InDir t b c → p = q :=
    fun _ _ _ _ hp hq hc => hh.one h (h.kid_dir hc) hp hq
  exact no_cycle (fun _ => hh.root_top h) hone (hh.reach a (h.kid_named hp)) hcycle

end Hierarchy

/-! ## Runs -/

variable {sb : Superblock} {k : Kernel} {d : Disk Block}

/-- `..` is the directory that a directory is in. -/
theorem dirlookup_dotdot {e : Disk Block} (hdir : IsDir sb e j) (hi : i < 2 ^ 16) (hpos : 0 < i)
    (hdots : HasDots j (tree sb e j).ls)
    (hup : (tree sb e j).ls[1]? = some (Image.dirent i dotdot)) :
    ∃ s, dirlookup sb k e (sb.dinode e j) dotdot = .ok s ∧ s.de.map entryInum = some i := by
  refine ⟨_, hdir.dirlookup, ?_⟩
  obtain ⟨p, tail, hls, _⟩ := hdots
  have hself : ¬ matching dotdot (Image.dirent j dot) = true := by
    rw [matching_dot (show namecmp dotdot dot = false by decide)]
    exact Bool.false_ne_true
  have hmatch : matching dotdot (Image.dirent i dotdot) = true := by
    refine Bool.and_eq_true_iff.mpr ⟨taken_iff.mpr ?_, ?_⟩
    · rw [entryInum_dirent hi]
      exact Nat.ne_of_gt hpos
    · rw [entryName_dirent]
      decide
  rw [hls] at hup
  change ((tree sb e j).ls.find? (matching dotdot)).map entryInum = some i
  rw [hls, Option.some.inj hup, List.find?_cons_of_neg hself, List.find?_cons_of_pos hmatch,
    Option.map_some, entryInum_dirent hi]

/-- The link counts are right, and the directories are a tree. -/
structure InOrder (sb : Superblock) (s : Directories) : Prop where
  ok : s.Ok sb
  tree : Hierarchy sb.ninodes (tree sb s.disk)

theorem InOrder.step {s t : Directories} {a : DirAct} (h : InOrder sb s)
    (hn : sb.ninodes ≤ 2 ^ 16) (hstep : DirStep sb k s a t) (htidy : a.Tidy sb s) : InOrder sb t :=
  ⟨h.ok.step hn hstep htidy, h.tree.step h.ok.linked hn (h.ok.tree_step hn hstep htidy).2⟩

theorem directories_tree (hn : sb.ninodes ≤ 2 ^ 16) (hd : Sound sb d (sb.dinode d))
    (hlinked : Linked sb.ninodes (tree sb d) fun _ => 0)
    (htree : Hierarchy sb.ninodes (tree sb d)) {acts : List DirAct} {s : Directories}
    (hrun : Run (fun s a t => DirStep sb k s a t ∧ a.Tidy sb s) ⟨d, fun _ => 0⟩ acts s) :
    (∀ i j, InDir (tree sb s.disk) i j → ReflTransGen (InDir (tree sb s.disk)) rootino j) ∧
    (∀ i j, InDir (tree sb s.disk) i j → (sb.dinode s.disk j).type = tDir →
      j ≠ rootino ∧ (∀ p, InDir (tree sb s.disk) p j → p = i) ∧
        ∃ r, dirlookup sb k s.disk (sb.dinode s.disk j) dotdot = .ok r ∧
          r.de.map entryInum = some i) ∧
    ∀ a, ¬ TransGen (InDir (tree sb s.disk)) a a := by
  have hfirst : InOrder sb ⟨d, fun _ => 0⟩ := ⟨⟨hd, hlinked⟩, htree⟩
  obtain ⟨hok, hh⟩ := hrun.invariant (fun _ _ _ h hstep => h.step hn hstep.1 hstep.2) hfirst
  refine ⟨fun i j hj => hh.reach j (hok.linked.kid_named hj), fun i j hj hdir => ?_,
    hh.acyclic hok.linked⟩
  obtain ⟨hipos, hin⟩ := hok.linked.dir_inside (hok.linked.kid_dir hj)
  have hused := hok.linked.in_use
    (Nat.lt_of_lt_of_le (hok.linked.kid_named hj) (Nat.le_add_right _ _))
  have hjn := (hok.linked.inside hused).2
  have hd := hok.isDir hjn hdir
  have htop : j ≠ rootino := by
    intro heq
    rw [heq] at hj
    exact hh.root_top hok.linked hj
  refine ⟨htop, fun p hp => hh.one hok.linked hd.type hp hj, ?_⟩
  exact dirlookup_dotdot hd (Nat.lt_of_lt_of_le hin hn) hipos (hok.linked.dirs j hd.type).2
    (hh.up i j hj hd.type)

theorem directories_tree_mkdir : ∃ (d : Disk Block) (s : Directories),
    Run (fun s a t => DirStep smallSuperblock smallKernel s a t ∧ a.Tidy smallSuperblock s)
      ⟨d, fun _ => 0⟩ [.create rootino [97] tDir 0 0] s ∧
    ∀ a, ¬ TransGen (InDir (tree smallSuperblock s.disk)) a a := by
  obtain ⟨d, s, hd, hlinked, hkids, hrun⟩ := bareRoot_run
  exact ⟨d, s, hrun, (directories_tree (by decide) hd hlinked (.empty hkids) hrun).2.2⟩

end OSProjects.Storage
