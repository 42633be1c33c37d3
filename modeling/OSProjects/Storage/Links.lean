import OSProjects.Foundation.Citations
import OSProjects.Storage.DirectoryCalls

/-!
# Link counts

The link count of an inode is the number of entries that name it, the directories that it has,
and the calls of `sys_link` between their two halves. Each call on a directory keeps this, if it
puts no entry into a directory without links.
-/

namespace OSProjects.Storage

open ByteMemory Citations RedoLog Xv6

variable {n i j a m p ty : Nat} {t t' : Nat → Node} {linking : Nat → Nat}
  {l tail : List (List UInt8)} {de name x : List UInt8}

/-! ## Inodes named by entries -/

/-- The inodes that the entries in use name. -/
def inums (l : List (List UInt8)) : List Nat := (l.map entryInum).filter (· ≠ 0)

/-- The inodes that a directory names behind its two first entries. -/
def Node.kids (x : Node) : List Nat := inums (x.ls.drop 2)

/-- An inode that is no directory has no entries. -/
theorem tree_kids_of_file {sb : Superblock} {d : Disk Block}
    (h : (tree sb d a).type ≠ tDir) : (tree sb d a).kids = [] := by
  by_cases ha : a < sb.ninodes
  · rw [tree_type ha] at h
    rw [tree_eq ha, node, if_neg h]
    rfl
  · rw [tree, if_neg ha]
    rfl

theorem inums_cons :
    inums (x :: l) = if entryInum x = 0 then inums l else entryInum x :: inums l := by
  by_cases hx : entryInum x = 0
  · simp [inums, hx]
  · simp [inums, hx]

theorem erased_inum : entryInum erased = 0 := by decide

/-- `dirlink` adds one named inode. -/
theorem inums_putEntry (hde : entryInum de ≠ 0) :
    (inums (putEntry l (freeSlot l) de)).Perm (entryInum de :: inums l) := by
  induction l with
  | nil =>
      change (inums [de]).Perm _
      rw [inums_cons, if_neg hde]
  | cons x l ih =>
      by_cases hx : taken x = true
      · rw [putEntry_cons hx, inums_cons, inums_cons, if_neg (taken_iff.mp hx),
          if_neg (taken_iff.mp hx)]
        exact (ih.cons _).trans (.swap ..)
      · have hfalse : taken x = false := by simpa using hx
        have hslot : freeSlot (x :: l) = 0 := by
          rw [freeSlot, List.findIdx_cons, hfalse]
          rfl
        have hzero : entryInum x = 0 := by
          by_contra hne
          exact hx (taken_iff.mpr hne)
        have hin : 0 < (x :: l).length := by
          rw [List.length_cons]
          exact Nat.succ_pos _
        rw [hslot, putEntry, if_pos hin, List.set_cons_zero, inums_cons, inums_cons, if_neg hde,
          if_pos hzero]

/-- Erasing an entry takes one named inode away. -/
theorem inums_set (hm : l[m]? = some de) (hde : entryInum de ≠ 0) :
    (inums l).Perm (entryInum de :: inums (l.set m erased)) := by
  induction l generalizing m with
  | nil => cases hm
  | cons x l ih =>
      cases m with
      | zero =>
          obtain rfl := Option.some.inj hm
          rw [List.set_cons_zero, inums_cons, inums_cons, if_neg hde, if_pos erased_inum]
      | succ m =>
          have hrest := ih (m := m) hm
          rw [List.set_cons_succ, inums_cons, inums_cons]
          split
          · exact hrest
          · exact (hrest.cons _).trans (.swap ..)

/-! ## The two first entries -/

/-- A directory begins with itself and its parent. -/
def HasDots (i : Nat) (l : List (List UInt8)) : Prop :=
  ∃ p tail, l = Image.dirent i dot :: Image.dirent p dotdot :: tail ∧ 0 < p ∧ p < 2 ^ 16

/-- Another name is found behind the two first entries. -/
theorem HasDots.find (h : HasDots i l) (hdot : namecmp name dot = false)
    (hdotdot : namecmp name dotdot = false) :
    l.findIdx (matching name) = (l.drop 2).findIdx (matching name) + 2 ∧
      l.find? (matching name) = (l.drop 2)[(l.drop 2).findIdx (matching name)]? := by
  obtain ⟨p, tail, rfl, _⟩ := h
  rw [List.findIdx_cons, List.findIdx_cons, List.find?_cons, List.find?_cons, matching_dot hdot,
    matching_dotdot hdotdot]
  exact ⟨rfl, List.find?_eq_getElem?_findIdx⟩

theorem HasDots.put (h : HasDots i l) (de : List UInt8) (hi : 0 < i) (hi' : i < 2 ^ 16) :
    HasDots i (putEntry l (freeSlot l) de) ∧
      (putEntry l (freeSlot l) de).drop 2 = putEntry (l.drop 2) (freeSlot (l.drop 2)) de := by
  obtain ⟨p, tail, rfl, hp, hp'⟩ := h
  have hself : taken (Image.dirent i dot) = true :=
    taken_iff.mpr (by rw [entryInum_dirent hi']; exact Nat.ne_of_gt hi)
  have hparent : taken (Image.dirent p dotdot) = true :=
    taken_iff.mpr (by rw [entryInum_dirent hp']; exact Nat.ne_of_gt hp)
  rw [putEntry_cons hself, putEntry_cons hparent]
  exact ⟨⟨p, _, rfl, hp, hp'⟩, rfl⟩

theorem HasDots.set (h : HasDots i l) : HasDots i (l.set (m + 2) x) ∧
    (l.set (m + 2) x).drop 2 = (l.drop 2).set m x := by
  obtain ⟨p, tail, rfl, hp, hp'⟩ := h
  exact ⟨⟨p, _, rfl, hp, hp'⟩, rfl⟩

/-! ## Entries that come and go -/

/-- `t'` has one entry more, that of `j` in the directory `i`. -/
structure Adds (t : Nat → Node) (i j : Nat) (t' : Nat → Node) : Prop where
  kids : (t' i).kids.Perm (j :: (t i).kids)
  others : ∀ a, a ≠ i → (t' a).kids = (t a).kids

namespace Adds

theorem of_put (hdots : HasDots i (t i).ls) (hi : 0 < i) (hi' : i < 2 ^ 16) (hj : 0 < j)
    (hj' : j < 2 ^ 16)
    (hself : (t' i).ls = putEntry (t i).ls (freeSlot (t i).ls) (Image.dirent j name))
    (hother : ∀ a, a ≠ i → (t' a).kids = (t a).kids) : Adds t i j t' := by
  refine ⟨?_, hother⟩
  have hinum : entryInum (Image.dirent j name) = j := entryInum_dirent hj'
  have hput : (inums (putEntry ((t i).ls.drop 2) (freeSlot ((t i).ls.drop 2))
      (Image.dirent j name))).Perm (entryInum (Image.dirent j name) :: (t i).kids) :=
    inums_putEntry (by rw [hinum]; exact Nat.ne_of_gt hj)
  rw [hinum] at hput
  rwa [Node.kids, hself, (hdots.put (Image.dirent j name) hi hi').2]

theorem of_set (hdots : HasDots i (t i).ls) (hm : ((t i).ls.drop 2)[m]? = some de)
    (hde : entryInum de = j) (hj : j ≠ 0) (hself : (t' i).ls = (t i).ls.set (m + 2) erased)
    (hother : ∀ a, a ≠ i → (t' a).kids = (t a).kids) : Adds t' i j t := by
  refine ⟨?_, fun a ha => (hother a ha).symm⟩
  have hset := inums_set hm (by rwa [hde])
  rw [hde] at hset
  rwa [Node.kids, Node.kids, hself, hdots.set.2]

theorem mem (h : Adds t i j t') {b : Nat} (hb : b ∈ (t a).kids) : b ∈ (t' a).kids := by
  by_cases hai : a = i
  · rw [hai] at hb ⊢
    exact h.kids.mem_iff.mpr (List.mem_cons_of_mem _ hb)
  · rwa [h.others a hai]

theorem mem_cases (h : Adds t i j t') {b : Nat} (hb : b ∈ (t' a).kids) :
    (a = i ∧ b = j) ∨ b ∈ (t a).kids := by
  by_cases hai : a = i
  · rw [hai] at hb ⊢
    exact (List.mem_cons.mp (h.kids.mem_iff.mp hb)).imp_left fun heq => ⟨rfl, heq⟩
  · rw [h.others a hai] at hb
    exact .inr hb

end Adds

/-! ## The invariant -/

/-- The entries that name an inode. -/
def names (n : Nat) (t : Nat → Node) (a : Nat) : Nat := cited n (fun i => (t i).kids) a

/-- The directories in a directory. -/
def subdirs (t : Nat → Node) (a : Nat) : Nat := (t a).kids.countP fun j => (t j).type = tDir

/-- The law of link counts, with `linking` the calls between the halves of `sys_link`. -/
structure Linked (n : Nat) (t : Nat → Node) (linking : Nat → Nat) : Prop where
  zero : (t 0).type = 0
  outside : ∀ a, n ≤ a → (t a).type = 0
  root : (t rootino).type = tDir
  dirs : ∀ a, (t a).type = tDir → (t a).rest = 0 ∧ HasDots a (t a).ls
  files : ∀ a, (t a).type ≠ tDir → (t a).kids = []
  apart : ∀ a, a ∉ (t a).kids
  count : ∀ a, (t a).nlink =
    names n t a + subdirs t a + linking a + if a = rootino then 1 else 0
  small : ∀ a, (t a).nlink < 2 ^ 15
  free : ∀ a, (t a).type = 0 → (t a).nlink = 0
  gone : ∀ a, (t a).type = tDir → a ≠ rootino → names n t a = 0 → (t a).kids = []
  halves : ∀ a, 0 < linking a → (t a).type ≠ tDir

namespace Linked

theorem inside (h : Linked n t linking) (hdir : (t i).type ≠ 0) : 0 < i ∧ i < n := by
  refine ⟨Nat.pos_of_ne_zero fun heq => hdir (heq ▸ h.zero), ?_⟩
  by_contra hout
  exact hdir (h.outside i (Nat.not_lt.mp hout))

/-- An inode that is named, or about to be, is in use. -/
theorem in_use (h : Linked n t linking) (ha : 0 < names n t a + linking a) : (t a).type ≠ 0 := by
  intro hzero
  have := h.count a
  rw [h.free a hzero] at this
  omega

theorem kid_dir (h : Linked n t linking) (hj : j ∈ (t i).kids) : (t i).type = tDir := by
  by_contra hne
  rw [h.files i hne] at hj
  cases hj

theorem kid_named (h : Linked n t linking) (hj : j ∈ (t i).kids) : 0 < names n t j := by
  have hdir : (t i).type ≠ 0 := by
    rw [h.kid_dir hj]
    decide
  exact cited_pos (h.inside hdir).2 hj

theorem not_kid (h : Linked n t linking) (hnone : names n t j = 0) : j ∉ (t i).kids := fun hj =>
  Nat.ne_of_gt (h.kid_named hj) hnone

/-- An inode without links has no name and no entries. -/
theorem without_links (h : Linked n t linking) (hnlink : (t i).nlink = 0) :
    i ≠ rootino ∧ names n t i = 0 ∧ linking i = 0 ∧ (t i).kids = [] := by
  have hcount := h.count i
  rw [hnlink] at hcount
  have hroot : i ≠ rootino := by
    intro heq
    rw [if_pos heq] at hcount
    omega
  have hnone : names n t i = 0 := by omega
  refine ⟨hroot, hnone, by omega, ?_⟩
  by_cases hdir : (t i).type = tDir
  · exact h.gone i hdir hroot hnone
  · exact h.files i hdir

/-- A directory with links has a name or is the root. -/
theorem live (h : Linked n t linking) (hdir : (t i).type = tDir) (hlinks : (t i).nlink ≠ 0) :
    i = rootino ∨ 0 < names n t i := by
  by_contra hno
  obtain ⟨hroot, hnames⟩ := not_or.mp hno
  have hnone := h.gone i hdir hroot (Nat.eq_zero_of_not_pos hnames)
  have hcount := h.count i
  have hsub : subdirs t i = 0 := by rw [subdirs, hnone]; rfl
  have hhalves : linking i = 0 := by
    by_contra hne
    exact h.halves i (Nat.pos_of_ne_zero hne) hdir
  rw [if_neg hroot] at hcount
  omega

/-! ## Changes of the tree -/

theorem names_add (h : Adds t i j t') (hi : i < n) :
    names n t' a = names n t a + if j = a then 1 else 0 := by
  have hfun : (fun k => (t' k).kids) = Function.update (fun k => (t k).kids) i (t' i).kids := by
    funext k
    by_cases hk : k = i
    · rw [hk, Function.update_self]
    · rw [Function.update_of_ne hk, h.others k hk]
  rw [names, hfun]
  exact cited_add hi h.kids

theorem names_same (hkids : ∀ a, (t' a).kids = (t a).kids) : names n t' a = names n t a :=
  cited_congr fun i _ => by rw [hkids]

/-- A directory with entries has a name or is the root. -/
theorem kid_live (h : Linked n t linking) (hj : j ∈ (t i).kids) :
    i = rootino ∨ 0 < names n t i := by
  by_contra hno
  obtain ⟨hroot, hnames⟩ := not_or.mp hno
  rw [h.gone i (h.kid_dir hj) hroot (Nat.eq_zero_of_not_pos hnames)] at hj
  cases hj

theorem dir_inside (h : Linked n t linking) (hdir : (t i).type = tDir) : 0 < i ∧ i < n :=
  h.inside (by rw [hdir]; decide)

theorem adds_link (h : Linked n t linking) (hn : n ≤ 2 ^ 16) (hdir : (t i).type = tDir)
    (hj : 0 < linking j) :
    Adds t i j (Function.update t i { t i with
      ls := putEntry (t i).ls (freeSlot (t i).ls) (Image.dirent j name) }) := by
  have hused : (t j).type ≠ 0 := h.in_use (Nat.lt_of_lt_of_le hj (Nat.le_add_left _ _))
  obtain ⟨hjpos, hjn⟩ := h.inside hused
  obtain ⟨hipos, hin⟩ := h.dir_inside hdir
  refine .of_put (h.dirs i hdir).2 hipos (Nat.lt_of_lt_of_le hin hn) hjpos
    (Nat.lt_of_lt_of_le hjn hn) (by rw [Function.update_self]) fun a ha => ?_
  rw [Function.update_of_ne ha]

theorem created_type (haj : a ≠ j) : (created t i j name ty a).type = (t a).type := by
  rw [created, Function.update_of_ne haj]
  by_cases hai : a = i
  · rw [hai, Function.update_self]
  · rw [Function.update_of_ne hai]

theorem adds_create (h : Linked n t linking) (hn : n ≤ 2 ^ 16) (hdir : (t i).type = tDir)
    (hjpos : 0 < j) (hjn : j < n) (hfree : (t j).type = 0) :
    Adds t i j (created t i j name ty) := by
  obtain ⟨hipos, hin⟩ := h.dir_inside hdir
  have hij : i ≠ j := (ne_of_free hdir hfree).symm
  refine .of_put (h.dirs i hdir).2 hipos (Nat.lt_of_lt_of_le hin hn) hjpos
    (Nat.lt_of_lt_of_le hjn hn)
    (by rw [created, Function.update_of_ne hij, Function.update_self]) fun a ha => ?_
  by_cases haj : a = j
  · rw [haj, h.files j (by rw [hfree]; decide), created, Function.update_self, Node.kids]
    split <;> rfl
  · rw [created, Function.update_of_ne haj, Function.update_of_ne ha]

/-- Unlinking is the other way round. -/
theorem adds_unlink (h : Linked n t linking) (hdir : (t i).type = tDir)
    (hm : ((t i).ls.drop 2)[m]? = some de) (hde : entryInum de = j) (hj : j ≠ 0) :
    j ≠ i ∧ Adds (unlinked t i (m + 2) j) i j t := by
  have hmem : entryInum de ∈ (t i).kids :=
    (inums_set hm (by rwa [hde])).mem_iff.mpr List.mem_cons_self
  have hji : j ≠ i := by
    rintro rfl
    rw [hde] at hmem
    exact h.apart j hmem
  refine ⟨hji, .of_set (h.dirs i hdir).2 hm hde hj
    (by rw [unlinked, Function.update_of_ne hji.symm, Function.update_self]) fun a ha => ?_⟩
  by_cases haj : a = j
  · rw [haj, unlinked, Function.update_self, Node.kids, Node.kids]
  · rw [unlinked, Function.update_of_ne haj, Function.update_of_ne ha]

/-- The entry of `sys_link`, in a directory with links. -/
theorem link (h : Linked n t linking) (hn : n ≤ 2 ^ 16) (hdir : (t i).type = tDir)
    (hlive : (t i).nlink ≠ 0) (hj : 0 < linking j) :
    Linked n (Function.update t i { t i with
        ls := putEntry (t i).ls (freeSlot (t i).ls) (Image.dirent j name) })
      (Function.update linking j (linking j - 1)) := by
  set t' := Function.update t i { t i with
    ls := putEntry (t i).ls (freeSlot (t i).ls) (Image.dirent j name) } with ht'
  have hfile : (t j).type ≠ tDir := h.halves j hj
  obtain ⟨hipos, hin⟩ := h.dir_inside hdir
  have hji : j ≠ i := fun heq => hfile (heq ▸ hdir)
  have hother : ∀ a, a ≠ i → t' a = t a := fun a ha => by rw [ht', Function.update_of_ne ha]
  have hself : t' i = { t i with
      ls := putEntry (t i).ls (freeSlot (t i).ls) (Image.dirent j name) } := by
    rw [ht', Function.update_self]
  have htype : ∀ a, (t' a).type = (t a).type := fun a => by
    by_cases ha : a = i
    · rw [ha, hself]
    · rw [hother a ha]
  have hnlink : ∀ a, (t' a).nlink = (t a).nlink := fun a => by
    by_cases ha : a = i
    · rw [ha, hself]
    · rw [hother a ha]
  obtain ⟨hrest, hdots⟩ := h.dirs i hdir
  have hi16 := Nat.lt_of_lt_of_le hin hn
  have hdots' := (hdots.put (Image.dirent j name) hipos hi16).1
  have hadds : Adds t i j t' := h.adds_link hn hdir hj
  have hnames : ∀ a, names n t' a = names n t a + if j = a then 1 else 0 := fun _ =>
    names_add hadds hin
  have hsubdirs : ∀ a, subdirs t' a = subdirs t a := fun a => by
    rw [subdirs, subdirs]
    simp only [htype]
    by_cases ha : a = i
    · rw [ha, hadds.kids.countP_eq, List.countP_cons_of_neg (by simpa using hfile)]
    · rw [hother a ha]
  refine ⟨by rw [htype, h.zero], fun a ha => by rw [htype, h.outside a ha], by rw [htype, h.root],
    fun a ha => ?_, fun a ha => ?_, fun a ha => ?_, fun a => ?_,
    fun a => by rw [hnlink]; exact h.small a,
    fun a ha => by rw [hnlink]; exact h.free a ((htype a).symm.trans ha),
    fun a ha hroot hzero => ?_, fun a ha => ?_⟩
  · rw [htype] at ha
    by_cases hai : a = i
    · rw [hai, hself]
      exact ⟨hrest, hdots'⟩
    · rw [hother a hai]
      exact h.dirs a ha
  · rw [htype] at ha
    have hai : a ≠ i := fun heq => ha (heq ▸ hdir)
    rw [hother a hai]
    exact h.files a ha
  · rcases hadds.mem_cases ha with ⟨hai, haj⟩ | hmem
    · exact hji (haj.symm.trans hai)
    · exact h.apart a hmem
  · have hold := h.count a
    rw [hnlink, hnames, hsubdirs, hold]
    by_cases haj : a = j
    · rw [haj, Function.update_self, if_pos rfl]
      omega
    · rw [Function.update_of_ne haj, if_neg (Ne.symm haj), Nat.add_zero]
  · rw [htype] at ha
    rw [hnames] at hzero
    by_cases hai : a = i
    · rw [hai] at hzero hroot
      rcases h.live hdir hlive with hr | hpos
      · exact absurd hr hroot
      · omega
    · rw [hother a hai]
      exact h.gone a ha hroot (by omega)
  · rw [htype]
    by_cases haj : a = j
    · rw [haj]
      exact hfile
    · rw [Function.update_of_ne haj] at ha
      exact h.halves a ha

/-- `nlink++` at the beginning of `sys_link`, and `nlink--` if it fails. -/
theorem relink (h : Linked n t linking) (hused : (t j).type ≠ 0) (hfile : (t j).type ≠ tDir)
    {c halves : Nat} (hsmall : c < 2 ^ 15) (hcount : c + linking j = (t j).nlink + halves) :
    Linked n (Function.update t j { t j with nlink := c }) (Function.update linking j halves) := by
  set t' := Function.update t j { t j with nlink := c } with ht'
  have hother : ∀ a, a ≠ j → t' a = t a := fun a ha => by rw [ht', Function.update_of_ne ha]
  have hself : t' j = { t j with nlink := c } := by rw [ht', Function.update_self]
  have htype : ∀ a, (t' a).type = (t a).type := fun a => by
    by_cases ha : a = j
    · rw [ha, hself]
    · rw [hother a ha]
  have hkids : ∀ a, (t' a).kids = (t a).kids := fun a => by
    by_cases ha : a = j
    · rw [ha, hself]
      rfl
    · rw [hother a ha]
  have hsubdirs : ∀ a, subdirs t' a = subdirs t a := fun a => by
    rw [subdirs, subdirs, hkids]
    simp only [htype]
  refine ⟨by rw [htype, h.zero], fun a ha => by rw [htype, h.outside a ha], by rw [htype, h.root],
    fun a ha => ?_, fun a ha => ?_, fun a => by rw [hkids]; exact h.apart a, fun a => ?_,
    fun a => ?_, fun a ha => ?_, fun a ha hroot hzero => ?_, fun a ha => ?_⟩
  · rw [htype] at ha
    have haj : a ≠ j := fun heq => hfile (heq ▸ ha)
    rw [hother a haj]
    exact h.dirs a ha
  · rw [htype] at ha
    rw [hkids]
    exact h.files a ha
  · have hold := h.count a
    rw [names_same hkids, hsubdirs]
    by_cases haj : a = j
    · rw [haj] at hold ⊢
      rw [hself, Function.update_self]
      change c = _
      omega
    · rw [hother a haj, Function.update_of_ne haj, hold]
  · by_cases haj : a = j
    · rw [haj, hself]
      exact hsmall
    · rw [hother a haj]
      exact h.small a
  · rw [htype] at ha
    have haj : a ≠ j := fun heq => hused (heq ▸ ha)
    rw [hother a haj]
    exact h.free a ha
  · rw [htype] at ha
    rw [names_same hkids] at hzero
    rw [hkids]
    exact h.gone a ha hroot hzero
  · rw [htype]
    by_cases haj : a = j
    · rw [haj]
      exact hfile
    · rw [Function.update_of_ne haj] at ha
      exact h.halves a ha

theorem decLink_eq {c : Nat} (hpos : 0 < c) (hc : c < 2 ^ 15) : decLink c = c - 1 := by
  have hsplit : c + (2 ^ 16 - 1) = c - 1 + 2 ^ 16 := by omega
  rw [decLink, hsplit, Nat.add_mod_right, Nat.mod_eq_of_lt (by omega)]

theorem incLink_eq {c : Nat} (hc : c < 2 ^ 15) : incLink c = c + 1 := by
  rw [incLink, Nat.mod_eq_of_lt (by omega)]

theorem unlinked_type (a : Nat) : (unlinked t i m j a).type = (t a).type := by
  rw [unlinked]
  by_cases haj : a = j
  · rw [haj, Function.update_self]
  · rw [Function.update_of_ne haj]
    by_cases hai : a = i
    · rw [hai, Function.update_self]
    · rw [Function.update_of_ne hai]

/-- `sys_unlink` of an inode that is no directory, or has no entries. -/
theorem unlink (h : Linked n t linking) (hdir : (t i).type = tDir)
    (hm : ((t i).ls.drop 2)[m]? = some de) (hde : entryInum de = j) (hj : j ≠ 0)
    (hempty : (t j).type = tDir → (t j).kids = []) :
    Linked n (unlinked t i (m + 2) j) linking := by
  obtain ⟨hrest, hdots⟩ := h.dirs i hdir
  have hdots' : HasDots i ((t i).ls.set (m + 2) erased) := hdots.set.1
  obtain ⟨_, hin⟩ := h.dir_inside hdir
  obtain ⟨hji, hadds⟩ := h.adds_unlink hdir hm hde hj
  have hmem : j ∈ (t i).kids := hadds.kids.mem_iff.mpr List.mem_cons_self
  have hnamed := h.kid_named hmem
  set t' := unlinked t i (m + 2) j with ht'
  have hother : ∀ a, a ≠ i → a ≠ j → t' a = t a := fun a hai haj => by
    rw [ht', unlinked, Function.update_of_ne haj, Function.update_of_ne hai]
  have hself : t' i = { t i with
      ls := (t i).ls.set (m + 2) erased
      nlink := if (t j).type = tDir then decLink (t i).nlink else (t i).nlink } := by
    rw [ht', unlinked, Function.update_of_ne hji.symm, Function.update_self]
  have hchild : t' j = { t j with nlink := decLink (t j).nlink } := by
    rw [ht', unlinked, Function.update_self]
  have htype : ∀ a, (t' a).type = (t a).type := unlinked_type
  have hnames : ∀ a, names n t a = names n t' a + if j = a then 1 else 0 := fun _ =>
    names_add hadds hin
  have hsubdirs : ∀ a, a ≠ i → subdirs t' a = subdirs t a := fun a hai => by
    rw [subdirs, subdirs, hadds.others a hai]
    simp only [htype]
  have hparent : subdirs t i = subdirs t' i + if (t j).type = tDir then 1 else 0 := by
    rw [subdirs, subdirs, hadds.kids.countP_eq, List.countP_cons]
    simp only [htype, decide_eq_true_eq]
  have hparentlinks : (t' i).nlink + (if (t j).type = tDir then 1 else 0) = (t i).nlink := by
    have hold := h.count i
    have hvalue : (t' i).nlink =
        if (t j).type = tDir then decLink (t i).nlink else (t i).nlink := by
      rw [hself]
    by_cases hkind : (t j).type = tDir
    · rw [if_pos hkind] at hparent hvalue
      have hpos : 0 < (t i).nlink := by omega
      rw [if_pos hkind, hvalue, decLink_eq hpos (h.small i)]
      exact Nat.sub_add_cancel hpos
    · rw [if_neg hkind] at hvalue
      rw [if_neg hkind, hvalue, Nat.add_zero]
  have hchildlinks : (t' j).nlink + 1 = (t j).nlink := by
    have hold := h.count j
    have hvalue : (t' j).nlink = decLink (t j).nlink := by rw [hchild]
    have hpos : 0 < (t j).nlink := by omega
    rw [hvalue, decLink_eq hpos (h.small j)]
    exact Nat.sub_add_cancel hpos
  have hcount : ∀ a, (t' a).nlink + (if j = a then 1 else 0) +
      (if a = i ∧ (t j).type = tDir then 1 else 0) = (t a).nlink := by
    intro a
    by_cases hai : a = i
    · rw [hai, if_neg hji, Nat.add_zero]
      simpa only [true_and] using hparentlinks
    · rw [if_neg (show ¬(a = i ∧ (t j).type = tDir) from fun hboth => hai hboth.1), Nat.add_zero]
      by_cases haj : a = j
      · rw [haj, if_pos rfl]
        exact hchildlinks
      · rw [hother a hai haj, if_neg (Ne.symm haj), Nat.add_zero]
  refine ⟨by rw [htype, h.zero], fun a ha => by rw [htype, h.outside a ha], by rw [htype, h.root],
    fun a ha => ?_, fun a ha => ?_, fun a ha => ?_, fun a => ?_,
    fun a => Nat.lt_of_le_of_lt (by have := hcount a; omega) (h.small a), fun a ha => ?_,
    fun a ha hroot hzero => ?_, fun a ha => by rw [htype]; exact h.halves a ha⟩
  · rw [htype] at ha
    by_cases hai : a = i
    · rw [hai, hself]
      exact ⟨hrest, hdots'⟩
    · by_cases haj : a = j
      · rw [haj] at ha ⊢
        rw [hchild]
        exact h.dirs j ha
      · rw [hother a hai haj]
        exact h.dirs a ha
  · rw [htype] at ha
    rw [← hadds.others a fun heq => ha (heq ▸ hdir)]
    exact h.files a ha
  · exact h.apart a (hadds.mem ha)
  · have hold := h.count a
    have hnew := hcount a
    have hless := hnames a
    by_cases hai : a = i
    · rw [hai] at hold hnew hless ⊢
      rw [if_neg hji] at hnew hless
      simp only [true_and] at hnew
      omega
    · rw [if_neg (show ¬(a = i ∧ (t j).type = tDir) from fun hboth => hai hboth.1)] at hnew
      rw [hsubdirs a hai]
      omega
  · rw [htype] at ha
    have hnew := hcount a
    have hold := h.free a ha
    omega
  · rw [htype] at ha
    have hless := hnames a
    by_cases haj : a = j
    · rw [haj] at ha ⊢
      rw [← hadds.others j hji]
      exact hempty ha
    · rw [if_neg (Ne.symm haj)] at hless
      have hnone := h.gone a ha hroot (by omega)
      by_cases hai : a = i
      · rw [← hai, hnone] at hmem
        cases hmem
      · rw [← hadds.others a hai, hnone]

/-- `create` of a free inode in a directory with links. -/
theorem create (h : Linked n t linking) (hn : n ≤ 2 ^ 16) (hdir : (t i).type = tDir)
    (hlive : (t i).nlink ≠ 0) (hjpos : 0 < j) (hjn : j < n) (hfree : (t j).type = 0)
    (hty : ty ≠ 0) (hroom : ty = tDir → (t i).nlink + 1 < 2 ^ 15) :
    Linked n (created t i j name ty) linking := by
  obtain ⟨hrest, hdots⟩ := h.dirs i hdir
  obtain ⟨hipos, hin⟩ := h.dir_inside hdir
  have hi16 : i < 2 ^ 16 := Nat.lt_of_lt_of_le hin hn
  have hji : j ≠ i := ne_of_free hdir hfree
  obtain ⟨hjroot, hnone, hhalf, hnokids⟩ := h.without_links (h.free j hfree)
  have hdots' := (hdots.put (Image.dirent j name) hipos hi16).1
  have hadds : Adds t i j (created t i j name ty) := h.adds_create hn hdir hjpos hjn hfree
  set t' := created t i j name ty with ht'
  have hother : ∀ a, a ≠ i → a ≠ j → t' a = t a := fun a hai haj => by
    rw [ht', created, Function.update_of_ne haj, Function.update_of_ne hai]
  have hself : t' i = { t i with
      ls := putEntry (t i).ls (freeSlot (t i).ls) (Image.dirent j name)
      nlink := if ty = tDir then incLink (t i).nlink else (t i).nlink } := by
    rw [ht', created, Function.update_of_ne hji.symm, Function.update_self]
  have hchild : t' j = ⟨ty, 1, if ty = tDir then [Image.dirent j dot, Image.dirent i dotdot]
      else [], 0⟩ := by
    rw [ht', created, Function.update_self]
  have htype : ∀ a, a ≠ j → (t' a).type = (t a).type := fun _ => created_type
  have hchildtype : (t' j).type = ty := by rw [hchild]
  have hchildkids : (t' j).kids = [] := by
    rw [hadds.others j hji, hnokids]
  have hnames : ∀ a, names n t' a = names n t a + if j = a then 1 else 0 := fun _ =>
    names_add hadds hin
  have hcountP : ∀ a, (t a).kids.countP (fun b => (t' b).type = tDir) = subdirs t a := fun a =>
    List.countP_congr fun b hb => by
      rw [htype b fun heq => h.not_kid hnone (heq ▸ hb)]
  have hsubdirs : ∀ a, subdirs t' a = subdirs t a + if a = i ∧ ty = tDir then 1 else 0 := by
    intro a
    rw [subdirs]
    by_cases hai : a = i
    · rw [hai, hadds.kids.countP_eq, List.countP_cons, hcountP, hchildtype]
      simp only [decide_eq_true_eq, true_and]
    · rw [hadds.others a hai, hcountP,
        if_neg (show ¬(a = i ∧ ty = tDir) from fun hboth => hai hboth.1), Nat.add_zero]
  have hparentlinks : (t' i).nlink = (t i).nlink + if ty = tDir then 1 else 0 := by
    have hvalue : (t' i).nlink = if ty = tDir then incLink (t i).nlink else (t i).nlink := by
      rw [hself]
    rw [hvalue, incLink_eq (h.small i)]
    split <;> rfl
  have hchildlinks : (t' j).nlink = (t j).nlink + 1 := by
    rw [hchild, h.free j hfree]
  have hcount : ∀ a, (t' a).nlink = (t a).nlink + (if j = a then 1 else 0) +
      if a = i ∧ ty = tDir then 1 else 0 := by
    intro a
    by_cases hai : a = i
    · rw [hai, if_neg hji, Nat.add_zero]
      simpa only [true_and] using hparentlinks
    · rw [if_neg (show ¬(a = i ∧ ty = tDir) from fun hboth => hai hboth.1), Nat.add_zero]
      by_cases haj : a = j
      · rw [haj, if_pos rfl]
        exact hchildlinks
      · rw [hother a hai haj, if_neg (Ne.symm haj), Nat.add_zero]
  refine ⟨?_, fun a ha => ?_, by rw [htype _ (Ne.symm hjroot), h.root], fun a ha => ?_,
    fun a ha => ?_, fun a ha => ?_, fun a => ?_, fun a => ?_, fun a ha => ?_,
    fun a ha hroot hzero => ?_, fun a ha => ?_⟩
  · rw [htype 0 (Nat.ne_of_lt hjpos), h.zero]
  · rw [htype a fun heq => Nat.not_lt.mpr ha (heq ▸ hjn), h.outside a ha]
  · by_cases haj : a = j
    · rw [haj, hchildtype] at ha
      rw [haj, hchild, if_pos ha]
      exact ⟨rfl, i, [], rfl, hipos, hi16⟩
    · rw [htype a haj] at ha
      by_cases hai : a = i
      · rw [hai, hself]
        exact ⟨hrest, hdots'⟩
      · rw [hother a hai haj]
        exact h.dirs a ha
  · by_cases haj : a = j
    · rw [haj, hchildkids]
    · rw [htype a haj] at ha
      rw [hadds.others a fun heq => ha (heq ▸ hdir)]
      exact h.files a ha
  · rcases hadds.mem_cases ha with ⟨hai, haj⟩ | hmem
    · exact hji (haj.symm.trans hai)
    · exact h.apart a hmem
  · have hold := h.count a
    rw [hcount, hnames, hsubdirs, hold]
    omega
  · have hold := h.small a
    have hnew := hcount a
    by_cases hai : a = i
    · rw [hai] at hold hnew ⊢
      rw [if_neg hji] at hnew
      split at hnew
      · next hmade =>
        have := hroom hmade.2
        omega
      · omega
    · rw [if_neg (show ¬(a = i ∧ ty = tDir) from fun hboth => hai hboth.1)] at hnew
      by_cases haj : a = j
      · rw [haj, hchildlinks, h.free j hfree]
        decide
      · rw [if_neg (Ne.symm haj)] at hnew
        omega
  · have haj : a ≠ j := fun heq => hty (by rw [← hchildtype, ← heq, ha])
    rw [htype a haj] at ha
    have hai : a ≠ i := by
      rintro rfl
      rw [ha] at hdir
      cases hdir
    rw [hother a hai haj]
    exact h.free a ha
  · rw [hnames] at hzero
    by_cases haj : a = j
    · rw [haj, hchildkids]
    · rw [htype a haj] at ha
      by_cases hai : a = i
      · rw [hai] at hzero hroot
        rcases h.live hdir hlive with hr | hpos
        · exact absurd hr hroot
        · omega
      · rw [hadds.others a hai]
        exact h.gone a ha hroot (by omega)
  · by_cases haj : a = j
    · rw [haj, hhalf] at ha
      exact absurd ha (Nat.lt_irrefl 0)
    · rw [htype a haj]
      exact h.halves a ha

/-- The last `iput` of an inode without links. -/
theorem put (h : Linked n t linking) (hnlink : (t i).nlink = 0) :
    Linked n (Function.update t i ⟨0, 0, [], 0⟩) linking := by
  obtain ⟨hroot, hnone, _, hnokids⟩ := h.without_links hnlink
  set t' := Function.update t i ⟨0, 0, [], 0⟩ with ht'
  have hother : ∀ a, a ≠ i → t' a = t a := fun a ha => by rw [ht', Function.update_of_ne ha]
  have hself : t' i = ⟨0, 0, [], 0⟩ := by rw [ht', Function.update_self]
  have hkids : ∀ a, (t' a).kids = (t a).kids := fun a => by
    by_cases hai : a = i
    · rw [hai, hself, hnokids]
      rfl
    · rw [hother a hai]
  have hsubdirs : ∀ a, subdirs t' a = subdirs t a := fun a => by
    rw [subdirs, subdirs, hkids]
    refine List.countP_congr fun b hb => ?_
    rw [hother b fun heq => h.not_kid hnone (heq ▸ hb)]
  have hzero : ∀ a, (t a).type = 0 → (t' a).type = 0 := fun a ha => by
    by_cases hai : a = i
    · rw [hai, hself]
    · rw [hother a hai, ha]
  have hne : ∀ a, (t' a).type = tDir → a ≠ i := fun a ha heq => by
    rw [heq, hself] at ha
    cases ha
  refine ⟨hzero 0 h.zero, fun a ha => hzero a (h.outside a ha), by rw [hother _ hroot.symm, h.root],
    fun a ha => ?_, fun a ha => ?_, fun a => by rw [hkids]; exact h.apart a, fun a => ?_,
    fun a => ?_, fun a ha => ?_, fun a ha hroot' hnone => ?_, fun a ha => ?_⟩
  · have hai := hne a ha
    rw [hother a hai] at ha ⊢
    exact h.dirs a ha
  · by_cases hai : a = i
    · rw [hai, hself]
      rfl
    · rw [hother a hai] at ha ⊢
      exact h.files a ha
  · rw [names_same hkids, hsubdirs]
    by_cases hai : a = i
    · have hold := h.count i
      rw [hnlink] at hold
      rw [hai, hself]
      exact hold
    · rw [hother a hai]
      exact h.count a
  · by_cases hai : a = i
    · rw [hai, hself]
      decide
    · rw [hother a hai]
      exact h.small a
  · by_cases hai : a = i
    · rw [hai, hself]
    · rw [hother a hai] at ha ⊢
      exact h.free a ha
  · have hai := hne a ha
    rw [hother a hai] at ha
    rw [names_same hkids] at hnone
    rw [hkids]
    exact h.gone a ha hroot' hnone
  · by_cases hai : a = i
    · rw [hai, hself]
      decide
    · rw [hother a hai]
      exact h.halves a ha

end Linked

/-! ## Steps of the tree -/

/-- What a call does to the tree. -/
inductive TreeStep (n : Nat) (t : Nat → Node) (linking : Nat → Nat) :
    (Nat → Node) → (Nat → Nat) → Prop
  | stay : TreeStep n t linking t linking
  | create {i j : Nat} {name : List UInt8} {ty : Nat} (hdir : (t i).type = tDir)
      (hlive : (t i).nlink ≠ 0) (hjpos : 0 < j) (hjn : j < n) (hfree : (t j).type = 0) (hty : ty ≠ 0)
      (hroom : ty = tDir → (t i).nlink + 1 < 2 ^ 15) :
      TreeStep n t linking (created t i j name ty) linking
  | relink {j c halves : Nat} (hused : (t j).type ≠ 0) (hfile : (t j).type ≠ tDir)
      (hsmall : c < 2 ^ 15) (hcount : c + linking j = (t j).nlink + halves) :
      TreeStep n t linking (Function.update t j { t j with nlink := c })
        (Function.update linking j halves)
  | link {i j : Nat} {name : List UInt8} (hdir : (t i).type = tDir) (hlive : (t i).nlink ≠ 0)
      (hj : 0 < linking j) :
      TreeStep n t linking
        (Function.update t i { t i with
          ls := putEntry (t i).ls (freeSlot (t i).ls) (Image.dirent j name) })
        (Function.update linking j (linking j - 1))
  | unlink {i m j : Nat} {de : List UInt8} (hdir : (t i).type = tDir)
      (hm : ((t i).ls.drop 2)[m]? = some de) (hde : entryInum de = j) (hj : j ≠ 0)
      (hempty : (t j).type = tDir → (t j).kids = []) :
      TreeStep n t linking (unlinked t i (m + 2) j) linking
  | put {i : Nat} (hnlink : (t i).nlink = 0) :
      TreeStep n t linking (Function.update t i ⟨0, 0, [], 0⟩) linking

theorem Linked.step {linking' : Nat → Nat} (h : Linked n t linking) (hn : n ≤ 2 ^ 16)
    (hstep : TreeStep n t linking t' linking') : Linked n t' linking' := by
  cases hstep with
  | stay => exact h
  | create hdir hlive hjpos hjn hfree hty hroom =>
      exact h.create hn hdir hlive hjpos hjn hfree hty hroom
  | relink hused hfile hsmall hcount => exact h.relink hused hfile hsmall hcount
  | link hdir hlive hj => exact h.link hn hdir hlive hj
  | unlink hdir hm hde hj hempty => exact h.unlink hdir hm hde hj hempty
  | put hnlink => exact h.put hnlink

end OSProjects.Storage
