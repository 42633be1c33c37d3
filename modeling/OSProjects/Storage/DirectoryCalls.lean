import OSProjects.Storage.Entries

/-!
# The calls on directories

What `dirlink`, `sys_unlink` and `create` leave of the tree, and which panics they can end in.
-/

namespace OSProjects.Storage

open ByteMemory RedoLog Xv6

variable {sb : Superblock} {k : Kernel} {d e : Disk Block} {i j m n : Nat} {name de : List UInt8}
  {p : FsPanic} {w : WriteDone}

/-- The place where `dirlink` stores an entry. -/
def freeSlot (l : List (List UInt8)) : Nat := l.findIdx fun de => !taken de

theorem freeSlot_le (l : List (List UInt8)) : freeSlot l ≤ l.length := List.findIdx_le_length

/-- An entry finds no room in a directory. -/
def Full (l : List (List UInt8)) : Prop := maxFile * bSize < direntSize * freeSlot l + direntSize

/-! ## Entries -/

section Entries

variable {l : List (List UInt8)} {x : List UInt8}

theorem taken_iff : taken de = true ↔ entryInum de ≠ 0 := decide_eq_true_iff

theorem putEntry_cons (hx : taken x = true) :
    putEntry (x :: l) (freeSlot (x :: l)) de = x :: putEntry l (freeSlot l) de := by
  have hslot : freeSlot (x :: l) = freeSlot l + 1 := by
    rw [freeSlot, List.findIdx_cons, hx]
    rfl
  rw [hslot, putEntry, putEntry, List.length_cons]
  by_cases hin : freeSlot l < l.length
  · rw [if_pos (Nat.succ_lt_succ hin), if_pos hin, List.set_cons_succ]
  · rw [if_neg (fun h => hin (Nat.lt_of_succ_lt_succ h)), if_neg hin, List.cons_append]

theorem entryInum_dirent (hi : i < 2 ^ 16) : entryInum (Image.dirent i name) = i := by
  rw [entryInum, Image.dirent, List.take_left' (length_wordBytes 2 i), wordValue_wordBytes]
  exact Nat.mod_eq_of_lt hi

theorem entryName_dirent : entryName (Image.dirent i name) =
    name.take 14 ++ List.replicate (14 - name.length) 0 := by
  rw [entryName, Image.dirent, List.drop_left' (length_wordBytes 2 i)]

theorem matching_dot (h : namecmp name dot = false) :
    matching name (Image.dirent i dot) = false := by
  have hseen : seenName (entryName (Image.dirent i dot)) = seenName dot := by
    rw [entryName_dirent]
    decide
  rw [matching, namecmp, hseen]
  exact Bool.and_eq_false_iff.mpr (.inr h)

theorem matching_dotdot (h : namecmp name dotdot = false) :
    matching name (Image.dirent i dotdot) = false := by
  have hseen : seenName (entryName (Image.dirent i dotdot)) = seenName dotdot := by
    rw [entryName_dirent]
    decide
  rw [matching, namecmp, hseen]
  exact Bool.and_eq_false_iff.mpr (.inr h)

end Entries

namespace IsDir

/-! ## dirlink -/

/-- The second half of `dirlink`. -/
theorem dirlink_eq (h : IsDir sb d i) (hnone : (tree sb d i).ls.find? (matching name) = none) :
    dirlink sb k d i (sb.dinode d i) name j =
      (writei sb k d i (sb.dinode d i) (direntSize * freeSlot (tree sb d i).ls)
        (Image.dirent j name)).bind fun w =>
          if w.result ≠ direntSize then .error .dirlink else .ok ⟨0, w.ip, w.disk⟩ := by
  have hscan := h.scan (k := k) (m := 0) .dirlinkRead fun de => !taken de
  rw [Nat.mul_zero, Nat.zero_add, List.drop_zero] at hscan
  rw [dirlink, h.dirlookup, ok_bind]
  simp only [hnone]
  rw [hscan, ok_bind]
  rfl

theorem dirlink_found (h : IsDir sb d i)
    (hsome : (tree sb d i).ls.find? (matching name) = some de) :
    dirlink sb k d i (sb.dinode d i) name j =
      if entryInum de = i then .error .selfLock else .ok ⟨-1, sb.dinode d i, d⟩ := by
  rw [dirlink, h.dirlookup, ok_bind]
  simp only [hsome]

theorem dirlink_ok (h : IsDir sb d i) (hw : dirlink sb k d i (sb.dinode d i) name j = .ok w) :
    (w = ⟨-1, sb.dinode d i, d⟩ ∧ ((tree sb d i).ls.find? (matching name)).isSome) ∨
    (w.result = 0 ∧ (tree sb d i).ls.find? (matching name) = none ∧ w.ip = sb.dinode w.disk i ∧
      Becomes sb d i { tree sb d i with
        ls := putEntry (tree sb d i).ls (freeSlot (tree sb d i).ls) (Image.dirent j name) }
        w.disk) := by
  cases hfind : (tree sb d i).ls.find? (matching name) with
  | some de =>
      rw [h.dirlink_found hfind] at hw
      split at hw
      · cases hw
      · exact .inl ⟨(Except.ok.inj hw).symm, rfl⟩
  | none =>
      rw [h.dirlink_eq hfind] at hw
      obtain ⟨w', hwrite, hdone⟩ := bind_ok hw
      by_cases hfits : direntSize * freeSlot (tree sb d i).ls + direntSize ≤ maxFile * bSize
      · obtain ⟨hresult, hself, hbecomes⟩ :=
          h.writei_fits (dirent_length _) (freeSlot_le _) hfits hwrite
        rw [if_neg fun hne => hne hresult] at hdone
        obtain rfl := Except.ok.inj hdone
        exact .inr ⟨rfl, rfl, hself, hbecomes⟩
      · rw [h.writei_full (dirent_length _) (freeSlot_le _) (Nat.not_le.mp hfits)] at hwrite
        obtain rfl := Except.ok.inj hwrite
        cases hdone

end IsDir

/-! ## Link counts -/

/-- `iupdate` after a change of the link count. -/
theorem putLinks (hs : Sound sb d (sb.dinode d)) (hi : i < sb.ninodes)
    (htype : (tree sb d i).type ≠ 0) (hn : n < 2 ^ 16) :
    Becomes sb d i { tree sb d i with nlink := n }
        (sb.putDinode d i { sb.dinode d i with nlink := n }) ∧
      sb.dinode (sb.putDinode d i { sb.dinode d i with nlink := n }) i =
        { sb.dinode d i with nlink := n } := by
  have hfits := hs.fits i hi
  rw [tree_eq hi] at htype ⊢
  obtain ⟨hchanges, hbytes⟩ := iupdate_spec hs hi htype hfits.major hfits.minor hn
    { sb.dinode d i with nlink := n } rfl
  refine ⟨?_, hchanges.self⟩
  have hbecomes := hchanges.becomes hi
  rw [node, listing_congr hbytes rfl] at hbecomes
  exact hbecomes

theorem incLink_lt (n : Nat) : incLink n < 2 ^ 16 := Nat.mod_lt _ (by decide)

theorem decLink_lt (n : Nat) : decLink n < 2 ^ 16 := Nat.mod_lt _ (by decide)

namespace Becomes

variable {x : Node}

theorem self (h : Becomes sb d i x e) : Storage.tree sb e i = x := by
  rw [h.tree, Function.update_self]

theorem other (h : Becomes sb d i x e) (hji : j ≠ i) :
    Storage.tree sb e j = Storage.tree sb d j := by
  rw [h.tree, Function.update_of_ne hji]

end Becomes

/-! ## create -/

/-- The tree with a new inode `j` in the directory `i`. -/
def created (t : Nat → Node) (i j : Nat) (name : List UInt8) (ty : Nat) : Nat → Node :=
  Function.update
    (Function.update t i { t i with
      ls := putEntry (t i).ls (freeSlot (t i).ls) (Image.dirent j name)
      nlink := if ty = tDir then incLink (t i).nlink else (t i).nlink })
    j ⟨ty, 1, if ty = tDir then [Image.dirent j dot, Image.dirent i dotdot] else [], 0⟩

theorem ialloc_pos {ty : Nat} (h : ialloc sb d ty = .ok (j, e)) : 0 < j := by
  rw [ialloc] at h
  split at h
  · next c hfind =>
    obtain ⟨rfl, _⟩ := Prod.mk.inj (Except.ok.inj h)
    exact (List.mem_range'_1.mp (List.mem_of_find?_eq_some hfind)).1
  · cases h

/-- The new inode before its entries. -/
theorem ialloc_becomes {ty major minor : Nat} (hs : Sound sb d (sb.dinode d)) (hty : ty ≠ 0)
    (hshort : ty < 2 ^ 16) (hmajor : major < 2 ^ 16) (hminor : minor < 2 ^ 16)
    (hmade : ialloc sb d ty = .ok (j, e)) {ip : Dinode}
    (hip : ip = { sb.dinode e j with major := major, minor := minor, nlink := 1 }) :
    j < sb.ninodes ∧ (tree sb d j).type = 0 ∧
      Becomes sb d j ⟨ty, 1, [], 0⟩ (sb.putDinode e j ip) ∧
      sb.dinode (sb.putDinode e j ip) j = ip := by
  obtain ⟨hj, hfree, hchanges⟩ := ialloc_spec hs hty hshort hmade
  have hinode := hchanges.self
  obtain ⟨hupdate, hbytes⟩ := iupdate_spec hchanges.sound hj (by rw [hinode]; exact hty) hmajor hminor
    (Nat.one_lt_two_pow (by decide)) ip hip
  refine ⟨hj, by rw [tree_type hj, hfree], ⟨hupdate.sound, ?_, fun a ha haj => ?_⟩, hupdate.self⟩
  · have hempty : listing (sb.putDinode e j ip) ip = [] := by
      have hsize : ip.size = 0 := by
        rw [hip, hinode]
        rfl
      rw [listing, hsize]
      rfl
    have hnode : node (sb.putDinode e j ip) ip = ⟨ty, 1, [], 0⟩ := by
      rw [node, hempty, ite_self, hip, hinode]
      exact congrArg (Node.mk ty 1 []) (ite_self _)
    rw [hupdate.tree hj, hnode, hchanges.tree hj, Function.update_idem]
  · rw [(hupdate.others a ha haj).1, (hchanges.others a ha haj).1]

/-- The entries of a new directory. -/
theorem makeDots_ok (hn : sb.ninodes ≤ 2 ^ 16) (hs : Sound sb d (sb.dinode d))
    (hi : i < sb.ninodes) (hitype : (tree sb d i).type ≠ 0) (hj : j < sb.ninodes) (hjpos : 0 < j)
    (hji : j ≠ i) (hnew : tree sb d j = ⟨tDir, 1, [], 0⟩) {r : Dinode × Disk Block}
    (h : makeDots sb k d i (sb.dinode d i) j (sb.dinode d j) = .ok r) :
    Sound sb r.2 (sb.dinode r.2) ∧ r.1 = sb.dinode r.2 i ∧ tree sb r.2 =
      Function.update
        (Function.update (tree sb d) i { tree sb d i with nlink := incLink (tree sb d i).nlink })
        j ⟨tDir, 1, [Image.dirent j dot, Image.dirent i dotdot], 0⟩ := by
  obtain ⟨hlinks, hdp⟩ := putLinks hs hi hitype (incLink_lt (sb.dinode d i).nlink)
  rw [makeDots] at h
  set d1 := sb.putDinode d i { sb.dinode d i with nlink := incLink (sb.dinode d i).nlink } with hd1
  have hchild : tree sb d1 j = ⟨tDir, 1, [], 0⟩ := (hlinks.other hji).trans hnew
  have hdir : IsDir sb d1 j := ⟨hlinks.sound, hj, by rw [hchild], by rw [hchild]⟩
  rw [← hlinks.others j hj hji] at h
  obtain ⟨w, hw, hrest⟩ := bind_ok h
  have hj16 : j < 2 ^ 16 := Nat.lt_of_lt_of_le hj hn
  have htaken : taken (Image.dirent j dot) = true :=
    taken_iff.mpr (by rw [entryInum_dirent hj16]; exact Nat.ne_of_gt hjpos)
  rcases hdir.dirlink_ok hw with ⟨_, hsome⟩ | ⟨hresult, _, hip, hfirst⟩
  · rw [hchild] at hsome
    cases hsome
  · rw [if_neg (by rw [hresult]; exact Int.lt_irrefl 0), hip] at hrest
    have hone : tree sb w.disk j = ⟨tDir, 1, [Image.dirent j dot], 0⟩ := by
      rw [hfirst.self, hchild]
      rfl
    have hdir' : IsDir sb w.disk j := ⟨hfirst.sound, hj, by rw [hone], by rw [hone]⟩
    obtain ⟨w', hw', hdone⟩ := bind_ok hrest
    rcases hdir'.dirlink_ok hw' with ⟨_, hsome⟩ | ⟨hresult', _, _, hsecond⟩
    · rw [hone] at hsome
      simp only [List.find?_cons, matching_dot (show namecmp dotdot dot = false by decide)] at hsome
      cases hsome
    · rw [if_neg (by rw [hresult']; exact Int.lt_irrefl 0)] at hdone
      obtain rfl := Except.ok.inj hdone
      refine ⟨hsecond.sound, ?_, ?_⟩
      · rw [hsecond.others i hi hji.symm, hfirst.others i hi hji.symm, hdp]
      · have htwo : putEntry [Image.dirent j dot] (freeSlot [Image.dirent j dot])
            (Image.dirent i dotdot) = [Image.dirent j dot, Image.dirent i dotdot] :=
          putEntry_cons htaken
        rw [hsecond.tree, hone, hfirst.tree, Function.update_idem, hlinks.tree, ← tree_nlink hi]
        simp only [htwo]

/-- `create` makes an inode and names it, if the name is not there. -/
theorem IsDir.create (h : IsDir sb d i) (hn : sb.ninodes ≤ 2 ^ 16) {ty major minor : Nat}
    (hty : ty ≠ 0) (hshort : ty < 2 ^ 16) (hmajor : major < 2 ^ 16) (hminor : minor < 2 ^ 16)
    {r : Option Nat} (hdone : create sb k d i name ty major minor = .ok (r, e)) :
    (r = none ∧ e = d) ∨ (tree sb d i).ls.find? (matching name) = none ∧
      ∃ j, r = some j ∧ 0 < j ∧ j < sb.ninodes ∧ (tree sb d j).type = 0 ∧
        Sound sb e (sb.dinode e) ∧ tree sb e = created (tree sb d) i j name ty := by
  rw [Storage.create, h.dirlookup, ok_bind] at hdone
  cases hfind : (tree sb d i).ls.find? (matching name) with
  | some de =>
      simp only [hfind, Option.isSome_some, if_true] at hdone
      obtain ⟨rfl, rfl⟩ := Prod.mk.inj (Except.ok.inj hdone)
      exact .inl ⟨rfl, rfl⟩
  | none =>
      simp only [hfind, Option.isSome_none, Bool.false_eq_true, if_false] at hdone
      obtain ⟨⟨j, d1⟩, hmade, hrest⟩ := bind_ok hdone
      obtain ⟨⟨dp, d3⟩, hdots, hlast⟩ := bind_ok hrest
      obtain ⟨hj, hfree, hnew, hip⟩ := ialloc_becomes h.sound hty hshort hmajor hminor hmade rfl
      have hjpos := ialloc_pos hmade
      have hji : j ≠ i := ne_of_free h.type hfree
      set d2 := sb.putDinode d1 j
        { sb.dinode d1 j with major := major, minor := minor, nlink := 1 } with hd2
      have hparent : tree sb d2 i = tree sb d i := hnew.other hji.symm
      have hdots' : Sound sb d3 (sb.dinode d3) ∧ dp = sb.dinode d3 i ∧ tree sb d3 =
          Function.update (Function.update (tree sb d) i { tree sb d i with
            nlink := if ty = tDir then incLink (tree sb d i).nlink else (tree sb d i).nlink })
            j ⟨ty, 1, if ty = tDir then [Image.dirent j dot, Image.dirent i dotdot] else [], 0⟩ := by
        simp only [← hnew.others i h.inside hji.symm, ← hip] at hdots
        split at hdots
        · next hkind =>
          subst hkind
          obtain ⟨hsound, hself, htree⟩ := makeDots_ok hn hnew.sound h.inside
            (by rw [hparent, h.type]; decide) hj hjpos hji hnew.self hdots
          refine ⟨hsound, hself, ?_⟩
          rw [htree, hparent, hnew.tree, if_pos rfl, if_pos rfl,
            Function.update_comm hji, Function.update_idem]
        · next hkind =>
          obtain ⟨rfl, rfl⟩ := Prod.mk.inj (Except.ok.inj hdots)
          refine ⟨hnew.sound, rfl, ?_⟩
          rw [hnew.tree, if_neg hkind, if_neg hkind, Function.update_eq_self]
      obtain ⟨hsound, rfl, htree⟩ := hdots'
      obtain ⟨w, hw, hend⟩ := bind_ok hlast
      have hnow : tree sb d3 i = { tree sb d i with
          nlink := if ty = tDir then incLink (tree sb d i).nlink else (tree sb d i).nlink } := by
        rw [htree, Function.update_of_ne hji.symm, Function.update_self]
      have hdir : IsDir sb d3 i :=
        ⟨hsound, h.inside, by rw [hnow]; exact h.type, by rw [hnow]; exact h.whole⟩
      rcases hdir.dirlink_ok hw with ⟨_, hsome⟩ | ⟨hresult, _, _, hlink⟩
      · rw [hnow] at hsome
        simp only [hfind] at hsome
        cases hsome
      · rw [if_neg (by rw [hresult]; exact Int.lt_irrefl 0)] at hend
        obtain ⟨rfl, rfl⟩ := Prod.mk.inj (Except.ok.inj hend)
        refine .inr ⟨rfl, j, rfl, hjpos, hj, hfree, hlink.sound, ?_⟩
        rw [hlink.tree, hnow, htree, created, Function.update_comm hji, Function.update_idem]

/-! ## sys_unlink -/

/-- An entry of zeroes. -/
def erased : List UInt8 := List.replicate direntSize 0

/-- The tree without the entry at `m` of the directory `i`, which was that of `j`. -/
def unlinked (t : Nat → Node) (i m j : Nat) : Nat → Node :=
  Function.update
    (Function.update t i { t i with
      ls := (t i).ls.set m erased
      nlink := if (t j).type = tDir then decLink (t i).nlink else (t i).nlink })
    j { t j with nlink := decLink (t j).nlink }

theorem IsDir.eraseEntry (h : IsDir sb d i) (hj : j < sb.ninodes) (hji : j ≠ i)
    (htype : (tree sb d j).type ≠ 0) (hm : m < (tree sb d i).ls.length) :
    ∃ e, eraseEntry sb k d (direntSize * m) i (sb.dinode d i) j (sb.dinode d j) =
        .ok (some j, e) ∧ Sound sb e (sb.dinode e) ∧ tree sb e = unlinked (tree sb d) i m j := by
  have hlen : erased.length = direntSize := List.length_replicate
  obtain ⟨hfits, w, hw⟩ := h.writei_there (k := k) hlen hm
  obtain ⟨hresult, hself, hwrite⟩ := h.writei_fits hlen (Nat.le_of_lt hm) hfits hw
  have hdir : (tree sb w.disk i).type = tDir := by
    rw [hwrite.self]
    exact h.type
  have hlinks : w.ip.nlink = (tree sb d i).nlink := by
    rw [hself, ← tree_nlink h.inside, hwrite.self]
  have hput : putEntry (tree sb d i).ls m erased = (tree sb d i).ls.set m erased := if_pos hm
  have hkind : (sb.dinode d j).type = (tree sb d j).type := (tree_type hj).symm
  -- the directory loses the link of ".." if it loses a directory
  have hparent : ∃ e, (if (sb.dinode d j).type = tDir then
        sb.putDinode w.disk i { w.ip with nlink := decLink w.ip.nlink } else w.disk) = e ∧
      Sound sb e (sb.dinode e) ∧ sb.dinode e j = sb.dinode d j ∧
      tree sb e = Function.update (tree sb d) i { tree sb d i with
        ls := (tree sb d i).ls.set m erased
        nlink := if (tree sb d j).type = tDir then decLink (tree sb d i).nlink
          else (tree sb d i).nlink } := by
    rw [hkind]
    split
    · obtain ⟨hbecomes, _⟩ := putLinks hwrite.sound h.inside (by rw [hdir]; decide)
        (decLink_lt w.ip.nlink)
      rw [← hself] at hbecomes
      refine ⟨_, rfl, hbecomes.sound, (hbecomes.others j hj hji).trans (hwrite.others j hj hji), ?_⟩
      rw [hbecomes.tree, hwrite.tree, Function.update_idem, Function.update_self, hlinks, hput]
    · refine ⟨_, rfl, hwrite.sound, hwrite.others j hj hji, ?_⟩
      rw [hwrite.tree, hput]
  obtain ⟨e, he, hsound, hinode, htree⟩ := hparent
  have hkept : tree sb e j = tree sb d j := by rw [htree, Function.update_of_ne hji]
  obtain ⟨hbecomes, _⟩ := putLinks hsound hj (by rwa [hkept])
    (decLink_lt (sb.dinode d j).nlink)
  refine ⟨_, ?_, hbecomes.sound, ?_⟩
  · change writei sb k d i (sb.dinode d i) (direntSize * m) (List.replicate direntSize 0) = .ok w at hw
    rw [Storage.eraseEntry, hw, ok_bind, if_neg fun hne => hne hresult, hinode]
    simp only [he]
  · rw [hbecomes.tree, hkept, htree, ← tree_nlink hj, unlinked]

/-- The entries that `isdirempty` looks at. -/
theorem IsDir.isdirempty (h : IsDir sb d i) : ∃ s, isdirempty sb k d (sb.dinode d i) = .ok s ∧
    s.de = ((tree sb d i).ls.drop 2).find? taken ∧ s.ip = sb.dinode d i ∧ s.disk = d :=
  ⟨_, h.scan (m := 2) .isdirempty taken, rfl, rfl, rfl⟩

/-- What `sys_unlink` needs of the inode that an entry names. -/
structure Unlinkable (sb : Superblock) (d : Disk Block) (i j : Nat) : Prop where
  inside : j < sb.ninodes
  apart : j ≠ i
  type : (tree sb d j).type ≠ 0
  nlink : 1 ≤ short (tree sb d j).nlink
  whole : (tree sb d j).type = tDir → (tree sb d j).rest = 0

/-- `sys_unlink` returns. It unlinks the entry that it finds, unless this is a directory with
entries. -/
theorem IsDir.unlink (h : IsDir sb d i) (name : List UInt8)
    (hentry : ∀ de, (tree sb d i).ls.find? (matching name) = some de →
      Unlinkable sb d i (entryInum de)) :
    ∃ r e, unlink sb k d i name = .ok (r, e) ∧ ((r = none ∧ e = d) ∨
      ∃ de, r = some (entryInum de) ∧ namecmp name dot = false ∧ namecmp name dotdot = false ∧
        (tree sb d i).ls.find? (matching name) = some de ∧
        ((tree sb d (entryInum de)).type = tDir →
          ((tree sb d (entryInum de)).ls.drop 2).find? taken = none) ∧
        Sound sb e (sb.dinode e) ∧ tree sb e =
          unlinked (tree sb d) i ((tree sb d i).ls.findIdx (matching name)) (entryInum de)) := by
  rw [Storage.unlink]
  split
  · exact ⟨none, d, rfl, .inl ⟨rfl, rfl⟩⟩
  · next hdots =>
    obtain ⟨hdot, hdotdot⟩ := Bool.or_eq_false_iff.mp (Bool.not_eq_true _ ▸ hdots)
    rw [h.dirlookup, ok_bind]
    cases hfind : (tree sb d i).ls.find? (matching name) with
    | none => exact ⟨none, d, rfl, .inl ⟨rfl, rfl⟩⟩
    | some de =>
        obtain ⟨hj, hji, htype, hnlink, hwhole⟩ := hentry de hfind
        have hslot : (tree sb d i).ls.findIdx (matching name) < (tree sb d i).ls.length :=
          List.findIdx_lt_length.mpr ⟨de, List.mem_of_find?_eq_some hfind, List.find?_some hfind⟩
        obtain ⟨e, herase, hsound, htree⟩ := h.eraseEntry (k := k) hj hji htype hslot
        have hkind := tree_type (d := d) hj
        have hcount := tree_nlink (d := d) hj
        rw [hcount] at hnlink
        simp only [if_neg hji, if_neg (hkind ▸ htype), if_neg (Int.not_lt.mpr hnlink)]
        split
        · next hdir =>
          have hchild : IsDir sb d (entryInum de) :=
            ⟨h.sound, hj, hkind.trans hdir, hwhole (hkind.trans hdir)⟩
          obtain ⟨s, hscan, hde, hip, hdisk⟩ := hchild.isdirempty (k := k)
          rw [hscan, ok_bind, hip, hdisk, hde]
          split
          · exact ⟨none, d, rfl, .inl ⟨rfl, rfl⟩⟩
          · next hempty =>
            exact ⟨_, e, herase, .inr ⟨de, rfl, hdot, hdotdot, rfl,
              fun _ => Option.not_isSome_iff_eq_none.mp hempty, hsound, htree⟩⟩
        · next hfile =>
          exact ⟨_, e, herase, .inr ⟨de, rfl, hdot, hdotdot, rfl,
            fun hdir => absurd (hkind.symm.trans hdir) hfile, hsound, htree⟩⟩

end OSProjects.Storage
