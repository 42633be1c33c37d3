import OSProjects.Storage.Directory

/-!
# Directories as lists of entries

On a sound disk a loop over a directory is a search in the list of its entries, and a `writei`
of an entry is an update of this list.
-/

namespace OSProjects.Storage

open ByteMemory RedoLog Xv6

variable {sb : Superblock} {k : Kernel} {d e : Disk Block} {ip iq : Dinode} {i j m n : Nat}
  {name de : List UInt8} {stop : List UInt8 → Bool} {panic p : FsPanic}

/-! ## Lists of entries -/

/-- The whole entries of a directory. -/
def listing (d : Disk Block) (ip : Dinode) : List (List UInt8) :=
  (List.range (ip.size / direntSize)).map fun m =>
    readBytes (fileByte d ip) (direntSize * m) direntSize

theorem listing_length : (listing d ip).length = ip.size / direntSize := by
  rw [listing, List.length_map, List.length_range]

theorem listing_getElem (h : m < (listing d ip).length) :
    (listing d ip)[m] = readBytes (fileByte d ip) (direntSize * m) direntSize := by
  simp only [listing, List.getElem_map, List.getElem_range]

/-- A loop over a directory searches its list. -/
theorem scanDir_spec (hs : Sound sb d (sb.dinode d)) (hi : i < sb.ninodes)
    (hip : ip = sb.dinode d i) (htype : ip.type ≠ tDev) (hwhole : ip.size % direntSize = 0) :
    scanDir sb k panic stop ip.size d ip (direntSize * m) =
      .ok ⟨direntSize * (m + ((listing d ip).drop m).findIdx stop),
        ((listing d ip).drop m).find? stop, ip, d⟩ := by
  have hsize : ip.size = direntSize * (listing d ip).length := by
    rw [listing_length]
    exact (Nat.mul_div_cancel' (Nat.dvd_of_mod_eq_zero hwhole)).symm
  generalize hgo : (listing d ip).length - m = left
  induction left generalizing m with
  | zero =>
      have hend : (listing d ip).length ≤ m := Nat.sub_eq_zero_iff_le.mp hgo
      have hstop : ¬ direntSize * m < ip.size := by
        rw [hsize]
        exact Nat.not_lt.mpr (Nat.mul_le_mul_left _ hend)
      rw [scanDir, if_neg hstop, List.drop_eq_nil_of_le hend]
      rfl
  | succ left ih =>
      have hlt : m < (listing d ip).length := by omega
      have hgoes : direntSize * m < ip.size := by
        rw [hsize]
        exact Nat.mul_lt_mul_of_pos_left hlt (by decide)
      have hread : readi sb k d ip (direntSize * m) direntSize =
          .ok ⟨direntSize, (listing d ip)[m], ip, d⟩ := by
        have hnext : direntSize * m + direntSize ≤ ip.size := by
          rw [hsize, ← Nat.mul_succ]
          exact Nat.mul_le_mul_left _ hlt
        rw [listing_getElem hlt]
        subst hip
        exact readi_range htype hnext Superblock.dinode_fits fun bn hbn =>
          hs.dense i hi bn (Nat.lt_of_lt_of_le hbn hnext)
      have hrest : scanDir sb k panic stop ip.size d ip (direntSize * m + direntSize) = _ :=
        ih (m := m + 1) (by omega)
      rw [scanDir, if_pos hgoes, hread, ok_bind, if_neg fun h => h rfl,
        List.drop_eq_getElem_cons hlt, List.find?_cons, List.findIdx_cons]
      cases hstop : stop (listing d ip)[m] with
      | true => rfl
      | false =>
          rw [if_neg Bool.false_ne_true, hrest]
          simp only [cond_false, Nat.add_assoc, Nat.add_comm 1]

/-- The list with an entry stored at a place, or behind its end. -/
def putEntry (l : List (List UInt8)) (m : Nat) (de : List UInt8) : List (List UInt8) :=
  if m < l.length then l.set m de else l ++ [de]

theorem listing_store (hlen : de.length = direntSize) (hwhole : ip.size % direntSize = 0)
    (hm : m ≤ (listing d ip).length)
    (hbytes : fileByte e iq = Store.apply ⟨direntSize * m, de⟩ (fileByte d ip))
    (hsize : iq.size = if ip.size < direntSize * m + direntSize
      then direntSize * m + direntSize else ip.size) :
    listing e iq = putEntry (listing d ip) m de ∧ iq.size % direntSize = 0 := by
  have hold : ip.size = direntSize * (listing d ip).length := by
    rw [listing_length]
    exact (Nat.mul_div_cancel' (Nat.dvd_of_mod_eq_zero hwhole)).symm
  have hnew : iq.size = direntSize * max (listing d ip).length (m + 1) := by
    rw [hsize, hold]
    split
    · next hgrows =>
      simp only [direntSize] at hgrows ⊢
      omega
    · next hstays =>
      simp only [direntSize] at hstays ⊢
      omega
  have hcount : (listing e iq).length = max (listing d ip).length (m + 1) := by
    rw [listing_length, hnew, Nat.mul_div_cancel_left _ (by decide)]
  have hentry : ∀ j, j ≠ m → readBytes (fileByte e iq) (direntSize * j) direntSize =
      readBytes (fileByte d ip) (direntSize * j) direntSize := by
    intro j hj
    rw [hbytes]
    refine Store.readBytes_apply_disjoint _ _ ?_
    simp only [Store.stop, hlen, direntSize]
    omega
  have hself : readBytes (fileByte e iq) (direntSize * m) direntSize = de := by
    rw [hbytes, ← hlen]
    exact Store.readBytes_apply_self _ _ _
  refine ⟨List.ext_getElem ?_ fun j hj hj' => ?_, by rw [hnew, Nat.mul_mod_right]⟩
  · rw [hcount, putEntry]
    split
    · rw [List.length_set]
      omega
    · rw [List.length_append]
      simp only [List.length_cons, List.length_nil]
      omega
  · rw [listing_getElem hj]
    simp only [putEntry]
    split
    · next hin =>
      rw [List.getElem_set]
      split
      · next heq => rw [← heq, hself]
      · next hne => rw [hentry j (Ne.symm hne), listing_getElem]
    · next hout =>
      have hlast : m = (listing d ip).length := by omega
      rw [List.getElem_append]
      split
      · next hlow => rw [hentry j (by omega), listing_getElem]
      · next hhigh =>
        have heq : j = m := by omega
        have hzero : j - (listing d ip).length = 0 := by omega
        simp only [hzero, List.getElem_cons_zero]
        rw [heq, hself]

/-! ## The tree -/

/-- An inode as the tree of directories has it: `rest` is what is left of the size of a
directory behind its whole entries. -/
structure Node where
  type : Nat
  nlink : Nat
  ls : List (List UInt8)
  rest : Nat

def node (d : Disk Block) (ip : Dinode) : Node :=
  ⟨ip.type, ip.nlink, if ip.type = tDir then listing d ip else [],
    if ip.type = tDir then ip.size % direntSize else 0⟩

theorem ne_of_free {t : Nat → Node} (hdir : (t i).type = tDir) (hfree : (t j).type = 0) :
    j ≠ i := by
  rintro rfl
  rw [hfree] at hdir
  cases hdir

def tree (sb : Superblock) (d : Disk Block) (i : Nat) : Node :=
  if i < sb.ninodes then node d (sb.dinode d i) else ⟨0, 0, [], 0⟩

theorem listing_congr (hbytes : fileByte e iq = fileByte d ip) (hsize : iq.size = ip.size) :
    listing e iq = listing d ip := by
  rw [listing, listing, hbytes, hsize]

theorem tree_eq (hi : i < sb.ninodes) : tree sb d i = node d (sb.dinode d i) := if_pos hi

theorem tree_type (hi : i < sb.ninodes) : (tree sb d i).type = (sb.dinode d i).type := by
  rw [tree_eq hi]
  rfl

theorem tree_nlink (hi : i < sb.ninodes) : (tree sb d i).nlink = (sb.dinode d i).nlink := by
  rw [tree_eq hi]
  rfl

theorem Changes.tree (h : Changes sb d i ip e) (hi : i < sb.ninodes) :
    tree sb e = Function.update (tree sb d) i (node e ip) := by
  funext j
  by_cases hj : j < sb.ninodes
  · by_cases hji : j = i
    · rw [hji, Function.update_self, tree_eq hi, h.self]
    · obtain ⟨hinode, hbytes⟩ := h.others j hj hji
      rw [Function.update_of_ne hji, tree_eq hj, tree_eq hj, node, node, hinode,
        listing_congr hbytes rfl]
  · have hji : j ≠ i := fun heq => hj (heq ▸ hi)
    rw [Function.update_of_ne hji, Storage.tree, Storage.tree, if_neg hj, if_neg hj]

/-- An operation on the inode `i` makes `x` of its node and leaves the other inodes alone. -/
structure Becomes (sb : Superblock) (d : Disk Block) (i : Nat) (x : Node) (e : Disk Block) :
    Prop where
  sound : Sound sb e (sb.dinode e)
  tree : tree sb e = Function.update (tree sb d) i x
  others : ∀ j, j < sb.ninodes → j ≠ i → sb.dinode e j = sb.dinode d j

theorem Changes.becomes (h : Changes sb d i ip e) (hi : i < sb.ninodes) :
    Becomes sb d i (node e ip) e :=
  ⟨h.sound, h.tree hi, fun j hj hji => (h.others j hj hji).1⟩

/-- A directory of a sound disk, with whole entries. -/
structure IsDir (sb : Superblock) (d : Disk Block) (i : Nat) : Prop where
  sound : Sound sb d (sb.dinode d)
  inside : i < sb.ninodes
  type : (tree sb d i).type = tDir
  whole : (tree sb d i).rest = 0

namespace IsDir

theorem type_eq (h : IsDir sb d i) : (sb.dinode d i).type = tDir := by
  rw [← tree_type h.inside, h.type]

theorem ls_eq (h : IsDir sb d i) : (tree sb d i).ls = listing d (sb.dinode d i) := by
  rw [tree_eq h.inside]
  exact if_pos h.type_eq

theorem size_mod (h : IsDir sb d i) : (sb.dinode d i).size % direntSize = 0 := by
  have := h.whole
  rw [tree_eq h.inside] at this
  exact (if_pos h.type_eq).symm.trans this

theorem size_eq (h : IsDir sb d i) :
    (sb.dinode d i).size = direntSize * (tree sb d i).ls.length := by
  rw [h.ls_eq, listing_length]
  exact (Nat.mul_div_cancel' (Nat.dvd_of_mod_eq_zero h.size_mod)).symm

theorem type_ne (h : IsDir sb d i) : (sb.dinode d i).type ≠ 0 ∧ (sb.dinode d i).type ≠ tDev := by
  rw [h.type_eq]
  exact ⟨by decide, by decide⟩

theorem scan (h : IsDir sb d i) (panic : FsPanic) (stop : List UInt8 → Bool) :
    scanDir sb k panic stop (sb.dinode d i).size d (sb.dinode d i)
      (direntSize * m) =
    .ok ⟨direntSize * (m + ((tree sb d i).ls.drop m).findIdx stop),
      ((tree sb d i).ls.drop m).find? stop, sb.dinode d i, d⟩ := by
  rw [h.ls_eq]
  exact scanDir_spec h.sound h.inside rfl h.type_ne.2 h.size_mod

/-- `dirlookup` finds the first entry with the name. -/
theorem dirlookup (h : IsDir sb d i) : dirlookup sb k d (sb.dinode d i) name =
    .ok ⟨direntSize * (tree sb d i).ls.findIdx (matching name),
      (tree sb d i).ls.find? (matching name), sb.dinode d i, d⟩ := by
  have hscan := h.scan (k := k) (m := 0) .dirlookupRead (matching name)
  rw [Nat.mul_zero, Nat.zero_add, List.drop_zero] at hscan
  rw [Storage.dirlookup, if_neg fun hne => hne h.type_eq, hscan]

/-! ## Storing an entry -/

theorem off_le (h : IsDir sb d i) (hm : m ≤ (tree sb d i).ls.length) :
    direntSize * m ≤ (sb.dinode d i).size := by
  rw [h.size_eq]
  exact Nat.mul_le_mul_left _ hm

/-- `writei` of an entry is its loop, unless the directory has the largest size. -/
theorem writei_eq (h : IsDir sb d i) (hlen : de.length = direntSize)
    (hm : m ≤ (tree sb d i).ls.length) :
    writei sb k d i (sb.dinode d i) (direntSize * m) de =
      if maxFile * bSize < direntSize * m + de.length then .ok ⟨-1, sb.dinode d i, d⟩
      else (writeLoop sb d (sb.dinode d i) (direntSize * m) de).map fun r =>
        grow sb r.2 i r.1 (direntSize * m + de.length) de.length := by
  have hoff := h.off_le hm
  have hmax := h.sound.size i h.inside
  have hsmall : maxFile * bSize + direntSize < 2 ^ 32 := by decide
  rw [Storage.writei, if_neg h.type_ne.2, if_neg (by rw [hlen]; omega)]

theorem writei_full (h : IsDir sb d i) (hlen : de.length = direntSize)
    (hm : m ≤ (tree sb d i).ls.length) (hfull : maxFile * bSize < direntSize * m + direntSize) :
    writei sb k d i (sb.dinode d i) (direntSize * m) de = .ok ⟨-1, sb.dinode d i, d⟩ := by
  rw [h.writei_eq hlen hm, if_pos (by rwa [hlen])]

theorem writei_fits (h : IsDir sb d i) (hlen : de.length = direntSize)
    (hm : m ≤ (tree sb d i).ls.length) (hfits : direntSize * m + direntSize ≤ maxFile * bSize)
    {w : WriteDone} (hw : writei sb k d i (sb.dinode d i) (direntSize * m) de = .ok w) :
    w.result = direntSize ∧ w.ip = sb.dinode w.disk i ∧
      Becomes sb d i { tree sb d i with ls := putEntry (tree sb d i).ls m de } w.disk := by
  rw [h.writei_eq hlen hm, if_neg (by rw [hlen]; exact Nat.not_lt.mpr hfits)] at hw
  obtain ⟨hchanges, hbytes, halike, hresult, hsize⟩ := writei_spec h.sound h.inside h.type_ne.1
    (h.off_le hm) (by rwa [hlen]) hw
  rw [hlen] at hresult
  rw [hlen] at hsize
  have hgrows : w.ip.size = if (sb.dinode d i).size < direntSize * m + direntSize
      then direntSize * m + direntSize else (sb.dinode d i).size := by
    rw [hsize]
    exact if_congr (and_iff_right (by decide)) rfl rfl
  have htype : w.ip.type = tDir := halike.type.trans h.type_eq
  rw [h.ls_eq] at hm ⊢
  obtain ⟨hlist, hwhole⟩ := listing_store hlen h.size_mod hm hbytes hgrows
  refine ⟨hresult, hchanges.self.symm, ?_⟩
  have hnode : node w.disk w.ip =
      { tree sb d i with ls := putEntry (listing d (sb.dinode d i)) m de } := by
    have hnlink : w.ip.nlink = (sb.dinode d i).nlink := halike.nlink
    rw [tree_eq h.inside]
    simp only [node, if_pos htype, if_pos h.type_eq, hlist, hwhole, h.size_mod, hnlink]
    rw [htype, h.type_eq]
  rw [← hnode]
  exact hchanges.becomes h.inside

/-- An entry that is there is overwritten without a panic. -/
theorem writei_there (h : IsDir sb d i) (hlen : de.length = direntSize)
    (hm : m < (tree sb d i).ls.length) :
    direntSize * m + direntSize ≤ maxFile * bSize ∧
      ∃ w, writei sb k d i (sb.dinode d i) (direntSize * m) de = .ok w := by
  have hend : direntSize * m + direntSize ≤ (sb.dinode d i).size := by
    rw [h.size_eq, ← Nat.mul_succ]
    exact Nat.mul_le_mul_left _ hm
  have hmax := h.sound.size i h.inside
  have hloop : ∃ e, writeLoop sb d (sb.dinode d i) (direntSize * m) de = .ok (sb.dinode d i, e) :=
    writeLoop_there h.sound h.inside fun pos hlow hhigh => h.sound.dense i h.inside _ (by
      rw [hlen] at hhigh
      have := Nat.div_mul_le_self pos bSize
      omega)
  obtain ⟨e, he⟩ := hloop
  refine ⟨Nat.le_trans hend hmax, ?_⟩
  rw [h.writei_eq hlen (Nat.le_of_lt hm), if_neg (by rw [hlen]; omega), he]
  exact ⟨_, rfl⟩

end IsDir

end OSProjects.Storage
