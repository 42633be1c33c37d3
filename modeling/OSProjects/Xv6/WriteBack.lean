import OSProjects.Xv6.Boot

/-!
# Writing in chunks

`filewriteoff` writes at most `max_chunk_size` bytes in one transaction. For a regular file
its turns add up to one write; where the file would grow too long, the turns that still fit
remain. The turns also add up in the blocks that they take: they panic for want of blocks
exactly when one write would.
-/

namespace OSProjects.Xv6

open ByteMemory

/-! ## One write -/

/-- The bytes of a file. -/
def Inode.contents (node : Inode) : List UInt8 := readBytes node.data 0 node.size

/-- The bytes written at an offset that is not behind the end of the file. -/
def Inode.write (node : Inode) (offset : Nat) (bytes : List UInt8) : Inode :=
  { node with
    data := Store.apply ⟨offset, bytes⟩ node.data
    size := max node.size (offset + bytes.length) }

/-- `f` is open for writing, and its inode is a file of `fs.c`, which is never longer than
`MAXFILE` blocks. -/
structure Kernel.OpenRegular (k : Kernel) (f : Fin nFile) : Prop where
  writable : (k.ftable f).writable = true
  type : (k.ftable f).type = .inode
  regular : (k.inodes (k.ftable f).ip).type ≠ .dev
  size_le : (k.inodes (k.ftable f).ip).size ≤ maxFile * bSize

/-- From `k` to `k'` nothing happens but that the file of `f` has the bytes written over its
contents at the offset, and takes the blocks that it grows by. -/
structure Kernel.Written (k k' : Kernel) (f : Fin nFile) (offset : Nat) (bytes : List UInt8) :
    Prop where
  contents : (k'.inodes (k.ftable f).ip).contents =
    overlay (fun _ => 0) (k.inodes (k.ftable f).ip).contents offset bytes
  size : (k'.inodes (k.ftable f).ip).size =
    max (k.inodes (k.ftable f).ip).size (offset + bytes.length)
  others : ∀ i, i ≠ (k.ftable f).ip → k'.inodes i = k.inodes i
  type : (k'.inodes (k.ftable f).ip).type = (k.inodes (k.ftable f).ip).type
  blocks : k'.freeBlocks + fileBlocks (k'.inodes (k.ftable f).ip).size =
    k.freeBlocks + fileBlocks (k.inodes (k.ftable f).ip).size
  rest : k' = { k with inodes := k'.inodes, freeBlocks := k'.freeBlocks }

section Inodes

variable (k : Kernel) (i : Nat) (x : Inode)

@[simp] theorem Kernel.setInode_self : (k.setInode i x).inodes i = x := by
  simp [Kernel.setInode]

theorem Kernel.setInode_of_ne {j : Nat} (h : j ≠ i) : (k.setInode i x).inodes j = k.inodes j := by
  simp [Kernel.setInode, h]

@[simp] theorem Kernel.putInode_self : (k.putInode i x).inodes i = x := k.setInode_self i x

theorem Kernel.putInode_of_ne {j : Nat} (h : j ≠ i) : (k.putInode i x).inodes j = k.inodes j :=
  k.setInode_of_ne i x h

theorem Kernel.freeBlocks_putInode : (k.putInode i x).freeBlocks =
    k.freeBlocks - (fileBlocks x.size - fileBlocks (k.inodes i).size) := rfl

@[simp] theorem Kernel.putInode_eq : k.putInode i (k.inodes i) = k := by
  rw [Kernel.putInode, Kernel.setInode, Function.update_eq_self, Nat.sub_self, Nat.sub_zero]

theorem fileBlocks_mono {a b : Nat} (h : a ≤ b) : fileBlocks a ≤ fileBlocks b := by
  have hn : (a + (bSize - 1)) / bSize ≤ (b + (bSize - 1)) / bSize :=
    Nat.div_le_div_right (by omega)
  rw [fileBlocks, fileBlocks]
  generalize (a + (bSize - 1)) / bSize = m at hn ⊢
  generalize (b + (bSize - 1)) / bSize = n at hn ⊢
  by_cases ha : 12 < m
  · rw [if_pos ha, if_pos (by omega)]
    omega
  · rw [if_neg ha]
    split <;> omega

/-- The blocks of a file that grows twice are those of one growth. -/
theorem Kernel.putInode_putInode {y : Inode} (h : (k.inodes i).size ≤ x.size)
    (h' : x.size ≤ y.size) : (k.putInode i x).putInode i y = k.putInode i y := by
  have hfirst := fileBlocks_mono h
  have hsecond := fileBlocks_mono h'
  have hblocks : k.freeBlocks - (fileBlocks x.size - fileBlocks (k.inodes i).size) -
      (fileBlocks y.size - fileBlocks x.size) =
      k.freeBlocks - (fileBlocks y.size - fileBlocks (k.inodes i).size) := by omega
  rw [Kernel.putInode, Kernel.putInode_self, Kernel.freeBlocks_putInode, hblocks]
  simp only [Kernel.setInode, Kernel.putInode, Function.update_idem]

end Inodes

section Write

variable {node : Inode} {offset : Nat} {a b bytes : List UInt8}

theorem Inode.write_nil (h : offset ≤ node.size) : node.write offset [] = node := by
  rw [Inode.write, Store.apply_nil, List.length_nil, Nat.add_zero, Nat.max_eq_left h]

theorem Inode.write_append :
    (node.write offset a).write (offset + a.length) b = node.write offset (a ++ b) := by
  have hsize : max (max node.size (offset + a.length)) (offset + a.length + b.length) =
      max node.size (offset + (a ++ b).length) := by
    rw [List.length_append]
    omega
  rw [Inode.write, Inode.write, Inode.write, Store.apply_append]
  dsimp only
  rw [hsize]

theorem Inode.contents_write (h : offset ≤ node.size) :
    (node.write offset bytes).contents = overlay (fun _ => 0) node.contents offset bytes :=
  readBytes_apply_overlay h _

theorem Inode.le_size_write (node : Inode) (offset : Nat) (bytes : List UInt8) :
    node.size ≤ (node.write offset bytes).size := Nat.le_max_left _ _

theorem Kernel.written_putInode {k : Kernel} {f : Fin nFile}
    (h : offset ≤ (k.inodes (k.ftable f).ip).size)
    (hblocks : fileBlocks (max (k.inodes (k.ftable f).ip).size (offset + bytes.length)) ≤
      fileBlocks (k.inodes (k.ftable f).ip).size + k.freeBlocks) :
    k.Written (k.putInode (k.ftable f).ip ((k.inodes (k.ftable f).ip).write offset bytes)) f
      offset bytes where
  contents := by
    rw [Kernel.putInode_self]
    exact Inode.contents_write h
  size := by rw [Kernel.putInode_self, Inode.write]
  others i hi := Kernel.putInode_of_ne _ _ _ hi
  type := by rw [Kernel.putInode_self, Inode.write]
  blocks := by
    have hgrows := fileBlocks_mono
      (Inode.le_size_write (k.inodes (k.ftable f).ip) offset bytes)
    rw [Kernel.putInode_self, Kernel.freeBlocks_putInode]
    rw [Inode.write] at hgrows ⊢
    dsimp only at hgrows ⊢
    omega
  rest := rfl

/-- A `writei` that fits is one write, if there are blocks for it. -/
theorem Kernel.writei_write {k : Kernel} (h : node.type ≠ .dev) (hoffset : offset ≤ node.size)
    (hfit : offset + bytes.length ≤ maxFile * bSize) :
    k.writei node (some bytes) offset bytes.length =
      if k.freeBlocks < fileBlocks (node.write offset bytes).size - fileBlocks node.size then
        .error .balloc
      else .ok (node.write offset bytes, bytes.length) := by
  have hmax : maxFile * bSize < 2 ^ 32 := by decide
  have hsize : (if 0 < bytes.length ∧ node.size < offset + bytes.length then offset + bytes.length
      else node.size) = max node.size (offset + bytes.length) := by
    split <;> omega
  have hbytes : k.writeBytes node (some bytes) offset bytes.length =
      .ok (node.write offset bytes, bytes.length) := by
    rw [Kernel.writeBytes, if_neg h, if_neg (by omega), hsize]
    rfl
  rw [Kernel.writei, hbytes]

/-- A `writei` that would make the file too long does nothing. -/
theorem Kernel.writei_over {k : Kernel} {src : Option (List UInt8)} {n : Nat}
    (h : node.type ≠ .dev) (hover : maxFile * bSize < offset + n) :
    k.writei node src offset n = .ok (node, -1) := by
  have hbytes : k.writeBytes node src offset n = .ok (node, -1) := by
    unfold Kernel.writeBytes
    rw [if_neg h, if_pos (Or.inr (Or.inr hover))]
  rw [Kernel.writei, hbytes]
  dsimp only
  rw [if_neg (by omega)]

/-- A `writei` that returns has had its blocks. -/
theorem Kernel.writei_eq_ok {k : Kernel} {src : Option (List UInt8)} {node' : Inode} {n : Nat}
    {r : Int} (h : k.writei node src offset n = .ok (node', r)) :
    k.writeBytes node src offset n = .ok (node', r) ∧
      fileBlocks node'.size - fileBlocks node.size ≤ k.freeBlocks := by
  rw [Kernel.writei] at h
  split at h
  · cases h
  · split at h
    · cases h
    case isFalse hblocks =>
      obtain ⟨rfl, rfl⟩ := Prod.mk.inj (Except.ok.inj h)
      exact ⟨by assumption, Nat.not_lt.mp hblocks⟩

/-- No `writei` makes a file longer than `MAXFILE` blocks. -/
theorem Kernel.writei_size_le {k : Kernel} {src : Option (List UInt8)} {node' : Inode} {n : Nat}
    {r : Int} (h : k.writei node src offset n = .ok (node', r))
    (hsize : node.size ≤ maxFile * bSize) : node'.size ≤ maxFile * bSize := by
  obtain ⟨h, -⟩ := Kernel.writei_eq_ok h
  unfold Kernel.writeBytes at h
  split at h
  · split at h
    · simp only [Except.ok.injEq, Prod.mk.injEq] at h
      rwa [← h.1]
    · split at h
      · cases h
      · simp only [Except.ok.injEq, Prod.mk.injEq] at h
        rwa [← h.1]
  · split at h
    case isTrue =>
      simp only [Except.ok.injEq, Prod.mk.injEq] at h
      rwa [← h.1]
    case isFalse hfit =>
      split at h
      · cases h
      · simp only [Except.ok.injEq, Prod.mk.injEq] at h
        rw [← h.1]
        dsimp only
        split <;> omega

end Write

/-! ## The buffer -/

/-- A part of a buffer is loaded as the bytes at its place. -/
theorem Space.loadBytes_slice {s : Space} {va size w n : Nat} {bytes : List UInt8}
    (h : s.loadBytes va size = some bytes) (hn : w + n ≤ size) :
    s.loadBytes (va + w) n = some ((bytes.drop w).take n) := by
  induction size generalizing va w n bytes with
  | zero =>
      obtain ⟨rfl, rfl⟩ : w = 0 ∧ n = 0 := by omega
      rfl
  | succ size ih =>
      rw [Space.loadBytes] at h
      cases hload : s.load (uint va) with
      | none =>
          rw [hload] at h
          cases h
      | some b =>
          rw [hload] at h
          obtain ⟨rest, hrest, rfl⟩ := Option.map_eq_some_iff.mp h
          cases w with
          | zero =>
              cases n with
              | zero => rfl
              | succ n =>
                  have htail := ih (w := 0) (n := n) hrest (by omega)
                  rw [Nat.add_zero] at htail
                  rw [Nat.add_zero, Space.loadBytes, hload]
                  dsimp only
                  rw [htail]
                  rfl
          | succ w =>
              have htail := ih (w := w) (n := n) hrest (by omega)
              rw [Nat.add_assoc, Nat.add_comm 1 w] at htail
              exact htail

theorem Space.length_loadBytes {s : Space} {va size : Nat} {bytes : List UInt8}
    (h : s.loadBytes va size = some bytes) : bytes.length = size := by
  induction size generalizing va bytes with
  | zero =>
      obtain rfl := Option.some.inj h
      rfl
  | succ size ih =>
      rw [Space.loadBytes] at h
      cases hload : s.load (uint va) with
      | none =>
          rw [hload] at h
          cases h
      | some b =>
          rw [hload] at h
          obtain ⟨rest, hrest, rfl⟩ := Option.map_eq_some_iff.mp h
          rw [List.length_cons, ih hrest]

theorem loadBytes_of_present {s : Space} {va n : Nat}
    (h : ∀ i, i < n → s.pgdir.present (uint (va + i)) = true) :
    ∃ bytes, s.loadBytes va n = some bytes := by
  induction n generalizing va with
  | zero => exact ⟨[], rfl⟩
  | succ n ih =>
      obtain ⟨e, he⟩ := Option.isSome_iff_exists.mp (h 0 (Nat.succ_pos n))
      rw [Nat.add_zero] at he
      obtain ⟨rest, hrest⟩ := ih fun i hi => by
        rw [Nat.add_assoc, Nat.add_comm 1 i]
        exact h (i + 1) (by omega)
      have hbyte : s.load (uint va) = some (s.mem.phys (e.pa + uint va % pgSize)) := by
        rw [Space.load, he]
        rfl
      refine ⟨s.mem.phys (e.pa + uint va % pgSize) :: rest, ?_⟩
      rw [Space.loadBytes, hbyte]
      dsimp only
      rw [hrest]
      rfl

/-! ## The loop -/

section Loop

variable {k : Kernel} {p : Fin nProc} {ip data size offset : Nat} {bytes : List UInt8}

/-- The kernel after the first `w` bytes. -/
def Kernel.afterBytes (k : Kernel) (ip offset : Nat) (bytes : List UInt8) (w : Nat) : Kernel :=
  k.putInode ip ((k.inodes ip).write offset (bytes.take w))

theorem Kernel.afterBytes_zero (h : offset ≤ (k.inodes ip).size) :
    k.afterBytes ip offset bytes 0 = k := by
  rw [Kernel.afterBytes, List.take_zero, Inode.write_nil h, Kernel.putInode_eq]

theorem Kernel.afterBytes_inode (k : Kernel) (ip offset : Nat) (bytes : List UInt8) (w : Nat) :
    (k.afterBytes ip offset bytes w).inodes ip = (k.inodes ip).write offset (bytes.take w) := by
  rw [Kernel.afterBytes, Kernel.putInode_self]

/-- The disk has the blocks that the file takes with its first `w` bytes. -/
def Kernel.HasBlocks (k : Kernel) (ip offset w : Nat) : Prop :=
  fileBlocks (max (k.inodes ip).size (offset + w)) ≤
    fileBlocks (k.inodes ip).size + k.freeBlocks

instance : Decidable (k.HasBlocks ip offset size) := inferInstanceAs (Decidable (_ ≤ _))

theorem Kernel.HasBlocks.mono {w w' : Nat} (h : k.HasBlocks ip offset w') (hw : w ≤ w') :
    k.HasBlocks ip offset w :=
  (fileBlocks_mono (max_le_max_left _ (Nat.add_le_add_left hw _))).trans h

theorem Kernel.HasBlocks.zero (h : offset ≤ (k.inodes ip).size) : k.HasBlocks ip offset 0 := by
  rw [Kernel.HasBlocks, Nat.add_zero, Nat.max_eq_left h]
  exact Nat.le_add_right _ _

theorem Inode.size_write_take (node : Inode) {w : Nat} (h : w ≤ bytes.length) :
    (node.write offset (bytes.take w)).size = max node.size (offset + w) := by
  rw [Inode.write]
  dsimp only
  rw [List.length_take, Nat.min_eq_left h]

/-- The next `n` bytes are written behind the first `w`. -/
theorem Inode.write_chunk (node : Inode) {w n : Nat} (h : w ≤ bytes.length) :
    (node.write offset (bytes.take w)).write (offset + w) ((bytes.drop w).take n) =
      node.write offset (bytes.take (w + n)) := by
  have happ := @Inode.write_append node offset (bytes.take w) ((bytes.drop w).take n)
  rwa [List.length_take, Nat.min_eq_left h, ← List.take_add] at happ

/-- The next `n` bytes lack blocks exactly when the bytes up to their end do. -/
theorem Kernel.HasBlocks.short_iff {w n : Nat} (h : k.HasBlocks ip offset w)
    (hend : w + n ≤ bytes.length) :
    (k.afterBytes ip offset bytes w).freeBlocks <
        fileBlocks ((k.inodes ip).write offset (bytes.take (w + n))).size -
          fileBlocks ((k.inodes ip).write offset (bytes.take w)).size ↔
      ¬k.HasBlocks ip offset (w + n) := by
  have hfirst := fileBlocks_mono (Nat.le_max_left (k.inodes ip).size (offset + w))
  have hsecond := fileBlocks_mono
    (max_le_max_left (k.inodes ip).size (show offset + w ≤ offset + (w + n) by omega))
  rw [Kernel.HasBlocks] at h
  rw [Kernel.HasBlocks, Kernel.afterBytes, Kernel.freeBlocks_putInode,
    Inode.size_write_take _ (by omega), Inode.size_write_take _ hend]
  omega

/-- One turn of the loop that has written `w` bytes. -/
theorem Kernel.writeoffLoop_turn (hreg : (k.inodes ip).type ≠ .dev)
    (hload : (k.space p).loadBytes data size = some bytes) {fuel w : Nat} (hw : w < size)
    (hword : offset + w < 2 ^ 32) (hblocks : k.HasBlocks ip offset w) :
    Kernel.writeoffLoop p ip data size (fuel + 1) w ((offset + w : Nat) : Int)
        (k.afterBytes ip offset bytes w) =
      if offset + w + min (size - w) maxChunkSize ≤ maxFile * bSize then
        if k.HasBlocks ip offset (w + min (size - w) maxChunkSize) then
          Kernel.writeoffLoop p ip data size fuel (w + min (size - w) maxChunkSize)
            ((offset + (w + min (size - w) maxChunkSize) : Nat) : Int)
            (k.afterBytes ip offset bytes (w + min (size - w) maxChunkSize))
        else .error .balloc
      else .ok (k.afterBytes ip offset bytes w, w) := by
  have hlen := Space.length_loadBytes hload
  have hchunk : 0 < maxChunkSize := by decide
  generalize hn : min (size - w) maxChunkSize = n
  have hpos : 0 < n := by omega
  have hend : w + n ≤ size := by omega
  have hpart : (k.space p).loadBytes (data + w) n = some ((bytes.drop w).take n) :=
    Space.loadBytes_slice hload hend
  have hpartlen : ((bytes.drop w).take n).length = n := by
    rw [List.length_take, List.length_drop]
    omega
  have htype : ((k.inodes ip).write offset (bytes.take w)).type ≠ .dev := hreg
  have hoff : ofInt ((offset + w : Nat) : Int) = offset + w := by
    rw [ofInt]
    omega
  have hspace : (k.afterBytes ip offset bytes w).space p = k.space p := rfl
  rw [Kernel.writeoffLoop, if_pos hw]
  dsimp only
  rw [hn, hspace, hpart, hoff, Kernel.afterBytes_inode]
  by_cases hfit : offset + w + n ≤ maxFile * bSize
  · have hbefore : ((k.inodes ip).write offset (bytes.take w)).size =
        max (k.inodes ip).size (offset + w) := Inode.size_write_take _ (by omega)
    have hafter : ((k.inodes ip).write offset (bytes.take (w + n))).size =
        max (k.inodes ip).size (offset + (w + n)) := Inode.size_write_take _ (by omega)
    have hinside : offset + w ≤ ((k.inodes ip).write offset (bytes.take w)).size := by
      rw [hbefore]
      exact Nat.le_max_right _ _
    have hwrite := @Kernel.writei_write _ _ ((bytes.drop w).take n)
      (k.afterBytes ip offset bytes w) htype hinside (by rwa [hpartlen])
    rw [hpartlen] at hwrite
    rw [Inode.write_chunk _ (by omega)] at hwrite
    have hshort := @Kernel.HasBlocks.short_iff k ip offset bytes w n hblocks (by omega)
    rw [hwrite, if_pos hfit]
    by_cases henough : k.HasBlocks ip offset (w + n)
    · have hnext : ((offset + w : Nat) : Int) + (n : Int) = ((offset + (w + n) : Nat) : Int) := by
        omega
      have hgrows : ((k.inodes ip).write offset (bytes.take w)).size ≤
          ((k.inodes ip).write offset (bytes.take (w + n))).size := by
        rw [hbefore, hafter]
        omega
      rw [if_neg (mt hshort.mp (not_not.mpr henough)), if_pos henough]
      dsimp only
      rw [if_neg (by omega), Int.toNat_natCast, hnext, Kernel.afterBytes,
        Kernel.putInode_putInode _ _ _ (Inode.le_size_write _ _ _) hgrows]
      rfl
    · rw [if_pos (hshort.mpr henough), if_neg henough]
  · have hsame := Kernel.putInode_eq (k.afterBytes ip offset bytes w) ip
    rw [Kernel.afterBytes_inode] at hsame
    rw [Kernel.writei_over htype (by omega), if_neg hfit]
    dsimp only
    rw [if_pos (by omega), hsame]

/-- The loop writes all that is left when it fits. -/
theorem Kernel.writeoffLoop_fits (hreg : (k.inodes ip).type ≠ .dev)
    (hload : (k.space p).loadBytes data size = some bytes)
    (hfit : offset + size ≤ maxFile * bSize) {fuel w : Nat} (hw : w ≤ size)
    (hfuel : size ≤ w + fuel) (hblocks : k.HasBlocks ip offset w) :
    Kernel.writeoffLoop p ip data size fuel w ((offset + w : Nat) : Int)
        (k.afterBytes ip offset bytes w) =
      if k.HasBlocks ip offset size then .ok (k.afterBytes ip offset bytes size, size)
      else .error .balloc := by
  have hmax : maxFile * bSize < 2 ^ 32 := by decide
  induction fuel generalizing w with
  | zero =>
      obtain rfl : w = size := by omega
      rw [if_pos hblocks]
      rfl
  | succ fuel ih =>
      rcases Nat.lt_or_ge w size with hlt | hge
      · have hchunk : 0 < maxChunkSize := by decide
        rw [Kernel.writeoffLoop_turn hreg hload hlt (by omega) hblocks, if_pos (by omega)]
        split
        case isTrue henough => exact ih (by omega) (by omega) henough
        case isFalse hshort => rw [if_neg fun hall => hshort (hall.mono (by omega))]
      · obtain rfl : w = size := by omega
        rw [Kernel.writeoffLoop, if_neg (Nat.lt_irrefl w), if_pos hblocks]

/-- How many of `size` bytes get into a file at an offset: all of them, or the complete chunks
that fit. -/
def putCount (offset size : Nat) : Nat :=
  if offset + size ≤ maxFile * bSize then size
  else (maxFile * bSize - offset) / maxChunkSize * maxChunkSize

theorem putCount_le_size (offset size : Nat) : putCount offset size ≤ size := by
  have hfits := Nat.div_mul_le_self (maxFile * bSize - offset) maxChunkSize
  rw [putCount]
  split <;> omega

theorem add_putCount_le (h : offset ≤ maxFile * bSize) (size : Nat) :
    offset + putCount offset size ≤ maxFile * bSize := by
  have hfits := Nat.div_mul_le_self (maxFile * bSize - offset) maxChunkSize
  rw [putCount]
  split <;> omega

theorem putCount_of_lt (h : maxFile * bSize < offset) : putCount offset size = 0 := by
  rw [putCount, if_neg (by omega), Nat.sub_eq_zero_of_le h.le, Nat.zero_div, Nat.zero_mul]

/-- The loop stops behind the last complete chunk that fits when the rest does not. -/
theorem Kernel.writeoffLoop_stops (hreg : (k.inodes ip).type ≠ .dev)
    (hload : (k.space p).loadBytes data size = some bytes)
    (hover : maxFile * bSize < offset + size) {fuel n : Nat}
    (hn : offset + n * maxChunkSize ≤ maxFile * bSize)
    (hfuel : size ≤ n * maxChunkSize + fuel)
    (hblocks : k.HasBlocks ip offset (n * maxChunkSize)) :
    Kernel.writeoffLoop p ip data size fuel (n * maxChunkSize)
        ((offset + n * maxChunkSize : Nat) : Int)
        (k.afterBytes ip offset bytes (n * maxChunkSize)) =
      if k.HasBlocks ip offset (putCount offset size) then
        .ok (k.afterBytes ip offset bytes (putCount offset size), putCount offset size)
      else .error .balloc := by
  have hmax : maxFile * bSize < 2 ^ 32 := by decide
  have hchunk : 0 < maxChunkSize := by decide
  induction fuel generalizing n with
  | zero => exact absurd hover (by omega)
  | succ fuel ih =>
      rw [Kernel.writeoffLoop_turn hreg hload (by omega) (by omega) hblocks]
      by_cases hfit : offset + n * maxChunkSize + min (size - n * maxChunkSize) maxChunkSize ≤
          maxFile * bSize
      · have hfull : min (size - n * maxChunkSize) maxChunkSize = maxChunkSize := by omega
        rw [if_pos hfit, hfull, ← Nat.succ_mul]
        rw [hfull] at hfit
        have hnext : offset + (n + 1) * maxChunkSize ≤ maxFile * bSize := by
          rw [Nat.succ_mul]
          omega
        split
        case isTrue henough =>
          refine ih hnext ?_ henough
          rw [Nat.succ_mul]
          omega
        case isFalse hshort =>
          -- The chunk is one of those that fit.
          have hle : (n + 1) * maxChunkSize ≤ putCount offset size := by
            rw [putCount, if_neg (by omega)]
            refine Nat.mul_le_mul_right _ ((Nat.le_div_iff_mul_le hchunk).mpr ?_)
            omega
          rw [if_neg fun hall => hshort (hall.mono hle)]
      · have hcount : putCount offset size = n * maxChunkSize := by
          rw [putCount, if_neg (by omega), Nat.div_eq_of_lt_le]
          · omega
          · rw [Nat.succ_mul]
            omega
        rw [if_neg hfit, hcount, if_pos hblocks]

/-- The loop for an open regular file and a buffer that is present. -/
theorem Kernel.writeoffLoop_put (hreg : (k.inodes ip).type ≠ .dev)
    (hload : (k.space p).loadBytes data size = some bytes)
    (hoffset : offset ≤ (k.inodes ip).size) (hword : offset < 2 ^ 32) :
    Kernel.writeoffLoop p ip data size size 0 offset k =
      if k.HasBlocks ip offset (putCount offset size) then
        .ok (k.afterBytes ip offset bytes (putCount offset size), putCount offset size)
      else .error .balloc := by
  have hstart : k.afterBytes ip offset bytes 0 = k := k.afterBytes_zero hoffset
  have hnone := Kernel.HasBlocks.zero hoffset
  by_cases hfit : offset + size ≤ maxFile * bSize
  case pos =>
    have hloop := Kernel.writeoffLoop_fits hreg hload hfit (Nat.zero_le size)
      (show size ≤ 0 + size by omega) hnone
    rw [hstart, Nat.add_zero] at hloop
    rw [putCount, if_pos hfit]
    exact hloop
  case neg =>
    rcases Nat.lt_or_ge (maxFile * bSize) offset with hpast | hin
    · -- No chunk fits behind the largest file.
      rw [putCount_of_lt hpast, if_pos hnone, hstart]
      cases size with
      | zero => rfl
      | succ size =>
          have hturn := @Kernel.writeoffLoop_turn k p ip data (size + 1) offset bytes hreg hload
            size 0 (Nat.succ_pos size) hword hnone
          rw [hstart, if_neg (by omega)] at hturn
          exact hturn
    · have hloop := Kernel.writeoffLoop_stops (n := 0) hreg hload (Nat.lt_of_not_le hfit)
        (by omega) (show size ≤ 0 * maxChunkSize + size by omega) (by rwa [Nat.zero_mul])
      rw [Nat.zero_mul, hstart, Nat.add_zero] at hloop
      exact hloop

/-- Behind the end of the file the loop writes nothing. -/
theorem Kernel.writeoffLoop_behind (hreg : (k.inodes ip).type ≠ .dev)
    (hbehind : (k.inodes ip).size < offset) (hword : offset < 2 ^ 32) (fuel : Nat) :
    Kernel.writeoffLoop p ip data size fuel 0 offset k = .ok (k, 0) := by
  cases fuel with
  | zero => rfl
  | succ fuel =>
      have hoff : ofInt (offset : Int) = offset := by
        rw [ofInt]
        omega
      rw [Kernel.writeoffLoop]
      split
      case isFalse => rfl
      case isTrue =>
        dsimp only
        have hbytes : ∀ src n, k.writeBytes (k.inodes ip) src offset n = .ok (k.inodes ip, -1) := by
          intro src n
          unfold Kernel.writeBytes
          rw [if_neg hreg, if_pos (Or.inl hbehind)]
        rw [hoff, Kernel.writei, hbytes]
        dsimp only
        rw [if_neg (by omega)]
        dsimp only
        rw [if_pos (by omega), Kernel.putInode_eq]

/-- A device takes no block, and its inode is not written to. -/
theorem Kernel.writeoffLoop_dev (hdev : (k.inodes ip).type = .dev)
    (hload : (k.space p).loadBytes data size = some bytes) (fuel : Nat) {w : Nat} {off : Int} :
    ∃ w', Kernel.writeoffLoop p ip data size fuel w off k = .ok (k, w') := by
  induction fuel generalizing w off with
  | zero => exact ⟨w, rfl⟩
  | succ fuel ih =>
      rw [Kernel.writeoffLoop]
      split
      case isFalse => exact ⟨w, rfl⟩
      case isTrue hlt =>
        dsimp only
        have hchunk : w + min (size - w) maxChunkSize ≤ size := by omega
        obtain ⟨r, hwrite⟩ : ∃ r, k.writeBytes (k.inodes ip)
            (some ((bytes.drop w).take (min (size - w) maxChunkSize))) (ofInt off)
            (min (size - w) maxChunkSize) = .ok (k.inodes ip, r) := by
          unfold Kernel.writeBytes
          rw [if_pos hdev]
          cases k.driver (k.inodes ip) with
          | none => exact ⟨_, rfl⟩
          | some d => exact ⟨_, rfl⟩
        rw [Space.loadBytes_slice hload hchunk, Kernel.writei, hwrite]
        dsimp only
        rw [if_neg (by omega)]
        dsimp only
        rw [Kernel.putInode_eq]
        split
        · exact ⟨w, rfl⟩
        · exact ih

theorem Kernel.writeoffLoop_others {k' : Kernel} {fuel w w' i : Nat} {off : Int}
    (h : Kernel.writeoffLoop p ip data size fuel w off k = .ok (k', w')) (hi : i ≠ ip) :
    k'.inodes i = k.inodes i := by
  induction fuel generalizing k w off with
  | zero =>
      obtain ⟨rfl, -⟩ := Prod.mk.inj (Except.ok.inj h)
      rfl
  | succ fuel ih =>
      rw [Kernel.writeoffLoop] at h
      split at h
      case isFalse =>
        obtain ⟨rfl, -⟩ := Prod.mk.inj (Except.ok.inj h)
        rfl
      case isTrue =>
        dsimp only at h
        split at h
        case h_1 => cases h
        case h_2 node r hwrite =>
          split at h
          case isTrue =>
            obtain ⟨rfl, -⟩ := Prod.mk.inj (Except.ok.inj h)
            exact Kernel.putInode_of_ne _ _ _ hi
          case isFalse =>
            rw [ih h]
            exact Kernel.putInode_of_ne _ _ _ hi

/-! ## Sizes and blocks -/

/-- The size of a file. A device has none. -/
def Kernel.fileSize (k : Kernel) (i : Nat) : Option Nat :=
  if (k.inodes i).type = .dev then none else some (k.inodes i).size

/-- The size that a write of `n` bytes at the offset leaves a file of `size` bytes with. -/
def grownSize (offset n size : Nat) : Nat :=
  if offset ≤ size then max size (offset + putCount offset n) else size

/-- The blocks that the write takes. -/
def grownBlocks (offset n : Nat) : Option Nat → Nat
  | none => 0
  | some size => fileBlocks (grownSize offset n size) - fileBlocks size

theorem Kernel.fileSize_putInode (x : Inode) (h : x.type = (k.inodes ip).type)
    (hreg : (k.inodes ip).type ≠ .dev) :
    (k.putInode ip x).fileSize = Function.update k.fileSize ip (some x.size) := by
  funext i
  rw [Kernel.fileSize]
  rcases eq_or_ne i ip with rfl | hne
  · rw [Kernel.putInode_self, h, if_neg hreg, Function.update_self]
  · rw [Kernel.putInode_of_ne _ _ _ hne, Function.update_of_ne hne, Kernel.fileSize]

/-- The loop returns exactly when there are the blocks for the whole write, and takes them. -/
theorem Kernel.writeoffLoop_blocks (hload : (k.space p).loadBytes data size = some bytes)
    (hword : offset < 2 ^ 32) :
    ((∃ k' w, Kernel.writeoffLoop p ip data size size 0 offset k = .ok (k', w)) ↔
        grownBlocks offset size (k.fileSize ip) ≤ k.freeBlocks) ∧
      ∀ k' w, Kernel.writeoffLoop p ip data size size 0 offset k = .ok (k', w) →
        k'.fileSize = Function.update k.fileSize ip ((k.fileSize ip).map (grownSize offset size)) ∧
        k'.freeBlocks = k.freeBlocks - grownBlocks offset size (k.fileSize ip) := by
  have hlen := Space.length_loadBytes hload
  by_cases hdev : (k.inodes ip).type = .dev
  case pos =>
    obtain ⟨w, hloop⟩ := Kernel.writeoffLoop_dev hdev hload size
    have hnone : k.fileSize ip = none := if_pos hdev
    rw [hloop, hnone]
    refine ⟨iff_of_true ⟨k, w, rfl⟩ (Nat.zero_le _), fun k' w' h => ?_⟩
    obtain ⟨rfl, -⟩ := Prod.mk.inj (Except.ok.inj h)
    refine ⟨?_, rfl⟩
    rw [Option.map_none, ← hnone, Function.update_eq_self]
  case neg =>
    have hsize : k.fileSize ip = some (k.inodes ip).size := if_neg hdev
    rw [hsize, grownBlocks, Option.map_some, grownSize]
    rcases Nat.lt_or_ge (k.inodes ip).size offset with hlt | hge
    · rw [Kernel.writeoffLoop_behind hdev hlt hword, if_neg (Nat.not_le.mpr hlt), Nat.sub_self]
      refine ⟨iff_of_true ⟨k, 0, rfl⟩ (Nat.zero_le _), fun k' w' h => ?_⟩
      obtain ⟨rfl, -⟩ := Prod.mk.inj (Except.ok.inj h)
      rw [← hsize, Function.update_eq_self]
      exact ⟨rfl, rfl⟩
    · have hgrows := fileBlocks_mono
        (Nat.le_max_left (k.inodes ip).size (offset + putCount offset size))
      have hafter : ((k.inodes ip).write offset (bytes.take (putCount offset size))).size =
          max (k.inodes ip).size (offset + putCount offset size) :=
        Inode.size_write_take _ (by rw [hlen]; exact putCount_le_size _ _)
      rw [Kernel.writeoffLoop_put hdev hload hge hword, if_pos hge]
      split
      case isTrue hblocks =>
        rw [Kernel.HasBlocks] at hblocks
        refine ⟨iff_of_true ⟨_, _, rfl⟩ (by omega), fun k' w' h => ?_⟩
        obtain ⟨rfl, -⟩ := Prod.mk.inj (Except.ok.inj h)
        have hsizes := @Kernel.fileSize_putInode k ip
          ((k.inodes ip).write offset (bytes.take (putCount offset size))) rfl hdev
        refine ⟨?_, ?_⟩
        · rw [Kernel.afterBytes, hsizes, hafter]
        · rw [Kernel.afterBytes, Kernel.freeBlocks_putInode, hafter]
      case isFalse hshort =>
        rw [Kernel.HasBlocks] at hshort
        refine ⟨iff_of_false ?_ (by omega), fun k' w' h => by cases h⟩
        rintro ⟨k', w, h⟩
        cases h

end Loop

/-- For every open regular file, every buffer and blocks enough, `filewriteoff` is one write where
the file stays within `MAXFILE` blocks; else it fails behind complete chunks of the buffer. -/
theorem filewriteoff_one_write {k : Kernel} {p : Fin nProc} {f : Fin nFile}
    {data size offset : Nat} {bytes : List UInt8} (hopen : k.OpenRegular f)
    (hload : (k.space p).loadBytes data size = some bytes)
    (hoffset : offset ≤ (k.inodes (k.ftable f).ip).size)
    (hblocks : k.HasBlocks (k.ftable f).ip offset (putCount offset size)) :
    (offset + size ≤ maxFile * bSize →
        ∃ k', k.filewriteoff p f data size offset = .ok (k', size) ∧
          k.Written k' f offset bytes) ∧
      (maxFile * bSize < offset + size →
        ∃ k' m, k.filewriteoff p f data size offset = .ok (k', -1) ∧ m * maxChunkSize < size ∧
          k.Written k' f offset (bytes.take (m * maxChunkSize))) := by
  have hlen := Space.length_loadBytes hload
  have hmax : maxFile * bSize < 2 ^ 32 := by decide
  have hsize := hopen.size_le
  have hrun {k' : Kernel} {written : Nat}
      (h : k.writeoffLoop p (k.ftable f).ip data size size 0 offset = .ok (k', written)) :
      k.filewriteoff p f data size offset =
        .ok (k', if (written : Int) = size then size else -1) := by
    rw [Kernel.filewriteoff, if_neg (by rw [hopen.writable]; exact Bool.noConfusion),
      if_pos hopen.type]
    rw [Int.toNat_natCast, h]
  have hloop := Kernel.writeoffLoop_put hopen.regular hload hoffset (by omega)
  rw [if_pos hblocks] at hloop
  constructor
  · intro hfit
    rw [putCount, if_pos hfit] at hloop hblocks
    refine ⟨k.afterBytes (k.ftable f).ip offset bytes size, ?_, ?_⟩
    · rw [hrun hloop, if_pos rfl]
    rw [Kernel.afterBytes, ← hlen, List.take_length]
    exact Kernel.written_putInode hoffset (by rwa [hlen])
  · intro hover
    have hle := add_putCount_le (hoffset.trans hsize) size
    rw [putCount, if_neg (by omega)] at hloop hle hblocks
    refine ⟨k.afterBytes (k.ftable f).ip offset bytes
      ((maxFile * bSize - offset) / maxChunkSize * maxChunkSize),
      (maxFile * bSize - offset) / maxChunkSize, ?_, by omega, ?_⟩
    · rw [hrun hloop, if_neg (by omega)]
    · refine Kernel.written_putInode hoffset ?_
      rwa [List.length_take, Nat.min_eq_left (by omega)]

/-- The first entry of `ftable`. -/
def firstFile : Fin nFile := ⟨0, by decide⟩

/-- The first process appends its page to a file of one byte, in three chunks. -/
theorem filewriteoff_one_write_run : ∃ k0 k k' bytes, bootKernel 80 [7] = .ok k0 ∧
    k0.sysOpen 0 (some 0) oRdwr = .ok (k, 0) ∧ (k.space 0).loadBytes 0 4096 = some bytes ∧
    k.filewriteoff 0 firstFile 0 (4096 : Nat) (1 : Nat) = .ok (k', (4096 : Nat)) ∧
    k.Written k' firstFile 1 bytes := by
  obtain ⟨k0, hboot, hcheck⟩ := @exists_ok _ (bootKernel 80 [7]) (fun k0 =>
    okWith (k0.sysOpen 0 (some 0) oRdwr) fun x =>
      let k := x.1
      x.2 == 0 && (k.ftable firstFile).writable &&
        decide ((k.ftable firstFile).type = .inode) &&
        decide ((k.inodes (k.ftable firstFile).ip).type ≠ .dev) &&
        decide ((k.inodes (k.ftable firstFile).ip).size = 1) && decide (k.freeBlocks = 500) &&
        (k.procs 0).pgdir.present 0) (by decide +kernel)
  obtain ⟨⟨k, fd⟩, hk, hopened⟩ := exists_ok hcheck
  simp only [Bool.and_eq_true, beq_iff_eq, decide_eq_true_eq] at hopened
  obtain ⟨⟨⟨⟨⟨⟨rfl, hwritable⟩, htype⟩, hregular⟩, hsize⟩, hfree⟩, hpage⟩ := hopened
  have hopen : k.OpenRegular firstFile := ⟨hwritable, htype, hregular, by rw [hsize]; decide⟩
  obtain ⟨bytes, hload⟩ := @loadBytes_of_present (k.space 0) 0 4096 fun i hi => by
    rw [Pgdir.present_congr _ (show pageOf (uint (0 + i)) = pageOf 0 by
      simp only [pageOf, uint]
      omega)]
    exact hpage
  obtain ⟨k', hk', hwritten⟩ := (filewriteoff_one_write hopen hload hsize.ge
    (by rw [Kernel.HasBlocks, hsize, hfree]; decide)).1 (by decide)
  exact ⟨k0, k, k', bytes, hboot, hk, hload, hk', hwritten⟩

end OSProjects.Xv6
