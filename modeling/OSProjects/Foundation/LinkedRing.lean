import Mathlib.Data.List.Nodup
import Mathlib.Data.List.GetD
import Mathlib.Logic.Function.Basic

/-!
# Circular lists linked in both directions

Nodes carry a next and a previous pointer, and one node is the head. A list of nodes describes
the pointers; unlinking a node and linking one behind the head are the pointer assignments of
the usual code, and what they do to the list is proved once.
-/

namespace OSProjects.LinkedRing

variable {ν : Type*}

/-- The pointers of all nodes. -/
structure Links (ν : Type*) where
  next : ν → ν
  prev : ν → ν

/-- The pointers lead from `a` through `xs` to `z` and back. -/
def Path (l : Links ν) : ν → List ν → ν → Prop
  | a, [], z => l.next a = z ∧ l.prev z = a
  | a, x :: xs, z => l.next a = x ∧ l.prev x = a ∧ Path l x xs z

/-- The nodes behind the head `h` are `xs`, in the order of the next pointers. -/
structure Ring (l : Links ν) (h : ν) (xs : List ν) : Prop where
  path : Path l h xs h
  nodup : (h :: xs).Nodup

section Paths

variable {l l' : Links ν} {a b h x z : ν} {xs ys : List ν}

theorem path_append : Path l a (xs ++ b :: ys) z ↔ Path l a xs b ∧ Path l b ys z := by
  induction xs generalizing a with
  | nil =>
      rw [List.nil_append, Path, Path, and_assoc]
  | cons x xs ih =>
      rw [List.cons_append, Path, Path, ih, and_assoc, and_assoc]

theorem Path.next_eq (hp : Path l a xs z) : l.next a = xs.headD z := by
  cases xs with
  | nil => exact hp.1
  | cons x xs => exact hp.1

theorem Path.prev_eq (hp : Path l a xs z) : l.prev z = xs.getLastD a := by
  induction xs generalizing a with
  | nil => exact hp.2
  | cons x xs ih => rw [List.getLastD_cons, ih hp.2.2]

theorem getLastD_mem (xs : List ν) (a : ν) : xs.getLastD a ∈ a :: xs := by
  induction xs generalizing a with
  | nil => exact List.mem_cons_self
  | cons x xs ih => exact List.mem_cons_of_mem a (by rw [List.getLastD_cons]; exact ih x)

/-- A path that no assignment touches. -/
theorem Path.congr (hp : Path l a xs z) (hnext : ∀ x ∈ a :: xs, l'.next x = l.next x)
    (hprev : ∀ x, x ∈ xs ∨ x = z → l'.prev x = l.prev x) : Path l' a xs z := by
  induction xs generalizing a with
  | nil =>
      refine ⟨?_, ?_⟩
      · rw [hnext a List.mem_cons_self]
        exact hp.1
      · rw [hprev z (.inr rfl)]
        exact hp.2
  | cons x xs ih =>
      refine ⟨?_, ?_, ih hp.2.2 (fun y hy => hnext y (List.mem_cons_of_mem a hy))
        fun y hy => hprev y (hy.imp_left (List.mem_cons_of_mem x))⟩
      · rw [hnext a List.mem_cons_self]
        exact hp.1
      · rw [hprev x (.inl List.mem_cons_self)]
        exact hp.2.1

/-- The end of a path bent to another node. -/
theorem Path.retarget {z' : ν} (hp : Path l a xs z) (hnodup : (a :: xs).Nodup)
    (hnext : ∀ x ∈ a :: xs, x ≠ xs.getLastD a → l'.next x = l.next x)
    (hprev : ∀ x ∈ xs, l'.prev x = l.prev x) (hlast : l'.next (xs.getLastD a) = z')
    (hback : l'.prev z' = xs.getLastD a) : Path l' a xs z' := by
  induction xs generalizing a with
  | nil => exact ⟨hlast, hback⟩
  | cons x xs ih =>
      obtain ⟨hna, hnx⟩ := List.nodup_cons.mp hnodup
      rw [List.getLastD_cons] at hlast hback hnext
      have hne : a ≠ xs.getLastD x := fun heq => hna (heq ▸ getLastD_mem xs x)
      refine ⟨?_, ?_, ih hp.2.2 hnx (fun y hy => hnext y (List.mem_cons_of_mem a hy))
        (fun y hy => hprev y (List.mem_cons_of_mem x hy)) hlast hback⟩
      · rw [hnext a List.mem_cons_self hne]
        exact hp.1
      · rw [hprev x List.mem_cons_self]
        exact hp.2.1

end Paths

variable [DecidableEq ν] {l : Links ν} {b h : ν} {xs ys : List ν}

/-! ## The assignments -/

/-- `p->next = q`. -/
def Links.setNext (l : Links ν) (p q : ν) : Links ν :=
  { l with next := Function.update l.next p q }

/-- `p->prev = q`. -/
def Links.setPrev (l : Links ν) (p q : ν) : Links ν :=
  { l with prev := Function.update l.prev p q }

@[simp] theorem Links.setNext_prev (l : Links ν) (p q : ν) : (l.setNext p q).prev = l.prev := rfl
@[simp] theorem Links.setPrev_next (l : Links ν) (p q : ν) : (l.setPrev p q).next = l.next := rfl

@[simp] theorem Links.setNext_self (l : Links ν) (p q : ν) : (l.setNext p q).next p = q := by
  simp [Links.setNext]

@[simp] theorem Links.setPrev_self (l : Links ν) (p q : ν) : (l.setPrev p q).prev p = q := by
  simp [Links.setPrev]

theorem Links.setNext_of_ne (l : Links ν) {p q x : ν} (hx : x ≠ p) :
    (l.setNext p q).next x = l.next x := by
  simp [Links.setNext, hx]

theorem Links.setPrev_of_ne (l : Links ν) {p q x : ν} (hx : x ≠ p) :
    (l.setPrev p q).prev x = l.prev x := by
  simp [Links.setPrev, hx]

/-- `b->next->prev = b->prev; b->prev->next = b->next`. -/
def Links.unlink (l : Links ν) (b : ν) : Links ν :=
  let l := l.setPrev (l.next b) (l.prev b)
  l.setNext (l.prev b) (l.next b)

/-- `b->next = h->next; b->prev = h; h->next->prev = b; h->next = b`. -/
def Links.pushFront (l : Links ν) (h b : ν) : Links ν :=
  let l := l.setNext b (l.next h)
  let l := l.setPrev b h
  let l := l.setPrev (l.next h) b
  l.setNext h b

/-- Unlinking takes a node out of the ring. -/
theorem Ring.unlink (hr : Ring l h (xs ++ b :: ys)) : Ring (l.unlink b) h (xs ++ ys) := by
  obtain ⟨hbefore, hafter⟩ := path_append.mp hr.path
  have hsplit : (h :: xs).Nodup ∧ (b :: ys).Nodup ∧ ∀ x ∈ h :: xs, ∀ y ∈ b :: ys, x ≠ y :=
    List.nodup_append.mp hr.nodup
  obtain ⟨hxs, hbys, hapart⟩ := hsplit
  have hnext : l.next b = ys.headD h := hafter.next_eq
  have hprev : l.prev b = xs.getLastD h := hbefore.prev_eq
  have hlast : xs.getLastD h ∈ h :: xs := getLastD_mem xs h
  have hb : ∀ x ∈ h :: xs, x ≠ b := fun x hx => hapart x hx b List.mem_cons_self
  -- The neighbour behind `b` is not `b` itself, so its new pointer is read back rightly.
  have hne : b ≠ ys.headD h := by
    cases ys with
    | nil => exact (hb h List.mem_cons_self).symm
    | cons y ys =>
        rintro rfl
        exact (List.nodup_cons.mp hbys).1 List.mem_cons_self
  have hl : l.unlink b =
      (l.setPrev (ys.headD h) (xs.getLastD h)).setNext (xs.getLastD h) (ys.headD h) := by
    rw [Links.unlink, Links.setPrev_next, hnext, hprev, Links.setPrev_of_ne l hne, hprev]
  rw [hl]
  set l' := (l.setPrev (ys.headD h) (xs.getLastD h)).setNext (xs.getLastD h) (ys.headD h)
  have hback : l'.prev (ys.headD h) = xs.getLastD h := Links.setPrev_self _ _ _
  have hahead : l'.next (xs.getLastD h) = ys.headD h := Links.setNext_self _ _ _
  have hold : ∀ x, x ≠ xs.getLastD h → l'.next x = l.next x := fun x hx =>
    (Links.setNext_of_ne _ hx).trans rfl
  have holdp : ∀ x, x ≠ ys.headD h → l'.prev x = l.prev x := fun x hx =>
    Links.setPrev_of_ne l hx
  have hfront : ∀ x ∈ xs, x ≠ ys.headD h := by
    intro x hx
    cases ys with
    | nil =>
        rintro rfl
        exact (List.nodup_cons.mp hxs).1 hx
    | cons y ys =>
        exact hapart x (List.mem_cons_of_mem h hx) y
          (List.mem_cons_of_mem b List.mem_cons_self)
  have hnodup : (h :: (xs ++ ys)).Nodup := by
    refine List.Nodup.sublist ?_ hr.nodup
    exact (List.Sublist.append (List.Sublist.refl xs) (List.sublist_cons_self b ys)).cons_cons h
  refine ⟨?_, hnodup⟩
  have hbent : Path l' h xs (ys.headD h) := hbefore.retarget hxs
    (fun x _ hx => hold x hx) (fun x hx => holdp x (hfront x hx)) hahead hback
  cases ys with
  | nil => rwa [List.append_nil]
  | cons y ys =>
      refine path_append.mpr ⟨hbent, hafter.2.2.congr (fun x hx => hold x ?_) fun x hx => ?_⟩
      · intro heq
        exact hapart _ hlast x (List.mem_cons_of_mem b hx) heq.symm
      · have hy : y ∈ b :: y :: ys := List.mem_cons_of_mem b List.mem_cons_self
        refine holdp x fun heq => ?_
        rcases hx with hx | hx
        · rw [heq] at hx
          exact (List.nodup_cons.mp (List.nodup_cons.mp hbys).2).1 hx
        · exact hapart h List.mem_cons_self y hy (hx.symm.trans heq)

/-- A new node is linked in behind the head. -/
theorem Ring.pushFront (hr : Ring l h xs) (hb : b ∉ h :: xs) :
    Ring (l.pushFront h b) h (b :: xs) := by
  have hbh : b ≠ h := fun heq => hb (heq ▸ List.mem_cons_self)
  have hnext : l.next h = xs.headD h := hr.path.next_eq
  obtain ⟨hh, hxs⟩ := List.nodup_cons.mp hr.nodup
  have hheadne : b ≠ xs.headD h := by
    cases xs with
    | nil => exact hbh
    | cons x xs =>
        rintro rfl
        exact hb (List.mem_cons_of_mem h List.mem_cons_self)
  have hl : l.pushFront h b =
      (((l.setNext b (xs.headD h)).setPrev b h).setPrev (xs.headD h) b).setNext h b := by
    rw [Links.pushFront, Links.setPrev_next, hnext, Links.setNext_of_ne _ hbh.symm, hnext]
  rw [hl]
  set l' := (((l.setNext b (xs.headD h)).setPrev b h).setPrev (xs.headD h) b).setNext h b
  have h1 : l'.next h = b := Links.setNext_self _ _ _
  have h2 : l'.prev b = h := by
    change ((l.setPrev b h).setPrev (xs.headD h) b).prev b = h
    rw [Links.setPrev_of_ne _ hheadne, Links.setPrev_self]
  have h3 : l'.next b = xs.headD h := by
    rw [Links.setNext_of_ne _ hbh]
    exact Links.setNext_self _ _ _
  have h4 : l'.prev (xs.headD h) = b := Links.setPrev_self _ _ _
  have hold : ∀ x, x ≠ h → x ≠ b → l'.next x = l.next x := by
    intro x hxh hxb
    rw [Links.setNext_of_ne _ hxh]
    exact Links.setNext_of_ne l hxb
  have holdp : ∀ x, x ≠ b → x ≠ xs.headD h → l'.prev x = l.prev x := by
    intro x hxb hx
    change ((l.setPrev b h).setPrev (xs.headD h) b).prev x = l.prev x
    rw [Links.setPrev_of_ne _ hx, Links.setPrev_of_ne _ hxb]
  have hnodup : (h :: b :: xs).Nodup := by
    refine List.nodup_cons.mpr ⟨fun hmem => ?_, List.nodup_cons.mpr ⟨fun hmem => ?_, hxs⟩⟩
    · exact (List.mem_cons.mp hmem).elim (fun heq => hbh heq.symm) hh
    · exact hb (List.mem_cons_of_mem h hmem)
  refine ⟨⟨h1, h2, ?_⟩, hnodup⟩
  cases xs with
  | nil => exact ⟨h3, h4⟩
  | cons x xs =>
      have hxh : ∀ y ∈ x :: xs, y ≠ h := fun y hy heq => hh (heq ▸ hy)
      have hxb : ∀ y ∈ x :: xs, y ≠ b := fun y hy heq => hb (List.mem_cons_of_mem h (heq ▸ hy))
      refine ⟨h3, h4, hr.path.2.2.congr (fun y hy => hold y (hxh y hy) (hxb y hy)) fun y hy => ?_⟩
      rcases hy with hy | rfl
      · refine holdp y (hxb y (List.mem_cons_of_mem x hy)) ?_
        rintro rfl
        exact (List.nodup_cons.mp hxs).1 hy
      · exact holdp y hbh.symm (hxh x List.mem_cons_self).symm

/-- Moving a node behind the head. -/
theorem Ring.moveToFront (hr : Ring l h (xs ++ b :: ys)) :
    Ring ((l.unlink b).pushFront h b) h (b :: (xs ++ ys)) := by
  refine hr.unlink.pushFront fun hmem => ?_
  have hperm : (h :: (xs ++ b :: ys)).Perm (b :: h :: (xs ++ ys)) :=
    (List.perm_middle.cons h).trans (List.Perm.swap b h _)
  exact (List.nodup_cons.mp (hperm.nodup_iff.mp hr.nodup)).1 hmem

omit [DecidableEq ν] in
/-- The ring with no node but the head. -/
theorem ring_nil (hnext : l.next h = h) (hprev : l.prev h = h) : Ring l h [] :=
  ⟨⟨hnext, hprev⟩, List.nodup_singleton h⟩

/-! ## Loops over the ring -/

/-- The first node that satisfies `p`, from `a` on, by the pointers of `step`. There is no
node when the head comes first or the fuel runs out. -/
def scan (step : ν → ν) (h : ν) (p : ν → Bool) : Nat → ν → Option ν
  | 0, _ => none
  | fuel + 1, a => if a = h then none else if p a then some a else scan step h p fuel (step a)

theorem Path.scan_next {a : ν} {p : ν → Bool} (hp : Path l a xs h) (hh : h ∉ xs) {fuel : Nat}
    (hfuel : xs.length < fuel) : scan l.next h p fuel (l.next a) = xs.find? p := by
  induction xs generalizing a fuel with
  | nil =>
      obtain ⟨fuel, rfl⟩ : ∃ k, fuel = k + 1 := ⟨fuel - 1, by omega⟩
      rw [scan, if_pos hp.1]
      rfl
  | cons x xs ih =>
      obtain ⟨fuel, rfl⟩ : ∃ k, fuel = k + 1 := ⟨fuel - 1, by omega⟩
      rw [List.length_cons] at hfuel
      have hx : x ≠ h := fun heq => hh (heq ▸ List.mem_cons_self)
      rw [scan, hp.1, if_neg hx, List.find?_cons]
      cases p x with
      | true => rfl
      | false =>
          rw [if_neg (by decide)]
          exact ih hp.2.2 (fun hmem => hh (List.mem_cons_of_mem x hmem)) (by omega)

/-- The pointers with both directions exchanged. -/
def Links.flip (l : Links ν) : Links ν := ⟨l.prev, l.next⟩

omit [DecidableEq ν] in
theorem Path.flip {a z : ν} (hp : Path l a xs z) : Path l.flip z xs.reverse a := by
  induction xs generalizing a with
  | nil => exact ⟨hp.2, hp.1⟩
  | cons x xs ih =>
      rw [List.reverse_cons]
      exact path_append.mpr ⟨ih hp.2.2, hp.2.1, hp.1⟩

/-- The loop from the node behind the head on. -/
theorem Ring.scan_next (hr : Ring l h xs) (p : ν → Bool) {fuel : Nat} (hfuel : xs.length < fuel) :
    scan l.next h p fuel (l.next h) = xs.find? p :=
  hr.path.scan_next (List.nodup_cons.mp hr.nodup).1 hfuel

/-- The loop in the other direction. -/
theorem Ring.scan_prev (hr : Ring l h xs) (p : ν → Bool) {fuel : Nat} (hfuel : xs.length < fuel) :
    scan l.prev h p fuel (l.prev h) = xs.reverse.find? p := by
  refine hr.path.flip.scan_next (fun hmem => ?_) (by rwa [List.length_reverse])
  exact (List.nodup_cons.mp hr.nodup).1 (List.mem_reverse.mp hmem)

end OSProjects.LinkedRing
