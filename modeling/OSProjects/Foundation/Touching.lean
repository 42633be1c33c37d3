import Mathlib.Data.List.Basic

/-!
# Computations that name the places they touch

A computation on a state reads and writes at places. Its result lists them in order, so that a
bound on the places is a statement about the computation itself.
-/

namespace OSProjects

/-- What a computation returns, the state that it leaves and the places that it has touched. -/
structure Touched (σ π β : Type) where
  value : β
  state : σ
  touched : List π

structure Touching (σ π β : Type) where
  run : σ → Touched σ π β

namespace Touching

variable {σ π β γ : Type}

instance : Monad (Touching σ π) where
  pure b := ⟨fun s => ⟨b, s, []⟩⟩
  bind m f := ⟨fun s =>
    let first := m.run s
    let second := (f first.value).run first.state
    ⟨second.value, second.state, first.touched ++ second.touched⟩⟩

/-- A part of the state that is at none of the places. -/
def look (f : σ → β) : Touching σ π β := ⟨fun s => ⟨f s, s, []⟩⟩

/-- A change of the state that is at none of the places. -/
def change (f : σ → σ) : Touching σ π Unit := ⟨fun s => ⟨(), f s, []⟩⟩

def readAt (p : π) (f : σ → β) : Touching σ π β := ⟨fun s => ⟨f s, s, [p]⟩⟩

def writeAt (p : π) (f : σ → σ) : Touching σ π Unit := ⟨fun s => ⟨(), f s, [p]⟩⟩

/-! ## Results -/

@[simp] theorem run_pure (b : β) (s : σ) : (pure b : Touching σ π β).run s = ⟨b, s, []⟩ := rfl

@[simp] theorem run_look (f : σ → β) (s : σ) :
    (look f : Touching σ π β).run s = ⟨f s, s, []⟩ := rfl

@[simp] theorem run_change (f : σ → σ) (s : σ) :
    (change f : Touching σ π Unit).run s = ⟨(), f s, []⟩ := rfl

@[simp] theorem run_readAt (p : π) (f : σ → β) (s : σ) :
    (readAt p f).run s = ⟨f s, s, [p]⟩ := rfl

@[simp] theorem run_writeAt (p : π) (f : σ → σ) (s : σ) :
    (writeAt p f).run s = ⟨(), f s, [p]⟩ := rfl

@[simp] theorem run_ite (c : Prop) [Decidable c] (m m' : Touching σ π β) (s : σ) :
    (if c then m else m').run s = if c then m.run s else m'.run s := by
  split <;> rfl

section Bind

variable (m : Touching σ π β) (f : β → Touching σ π γ) (s : σ)

theorem run_bind : (m >>= f).run s =
    ⟨((f (m.run s).value).run (m.run s).state).value,
      ((f (m.run s).value).run (m.run s).state).state,
      (m.run s).touched ++ ((f (m.run s).value).run (m.run s).state).touched⟩ := rfl

@[simp] theorem value_bind :
    ((m >>= f).run s).value = ((f (m.run s).value).run (m.run s).state).value := rfl

@[simp] theorem state_bind :
    ((m >>= f).run s).state = ((f (m.run s).value).run (m.run s).state).state := rfl

@[simp] theorem touched_bind : ((m >>= f).run s).touched =
    (m.run s).touched ++ ((f (m.run s).value).run (m.run s).state).touched := rfl

end Bind

/-! What has been read is put in for its name before anything else is computed. -/

section Heads

variable {δ : Type} (p : π) (g : σ → δ) (f : δ → Touching σ π γ) (s : σ)

@[simp high] theorem run_look_bind : (look g >>= f).run s = (f (g s)).run s := rfl

@[simp high] theorem value_readAt_bind :
    ((readAt p g >>= f).run s).value = ((f (g s)).run s).value := rfl

@[simp high] theorem state_readAt_bind :
    ((readAt p g >>= f).run s).state = ((f (g s)).run s).state := rfl

theorem run_writeAt_bind (h : σ → σ) (f : Unit → Touching σ π γ) :
    (writeAt p h >>= f).run s =
      ⟨((f ()).run (h s)).value, ((f ()).run (h s)).state, p :: ((f ()).run (h s)).touched⟩ := rfl

end Heads

/-! ## Bounds -/

/-- From this state, the computation touches only such places. -/
def Within (P : π → Prop) (m : Touching σ π β) (s : σ) : Prop := ∀ p ∈ (m.run s).touched, P p

section Bounds

variable {P : π → Prop} {s : σ}

@[simp] theorem within_pure (b : β) : Within P (pure b : Touching σ π β) s := nofun

@[simp] theorem within_look (f : σ → β) : Within P (look f : Touching σ π β) s := nofun

@[simp] theorem within_change (f : σ → σ) : Within P (change f : Touching σ π Unit) s := nofun

@[simp] theorem within_readAt {p : π} {f : σ → β} : Within P (readAt p f) s ↔ P p :=
  List.forall_mem_singleton

@[simp] theorem within_writeAt {p : π} {f : σ → σ} : Within P (writeAt p f) s ↔ P p :=
  List.forall_mem_singleton

/-- The second part starts where the first one has ended. -/
@[simp] theorem within_bind {m : Touching σ π β} {f : β → Touching σ π γ} :
    Within P (m >>= f) s ↔ Within P m s ∧ Within P (f (m.run s).value) (m.run s).state :=
  List.forall_mem_append

@[simp high] theorem within_look_bind {g : σ → β} {f : β → Touching σ π γ} :
    Within P (look g >>= f) s ↔ Within P (f (g s)) s := Iff.rfl

@[simp high] theorem within_readAt_bind {p : π} {g : σ → β} {f : β → Touching σ π γ} :
    Within P (readAt p g >>= f) s ↔ P p ∧ Within P (f (g s)) s := List.forall_mem_cons

end Bounds

/-! ## Searches -/

section Searches

variable {ι : Type} {turn : ι → Touching σ π (Option β)} {l : List ι} {s : σ}

/-- A loop that ends with the first turn that returns a value. -/
def firstSome (turn : ι → Touching σ π (Option β)) : List ι → Touching σ π (Option β)
  | [] => pure none
  | i :: rest => do
      let found ← turn i
      match found with
      | some b => pure (some b)
      | none => firstSome turn rest

theorem within_firstSome {P : π → Prop} (h : ∀ i ∈ l, ∀ s, Within P (turn i) s) :
    Within P (firstSome turn l) s := by
  induction l generalizing s with
  | nil => exact within_pure none
  | cons i rest ih =>
      rw [List.forall_mem_cons] at h
      rw [firstSome, within_bind]
      refine ⟨h.1 s, ?_⟩
      cases ((turn i).run s).value with
      | some b => exact within_pure (some b)
      | none => exact ih h.2

/-- When the turns in front of the one that is looked for change nothing, the loop is that turn
alone. -/
theorem firstSome_eq {p : ι → Bool}
    (hskip : ∀ i ∈ l, p i = false → ((turn i).run s).value = none ∧ ((turn i).run s).state = s)
    (hstop : ∀ i ∈ l, p i = true → ((turn i).run s).value.isSome) :
    ((firstSome turn l).run s).value = (l.find? p).bind (fun i => ((turn i).run s).value) ∧
      ((firstSome turn l).run s).state =
        ((l.find? p).map fun i => ((turn i).run s).state).getD s := by
  induction l with
  | nil => exact ⟨rfl, rfl⟩
  | cons i rest ih =>
      rw [List.forall_mem_cons] at hskip hstop
      rw [firstSome, value_bind, state_bind]
      cases hp : p i with
      | true =>
          obtain ⟨b, hb⟩ := Option.isSome_iff_exists.mp (hstop.1 hp)
          rw [List.find?_cons_of_pos hp, hb]
          exact ⟨hb.symm, rfl⟩
      | false =>
          obtain ⟨hnone, hsame⟩ := hskip.1 hp
          rw [List.find?_cons_of_neg (by rw [hp]; decide), hnone, hsame]
          exact ih hskip.2 hstop.2

/-- When a turn that finds nothing changes nothing, the loop is one of its turns at most. -/
theorem firstSome_state
    (hskip : ∀ i ∈ l, ((turn i).run s).value = none → ((turn i).run s).state = s) :
    ((firstSome turn l).run s).state = s ∨
      ∃ i ∈ l, ((firstSome turn l).run s).state = ((turn i).run s).state := by
  induction l with
  | nil => exact .inl rfl
  | cons i rest ih =>
      rw [List.forall_mem_cons] at hskip
      rw [firstSome, state_bind]
      cases hfound : ((turn i).run s).value with
      | some b => exact .inr ⟨i, List.mem_cons_self, rfl⟩
      | none =>
          rw [hskip.1 hfound]
          refine (ih hskip.2).imp_right ?_
          rintro ⟨j, hj, hstate⟩
          exact ⟨j, List.mem_cons_of_mem i hj, hstate⟩

end Searches

end Touching

end OSProjects
