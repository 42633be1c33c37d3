import Mathlib.Data.List.Nodup
import OSProjects.Xv6.Pipe

/-!
# What goes through a pipe

In every order of reads, writes, sleeps and kills the bytes that come out are a prefix of those
that went in, and each write puts in its bytes in order and once. A writer never sleeps at a
pipe with room; a reader never sleeps at a pipe with bytes, as long as no writer is killed.
-/

namespace OSProjects.Xv6

open CircularBuffer StepSystem

variable {p : Pipe} {s t : PipeState} {c d : PipeCall} {xs bs : List UInt8} {b x : UInt8}
  {n id : Nat}

/-! ## The ring -/

namespace Pipe

/-- The bytes in the pipe are `xs`. -/
structure Contains (p : Pipe) (xs : List UInt8) : Prop where
  holds : pipeShape.Holds p.data p.nread xs
  count : p.nwrite = uint (p.nread + xs.length)
  small : p.nread < 2 ^ 32

theorem Contains.alloc (data : Nat → UInt8) : (alloc data).Contains [] :=
  ⟨.nil, rfl, Nat.two_pow_pos 32⟩

theorem Contains.full_iff (h : p.Contains xs) : p.Full ↔ xs.length = pipeSize := by
  rw [Full, h.count]
  exact h.holds.full_iff

theorem Contains.empty_iff (h : p.Contains xs) : p.Empty ↔ xs = [] := by
  rw [Empty, h.count, eq_comm]
  exact h.holds.empty_iff h.small

theorem Contains.put (h : p.Contains xs) (hroom : ¬ p.Full) : (p.put b).Contains (xs ++ [b]) := by
  have hlen : xs.length < pipeShape.size :=
    Nat.lt_of_le_of_ne h.holds.1 fun heq => hroom (h.full_iff.mpr heq)
  refine ⟨?_, ?_, h.small⟩
  · have hcell : p.nwrite % pipeSize = pipeShape.cell p.nread xs.length := by
      rw [h.count]
      rfl
    rw [Pipe.put, hcell]
    exact h.holds.push hlen
  · change uint (p.nwrite + 1) = uint (p.nread + (xs ++ [b]).length)
    rw [h.count, List.length_append, List.length_singleton, uint, uint, uint, Nat.mod_add_mod,
      Nat.add_assoc]

theorem Contains.get (h : p.Contains (x :: xs)) : p.get.1 = x ∧ p.get.2.Contains xs := by
  obtain ⟨hfirst, hrest⟩ := h.holds.pop
  refine ⟨?_, hrest, ?_, Nat.mod_lt _ (by decide)⟩
  · rw [Shape.cell_zero] at hfirst
    exact hfirst
  · change p.nwrite = uint (uint (p.nread + 1) + xs.length)
    rw [h.count, List.length_cons, uint, uint, uint, Nat.mod_add_mod, Nat.add_assoc,
      Nat.add_comm 1]

/-- The loop of `pipewrite` copies bytes until none is left or the pipe is full. -/
theorem Contains.putAll (h : p.Contains xs) (bs : List UInt8) :
    ∃ copied left, bs = copied ++ left ∧ (p.putAll bs).2 = left ∧
      (p.putAll bs).1.Contains (xs ++ copied) ∧ (left ≠ [] → (p.putAll bs).1.Full) ∧
        (p.putAll bs).1.readopen = p.readopen ∧ (p.putAll bs).1.writeopen = p.writeopen := by
  induction bs generalizing p xs with
  | nil => exact ⟨[], [], rfl, rfl, by rwa [List.append_nil], fun hne => absurd rfl hne, rfl, rfl⟩
  | cons b bs ih =>
      rw [Pipe.putAll]
      split
      · next hfull =>
        exact ⟨[], b :: bs, rfl, rfl, by rwa [List.append_nil], fun _ => hfull, rfl, rfl⟩
      · next hroom =>
        obtain ⟨copied, left, hbs, hleft, hin, hfull, hr, hw⟩ := ih (h.put hroom)
        refine ⟨b :: copied, left, by rw [hbs]; rfl, hleft, ?_, hfull, hr, hw⟩
        rwa [List.append_assoc, List.singleton_append] at hin

/-- The loop of `piperead` copies `n` bytes or all there are. -/
theorem Contains.getAll (h : p.Contains xs) (n : Nat) :
    ∃ out rest, xs = out ++ rest ∧ (p.getAll n).2 = out ∧ (p.getAll n).1.Contains rest ∧
      (out.length = n ∨ rest = []) ∧
        (p.getAll n).1.readopen = p.readopen ∧ (p.getAll n).1.writeopen = p.writeopen := by
  induction n generalizing p xs with
  | zero => exact ⟨[], xs, rfl, rfl, h, .inl rfl, rfl, rfl⟩
  | succ n ih =>
      rw [Pipe.getAll]
      split
      · next hempty =>
        obtain rfl := h.empty_iff.mp hempty
        exact ⟨[], [], rfl, rfl, h, .inr rfl, rfl, rfl⟩
      · next hbytes =>
        cases xs with
        | nil => exact absurd (h.empty_iff.mpr rfl) hbytes
        | cons x xs =>
            obtain ⟨hfirst, hrest⟩ := h.get
            obtain ⟨out, rest, hxs, hout, hin, hend, hr, hw⟩ := ih hrest
            refine ⟨x :: out, rest, by rw [hxs]; rfl, ?_, hin, ?_, hr, hw⟩
            · rw [hfirst, hout]
            · exact hend.imp_left fun hlen => by rw [List.length_cons, hlen]

end Pipe

/-! ## The invariant -/

namespace PipeState

/-- The bytes that went in by the write `id`. -/
def sentBy (s : PipeState) (id : Nat) : List UInt8 :=
  (s.sent.filter fun x => x.1 = id).map Prod.snd

/-- What holds in every state: no byte is lost, repeated or overtaken, in the pipe and of each
call. -/
structure Inv (s : PipeState) : Prop where
  flow : ∃ xs, s.pipe.Contains xs ∧ s.sent.map Prod.snd = s.received ++ xs
  ids : (s.calls.map PipeCall.id).Nodup
  progress : ∀ c ∈ s.calls, ∀ bytes rest, c.job = .write bytes rest →
    s.sentBy c.id ++ rest = bytes
  apart : ∀ f ∈ s.finished, ∀ c ∈ s.calls, c.reads = false → c.id ≠ f.1
  ended : ∀ f ∈ s.finished, f.2.2 = f.2.1.length ∧ s.sentBy f.1 = f.2.1 ∨
    f.2.2 = -1 ∧ s.sentBy f.1 <+: f.2.1
  opened : ∀ c ∈ s.calls, if c.reads then s.pipe.readopen = true else s.pipe.writeopen = true

theorem Inv.start (data : Nat → UInt8) : (PipeState.start data).Inv where
  flow := ⟨[], .alloc data, rfl⟩
  ids := List.nodup_nil
  progress := fun c hc => by cases hc
  apart := fun f hf => by cases hf
  ended := fun f hf => by cases hf
  opened := fun c hc => by cases hc

/-! ## Calls -/

@[simp] theorem wakeCalls_ids (reads : Bool) (calls : List PipeCall) :
    (wakeCalls reads calls).map PipeCall.id = calls.map PipeCall.id := by
  rw [wakeCalls, List.map_map]
  refine List.map_congr_left fun c _ => ?_
  simp only [Function.comp_apply]
  split <;> rfl

/-- A call is as before `wakeup`, but for its sleep. -/
theorem mem_wakeCalls {reads : Bool} {calls : List PipeCall} (h : c ∈ wakeCalls reads calls) :
    ∃ d ∈ calls, c.id = d.id ∧ c.job = d.job ∧ c.killed = d.killed ∧
      (c.asleep = true → d = c ∧ d.reads ≠ reads) := by
  obtain ⟨d, hd, rfl⟩ := List.mem_map.mp h
  refine ⟨d, hd, ?_⟩
  split
  · exact ⟨rfl, rfl, rfl, fun hs => by cases hs⟩
  · next hne => exact ⟨rfl, rfl, rfl, fun _ => ⟨rfl, hne⟩⟩

theorem reads_eq (h : c.job = d.job) : c.reads = d.reads := by
  rw [PipeCall.reads, h, PipeCall.reads]

theorem Inv.mem_erase (hi : s.Inv) (hc : c ∈ s.calls) :
    d ∈ s.calls.erase c ↔ d ∈ s.calls ∧ d.id ≠ c.id := by
  have hnodup : s.calls.Nodup := List.Nodup.of_map _ hi.ids
  rw [hnodup.mem_erase_iff, and_comm]
  refine and_congr_right fun hd => not_congr ⟨fun heq => congrArg PipeCall.id heq, fun hid => ?_⟩
  exact List.inj_on_of_nodup_map hi.ids hd hc hid

/-- The calls after one of them has moved on or returned, with some woken. -/
structure Follows (s : PipeState) (c : PipeCall) (calls : List PipeCall) : Prop where
  ids : (calls.map PipeCall.id).Nodup
  old : ∀ d ∈ calls, d.id = c.id ∧ d.reads = c.reads ∨
    ∃ e ∈ s.calls, e.id ≠ c.id ∧ d.id = e.id ∧ d.job = e.job

theorem Inv.follows_erase (hi : s.Inv) (hc : c ∈ s.calls) : s.Follows c (s.calls.erase c) where
  ids := (List.nodup_cons.mp
    (((List.perm_cons_erase hc).map PipeCall.id).nodup_iff.mp hi.ids)).2
  old := fun d hd =>
    .inr ⟨d, ((hi.mem_erase hc).mp hd).1, ((hi.mem_erase hc).mp hd).2, rfl, rfl⟩

theorem Follows.wake {calls : List PipeCall} (h : s.Follows c calls) (reads : Bool) :
    s.Follows c (wakeCalls reads calls) := by
  refine ⟨by rw [wakeCalls_ids]; exact h.ids, fun d hd => ?_⟩
  obtain ⟨e, he, hid, hjob, _⟩ := mem_wakeCalls hd
  rcases h.old e he with ⟨hid', hreads⟩ | ⟨e', he', hne, hid', hjob'⟩
  · exact .inl ⟨hid.trans hid', (reads_eq hjob).trans hreads⟩
  · exact .inr ⟨e', he', hne, hid.trans hid', hjob.trans hjob'⟩

/-- The call itself goes on, beside the others. -/
theorem Follows.cons {calls : List PipeCall} (h : s.Follows c calls)
    (hnone : ∀ e ∈ calls, e.id ≠ c.id) (hid : d.id = c.id) (hreads : d.reads = c.reads) :
    s.Follows c (d :: calls) := by
  refine ⟨List.nodup_cons.mpr ⟨fun hmem => ?_, h.ids⟩, fun e he => ?_⟩
  · obtain ⟨e, he, heq⟩ := List.mem_map.mp hmem
    exact hnone e he (heq.trans hid)
  · rcases List.mem_cons.mp he with rfl | he
    · exact .inl ⟨hid, hreads⟩
    · exact h.old e he

theorem Inv.erase_ne (hi : s.Inv) (hc : c ∈ s.calls) {reads : Bool} :
    ∀ e ∈ wakeCalls reads (s.calls.erase c), e.id ≠ c.id := by
  intro e he
  obtain ⟨d, hd, hid, _⟩ := mem_wakeCalls he
  rw [hid]
  exact ((hi.mem_erase hc).mp hd).2

theorem Follows.opened {calls : List PipeCall} (h : s.Follows c calls) (hi : s.Inv)
    (hc : c ∈ s.calls) : ∀ d ∈ calls,
      if d.reads then s.pipe.readopen = true else s.pipe.writeopen = true := by
  intro d hd
  rcases h.old d hd with ⟨_, hreads⟩ | ⟨e, he, _, _, hjob⟩
  · rw [hreads]
    exact hi.opened c hc
  · rw [reads_eq hjob]
    exact hi.opened e he

/-! ## Steps -/

/-- The bytes by one call, after some call has put in more. -/
theorem filter_sent (sent : List (Nat × UInt8)) (id k : Nat) (copied : List UInt8) :
    (((sent ++ copied.map fun b => (id, b)).filter fun x => x.1 = k).map Prod.snd) =
      ((sent.filter fun x => x.1 = k).map Prod.snd) ++ if id = k then copied else [] := by
  rw [List.filter_append, List.map_append]
  congr 1
  split
  · next h =>
    rw [List.filter_eq_self.mpr (by simp [h]), List.map_map]
    exact List.map_id copied
  · next h =>
    rw [List.filter_eq_nil_iff.mpr (by simp [h]), List.map_nil]

/-- A call of `pipewrite` has copied some bytes, and it goes on, or returns with all of them
or with -1. -/
theorem Inv.of_write (hi : s.Inv) (hc : c ∈ s.calls) {bytes copied left : List UInt8} {p : Pipe}
    {calls : List PipeCall} {finished : List (Nat × List UInt8 × Int)}
    (hjob : c.job = .write bytes (copied ++ left))
    (hin : ∃ xs, p.Contains (xs ++ copied) ∧ s.sent.map Prod.snd = s.received ++ xs)
    (hr : p.readopen = s.pipe.readopen) (hw : p.writeopen = s.pipe.writeopen)
    (hcalls : s.Follows c calls) (hon : ∀ d ∈ calls, d.id = c.id → d.job = .write bytes left)
    (hend : finished = s.finished ∨ (∀ d ∈ calls, d.id ≠ c.id) ∧ ∃ r,
      finished = (c.id, bytes, r) :: s.finished ∧ (r = bytes.length ∧ left = [] ∨ r = -1)) :
    Inv ⟨p, calls, s.sent ++ copied.map fun b => (c.id, b), s.received, finished⟩ where
  flow := by
    obtain ⟨xs, hin, hflow⟩ := hin
    refine ⟨xs ++ copied, hin, ?_⟩
    rw [List.map_append, List.map_map, hflow, List.append_assoc]
    congr 2
    exact List.map_id copied
  ids := hcalls.ids
  progress := by
    intro d hd bytes' rest' hjob'
    rw [sentBy, filter_sent]
    rcases Nat.decEq d.id c.id with hne | heq
    · rcases hcalls.old d hd with ⟨heq, _⟩ | ⟨e, he, _, hid, hjob''⟩
      · exact absurd heq hne
      · rw [if_neg (Ne.symm hne), List.append_nil, hid]
        exact hi.progress e he bytes' rest' (hjob''.symm.trans hjob')
    · obtain ⟨rfl, rfl⟩ := PipeJob.write.inj ((hon d hd heq).symm.trans hjob')
      rw [heq, if_pos rfl, List.append_assoc]
      exact hi.progress c hc _ _ hjob
  apart := by
    intro f hf d hd hreads
    rcases hend with rfl | ⟨hnone, r, rfl, _⟩
    · rcases hcalls.old d hd with ⟨heq, hr'⟩ | ⟨e, he, _, hid, hjob'⟩
      · rw [heq]
        exact hi.apart f hf c hc (hr'.symm.trans hreads)
      · rw [hid]
        exact hi.apart f hf e he ((reads_eq hjob').symm.trans hreads)
    · rcases List.mem_cons.mp hf with rfl | hf
      · exact hnone d hd
      · rcases hcalls.old d hd with ⟨heq, _⟩ | ⟨e, he, _, hid, hjob'⟩
        · exact absurd heq (hnone d hd)
        · rw [hid]
          exact hi.apart f hf e he ((reads_eq hjob').symm.trans hreads)
  ended := by
    have hold : ∀ f ∈ s.finished, c.id ≠ f.1 := fun f hf =>
      hi.apart f hf c hc (by rw [PipeCall.reads, hjob])
    have hall := hi.progress c hc _ _ hjob
    intro f hf
    rw [sentBy, filter_sent]
    rcases hend with rfl | ⟨_, r, rfl, hres⟩
    · rw [if_neg (hold f hf), List.append_nil]
      exact hi.ended f hf
    · rcases List.mem_cons.mp hf with rfl | hf
      · rw [if_pos rfl]
        rcases hres with ⟨rfl, rfl⟩ | rfl
        · exact .inl ⟨rfl, by rw [← hall, List.append_nil, sentBy]⟩
        · exact .inr ⟨rfl, ⟨left, by rw [← hall, sentBy, List.append_assoc]⟩⟩
      · rw [if_neg (hold f hf), List.append_nil]
        exact hi.ended f hf
  opened := by
    intro d hd
    change if d.reads then p.readopen = true else p.writeopen = true
    rw [hr, hw]
    exact hcalls.opened hi hc d hd

theorem Inv.runWrite (hi : s.Inv) (hc : c ∈ s.calls) {bytes rest : List UInt8}
    (hjob : c.job = .write bytes rest) : (s.runWrite c bytes rest).Inv := by
  obtain ⟨xs, hin, hflow⟩ := hi.flow
  obtain ⟨copied, left, hrest, hleft, hin', _, hr, hw⟩ := hin.putAll rest
  have hcopied : rest.take (rest.length - left.length) = copied := by
    rw [hrest, List.length_append, Nat.add_sub_cancel]
    exact List.take_left' rfl
  rw [hrest] at hjob
  have hwoken : s.Follows c (wakeCalls true (s.calls.erase c)) := (hi.follows_erase hc).wake true
  have hreads : (⟨c.id, .write bytes left, true, c.killed⟩ : PipeCall).reads = c.reads := by
    rw [PipeCall.reads, PipeCall.reads, hjob]
  simp only [PipeState.runWrite, hleft, hcopied]
  split
  · next hnil =>
    exact hi.of_write hc hjob ⟨xs, hin', hflow⟩ hr hw hwoken
      (fun d hd heq => absurd heq (hi.erase_ne hc d hd))
      (.inr ⟨hi.erase_ne hc, _, rfl, .inl ⟨rfl, hnil⟩⟩)
  · split
    · exact hi.of_write hc hjob ⟨xs, hin', hflow⟩ hr hw (hi.follows_erase hc)
        (fun d hd heq => absurd heq ((hi.mem_erase hc).mp hd).2)
        (.inr ⟨fun d hd => ((hi.mem_erase hc).mp hd).2, _, rfl, .inr rfl⟩)
    · refine hi.of_write hc hjob ⟨xs, hin', hflow⟩ hr hw
        (hwoken.cons (hi.erase_ne hc) rfl hreads) (fun d hd heq => ?_) (.inl rfl)
      rcases List.mem_cons.mp hd with rfl | hd
      · rfl
      · exact absurd heq (hi.erase_ne hc d hd)

/-- Calls may return, sleep or wake up without a byte going in. -/
theorem Inv.of_calls (hi : s.Inv) {p : Pipe} {calls : List PipeCall} {received : List UInt8}
    (hin : ∃ xs, p.Contains xs ∧ s.sent.map Prod.snd = received ++ xs)
    (hids : (calls.map PipeCall.id).Nodup)
    (hold : ∀ d ∈ calls, ∃ e ∈ s.calls, d.id = e.id ∧ d.job = e.job)
    (hopen : ∀ d ∈ calls, if d.reads then p.readopen = true else p.writeopen = true) :
    Inv ⟨p, calls, s.sent, received, s.finished⟩ where
  flow := hin
  ids := hids
  progress := by
    intro d hd bytes rest hjob
    obtain ⟨e, he, hid, hjob'⟩ := hold d hd
    rw [hid]
    exact hi.progress e he bytes rest (hjob'.symm.trans hjob)
  apart := by
    intro f hf d hd hreads
    obtain ⟨e, he, hid, hjob⟩ := hold d hd
    rw [hid]
    exact hi.apart f hf e he ((reads_eq hjob).symm.trans hreads)
  ended := hi.ended
  opened := hopen

theorem Inv.runRead (hi : s.Inv) (hc : c ∈ s.calls) : (s.runRead c n).Inv := by
  have herase := hi.follows_erase hc
  rw [PipeState.runRead]
  split
  · have hold : ∀ d ∈ s.calls.erase c, ∃ e ∈ s.calls, d.id = e.id ∧ d.job = e.job :=
      fun d hd => ⟨d, List.mem_of_mem_erase hd, rfl, rfl⟩
    split
    · exact hi.of_calls hi.flow herase.ids hold (herase.opened hi hc)
    · have hmore := herase.cons (d := { c with asleep := true })
        (fun e he => ((hi.mem_erase hc).mp he).2) rfl rfl
      refine hi.of_calls hi.flow hmore.ids (fun d hd => ?_) (hmore.opened hi hc)
      rcases List.mem_cons.mp hd with rfl | hd
      · exact ⟨c, hc, rfl, rfl⟩
      · exact hold d hd
  · obtain ⟨xs, hin, hflow⟩ := hi.flow
    obtain ⟨out, rest, hxs, hout, hin', _, hr, hw⟩ := hin.getAll n
    have hwoken := herase.wake false
    refine hi.of_calls ⟨rest, hin', ?_⟩ hwoken.ids (fun d hd => ?_) ?_
    · rw [hflow, hout, hxs, List.append_assoc]
    · obtain ⟨e, he, hid, hjob', _⟩ := mem_wakeCalls hd
      exact ⟨e, List.mem_of_mem_erase he, hid, hjob'⟩
    · rw [hr, hw]
      exact hwoken.opened hi hc

theorem Inv.close (hi : s.Inv) {writable : Bool} (hidle : ∀ c ∈ s.calls, c.reads = writable) :
    (s.close writable).Inv := by
  obtain ⟨xs, hin, hflow⟩ := hi.flow
  refine hi.of_calls ⟨xs, ?_, hflow⟩ ?_ (fun d hd => ?_) fun d hd => ?_
  · rw [Pipe.close]
    split <;> exact ⟨hin.holds, hin.count, hin.small⟩
  · rw [wakeCalls_ids]
    exact hi.ids
  · obtain ⟨e, he, hid, hjob, _⟩ := mem_wakeCalls hd
    exact ⟨e, he, hid, hjob⟩
  · obtain ⟨e, he, _, hjob, _⟩ := mem_wakeCalls hd
    have hopen := hi.opened e he
    rw [← reads_eq hjob] at hopen
    have hreads := hidle e he
    rw [← reads_eq hjob] at hreads
    rw [Pipe.close, ← hreads]
    cases h : d.reads <;> rw [h] at hopen <;> exact hopen

theorem Inv.kill (hi : s.Inv) (hc : c ∈ s.calls) : (s.kill c).Inv := by
  have hmore := (hi.follows_erase hc).cons (d := { c with killed := true, asleep := false })
    (fun e he => ((hi.mem_erase hc).mp he).2) rfl rfl
  refine hi.of_calls hi.flow hmore.ids (fun d hd => ?_) (hmore.opened hi hc)
  rcases List.mem_cons.mp hd with rfl | hd
  · exact ⟨c, hc, rfl, rfl⟩
  · exact ⟨d, List.mem_of_mem_erase hd, rfl, rfl⟩

/-- A call begins. -/
theorem Inv.call (hi : s.Inv) (hfresh : ∀ c ∈ s.calls, c.id ≠ d.id)
    (hwrite : ∀ bytes rest, d.job = .write bytes rest →
      rest = bytes ∧ (∀ x ∈ s.sent, x.1 ≠ d.id) ∧ ∀ f ∈ s.finished, f.1 ≠ d.id)
    (hopen : if d.reads then s.pipe.readopen = true else s.pipe.writeopen = true) :
    Inv { s with calls := d :: s.calls } where
  flow := hi.flow
  ids := List.nodup_cons.mpr ⟨fun hmem => by
    obtain ⟨e, he, hid⟩ := List.mem_map.mp hmem
    exact hfresh e he hid, hi.ids⟩
  progress := by
    intro c hc bytes rest hjob
    rcases List.mem_cons.mp hc with rfl | hc
    · obtain ⟨rfl, hunsent, _⟩ := hwrite bytes rest hjob
      have hnone : s.sent.filter (fun x => x.1 = c.id) = [] :=
        List.filter_eq_nil_iff.mpr fun x hx => by simpa using hunsent x hx
      rw [sentBy, hnone]
      rfl
    · exact hi.progress c hc bytes rest hjob
  apart := by
    intro f hf c hc hreads
    rcases List.mem_cons.mp hc with rfl | hc
    · cases hjob : c.job with
      | write bytes rest => exact ((hwrite bytes rest hjob).2.2 f hf).symm
      | read n => rw [PipeCall.reads, hjob] at hreads; cases hreads
    · exact hi.apart f hf c hc hreads
  ended := hi.ended
  opened := by
    intro c hc
    rcases List.mem_cons.mp hc with rfl | hc
    · exact hopen
    · exact hi.opened c hc

theorem Inv.step {a : PipeAct} (hi : s.Inv) (h : PipeStep s a t) : t.Inv := by
  cases h with
  | write hopen hfresh hnew hunsent =>
      refine hi.call hfresh (fun bytes' rest' hjob => ?_) hopen
      obtain ⟨rfl, rfl⟩ := PipeJob.write.inj hjob
      exact ⟨rfl, hunsent, hnew⟩
  | read hopen hfresh => exact hi.call hfresh (fun _ _ hjob => by cases hjob) hopen
  | runWrite hmem _ hjob => exact hi.runWrite hmem hjob
  | runRead hmem _ _ => exact hi.runRead hmem
  | close hidle => exact hi.close hidle
  | kill hmem => exact hi.kill hmem

theorem Inv.of_run {data : Nat → UInt8} {acts : List PipeAct}
    (h : Run PipeStep (.start data) acts s) : s.Inv :=
  h.invariant (fun _ _ _ hi hs => hi.step hs) (.start data)

end PipeState

open PipeState

/-- The bytes that come out of a pipe are the first of those that went in, at most `PIPESIZE` are
in it, and each write puts in its bytes in order: all of them when it returns their number.
`piperead` returns nothing only when the write end is closed and everything has come out. -/
theorem pipe_lossless {data : Nat → UInt8} {acts : List PipeAct}
    (h : Run PipeStep (.start data) acts s) :
    s.received <+: s.sent.map Prod.snd ∧ s.sent.length ≤ s.received.length + pipeSize ∧
      (∀ f ∈ s.finished, f.2.2 = f.2.1.length ∧ s.sentBy f.1 = f.2.1 ∨
        f.2.2 = -1 ∧ s.sentBy f.1 <+: f.2.1) ∧
      (∀ c ∈ s.calls, ∀ bytes rest, c.job = .write bytes rest → s.sentBy c.id ++ rest = bytes) ∧
      ∀ c ∈ s.calls, ∀ n, 0 < n → c.killed = false →
        (∀ d ∈ (s.runRead c n).calls, d.id ≠ c.id) → (s.runRead c n).received = s.received →
          s.pipe.writeopen = false ∧ s.received = s.sent.map Prod.snd := by
  have hi := Inv.of_run h
  obtain ⟨xs, hin, hflow⟩ := hi.flow
  refine ⟨⟨xs, hflow.symm⟩, ?_, hi.ended, hi.progress, fun c hc n hn hkilled hgone hsame => ?_⟩
  · have hlen := congrArg List.length hflow
    rw [List.length_map, List.length_append] at hlen
    have hsize : xs.length ≤ pipeSize := hin.holds.1
    omega
  · rw [PipeState.runRead] at hgone hsame
    split at hsame
    · next hwait =>
      rw [if_pos hwait, if_neg (by rw [hkilled]; exact Bool.false_ne_true)] at hgone
      exact absurd rfl (hgone { c with asleep := true } List.mem_cons_self)
    · next hnowait =>
      obtain ⟨out, rest, hxs, hout, _, hend, _⟩ := hin.getAll n
      rw [hout] at hsame
      have hnil : out = [] := List.append_right_eq_self.mp hsame
      subst hnil
      have hrest : rest = [] := hend.resolve_left fun hlen => absurd hlen (Nat.ne_of_lt hn)
      subst hrest
      have hempty : s.pipe.Empty := hin.empty_iff.mpr hxs
      refine ⟨Bool.eq_false_of_not_eq_true fun hw => hnowait ⟨hempty, hw⟩, ?_⟩
      rw [hflow, hxs, List.append_nil, List.append_nil]

/-- A byte goes through a pipe. -/
theorem pipe_lossless_byte : ∃ acts s, Run PipeStep (.start fun _ => 0) acts s ∧
    s.received = [7] ∧ s.received <+: s.sent.map Prod.snd := by
  have hwrite : Run PipeStep (.start fun _ => 0) [.write 0 [7]] _ := Run.single
    (.write rfl (fun c hc => by cases hc) (fun f hf => by cases hf) fun x hx => by cases hx)
  have hsent := hwrite.concat (.runWrite (List.mem_singleton_self _) rfl rfl)
  have hread : Run PipeStep _ (_ ++ [.read 1 5]) _ :=
    hsent.concat (.read rfl fun c hc => by cases hc)
  have hgot := hread.concat (.runRead (List.mem_singleton_self _) rfl rfl)
  exact ⟨_, _, hgot, by decide +kernel, (pipe_lossless hgot).1⟩

/-! ## Sleep -/

namespace PipeState

/-- Why a call sleeps: a writer at a full pipe that is still read. -/
def WritersWait (s : PipeState) : Prop :=
  ∀ c ∈ s.calls, c.asleep = true → c.reads = false → s.pipe.Full ∧ s.pipe.readopen = true

/-- A reader at an empty pipe that is still written. -/
def ReadersWait (s : PipeState) : Prop :=
  ∀ c ∈ s.calls, c.asleep = true → c.reads = true → s.pipe.Empty ∧ s.pipe.writeopen = true

theorem no_sleep_wakeCalls {reads : Bool} {calls : List PipeCall} (hd : d ∈ wakeCalls reads calls)
    (hsleep : d.asleep = true) : d ∈ calls ∧ d.reads ≠ reads := by
  obtain ⟨e, he, _, _, _, hsame⟩ := mem_wakeCalls hd
  obtain ⟨rfl, hne⟩ := hsame hsleep
  exact ⟨he, hne⟩

/-- A full pipe takes no byte. -/
theorem putAll_full (hfull : p.Full) (bs : List UInt8) : (p.putAll bs).1 = p := by
  cases bs with
  | nil => rfl
  | cons b bs => rw [Pipe.putAll, if_pos hfull]

theorem WritersWait.runWrite (hi : s.Inv) (hw : s.WritersWait) {bytes rest : List UInt8} :
    (s.runWrite c bytes rest).WritersWait := by
  obtain ⟨xs, hin, _⟩ := hi.flow
  obtain ⟨copied, left, _, hleft, _, hfull, hr, _⟩ := hin.putAll rest
  have hstay : ∀ d ∈ s.calls, d.asleep = true → d.reads = false →
      (s.pipe.putAll rest).1.Full ∧ (s.pipe.putAll rest).1.readopen = true := by
    intro d hd hsleep hreads
    obtain ⟨hfull, hopen⟩ := hw d hd hsleep hreads
    rw [putAll_full hfull]
    exact ⟨hfull, hopen⟩
  have hwoken : ∀ d ∈ wakeCalls true (s.calls.erase c), d.asleep = true → d.reads = false →
      (s.pipe.putAll rest).1.Full ∧ (s.pipe.putAll rest).1.readopen = true :=
    fun d hd hsleep => hstay d (List.mem_of_mem_erase (no_sleep_wakeCalls hd hsleep).1) hsleep
  simp only [PipeState.runWrite, hleft]
  split
  · exact hwoken
  · next hne =>
    split
    · exact fun d hd => hstay d (List.mem_of_mem_erase hd)
    · next hgo =>
      intro d hd hsleep hreads
      rcases List.mem_cons.mp hd with rfl | hd
      · exact ⟨hfull hne, Bool.eq_true_of_not_eq_false fun h => hgo (.inl h)⟩
      · exact hwoken d hd hsleep hreads

theorem WritersWait.runRead (hw : s.WritersWait) (hjob : c.job = .read n) :
    (s.runRead c n).WritersWait := by
  rw [PipeState.runRead]
  split
  · split
    · exact fun d hd => hw d (List.mem_of_mem_erase hd)
    · intro d hd hsleep hreads
      rcases List.mem_cons.mp hd with rfl | hd
      · rw [PipeCall.reads, hjob] at hreads
        cases hreads
      · exact hw d (List.mem_of_mem_erase hd) hsleep hreads
  · exact fun d hd hsleep hreads => absurd hreads (no_sleep_wakeCalls hd hsleep).2

theorem WritersWait.step {a : PipeAct} (hi : s.Inv) (hw : s.WritersWait) (h : PipeStep s a t) :
    t.WritersWait := by
  cases h with
  | write | read =>
      intro d hd hsleep
      rcases List.mem_cons.mp hd with rfl | hd
      · cases hsleep
      · exact hw d hd hsleep
  | runWrite => exact hw.runWrite hi
  | runRead _ _ hjob => exact hw.runRead hjob
  | @close writable _ =>
      intro d hd hsleep hreads
      obtain ⟨hold, hne⟩ := no_sleep_wakeCalls hd hsleep
      obtain rfl : writable = true := by
        rw [hreads] at hne
        exact Bool.eq_true_of_not_eq_false fun h => hne h.symm
      exact hw d hold hsleep hreads
  | kill hmem =>
      intro d hd hsleep
      rcases List.mem_cons.mp hd with rfl | hd
      · cases hsleep
      · exact hw d (List.mem_of_mem_erase hd) hsleep

/-- Readers sleep rightly, as no writer has been killed. -/
structure ReadersRight (s : PipeState) : Prop where
  wait : s.ReadersWait
  alive : ∀ c ∈ s.calls, c.reads = false → c.killed = false

theorem ReadersRight.runWrite (hi : s.Inv) (hr : s.ReadersRight) (hc : c ∈ s.calls)
    {bytes rest : List UInt8} (hjob : c.job = .write bytes rest) :
    (s.runWrite c bytes rest).ReadersRight := by
  have hwrites : c.reads = false := by rw [PipeCall.reads, hjob]
  have hold : ∀ d ∈ wakeCalls true (s.calls.erase c), d.reads = false → d.killed = false := by
    intro d hd hreads
    obtain ⟨e, he, _, hjob', hkilled, _⟩ := mem_wakeCalls hd
    rw [hkilled]
    exact hr.alive e (List.mem_of_mem_erase he) ((reads_eq hjob').symm.trans hreads)
  have hawake : ∀ d ∈ wakeCalls true (s.calls.erase c), d.asleep = true → d.reads ≠ true :=
    fun d hd hsleep => (no_sleep_wakeCalls hd hsleep).2
  have hopen : ∀ d ∈ s.calls, d.reads = true → s.pipe.readopen = true := by
    intro d hd hreads
    have := hi.opened d hd
    rwa [if_pos hreads] at this
  obtain ⟨xs, hin, _⟩ := hi.flow
  obtain ⟨_, _, _, _, _, _, hreadopen, _⟩ := hin.putAll rest
  simp only [PipeState.runWrite]
  split
  · exact ⟨fun d hd hsleep hreads => absurd hreads (hawake d hd hsleep), hold⟩
  · split
    · next hgone =>
      have hclosed : (s.pipe.putAll rest).1.readopen = false :=
        hgone.resolve_right (by rw [hr.alive c hc hwrites]; exact Bool.false_ne_true)
      refine ⟨fun d hd _ hreads => ?_, fun d hd => hr.alive d (List.mem_of_mem_erase hd)⟩
      rw [hreadopen, hopen d (List.mem_of_mem_erase hd) hreads] at hclosed
      cases hclosed
    · constructor
      · intro d hd hsleep hreads
        rcases List.mem_cons.mp hd with rfl | hd
        · cases hreads
        · exact absurd hreads (hawake d hd hsleep)
      · intro d hd hreads
        rcases List.mem_cons.mp hd with rfl | hd
        · exact hr.alive c hc hwrites
        · exact hold d hd hreads

theorem ReadersRight.runRead (hr : s.ReadersRight) (hjob : c.job = .read n) :
    (s.runRead c n).ReadersRight := by
  have hreads : c.reads = true := by rw [PipeCall.reads, hjob]
  rw [PipeState.runRead]
  split
  · next hwait =>
    split
    · exact ⟨fun d hd => hr.wait d (List.mem_of_mem_erase hd),
        fun d hd => hr.alive d (List.mem_of_mem_erase hd)⟩
    · refine ⟨fun d hd hsleep _ => hwait, fun d hd hwrites => ?_⟩
      rcases List.mem_cons.mp hd with rfl | hd
      · exact absurd (hwrites.symm.trans hreads) Bool.false_ne_true
      · exact hr.alive d (List.mem_of_mem_erase hd) hwrites
  · next hgo =>
    constructor
    · intro d hd hsleep hd'
      obtain ⟨hold, _⟩ := no_sleep_wakeCalls hd hsleep
      exact absurd (hr.wait d (List.mem_of_mem_erase hold) hsleep hd') hgo
    · intro d hd hwrites
      obtain ⟨e, he, _, hjob', hkilled, _⟩ := mem_wakeCalls hd
      rw [hkilled]
      exact hr.alive e (List.mem_of_mem_erase he) ((reads_eq hjob').symm.trans hwrites)

theorem ReadersRight.step {a : PipeAct} (hi : s.Inv) (hr : s.ReadersRight) (h : PipeStep s a t)
    (ha : ∀ id, a ≠ .kill id false) : t.ReadersRight := by
  cases h with
  | write | read =>
      constructor
      · intro d hd hsleep
        rcases List.mem_cons.mp hd with rfl | hd
        · cases hsleep
        · exact hr.wait d hd hsleep
      · intro d hd hwrites
        rcases List.mem_cons.mp hd with rfl | hd
        · rfl
        · exact hr.alive d hd hwrites
  | runWrite hmem _ hjob => exact hr.runWrite hi hmem hjob
  | runRead _ _ hjob => exact hr.runRead hjob
  | @close writable hidle =>
      constructor
      · intro d hd hsleep hreads
        obtain ⟨hold, hne⟩ := no_sleep_wakeCalls hd hsleep
        exact absurd (hidle d hold) hne
      · intro d hd hwrites
        obtain ⟨e, he, _, hjob, hkilled, _⟩ := mem_wakeCalls hd
        rw [hkilled]
        exact hr.alive e he ((reads_eq hjob).symm.trans hwrites)
  | @kill c hmem =>
      have hreader : c.reads = true := Bool.eq_true_of_not_eq_false fun h => ha c.id (by rw [h])
      constructor
      · intro d hd hsleep
        rcases List.mem_cons.mp hd with rfl | hd
        · cases hsleep
        · exact hr.wait d (List.mem_of_mem_erase hd) hsleep
      · intro d hd hwrites
        rcases List.mem_cons.mp hd with rfl | hd
        · exact absurd (hwrites.symm.trans hreader) Bool.false_ne_true
        · exact hr.alive d (List.mem_of_mem_erase hd) hwrites

theorem WritersWait.of_run {data : Nat → UInt8} {acts : List PipeAct}
    (h : Run PipeStep (.start data) acts s) : s.WritersWait := by
  have hboth : s.Inv ∧ s.WritersWait :=
    h.invariant (P := fun s => s.Inv ∧ s.WritersWait)
      (fun _ _ _ hi hs => ⟨hi.1.step hs, hi.2.step hi.1 hs⟩) ⟨.start data, fun _ hc => by cases hc⟩
  exact hboth.2

theorem ReadersRight.of_run {data : Nat → UInt8} {acts : List PipeAct}
    (h : Run PipeStep (.start data) acts s) (hkill : ∀ id, .kill id false ∉ acts) :
    s.ReadersRight := by
  have hboth : s.Inv ∧ s.ReadersRight :=
    h.invariant_of_mem (P := fun s => s.Inv ∧ s.ReadersRight)
      (fun _ _ l hl hi hs =>
        ⟨hi.1.step hs, hi.2.step hi.1 hs fun id heq => hkill id (heq ▸ hl)⟩)
      ⟨.start data, fun _ hc => (by cases hc), fun _ hc => (by cases hc)⟩
  exact hboth.2

end PipeState

/-- A writer only sleeps at a full pipe that is still read. As long as no writer is killed, a
reader only sleeps at an empty pipe that is still written, so the two never wait for each
other. -/
theorem pipe_no_lost_wakeup {data : Nat → UInt8} {acts : List PipeAct}
    (h : Run PipeStep (.start data) acts s) :
    s.WritersWait ∧
      ((∀ id, .kill id false ∉ acts) → s.ReadersWait ∧
        ∀ c ∈ s.calls, ∀ d ∈ s.calls, c.reads ≠ d.reads → c.asleep = false ∨ d.asleep = false) := by
  obtain ⟨xs, hin, _⟩ := (Inv.of_run h).flow
  have hw := WritersWait.of_run h
  refine ⟨hw, fun hkill => ?_⟩
  have hr := (ReadersRight.of_run h hkill).wait
  have hapart : ¬ (s.pipe.Full ∧ s.pipe.Empty) := by
    rw [hin.full_iff, hin.empty_iff]
    rintro ⟨hlen, rfl⟩
    cases hlen
  refine ⟨hr, fun c hc d hd hne => ?_⟩
  by_contra hboth
  obtain ⟨hcs, hds⟩ := not_or.mp hboth
  rw [Bool.not_eq_false] at hcs hds
  cases hcr : c.reads <;> cases hdr : d.reads
  · exact hne (hcr.trans hdr.symm)
  · exact hapart ⟨(hw c hc hcs hcr).1, (hr d hd hds hdr).1⟩
  · exact hapart ⟨(hw d hd hds hdr).1, (hr c hc hcs hcr).1⟩
  · exact hne (hcr.trans hdr.symm)

/-- A reader and a writer after the first has gone to sleep and the other has not yet run. -/
theorem pipe_no_lost_wakeup_reader : ∃ acts s, Run PipeStep (.start fun _ => 0) acts s ∧
    (∃ c ∈ s.calls, c.asleep = true) ∧ s.ReadersWait := by
  have hread : Run PipeStep (.start fun _ => 0) [.read 1 5] _ := Run.single
    (.read rfl fun c hc => by cases hc)
  have hslept := hread.concat (.runRead (List.mem_singleton_self _) rfl rfl)
  refine ⟨_, _, hslept, ⟨_, List.mem_cons_self, rfl⟩, ((pipe_no_lost_wakeup hslept).2 ?_).1⟩
  intro id hmem
  simp at hmem

/-- A writer that is killed at a full pipe returns without `wakeup(&p->nread)`, and a reader
that slept before stays asleep. -/
theorem killed_writer_strands_reader : ∃ acts s, Run PipeStep (.start fun _ => 0) acts s ∧
    ∃ c ∈ s.calls, c.asleep = true ∧ c.reads = true ∧ s.pipe.Full := by
  have hread : Run PipeStep (.start fun _ => 0) [.read 1 5] _ := Run.single
    (.read rfl fun c hc => by cases hc)
  have hslept := hread.concat (.runRead (List.mem_singleton_self _) rfl rfl)
  have hwrite : Run PipeStep _ (_ ++ [.write 2 (List.replicate 513 0)]) _ :=
    hslept.concat (.write rfl (by decide) (by decide) (by decide))
  have hkilled := hwrite.concat (.kill List.mem_cons_self)
  have hgone := hkilled.concat (.runWrite List.mem_cons_self rfl rfl)
  exact ⟨_, _, hgone, ⟨1, .read 5, true, false⟩, by decide +kernel, rfl, rfl, by decide +kernel⟩

end OSProjects.Xv6
