import OSProjects.Foundation.ByteMemory

/-!
# Transfers in parts

A call that is asked to transfer some bytes may transfer fewer of them. A loop that goes on
behind what has been transferred delivers every byte once, however the calls split them.
-/

namespace OSProjects.Transfer

open ByteMemory

/-- What a call returns, by the number of the call and the bytes it is asked to transfer. -/
abbrev Results := Nat → Nat → Int

/-- Every call transfers at least one byte, and no more than it is asked to. -/
def Results.Splits (results : Results) : Prop :=
  ∀ k n, 0 < n → 1 ≤ results k n ∧ results k n ≤ n

/-- What a loop of transfers has done: the bytes that went out, the number of the next call,
and whether no call has failed. -/
structure Sent where
  bytes : List UInt8
  calls : Nat
  ok : Bool
  deriving DecidableEq

/-- Transfers from call `k` on, of `size` bytes at `data`, until all have gone or a call
fails. There is no value when `fuel` calls do not suffice. -/
def sendLoop (results : Results) (m : Memory) : Nat → Nat → Nat → Nat → Option Sent
  | fuel, k, data, size =>
      if size = 0 then some ⟨[], k, true⟩
      else if results k size < 0 then some ⟨[], k + 1, false⟩
      else
        match fuel with
        | 0 => none
        | fuel + 1 =>
            let n := (results k size).toNat
            (sendLoop results m fuel (k + 1) (data + n) (size - n)).map fun s =>
              { s with bytes := readBytes m data n ++ s.bytes }

/-- As many calls as there are bytes deliver all of them. -/
theorem sendLoop_of_splits {results : Results} (h : results.Splits) (m : Memory)
    {fuel size : Nat} (hfuel : size ≤ fuel) (k data : Nat) :
    ∃ calls, sendLoop results m fuel k data size = some ⟨readBytes m data size, calls, true⟩ := by
  induction fuel generalizing k data size with
  | zero =>
      obtain rfl : size = 0 := by omega
      exact ⟨k, rfl⟩
  | succ fuel ih =>
      rcases Nat.eq_zero_or_pos size with rfl | hpos
      · exact ⟨k, rfl⟩
      · obtain ⟨hone, hle⟩ := h k size hpos
        obtain ⟨n, hn⟩ := Int.eq_ofNat_of_zero_le (show 0 ≤ results k size by omega)
        rw [hn] at hone hle
        obtain ⟨rest, rfl⟩ := Nat.exists_eq_add_of_le (show n ≤ size by omega)
        obtain ⟨calls, hrest⟩ := @ih rest (by omega) (k + 1) (data + n)
        refine ⟨calls, ?_⟩
        rw [sendLoop, if_neg (by omega), hn, if_neg (by omega)]
        dsimp only
        rw [Int.toNat_natCast, Nat.add_sub_cancel_left, hrest, Option.map_some, readBytes_add]

end OSProjects.Transfer
