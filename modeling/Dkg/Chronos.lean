import Dkg.Lib.Checked

/-!
`Chronos`: the chain's epochs, and the blocks the contracts can date.
-/

namespace Dkg

structure Chronos where
  startTime : ℕ
  epochLength : ℕ
  startTime_pos : 0 < startTime
  epochLength_pos : 0 < epochLength

namespace Chronos

def epochAtTimestamp (c : Chronos) (timestamp : ℕ) : ℕ :=
  if timestamp < c.startTime then 1 else (timestamp - c.startTime) / c.epochLength + 1

def timeUntilNextEpoch (c : Chronos) (timestamp : ℕ) : ℕ :=
  if timestamp < c.startTime then c.startTime + c.epochLength - timestamp
  else c.epochLength - (timestamp - c.startTime) % c.epochLength

def timestampForEpoch (c : Chronos) (epochNumber : ℕ) : ℕ :=
  if epochNumber = 0 then 0 else c.startTime + (epochNumber - 1) * c.epochLength

variable {c : Chronos} {s t : ℕ}

theorem epochAtTimestamp_pos (c : Chronos) (t : ℕ) : 1 ≤ c.epochAtTimestamp t := by
  unfold epochAtTimestamp
  split
  · exact le_rfl
  · exact Nat.le_add_left 1 _

theorem epochAtTimestamp_mono (h : s ≤ t) : c.epochAtTimestamp s ≤ c.epochAtTimestamp t := by
  by_cases hs : s < c.startTime
  · rw [epochAtTimestamp, if_pos hs]
    exact epochAtTimestamp_pos c t
  · rw [epochAtTimestamp, epochAtTimestamp, if_neg hs, if_neg (by omega)]
    exact Nat.add_le_add_right (Nat.div_le_div_right (by omega)) 1

end Chronos

/-- A block the contracts can date. They keep timestamps in `uint40` and epochs in
`uint32`: the block's epoch fits, and so does the end of the longest lock
(`type(uint16).max` epochs) that can start in it. -/
structure Block (c : Chronos) where
  timestamp : ℕ
  timestamp_lt : timestamp + 65535 * c.epochLength < 2 ^ 40
  epoch_lt : c.epochAtTimestamp timestamp < 2 ^ 32

namespace Block

/-- `chronos.getCurrentEpoch()`. -/
def currentEpoch {c : Chronos} (b : Block c) : ℕ := c.epochAtTimestamp b.timestamp

end Block

def uint16 (n : ℕ) : ℕ := n % 2 ^ 16

def uint32 (n : ℕ) : ℕ := n % 2 ^ 32

def uint40 (n : ℕ) : ℕ := n % 2 ^ 40

theorem uint16_of_lt {n : ℕ} (h : n < 2 ^ 16) : uint16 n = n := Nat.mod_eq_of_lt h

theorem uint40_of_lt {n : ℕ} (h : n < 2 ^ 40) : uint40 n = n := Nat.mod_eq_of_lt h

end Dkg
