import Dkg.Lib.Bisect
import Dkg.Staking.NodeStake

/-!
`RandomSamplingStorage`: the score-per-stake index of a node in an epoch, as its last
value and the checkpoints its proofs left.
-/

namespace Dkg.Staking
open Revert

structure Checkpoint where
  timestamp : ℕ
  scorePerStake36 : ℕ
  deriving DecidableEq, Repr

structure EpochIndex where
  lastScorePerStake36 : ℕ
  mid : List Checkpoint
  deriving DecidableEq, Repr

namespace EpochIndex

def empty : EpochIndex := ⟨0, []⟩

/-- `_upsertCheckpoint`: a second value at one moment replaces the first. -/
def upsertCheckpoint (mid : List Checkpoint) (ts value : ℕ) : Except Err (List Checkpoint) :=
  match mid.getLast? with
  | none => .ok [⟨ts, value⟩]
  | some tail =>
    if tail.timestamp ≤ ts then
      if tail.timestamp = ts then .ok (mid.dropLast ++ [⟨ts, value⟩])
      else .ok (mid ++ [⟨ts, value⟩])
    else .error .nonMonotonicTs

def appendCheckpoint (ei : EpochIndex) (ts scorePerStake36 : ℕ) : Except Err EpochIndex := do
  require (scorePerStake36 ≤ 2 ^ 216 - 1) .checkpointOverflow
  let mid ← upsertCheckpoint ei.mid ts scorePerStake36
  return ⟨scorePerStake36, mid⟩

def timestampAt (mid : List Checkpoint) (i : ℕ) : ℕ := (mid.getD i ⟨0, 0⟩).timestamp

/-- The largest checkpoint at or before `ts`, by binary search. -/
def findScorePerStakeAt (ei : EpochIndex) (ts : ℕ) : ℕ :=
  let n := ei.mid.length
  if n = 0 then 0
  else
    let lo := Bisect.loop (fun i => timestampAt ei.mid i ≤ ts) n 0 n
    if lo = 0 then 0 else (ei.mid.getD (lo - 1) ⟨0, 0⟩).scorePerStake36

end EpochIndex

end Dkg.Staking
