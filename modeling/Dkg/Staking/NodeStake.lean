import Dkg.Chronos
import Dkg.Lib.StepProfile

/-!
`ConvictionStakingStorage`, per node: the running effective stake and the queue of the
moments at which boosts expire. Drops at one moment share a queue entry.
-/

namespace Dkg.Staking
open Revert Function

def SCALE18 : ℕ := 10 ^ 18
def EXPIRY_BUCKET_SECONDS : ℕ := 43200
def MAX_NODE_PENDING_EXPIRIES : ℕ := 1024
def MAX_TIER_DURATION : ℕ := (MAX_NODE_PENDING_EXPIRIES - 1) * EXPIRY_BUCKET_SECONDS
def MAX_REWARD_CARRIES : ℕ := 32

/-- The reverts of the staking contracts and their storages, named after their reasons. -/
inductive Err where
  | zeroNode
  | positionExists
  | zeroRaw
  | invalidTier
  | tierInactive
  | preGenesisCreate
  | expiryOverflow
  | creditRequiresMigrationEpoch
  | creditRequiresLockedTier
  | creditGeTierDuration
  | creditLeavesNoRemainingLock
  | noPosition
  | sameNode
  | newTokenUsed
  | sameTokenId
  | identityMismatch
  | insufficientRaw
  | rawOverflow
  | carryLimit
  | zeroAmount
  | amountExceedsCredit
  | creditGeTier6Lock
  | tierExists
  | tier0MustBeRest
  | nonZeroTierNeedsDuration
  | tierDurationTooLong
  | nonZeroTierNeedsBoost
  | alreadyInactive
  | checkpointOverflow
  | nonMonotonicTs
  | epochEnded
  | invalidParameter
  | activationEpochAlreadySet
  | queryInferencePaused
  | queryInferenceNotActive
  | noNodeScore
  | invalidIdentityId
  | profileDoesNotExist
  | maxStakeExceeded
  | positionNotFound
  | unclaimedEpochs
  | lockStillActive
  | sameIdentity
  | noRaw
  | inactiveTier
  | rewardOverflow
  | withdrawalRecorded
  | noWithdrawnEpoch
  | withdrawnEpochInProgress
  | zeroDrop
  | expiryInPast
  | nodeExpiryQueueFull (pending : ℕ)
  | cancelGtScheduled
  | negRunningStake
  /-- The checked subtraction of the operator fee from a node's gross. -/
  | feeUnderflow
  /-- The checked subtraction of a drop from the running stake. -/
  | dropUnderflow
  /-- Other checked arithmetic and array bounds. -/
  | panic
  deriving DecidableEq, Repr

/-- What the storage keeps per node for its effective stake. -/
structure NodeStake where
  runningEffectiveStake : ℕ
  lastSettledAt : ℕ
  expiryTimes : List ℕ
  expiryDrop : ℕ → ℕ
  expiryHead : ℕ
  expiryPresent : ℕ → Bool

namespace NodeStake

def empty : NodeStake where
  runningEffectiveStake := 0
  lastSettledAt := 0
  expiryTimes := []
  expiryDrop := fun _ => 0
  expiryHead := 0
  expiryPresent := fun _ => false

/-- The queue entries from the drain cursor on. -/
def pending (n : NodeStake) : List ℕ := n.expiryTimes.drop n.expiryHead

/-- The subtraction of one entry's drop; a cancelled entry is skipped. -/
def takeDrop (stake drop : ℕ) : Except Err ℕ :=
  if drop ≠ 0 then Checked.sub stake drop .dropUnderflow else .ok stake

/-- The loop of `_settleNodeTo` over the pending entries. -/
def settleLoop (ts : ℕ) : List ℕ → NodeStake → Except Err NodeStake
  | [], n => .ok n
  | t :: rest, n =>
    if t > ts then .ok n
    else do
      let stake ← takeDrop n.runningEffectiveStake (n.expiryDrop t)
      settleLoop ts rest { n with
        runningEffectiveStake := stake
        expiryDrop := update n.expiryDrop t 0
        expiryPresent := update n.expiryPresent t false
        expiryHead := n.expiryHead + 1 }

def settleNodeTo (n : NodeStake) (ts : ℕ) : Except Err NodeStake :=
  if ts ≤ n.lastSettledAt then .ok n
  else do
    let n ← settleLoop ts n.pending n
    return { n with lastSettledAt := ts }

/-- The loop of `_simulateNodeEffectiveStakeAt`. -/
def simulateLoop (drop : ℕ → ℕ) (ts : ℕ) : List ℕ → ℕ → Except Err ℕ
  | [], stake => .ok stake
  | t :: rest, stake =>
    if t > ts then .ok stake
    else do
      let stake ← Checked.sub stake (drop t) .dropUnderflow
      simulateLoop drop ts rest stake

def simulateNodeEffectiveStakeAt (n : NodeStake) (ts : ℕ) : Except Err ℕ :=
  if ts < n.lastSettledAt then .ok 0
  else simulateLoop n.expiryDrop ts n.pending n.runningEffectiveStake

/-- The bubble loop of `_scheduleNodeExpiry`, from index `i` down to the drain cursor. -/
def bubble (ts head : ℕ) : ℕ → List ℕ → List ℕ
  | 0, arr => arr.set 0 ts
  | i + 1, arr =>
    if i + 1 > head ∧ arr.getD i 0 > ts then bubble ts head i (arr.set (i + 1) (arr.getD i 0))
    else arr.set (i + 1) ts

/-- A new entry goes to the tail and bubbles left into place. -/
def reserve (n : NodeStake) (ts : ℕ) : Except Err NodeStake :=
  if n.expiryPresent ts then .ok n
  else
    let len := n.expiryTimes.length
    if len - n.expiryHead ≥ MAX_NODE_PENDING_EXPIRIES then
      .error (.nodeExpiryQueueFull (len - n.expiryHead))
    else .ok { n with
      expiryPresent := update n.expiryPresent ts true
      expiryTimes := bubble ts n.expiryHead len (n.expiryTimes ++ [ts]) }

def scheduleNodeExpiry (n : NodeStake) (ts drop : ℕ) : Except Err NodeStake := do
  require (drop ≠ 0) .zeroDrop
  require (ts > n.lastSettledAt) .expiryInPast
  let total ← Checked.add 256 (n.expiryDrop ts) drop .panic
  reserve { n with expiryDrop := update n.expiryDrop ts total } ts

/-- A cancelled entry keeps its place in the queue. -/
def cancelNodeExpiry (n : NodeStake) (ts drop : ℕ) : Except Err NodeStake :=
  if drop = 0 then .ok n
  else if ts ≤ n.lastSettledAt then .ok n
  else do
    require (n.expiryDrop ts ≥ drop) .cancelGtScheduled
    return { n with expiryDrop := update n.expiryDrop ts (n.expiryDrop ts - drop) }

def applyNodeStakeDelta (n : NodeStake) (delta : ℤ) : Except Err NodeStake :=
  if delta = 0 then .ok n
  else if delta > 0 then do
    let stake ← Checked.add 256 n.runningEffectiveStake delta.toNat .panic
    return { n with runningEffectiveStake := stake }
  else do
    let d := (-delta).toNat
    require (n.runningEffectiveStake ≥ d) .negRunningStake
    return { n with runningEffectiveStake := n.runningEffectiveStake - d }

end NodeStake

end Dkg.Staking
