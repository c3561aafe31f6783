import Dkg.Staking.NodeStake

/-!
`ConvictionStakingStorage`: tiers, positions, the per-node aggregates and the reward
carries, with the mutators the staking contracts call.
-/

namespace Dkg.Staking
open Revert Function

structure TierConfig where
  duration : ℕ
  multiplier18 : ℕ
  active : Bool
  deriving DecidableEq, Repr

/-- A position without a node is an empty slot. -/
structure Position where
  raw : ℕ
  lockTier : ℕ
  expiryTimestamp : ℕ
  identityId : ℕ
  cumulativeRewardsClaimed : ℕ
  multiplier18 : ℕ
  lastClaimedEpoch : ℕ
  migrationEpoch : ℕ
  deriving DecidableEq, Repr

def Position.empty : Position := ⟨0, 0, 0, 0, 0, 0, 0, 0⟩

/-- A pointer to a delegator score slot that the position no longer reaches. -/
structure RewardCarry where
  identityId : ℕ
  epoch : ℕ
  delegatorKey : ℕ
  deriving DecidableEq, Repr

structure Storage where
  positions : ℕ → Position
  nodes : ℕ → NodeStake
  nodeTokens : ℕ → List ℕ
  nodeTokenIndex : ℕ → ℕ → ℕ
  nodeStakeV10 : ℕ → ℕ
  totalStakeV10 : ℕ
  /-- Per node and epoch, as the next. -/
  isOperatorFeeClaimedForEpoch : ℕ × ℕ → Bool
  netNodeEpochRewards : ℕ × ℕ → ℕ
  nodeOperatorFeeBalance : ℕ → ℕ
  migrationCredit : ℕ → ℕ
  convictionCreditSeconds : ℕ
  /-- `none` for a tier that does not exist. -/
  tiers : ℕ → Option TierConfig
  rewardCarries : ℕ → List RewardCarry

/-- `_seedBaselineTiers`. -/
def baselineTiers : ℕ → Option TierConfig
  | 0 => some ⟨0, SCALE18, true⟩
  | 1 => some ⟨30 * 86400, 15 * SCALE18 / 10, true⟩
  | 3 => some ⟨90 * 86400, 2 * SCALE18, true⟩
  | 6 => some ⟨180 * 86400, 35 * SCALE18 / 10, true⟩
  | 12 => some ⟨366 * 86400, 6 * SCALE18, true⟩
  | _ => none

/-- `raw * multiplier18 / 1e18`. -/
def scaled (raw multiplier18 : ℕ) : ℕ := raw * multiplier18 / SCALE18

/-- `raw * (multiplier18 - 1e18) / 1e18`. -/
def boostOf (raw multiplier18 : ℕ) : ℕ := raw * (multiplier18 - SCALE18) / SCALE18

namespace Position

def StillBoosted (p : Position) (tsNow : ℕ) : Prop :=
  p.expiryTimestamp ≠ 0 ∧ tsNow < p.expiryTimestamp

instance (p : Position) (tsNow : ℕ) : Decidable (p.StillBoosted tsNow) :=
  inferInstanceAs (Decidable (_ ∧ _))

def effectiveNow (p : Position) (tsNow : ℕ) : ℕ :=
  if p.StillBoosted tsNow then scaled p.raw p.multiplier18 else p.raw

end Position

namespace Storage
variable {c : Chronos}

/-- The storage after `initialize`. -/
def initial : Storage where
  positions := fun _ => .empty
  nodes := fun _ => .empty
  nodeTokens := fun _ => []
  nodeTokenIndex := fun _ _ => 0
  nodeStakeV10 := fun _ => 0
  totalStakeV10 := 0
  isOperatorFeeClaimedForEpoch := fun _ => false
  netNodeEpochRewards := fun _ => 0
  nodeOperatorFeeBalance := fun _ => 0
  migrationCredit := fun _ => 0
  convictionCreditSeconds := 0
  tiers := baselineTiers
  rewardCarries := fun _ => []

def tier (s : Storage) (lockTier : ℕ) : Except Err TierConfig :=
  match s.tiers lockTier with
  | some tc => .ok tc
  | none => .error .invalidTier

def tierDuration (s : Storage) (lockTier : ℕ) : Except Err ℕ := do
  let tc ← s.tier lockTier
  return tc.duration

def tierMultiplier (s : Storage) (lockTier : ℕ) : Except Err ℕ := do
  let tc ← s.tier lockTier
  return tc.multiplier18

def requireActiveTier (s : Storage) (lockTier : ℕ) : Except Err Unit := do
  let tc ← s.tier lockTier
  require (tc.active = true) .tierInactive

/-- The checks on the settings of a new tier. -/
def checkTier (lockTier duration multiplier18 : ℕ) : Except Err Unit :=
  if lockTier = 0 then require (duration = 0 ∧ multiplier18 = SCALE18) .tier0MustBeRest
  else do
    require (duration > 0) .nonZeroTierNeedsDuration
    require (duration ≤ MAX_TIER_DURATION) .tierDurationTooLong
    require (multiplier18 > SCALE18) .nonZeroTierNeedsBoost

def addTier (s : Storage) (lockTier duration multiplier18 : ℕ) : Except Err Storage := do
  require (s.tiers lockTier = none) .tierExists
  checkTier lockTier duration multiplier18
  return { s with
    tiers := update s.tiers lockTier (some ⟨duration, multiplier18, true⟩) }

def deactivateTier (s : Storage) (lockTier : ℕ) : Except Err Storage := do
  let tc ← s.tier lockTier
  require (tc.active = true) .alreadyInactive
  return { s with tiers := update s.tiers lockTier (some { tc with active := false }) }

def setConvictionCreditSeconds (s : Storage) (secondsValue : ℕ) : Except Err Storage := do
  let duration ← s.tierDuration 6
  require (secondsValue < duration) .creditGeTier6Lock
  return { s with convictionCreditSeconds := secondsValue }

/-- Expiries are rounded up to the next bucket. -/
def bucketExpiryTimestamp (rawExpiry : ℕ) : Except Err ℕ := do
  let bucketed :=
    (rawExpiry + EXPIRY_BUCKET_SECONDS - 1) / EXPIRY_BUCKET_SECONDS * EXPIRY_BUCKET_SECONDS
  require (bucketed ≤ 2 ^ 40 - 1) .expiryOverflow
  return uint40 bucketed

def computeExpiryTimestamp (s : Storage) (timestamp lockTier : ℕ) : Except Err ℕ :=
  if lockTier = 0 then .ok 0
  else do
    let duration ← s.tierDuration lockTier
    bucketExpiryTimestamp (timestamp + duration)

/-- The migration credit, taken off the bucketed expiry. -/
def shortenExpiry (s : Storage) (tsNow expiryTimestamp lockTier migrationEpoch
    expiryShortenedBy : ℕ) : Except Err ℕ :=
  if expiryShortenedBy ≠ 0 then do
    require (migrationEpoch ≠ 0) .creditRequiresMigrationEpoch
    require (lockTier ≠ 0) .creditRequiresLockedTier
    let duration ← s.tierDuration lockTier
    require (expiryShortenedBy < duration) .creditGeTierDuration
    let shortened ← Checked.sub expiryTimestamp expiryShortenedBy .panic
    require (uint40 shortened > tsNow) .creditLeavesNoRemainingLock
    return uint40 shortened
  else .ok expiryTimestamp

/-- An operation on the effective stake of one node. -/
def onNode (s : Storage) (identityId : ℕ) (f : NodeStake → Except Err NodeStake) :
    Except Err Storage := do
  let n ← f (s.nodes identityId)
  return { s with nodes := update s.nodes identityId n }

def settleNodeTo (s : Storage) (identityId ts : ℕ) : Except Err Storage :=
  s.onNode identityId (·.settleNodeTo ts)

def applyNodeStakeDelta (s : Storage) (identityId : ℕ) (delta : ℤ) : Except Err Storage :=
  s.onNode identityId (·.applyNodeStakeDelta delta)

/-- The boost of a locked position is scheduled to drop at its expiry. -/
def scheduleBoost (s : Storage) (identityId lockTier expiryTimestamp raw multiplier18 : ℕ) :
    Except Err Storage :=
  if lockTier > 0 ∧ multiplier18 > SCALE18 then
    s.onNode identityId (·.scheduleNodeExpiry expiryTimestamp (boostOf raw multiplier18))
  else .ok s

/-- The boost of a position that is still boosted is cancelled. -/
def cancelBoost (s : Storage) (identityId : ℕ) (p : Position) (tsNow drop : ℕ) :
    Except Err Storage :=
  if p.StillBoosted tsNow ∧ p.multiplier18 > SCALE18 then
    s.onNode identityId (·.cancelNodeExpiry p.expiryTimestamp drop)
  else .ok s

def setPosition (s : Storage) (tokenId : ℕ) (p : Position) : Storage :=
  { s with positions := update s.positions tokenId p }

def pushNodeToken (s : Storage) (identityId tokenId : ℕ) : Storage :=
  { s with
    nodeTokenIndex := update s.nodeTokenIndex identityId
      (update (s.nodeTokenIndex identityId) tokenId (s.nodeTokens identityId).length)
    nodeTokens := update s.nodeTokens identityId (s.nodeTokens identityId ++ [tokenId]) }

/-- The last token takes the place of the one at `idx`. -/
def swapLast (s : Storage) (identityId idx last : ℕ) : Except Err Storage :=
  let arr := s.nodeTokens identityId
  if idx ≠ last then do
    require (idx < arr.length) .panic
    let movedToken := arr.getD last 0
    return { s with
      nodeTokens := update s.nodeTokens identityId (arr.set idx movedToken)
      nodeTokenIndex := update s.nodeTokenIndex identityId
        (update (s.nodeTokenIndex identityId) movedToken idx) }
  else .ok s

def popNodeToken (s : Storage) (identityId tokenId : ℕ) : Except Err Storage := do
  let idx := s.nodeTokenIndex identityId tokenId
  let last ← Checked.sub (s.nodeTokens identityId).length 1 .panic
  let s ← s.swapLast identityId idx last
  return { s with
    nodeTokens := update s.nodeTokens identityId (s.nodeTokens identityId).dropLast
    nodeTokenIndex := update s.nodeTokenIndex identityId
      (update (s.nodeTokenIndex identityId) tokenId 0) }

def increaseNodeStakeV10 (s : Storage) (identityId amount : ℕ) : Except Err Storage := do
  let node ← Checked.add 256 (s.nodeStakeV10 identityId) amount .panic
  let total ← Checked.add 256 s.totalStakeV10 amount .panic
  return { s with
    nodeStakeV10 := update s.nodeStakeV10 identityId node
    totalStakeV10 := total }

def decreaseNodeStakeV10 (s : Storage) (identityId amount : ℕ) : Except Err Storage := do
  let node ← Checked.sub (s.nodeStakeV10 identityId) amount .panic
  let total ← Checked.sub s.totalStakeV10 amount .panic
  return { s with
    nodeStakeV10 := update s.nodeStakeV10 identityId node
    totalStakeV10 := total }

/-- A migrated position may be on a tier that is closed to new stake. -/
def requireOpenTier (s : Storage) (lockTier migrationEpoch : ℕ) : Except Err Unit :=
  if migrationEpoch = 0 then s.requireActiveTier lockTier else .ok ()

def createPosition (s : Storage) (b : Block c)
    (tokenId identityId raw lockTier migrationEpoch expiryShortenedBy : ℕ) :
    Except Err Storage := do
  require (identityId ≠ 0) .zeroNode
  require ((s.positions tokenId).identityId = 0) .positionExists
  require (raw > 0) .zeroRaw
  s.requireOpenTier lockTier migrationEpoch
  let multiplier18 ← s.tierMultiplier lockTier
  require (b.currentEpoch ≥ 1) .preGenesisCreate
  let tsNow := uint40 b.timestamp
  let expiry ← s.computeExpiryTimestamp b.timestamp lockTier
  let expiryTimestamp ← s.shortenExpiry tsNow expiry lockTier migrationEpoch expiryShortenedBy
  let s := s.setPosition tokenId
    { raw, lockTier, expiryTimestamp, identityId, multiplier18, migrationEpoch
      cumulativeRewardsClaimed := 0
      lastClaimedEpoch := uint32 (b.currentEpoch - 1) }
  let s := s.pushNodeToken identityId tokenId
  let s ← s.increaseNodeStakeV10 identityId raw
  let s ← s.settleNodeTo identityId tsNow
  let s ← s.applyNodeStakeDelta identityId (scaled raw multiplier18)
  s.scheduleBoost identityId lockTier expiryTimestamp raw multiplier18

/-- The raw stake of a redelegated position changes node; the total stays. -/
def moveNodeStakeV10 (s : Storage) (oldIdentityId newIdentityId raw : ℕ) :
    Except Err Storage := do
  let old ← Checked.sub (s.nodeStakeV10 oldIdentityId) raw .panic
  let stakes := update s.nodeStakeV10 oldIdentityId old
  let new ← Checked.add 256 (stakes newIdentityId) raw .panic
  return { s with nodeStakeV10 := update stakes newIdentityId new }

/-- The pending drop of a redelegated position moves to the new node's queue. -/
def reinstallBoost (s : Storage) (identityId : ℕ) (p : Position) (tsNow : ℕ) :
    Except Err Storage :=
  if p.StillBoosted tsNow ∧ p.multiplier18 > SCALE18 ∧ boostOf p.raw p.multiplier18 ≠ 0 then
    s.onNode identityId (·.scheduleNodeExpiry p.expiryTimestamp (boostOf p.raw p.multiplier18))
  else .ok s

def updateOnRedelegate (s : Storage) (b : Block c) (tokenId newIdentityId : ℕ) :
    Except Err Storage := do
  require (newIdentityId ≠ 0) .zeroNode
  let p := s.positions tokenId
  require (p.identityId ≠ 0) .noPosition
  require (p.identityId ≠ newIdentityId) .sameNode
  let tsNow := uint40 b.timestamp
  let s ← s.settleNodeTo p.identityId tsNow
  let s ← s.settleNodeTo newIdentityId tsNow
  let s ← s.applyNodeStakeDelta p.identityId (-(p.effectiveNow tsNow : ℤ))
  let s ← s.cancelBoost p.identityId p tsNow (boostOf p.raw p.multiplier18)
  let s ← s.applyNodeStakeDelta newIdentityId (p.effectiveNow tsNow)
  let s ← s.reinstallBoost newIdentityId p tsNow
  let s := s.setPosition tokenId { p with identityId := newIdentityId }
  let s ← s.popNodeToken p.identityId tokenId
  let s := s.pushNodeToken newIdentityId tokenId
  s.moveNodeStakeV10 p.identityId newIdentityId p.raw

/-- Carries follow the position to its new token. -/
def moveRewardCarries (s : Storage) (oldTokenId newTokenId : ℕ) : Storage :=
  { s with
    rewardCarries := update (update s.rewardCarries newTokenId
        (s.rewardCarries newTokenId ++ s.rewardCarries oldTokenId)) oldTokenId [] }

def createNewPositionFromExisting (s : Storage) (b : Block c)
    (oldTokenId newTokenId identityId newLockTier : ℕ) : Except Err Storage := do
  require (identityId ≠ 0) .zeroNode
  require ((s.positions newTokenId).identityId = 0) .newTokenUsed
  require (oldTokenId ≠ newTokenId) .sameTokenId
  let old := s.positions oldTokenId
  require (old.identityId ≠ 0) .noPosition
  require (old.identityId = identityId) .identityMismatch
  require (old.raw > 0) .zeroRaw
  let newMultiplier18 ← s.tierMultiplier newLockTier
  let tsNow := uint40 b.timestamp
  let s ← s.settleNodeTo identityId tsNow
  let s ← s.applyNodeStakeDelta identityId (-(old.effectiveNow tsNow : ℤ))
  let s ← s.cancelBoost identityId old tsNow (boostOf old.raw old.multiplier18)
  let newExpiryTs ← s.computeExpiryTimestamp b.timestamp newLockTier
  let s ← s.applyNodeStakeDelta identityId (scaled old.raw newMultiplier18)
  let s ← s.scheduleBoost identityId newLockTier newExpiryTs old.raw newMultiplier18
  let s := s.setPosition newTokenId
    { old with
      lockTier := newLockTier
      expiryTimestamp := newExpiryTs
      multiplier18 := newMultiplier18 }
  let s := s.setPosition oldTokenId .empty
  let s ← s.popNodeToken identityId oldTokenId
  let s := s.pushNodeToken identityId newTokenId
  return s.moveRewardCarries oldTokenId newTokenId

def decreaseNodeStakePositive (s : Storage) (identityId raw : ℕ) : Except Err Storage :=
  if raw > 0 then s.decreaseNodeStakeV10 identityId raw else .ok s

def deletePosition (s : Storage) (b : Block c) (tokenId : ℕ) : Except Err Storage := do
  let p := s.positions tokenId
  require (p.identityId ≠ 0) .noPosition
  let tsNow := uint40 b.timestamp
  let s ← s.settleNodeTo p.identityId tsNow
  let s ← s.applyNodeStakeDelta p.identityId (-(p.effectiveNow tsNow : ℤ))
  let s ← s.cancelBoost p.identityId p tsNow (boostOf p.raw p.multiplier18)
  let s ← s.popNodeToken p.identityId tokenId
  let s ← s.decreaseNodeStakePositive p.identityId p.raw
  let s := s.setPosition tokenId .empty
  return { s with rewardCarries := update s.rewardCarries tokenId [] }

/-- The change of the effective stake when the raw stake goes from `oldRaw` to `newRaw`, as
the difference of the two one-shot values. -/
def effDelta (p : Position) (tsNow oldRaw newRaw : ℕ) : ℕ :=
  if p.StillBoosted tsNow then scaled newRaw p.multiplier18 - scaled oldRaw p.multiplier18
  else newRaw - oldRaw

def decreaseRaw (s : Storage) (b : Block c) (tokenId amount : ℕ) : Except Err Storage := do
  let p := s.positions tokenId
  require (p.identityId ≠ 0) .noPosition
  require (p.raw ≥ amount) .insufficientRaw
  if amount = 0 then return s
  else do
    let tsNow := uint40 b.timestamp
    let s ← s.settleNodeTo p.identityId tsNow
    let newRaw := p.raw - amount
    let s ← s.applyNodeStakeDelta p.identityId (-(effDelta p tsNow newRaw p.raw : ℤ))
    let s ← s.cancelBoost p.identityId p tsNow
      (boostOf p.raw p.multiplier18 - boostOf newRaw p.multiplier18)
    let s := s.setPosition tokenId { p with raw := newRaw }
    s.decreaseNodeStakeV10 p.identityId amount

/-- A compound too small to move the floored boost schedules nothing. -/
def scheduleBoostDelta (s : Storage) (p : Position) (tsNow drop : ℕ) : Except Err Storage :=
  if p.StillBoosted tsNow ∧ p.multiplier18 > SCALE18 ∧ drop ≠ 0 then
    s.onNode p.identityId (·.scheduleNodeExpiry p.expiryTimestamp drop)
  else .ok s

def increaseRaw (s : Storage) (b : Block c) (tokenId amount : ℕ) : Except Err Storage := do
  let p := s.positions tokenId
  require (p.identityId ≠ 0) .noPosition
  if amount = 0 then return s
  else do
    require (p.raw + amount ≤ 2 ^ 96 - 1) .rawOverflow
    let tsNow := uint40 b.timestamp
    let s ← s.settleNodeTo p.identityId tsNow
    let newRaw := p.raw + amount
    let s ← s.applyNodeStakeDelta p.identityId (effDelta p tsNow p.raw newRaw)
    let s ← s.scheduleBoostDelta p tsNow
      (boostOf newRaw p.multiplier18 - boostOf p.raw p.multiplier18)
    let s := s.setPosition tokenId { p with raw := newRaw }
    s.increaseNodeStakeV10 p.identityId amount

def setLastClaimedEpoch (s : Storage) (tokenId epoch : ℕ) : Except Err Storage := do
  require ((s.positions tokenId).identityId ≠ 0) .noPosition
  return s.setPosition tokenId { s.positions tokenId with lastClaimedEpoch := epoch }

def addCumulativeRewardsClaimed (s : Storage) (tokenId amount : ℕ) : Except Err Storage := do
  let p := s.positions tokenId
  require (p.identityId ≠ 0) .noPosition
  let newTotal ← Checked.add 96 p.cumulativeRewardsClaimed amount .panic
  return s.setPosition tokenId { p with cumulativeRewardsClaimed := newTotal }

/-- A carry that is already there is not added again. -/
def addRewardCarry (s : Storage) (tokenId identityId epoch delegatorKey : ℕ) :
    Except Err Storage := do
  require ((s.positions tokenId).identityId ≠ 0) .noPosition
  let list := s.rewardCarries tokenId
  if ⟨identityId, epoch, delegatorKey⟩ ∈ list then return s
  else do
    require (list.length < MAX_REWARD_CARRIES) .carryLimit
    return { s with
      rewardCarries := update s.rewardCarries tokenId
        (list ++ [⟨identityId, epoch, delegatorKey⟩]) }

/-- The loop of `clearRewardCarries`, from index `i` down: a matured carry is replaced by
the last one. -/
def clearLoop (maxEpoch : ℕ) : ℕ → List RewardCarry → List RewardCarry
  | 0, list => list
  | i + 1, list =>
    match list[i]? with
    | some x =>
      if x.epoch ≤ maxEpoch then
        match list.getLast? with
        | some y => clearLoop maxEpoch i ((list.set i y).dropLast)
        | none => clearLoop maxEpoch i list
      else clearLoop maxEpoch i list
    | none => clearLoop maxEpoch i list

def clearRewardCarries (s : Storage) (tokenId maxEpoch : ℕ) : Storage :=
  let list := s.rewardCarries tokenId
  { s with
    rewardCarries := update s.rewardCarries tokenId
      (clearLoop maxEpoch list.length list) }

def spendMigrationCredit (s : Storage) (staker amount : ℕ) : Except Err Storage := do
  require (amount > 0) .zeroAmount
  require (amount ≤ s.migrationCredit staker) .amountExceedsCredit
  return { s with
    migrationCredit := update s.migrationCredit staker
      (s.migrationCredit staker - amount) }

/-- `getNodeEffectiveStakeAtTimestamp`. -/
def getNodeEffectiveStakeAtTimestamp (s : Storage) (identityId ts : ℕ) : Except Err ℕ :=
  (s.nodes identityId).simulateNodeEffectiveStakeAt ts

inductive Op where
  | createPosition (tokenId identityId raw lockTier migrationEpoch expiryShortenedBy : ℕ)
  | updateOnRedelegate (tokenId newIdentityId : ℕ)
  | createNewPositionFromExisting (oldTokenId newTokenId identityId newLockTier : ℕ)
  | increaseRaw (tokenId amount : ℕ)
  | decreaseRaw (tokenId amount : ℕ)
  | deletePosition (tokenId : ℕ)
  | addTier (lockTier duration multiplier18 : ℕ)
  | deactivateTier (lockTier : ℕ)
  | setConvictionCreditSeconds (secondsValue : ℕ)
  | settleNodeTo (identityId : ℕ)

structure Call (c : Chronos) where
  block : Block c
  op : Op

def Call.time (call : Call c) : ℕ := call.block.timestamp

def step (s : Storage) (call : Call c) : Except Err Storage :=
  let b := call.block
  match call.op with
  | .createPosition tokenId identityId raw lockTier migrationEpoch expiryShortenedBy =>
    s.createPosition b tokenId identityId raw lockTier migrationEpoch expiryShortenedBy
  | .updateOnRedelegate tokenId newIdentityId => s.updateOnRedelegate b tokenId newIdentityId
  | .createNewPositionFromExisting oldTokenId newTokenId identityId newLockTier =>
    s.createNewPositionFromExisting b oldTokenId newTokenId identityId newLockTier
  | .increaseRaw tokenId amount => s.increaseRaw b tokenId amount
  | .decreaseRaw tokenId amount => s.decreaseRaw b tokenId amount
  | .deletePosition tokenId => s.deletePosition b tokenId
  | .addTier lockTier duration multiplier18 => s.addTier lockTier duration multiplier18
  | .deactivateTier lockTier => s.deactivateTier lockTier
  | .setConvictionCreditSeconds secondsValue => s.setConvictionCreditSeconds secondsValue
  | .settleNodeTo identityId => s.settleNodeTo identityId (uint40 b.timestamp)

end Storage

end Dkg.Staking
