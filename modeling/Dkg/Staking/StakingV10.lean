import Dkg.Staking.QueryInference
import Dkg.Staking.ScoreIndex
import Dkg.Staking.Storage

/-!
`StakingV10` over its storages, called through the position NFT, with the scoring tail of
`RandomSampling.submitProof`. A journal keeps every call of `_nodeEpochReward`, the first
touch of each node and epoch, and the token that took over each relocked position.
-/

namespace Dkg.Staking
open Revert Function

variable {c : Chronos}

/-- A delegator score slot: a node, an epoch and a delegator key. -/
abbrev Slot := RewardCarry

/-- `RandomSamplingStorage`: the scores of nodes, per node and epoch, and of delegators. -/
structure Scores where
  nodeEpochScore : ℕ × ℕ → ℕ
  allNodesEpochScore : ℕ → ℕ
  nodeEpochIndex : ℕ × ℕ → EpochIndex
  epochNodeDelegatorScore : Slot → ℕ
  /-- `delegatorLastSettledNodeEpochScorePerStake`. -/
  lastSettled : Slot → ℕ

/-- `ConvictionWithdrawalStorage.Withdrawal` with its carries. -/
structure Withdrawal where
  staker : ℕ
  identityId : ℕ
  epoch : ℕ
  carries : List RewardCarry
  deriving DecidableEq, Repr

/-- Where `_nodeEpochReward` was called from. -/
inductive Route where
  | claim
  | carry
  | withdrawnCarry
  | withdrawn
  deriving DecidableEq, Repr

/-- One call of `_nodeEpochReward` for a slot. -/
structure Conversion where
  slot : Slot
  route : Route
  settled : ℕ
  unsettled : ℕ
  reward : ℕ
  deriving DecidableEq, Repr

/-- The split of a node's reward of an epoch, made once. -/
structure FirstTouch where
  identityId : ℕ
  epoch : ℕ
  epochPool : ℕ
  queryInference : ℕ
  operatorFee : ℕ
  deriving DecidableEq, Repr

structure State where
  css : Storage
  rss : Scores
  qis : QueryInference
  /-- `none` for a token without a record. -/
  withdrawals : ℕ → Option Withdrawal
  nextTokenId : ℕ
  conversions : List Conversion
  firstTouches : List FirstTouch
  /-- The token that now holds the position once minted under a token. -/
  heir : ℕ → ℕ

/-- What a call reads from the chain and from contracts outside the system. -/
structure Env (c : Chronos) where
  block : Block c
  profileExists : ℕ → Bool
  maximumStake : ℕ
  /-- `EpochStorage.getEpochPool(1, ·)`. -/
  epochPool : ℕ → ℕ
  /-- `getOperatorFeePercentageByTimestampReverse`, of a node and a timestamp. -/
  operatorFeePercentage : ℕ → ℕ → ℕ
  maxOperatorFee : ℕ
  /-- Whether the Hub holds a `QueryInferenceSettlement`. -/
  settlementSet : Bool

def uint96 (n : ℕ) : ℕ := n % 2 ^ 96

def State.initial : State where
  css := .initial
  rss := ⟨fun _ => 0, fun _ => 0, fun _ => .empty, fun _ => 0, fun _ => 0⟩
  qis := .initial
  withdrawals := fun _ => none
  nextTokenId := 0
  conversions := []
  firstTouches := []
  heir := id

/-- The boosted and the base part of `_delegatorIncrementForEpoch` in the epoch of the
expiry. -/
def splitIncrement (ei : EpochIndex) (current lastSettled effBoosted effBase expiryTs : ℕ) : ℕ :=
  let scoreBeforeExpiry := ei.findScorePerStakeAt (expiryTs - 1)
  if scoreBeforeExpiry > lastSettled then
    effBoosted * (scoreBeforeExpiry - lastSettled) / SCALE18 +
      effBase * (current - scoreBeforeExpiry) / SCALE18
  else effBase * (current - lastSettled) / SCALE18

def delegatorIncrementForEpoch (ei : EpochIndex) (epoch current lastSettled effBoosted effBase
    expiryTs expiryEpoch : ℕ) : ℕ :=
  if current ≤ lastSettled then 0
  else if expiryTs = 0 ∨ epoch < expiryEpoch then
    (if expiryTs = 0 then effBase else effBoosted) * (current - lastSettled) / SCALE18
  else if epoch > expiryEpoch then effBase * (current - lastSettled) / SCALE18
  else if effBoosted = effBase then effBase * (current - lastSettled) / SCALE18
  else splitIncrement ei current lastSettled effBoosted effBase expiryTs

/-- The increment with the arguments both callers read off the position `p`. -/
def Position.increment (c : Chronos) (p : Position) (ei : EpochIndex) (epoch lastSettled : ℕ) : ℕ :=
  let expiryEpoch := if p.expiryTimestamp = 0 then 0 else c.epochAtTimestamp p.expiryTimestamp
  delegatorIncrementForEpoch ei epoch ei.lastScorePerStake36 lastSettled
    (scaled p.raw p.multiplier18) p.raw p.expiryTimestamp expiryEpoch

namespace State

def setCss (s : State) (css : Storage) : State := { s with css }

def setRss (s : State) (rss : Scores) : State := { s with rss }

def setQis (s : State) (qis : QueryInference) : State := { s with qis }

/-- The score earned since the last settlement; none on a node the position is not on. -/
def scoreEarned (c : Chronos) (s : State) (x : Slot) : ℕ :=
  let p := s.css.positions x.delegatorKey
  if p.identityId = x.identityId then
    p.increment c (s.rss.nodeEpochIndex (x.identityId, x.epoch)) x.epoch (s.rss.lastSettled x)
  else 0

/-- The writes of `_prepareForStakeChangeV10`. -/
def settleSlot (c : Chronos) (s : State) (x : Slot) : State :=
  s.setRss { s.rss with
    epochNodeDelegatorScore := update s.rss.epochNodeDelegatorScore x
      (s.rss.epochNodeDelegatorScore x + s.scoreEarned c x)
    lastSettled := update s.rss.lastSettled x
      (s.rss.nodeEpochIndex (x.identityId, x.epoch)).lastScorePerStake36 }

/-- `_prepareForStakeChangeV10`, with the score it returns. -/
def prepareForStakeChangeV10 (c : Chronos) (s : State) (epoch tokenId identityId : ℕ) :
    State × ℕ :=
  let x : Slot := ⟨identityId, epoch, tokenId⟩
  if (s.rss.nodeEpochIndex (identityId, epoch)).lastScorePerStake36 = s.rss.lastSettled x then
    (s, s.rss.epochNodeDelegatorScore x)
  else (s.settleSlot c x, s.rss.epochNodeDelegatorScore x + s.scoreEarned c x)

/-- The node's share of the query/inference pool, from the activation epoch on. -/
def queryInferencePart (env : Env c) (s : State) (e identityId : ℕ) : ℕ :=
  if env.settlementSet ∧ s.qis.activationEpoch ≠ 0 ∧ e ≥ s.qis.activationEpoch then
    s.qis.queryInferenceGross e identityId
  else 0

/-- The split of a node's gross into operator fee and net, made at its first touch. -/
def splitGross (env : Env c) (s : State) (e identityId gross : ℕ) : Except Err (State × ℕ) := do
  require (env.maxOperatorFee ≠ 0) .panic
  let operatorFeeAmount := uint96 (gross *
    env.operatorFeePercentage identityId (c.timestampForEpoch (e + 1) - 1) / env.maxOperatorFee)
  let netNodeRewards ← Checked.sub gross operatorFeeAmount .feeUnderflow
  let balance ← Checked.add 96 (s.css.nodeOperatorFeeBalance identityId) operatorFeeAmount .panic
  return ({ s with
    css := { s.css with
      isOperatorFeeClaimedForEpoch :=
        update s.css.isOperatorFeeClaimedForEpoch (identityId, e) true
      netNodeEpochRewards := update s.css.netNodeEpochRewards (identityId, e) netNodeRewards
      nodeOperatorFeeBalance := update s.css.nodeOperatorFeeBalance identityId balance }
    firstTouches := s.firstTouches ++ [⟨identityId, e, env.epochPool e,
      s.queryInferencePart env e identityId, operatorFeeAmount⟩] }, netNodeRewards)

/-- The net reward of a node with a score, split now or before. -/
def netNodeRewards (env : Env c) (s : State) (e identityId nodeScore18 : ℕ) :
    Except Err (State × ℕ) :=
  if s.css.isOperatorFeeClaimedForEpoch (identityId, e) = false then
    let allNodesScore18 := s.rss.allNodesEpochScore e
    if allNodesScore18 > 0 then
      s.splitGross env e identityId
        (env.epochPool e * nodeScore18 / allNodesScore18 + s.queryInferencePart env e identityId)
    else .ok (s, 0)
  else .ok (s, s.css.netNodeEpochRewards (identityId, e))

def nodeEpochReward (env : Env c) (s : State) (e identityId delegatorScore18 : ℕ) :
    Except Err (State × ℕ) :=
  let nodeScore18 := s.rss.nodeEpochScore (identityId, e)
  if nodeScore18 = 0 then .ok (s, 0)
  else do
    let (s, net) ← s.netNodeRewards env e identityId nodeScore18
    return (s, if delegatorScore18 > 0 then delegatorScore18 * net / nodeScore18 else 0)

/-- `_nodeEpochReward` for the score of a slot, entered in the journal. -/
def convert (env : Env c) (s : State) (x : Slot) (route : Route) (settled unsettled : ℕ) :
    Except Err (State × ℕ) := do
  let (s, reward) ← s.nodeEpochReward env x.epoch x.identityId (settled + unsettled)
  return ({ s with conversions := s.conversions ++ [⟨x, route, settled, unsettled, reward⟩] },
    reward)

/-- `_carryReward`: nothing for a carry that points at the position's own slot. -/
def carryReward (env : Env c) (route : Route) (identityId tokenId : ℕ) (s : State)
    (carry : RewardCarry) : Except Err (State × ℕ) :=
  if carry.identityId = identityId ∧ carry.delegatorKey = tokenId then .ok (s, 0)
  else
    let score18 := s.rss.epochNodeDelegatorScore carry
    if score18 = 0 then .ok (s, 0) else s.convert env carry route score18 0

/-- The rewards of a list of carries, added to `total`. -/
def carryRewards (env : Env c) (route : Route) (identityId tokenId : ℕ) :
    State → ℕ → List RewardCarry → Except Err (State × ℕ)
  | s, total, [] => .ok (s, total)
  | s, total, carry :: rest => do
    let (s, reward) ← s.carryReward env route identityId tokenId carry
    carryRewards env route identityId tokenId s (total + reward) rest

/-- One epoch of the loop of `_claim`, for the position `p`; an epoch without a proof on the
node is skipped. -/
def claimEpoch (env : Env c) (p : Position) (tokenId : ℕ) (s : State) (e : ℕ) :
    Except Err (State × ℕ) :=
  let x : Slot := ⟨p.identityId, e, tokenId⟩
  let ei := s.rss.nodeEpochIndex (p.identityId, e)
  if ei.lastScorePerStake36 = 0 then .ok (s, 0)
  else s.convert env x .claim (s.rss.epochNodeDelegatorScore x)
    (p.increment c ei e (s.rss.lastSettled x))

/-- The loop of `_claim` over `n` epochs from `e` on. -/
def claimEpochs (env : Env c) (p : Position) (tokenId : ℕ) :
    State → ℕ → ℕ → ℕ → Except Err (State × ℕ)
  | s, total, _, 0 => .ok (s, total)
  | s, total, e, n + 1 => do
    let (s, reward) ← s.claimEpoch env p tokenId e
    claimEpochs env p tokenId s (total + reward) (e + 1) n

def claimFromEpoch (p : Position) : ℕ :=
  if p.migrationEpoch ≠ 0 ∧ p.migrationEpoch > p.lastClaimedEpoch + 1 then p.migrationEpoch
  else p.lastClaimedEpoch + 1

/-- Carries of the claimed epochs are dropped. -/
def clearMatured (s : State) (tokenId claimToEpoch : ℕ) : State :=
  if (s.css.rewardCarries tokenId).any (·.epoch ≤ claimToEpoch) then
    s.setCss (s.css.clearRewardCarries tokenId (uint32 claimToEpoch))
  else s

/-- The end of `_claim`: the reward compounds into the position. -/
def compound (env : Env c) (s : State) (tokenId claimToEpoch rewardTotal : ℕ) :
    Except Err State :=
  if rewardTotal = 0 then do
    let css ← s.css.setLastClaimedEpoch tokenId (uint32 claimToEpoch)
    return s.setCss css
  else do
    require (rewardTotal ≤ 2 ^ 96 - 1) .rewardOverflow
    let css ← s.css.increaseRaw env.block tokenId (uint96 rewardTotal)
    let css ← css.addCumulativeRewardsClaimed tokenId (uint96 rewardTotal)
    let css ← css.setLastClaimedEpoch tokenId (uint32 claimToEpoch)
    return s.setCss css

/-- `_claim` of the epochs from `claimFrom` to `claimTo`. -/
def claimWindow (env : Env c) (s : State) (p : Position) (tokenId claimFrom claimTo : ℕ) :
    Except Err State := do
  let s := (s.prepareForStakeChangeV10 c env.block.currentEpoch tokenId p.identityId).1
  let (s, total) ← s.claimEpochs env p tokenId 0 claimFrom (claimTo + 1 - claimFrom)
  let (s, total) ← s.carryRewards env .carry p.identityId tokenId total
    ((s.css.rewardCarries tokenId).filter (·.epoch ≤ claimTo))
  (s.clearMatured tokenId claimTo).compound env tokenId claimTo total

/-- `_claim`. -/
def claim (env : Env c) (s : State) (tokenId : ℕ) : Except Err State := do
  let p := s.css.positions tokenId
  require (p.identityId ≠ 0) .positionNotFound
  let currentEpoch := env.block.currentEpoch
  if currentEpoch ≤ 1 then return s
  else if claimFromEpoch p > currentEpoch - 1 then return s
  else s.claimWindow env p tokenId (claimFromEpoch p) (currentEpoch - 1)

def requireFullyClaimed (currentEpoch : ℕ) (p : Position) : Except Err Unit :=
  if currentEpoch ≤ 1 then .ok ()
  else require (¬p.lastClaimedEpoch < currentEpoch - 1) .unclaimedEpochs

/-- The NFT mints its tokens in sequence. -/
def mint (s : State) : State := { s with nextTokenId := s.nextTokenId + 1 }

/-- `createConviction`, with `StakingV10.stake`. -/
def stake (env : Env c) (s : State) (identityId amount lockTier : ℕ) : Except Err State := do
  require (identityId ≠ 0) .invalidIdentityId
  require (amount ≠ 0) .zeroAmount
  let _ ← s.css.tierMultiplier lockTier
  let s := s.mint
  let tokenId := s.nextTokenId
  require (env.profileExists identityId = true) .profileDoesNotExist
  require (s.css.nodeStakeV10 identityId + amount ≤ env.maximumStake) .maxStakeExceeded
  let s := (s.prepareForStakeChangeV10 c env.block.currentEpoch tokenId identityId).1
  let css ← s.css.createPosition env.block tokenId identityId amount lockTier 0 0
  return s.setCss css

def creditFor (s : State) (lockTier : ℕ) : ℕ :=
  if (lockTier = 6 ∨ lockTier = 12) ∧ s.css.convictionCreditSeconds > 0 then
    s.css.convictionCreditSeconds
  else 0

/-- `allocate`, with `StakingV10.allocateFromCredit`. -/
def allocate (env : Env c) (s : State) (staker targetNode amount lockTier : ℕ) :
    Except Err State := do
  require (targetNode ≠ 0) .invalidIdentityId
  require (amount ≠ 0) .zeroAmount
  let s := s.mint
  let tokenId := s.nextTokenId
  require (env.profileExists targetNode = true) .profileDoesNotExist
  require (lockTier = 0 ∨ (s.css.tiers lockTier).any (·.active) = true) .inactiveTier
  require (s.css.nodeStakeV10 targetNode + amount ≤ env.maximumStake) .maxStakeExceeded
  let css ← s.css.spendMigrationCredit staker amount
  let s := s.setCss css
  let currentEpoch := env.block.currentEpoch
  let s := (s.prepareForStakeChangeV10 c currentEpoch tokenId targetNode).1
  let css ← s.css.createPosition env.block tokenId targetNode amount lockTier
    (uint32 currentEpoch) (s.creditFor lockTier)
  return s.setCss css

/-- The score a position leaves behind in the epoch is kept as a carry. -/
def keepCarry (s : State) (tokenId identityId epoch delegatorKey score : ℕ) : Except Err State :=
  if score > 0 then do
    let css ← s.css.addRewardCarry tokenId identityId epoch delegatorKey
    return s.setCss css
  else .ok s

/-- What was held under the old token is held under the new one. -/
def inherit (s : State) (oldTokenId newTokenId : ℕ) : State :=
  { s with heir := fun k => if s.heir k = oldTokenId then newTokenId else s.heir k }

def relock (env : Env c) (s : State) (oldTokenId newLockTier : ℕ) : Except Err State := do
  let _ ← s.css.tierMultiplier newLockTier
  let s := s.mint
  let newTokenId := s.nextTokenId
  let p := s.css.positions oldTokenId
  let currentEpoch := env.block.currentEpoch
  require (p.identityId ≠ 0) .positionNotFound
  requireFullyClaimed currentEpoch p
  require (¬(p.expiryTimestamp ≠ 0 ∧ env.block.timestamp < p.expiryTimestamp)) .lockStillActive
  let (s, settled) := s.prepareForStakeChangeV10 c currentEpoch oldTokenId p.identityId
  let s := (s.prepareForStakeChangeV10 c currentEpoch newTokenId p.identityId).1
  let css ← s.css.createNewPositionFromExisting env.block oldTokenId newTokenId p.identityId
    newLockTier
  let s := (s.setCss css).inherit oldTokenId newTokenId
  s.keepCarry newTokenId p.identityId (uint32 currentEpoch) oldTokenId settled

def redelegate (env : Env c) (s : State) (tokenId newIdentityId : ℕ) : Except Err State := do
  require (newIdentityId ≠ 0) .invalidIdentityId
  let p := s.css.positions tokenId
  let currentEpoch := env.block.currentEpoch
  require (p.identityId ≠ 0) .positionNotFound
  requireFullyClaimed currentEpoch p
  require (p.identityId ≠ newIdentityId) .sameIdentity
  require (env.profileExists newIdentityId = true) .profileDoesNotExist
  require (p.raw > 0) .noRaw
  require (s.css.nodeStakeV10 newIdentityId + p.raw ≤ env.maximumStake) .maxStakeExceeded
  let (s, score) := s.prepareForStakeChangeV10 c currentEpoch tokenId p.identityId
  let s := (s.prepareForStakeChangeV10 c currentEpoch tokenId newIdentityId).1
  let s ← s.keepCarry tokenId p.identityId (uint32 currentEpoch) tokenId score
  let css ← s.css.updateOnRedelegate env.block tokenId newIdentityId
  return s.setCss css

/-- `recordWithdrawal`: nothing is recorded when there is nothing to claim. -/
def recordWithdrawal (s : State) (tokenId staker identityId epoch score : ℕ) : Except Err State :=
  let carries := s.css.rewardCarries tokenId
  if score = 0 ∧ carries = [] then .ok s
  else do
    require (s.withdrawals tokenId = none) .withdrawalRecorded
    return { s with
      withdrawals := update s.withdrawals tokenId
        (some ⟨staker, identityId, uint40 epoch, carries⟩) }

def withdraw (env : Env c) (s : State) (staker tokenId : ℕ) : Except Err State := do
  let p := s.css.positions tokenId
  require (p.identityId ≠ 0) .positionNotFound
  require (p.expiryTimestamp = 0 ∨ env.block.timestamp ≥ p.expiryTimestamp) .lockStillActive
  let s ← s.claim env tokenId
  let epoch := env.block.currentEpoch
  let (s, score) := s.prepareForStakeChangeV10 c epoch tokenId p.identityId
  let s ← s.recordWithdrawal tokenId staker p.identityId epoch score
  require ((s.css.positions tokenId).raw > 0) .noRaw
  let css ← s.css.deletePosition env.block tokenId
  return s.setCss css

/-- The own slot of a withdrawn position, after its carries. -/
def ownReward (env : Env c) (s : State) (x : Slot) (total : ℕ) : Except Err (State × ℕ) :=
  let score18 := s.rss.epochNodeDelegatorScore x
  if score18 > 0 then do
    let (s, reward) ← s.convert env x .withdrawn score18 0
    return (s, total + reward)
  else .ok (s, total)

def claimWithdrawnEpoch (env : Env c) (s : State) (tokenId : ℕ) : Except Err State :=
  match s.withdrawals tokenId with
  | none => .error .noWithdrawnEpoch
  | some w => do
    require (env.block.currentEpoch > w.epoch) .withdrawnEpochInProgress
    let s := { s with withdrawals := update s.withdrawals tokenId none }
    let (s, total) ← s.carryRewards env .withdrawnCarry w.identityId tokenId 0 w.carries
    let (s, total) ← s.ownReward env ⟨w.identityId, w.epoch, tokenId⟩ total
    require (total ≤ 2 ^ 96 - 1) .rewardOverflow
    return s

/-- The index after a proof; a node without stake keeps its index. -/
def raiseIndex (s : State) (identityId epoch ts score18 : ℕ) : Except Err State :=
  let effectiveNodeStake := (s.css.nodes identityId).runningEffectiveStake
  if effectiveNodeStake > 0 then do
    let ei := s.rss.nodeEpochIndex (identityId, epoch)
    let ei' ← ei.appendCheckpoint ts
      (ei.lastScorePerStake36 + score18 * SCALE18 / effectiveNodeStake)
    return s.setRss { s.rss with
      nodeEpochIndex := update s.rss.nodeEpochIndex (identityId, epoch) ei' }
  else .ok s

/-- The scoring tail of `RandomSampling.submitProof`. -/
def submitProof (env : Env c) (s : State) (identityId score18 : ℕ) : Except Err State := do
  let epoch := env.block.currentEpoch
  let tsNow := uint40 env.block.timestamp
  let css ← s.css.settleNodeTo identityId tsNow
  let s := s.setCss css
  let s := s.setRss { s.rss with
    nodeEpochScore := update s.rss.nodeEpochScore (identityId, epoch)
      (s.rss.nodeEpochScore (identityId, epoch) + score18)
    allNodesEpochScore := update s.rss.allNodesEpochScore epoch
      (s.rss.allNodesEpochScore epoch + score18) }
  s.raiseIndex identityId epoch tsNow score18

/-- A group of receipts of `submitReceiptBatch`, once its items have been checked. -/
def submitReceipts (env : Env c) (s : State) (seller servedValue weightedValue : ℕ) :
    Except Err State := do
  let currentEpoch := env.block.currentEpoch
  require (s.qis.paused = false) .queryInferencePaused
  require (¬(s.qis.activationEpoch = 0 ∨ currentEpoch < s.qis.activationEpoch))
    .queryInferenceNotActive
  require (s.rss.nodeEpochScore (seller, currentEpoch) ≠ 0) .noNodeScore
  let qis ← s.qis.countReceipts currentEpoch seller currentEpoch servedValue weightedValue
  return s.setQis qis

def addMigrationCredit (s : State) (delegator total : ℕ) : Except Err State := do
  let credit ← Checked.add 96 (s.css.migrationCredit delegator) total .panic
  return s.setCss { s.css with
    migrationCredit := update s.css.migrationCredit delegator credit }

end State

inductive Op where
  | stake (identityId amount lockTier : ℕ)
  | allocate (staker targetNode amount lockTier : ℕ)
  | relock (oldTokenId newLockTier : ℕ)
  | redelegate (tokenId newIdentityId : ℕ)
  | claim (tokenId : ℕ)
  | withdraw (staker tokenId : ℕ)
  | claimWithdrawnEpoch (tokenId : ℕ)
  | submitProof (identityId score18 : ℕ)
  | addMigrationCredit (delegator total : ℕ)
  | addTier (lockTier duration multiplier18 : ℕ)
  | deactivateTier (lockTier : ℕ)
  | setConvictionCreditSeconds (secondsValue : ℕ)
  | setActivationEpoch (epoch : ℕ)
  | setPaused (value : Bool)
  | setLambdaBps (value : ℕ)
  | addWalletFunding (epoch amount : ℕ)
  | addAccountFunding (epoch amount : ℕ)
  | submitReceipts (seller servedValue weightedValue : ℕ)

structure Call (c : Chronos) where
  env : Env c
  op : Op

def Call.time (call : Call c) : ℕ := call.env.block.timestamp

/-- A call of the tier administration. -/
def State.onCss (s : State) (f : Storage → Except Err Storage) : Except Err State := do
  let css ← f s.css
  return s.setCss css

/-- A call on the query/inference storage. -/
def State.onQis (s : State) (f : QueryInference → Except Err QueryInference) :
    Except Err State := do
  let qis ← f s.qis
  return s.setQis qis

def step (s : State) (call : Call c) : Except Err State :=
  let env := call.env
  let currentEpoch := env.block.currentEpoch
  match call.op with
  | .stake identityId amount lockTier => s.stake env identityId amount lockTier
  | .allocate staker targetNode amount lockTier => s.allocate env staker targetNode amount lockTier
  | .relock oldTokenId newLockTier => s.relock env oldTokenId newLockTier
  | .redelegate tokenId newIdentityId => s.redelegate env tokenId newIdentityId
  | .claim tokenId => s.claim env tokenId
  | .withdraw staker tokenId => s.withdraw env staker tokenId
  | .claimWithdrawnEpoch tokenId => s.claimWithdrawnEpoch env tokenId
  | .submitProof identityId score18 => s.submitProof env identityId score18
  | .addMigrationCredit delegator total => s.addMigrationCredit delegator total
  | .addTier lockTier duration multiplier18 => s.onCss (·.addTier lockTier duration multiplier18)
  | .deactivateTier lockTier => s.onCss (·.deactivateTier lockTier)
  | .setConvictionCreditSeconds secondsValue =>
    s.onCss (·.setConvictionCreditSeconds secondsValue)
  | .setActivationEpoch epoch => s.onQis (·.setActivationEpoch currentEpoch epoch)
  | .setPaused value => .ok (s.setQis (s.qis.setPaused value))
  | .setLambdaBps value => s.onQis (·.setLambdaBps value)
  | .addWalletFunding epoch amount => s.onQis (·.addWalletFunding currentEpoch epoch amount)
  | .addAccountFunding epoch amount => s.onQis (·.addAccountFunding currentEpoch epoch amount)
  | .submitReceipts seller servedValue weightedValue =>
    s.submitReceipts env seller servedValue weightedValue

end Dkg.Staking
