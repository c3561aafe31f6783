import Dkg.Sampling.Draw
import Dkg.Staking.StakingV10

/-!
`RandomSampling` over `RandomSamplingStorage`: the proof periods, the challenge each node holds
and the scores of solved challenges. The draw comes from the weight tree, the value ledger and
the context graphs, the stake from the staking contracts.
-/

namespace Dkg.RandomSampling
open Revert Function
open Merkle (Bytes Bytes32 Challenge)
open Sampling (World)
open Staking (SCALE18)

inductive Err where
  /-- "Duration in blocks must be greater than 0". -/
  | zeroDuration
  /-- "No applicable duration found". -/
  | noApplicableDuration
  /-- "Active proofing period duration in blocks should not be 0". -/
  | zeroActiveDuration
  /-- "The challenge for this proof period has already been solved". -/
  | alreadySolvedThisPeriod
  /-- "An unsolved challenge already exists for this node in the current proof period". -/
  | unsolvedChallengeExists
  | challengeDrawPaused
  /-- "This challenge has already been solved". -/
  | challengeSolved
  /-- "This challenge is no longer active". -/
  | challengeNotActive
  | merkleRootMismatch (computedMerkleRoot expectedMerkleRoot : Bytes32)
  /-- A revert of the draw, or of the contracts behind it. -/
  | draw (e : Sampling.Err)
  /-- A revert of the staking contracts or of the score index. -/
  | staking (e : Staking.Err)
  /-- Checked arithmetic, and a read outside an array. -/
  | panic

structure ProofingPeriodDuration where
  durationInBlocks : UInt16
  effectiveEpoch : ℕ
  deriving DecidableEq, Repr

structure State where
  proofingPeriodDurations : List ProofingPeriodDuration
  activeProofPeriodStartBlock : ℕ
  nodesChallenges : ℕ → Challenge
  /-- `none` until a challenge of the node was created. -/
  nodeChallengeStakeSnapshot : ℕ → Option ℕ
  /-- Of an epoch and a node. -/
  epochNodeValidProofsCount : ℕ × ℕ → ℕ
  /-- Of a node, an epoch and the start block of a period. -/
  nodeEpochProofPeriodScore : ℕ × ℕ × ℕ → ℕ
  world : World
  staking : Staking.State

variable {c : Chronos}

/-- What a call reads from the chain and from contracts outside the system. -/
structure Env (c : Chronos) where
  blockNumber : ℕ
  staking : Staking.Env c
  /-- `getNodeEpochPublishingAllocation`, of a node and an epoch. -/
  nodePublishingAllocation : ℕ → ℕ → ℕ
  /-- `getEpochPublishingAllocation`. -/
  publishingAllocation : ℕ → ℕ
  /-- `ProfileStorage.getAsk`. -/
  ask : ℕ → ℕ
  pricePerKbEpoch : ℕ

def Env.currentEpoch (env : Env c) : ℕ := env.staking.block.currentEpoch

/-- A slot of the challenge mapping that was never written, or deleted. -/
def noChallenge : Challenge := ⟨0, 0, 0, 0, 0, false, false, 0, Merkle.zero32⟩

namespace State

section Periods

/-- The scan runs from the latest duration back. -/
def getEpochProofingPeriodDurationInBlocks (s : State) (epoch : ℕ) : Except Err UInt16 :=
  match s.proofingPeriodDurations.reverse.find? (fun d => epoch ≥ d.effectiveEpoch) with
  | some d => .ok d.durationInBlocks
  | none => .error .noApplicableDuration

def getActiveProofingPeriodDurationInBlocks (s : State) (env : Env c) : Except Err UInt16 :=
  s.getEpochProofingPeriodDurationInBlocks env.currentEpoch

def isPendingProofingPeriodDuration (s : State) (env : Env c) : Except Err Bool :=
  match s.proofingPeriodDurations.getLast? with
  | some d => .ok (env.currentEpoch < d.effectiveEpoch)
  | none => .error .panic

def setProofingPeriodDurationInBlocks (s : State) (env : Env c) (durationInBlocks : UInt16) :
    Except Err State := do
  require (durationInBlocks > 0) .zeroDuration
  let d : ProofingPeriodDuration := ⟨durationInBlocks, env.currentEpoch + 1⟩
  let pending ← s.isPendingProofingPeriodDuration env
  let durations := s.proofingPeriodDurations
  return { s with
    proofingPeriodDurations := if pending then durations.dropLast ++ [d] else durations ++ [d] }

/-- The start block moves on by whole periods of the duration in force. -/
def updateAndGetActiveProofPeriodStartBlock (s : State) (env : Env c) :
    Except Err (State × ℕ) := do
  let active ← s.getActiveProofingPeriodDurationInBlocks env
  let duration := active.toNat
  require (duration ≠ 0) .zeroActiveDuration
  let start := s.activeProofPeriodStartBlock
  let limit ← Checked.add 256 start duration .panic
  if env.blockNumber > limit - 1 then do
    let blocksSinceLastStart ← Checked.sub env.blockNumber start .panic
    let completePeriodsPassed := blocksSinceLastStart / duration
    let newStart ← Checked.add 256 start (completePeriodsPassed * duration) .panic
    return ({ s with activeProofPeriodStartBlock := newStart }, newStart)
  else return (s, start)

end Periods

section Challenges
variable (keccak256 : Bytes → Bytes32)

def setNodeChallenge (s : State) (identityId : ℕ) (challenge : Challenge) : State :=
  { s with nodesChallenges := update s.nodesChallenges identityId challenge }

/-- The draw of a challenge, with the leaf count and the root its proof is checked against. -/
def generateChallenge (s : State) (env : Env c) (seed : Bytes32) :
    Except Err (State × Challenge) := do
  let currentEpoch := env.currentEpoch
  require (s.world.tree.backfillLocked = false) .challengeDrawPaused
  let (world, cgId, kaId, chunkId) ←
    (Sampling.pickWeightedChallengeFull keccak256 s.world seed currentEpoch).mapError .draw
  let (s, startBlock) ← updateAndGetActiveProofPeriodStartBlock { s with world } env
  let isCurated := world.graphs.isCurated cgId
  let challengeLeafCount :=
    if isCurated then world.graphs.catalogLeafCount kaId else world.graphs.merkleLeafCount kaId
  let challengeRoot :=
    if isCurated then world.graphs.catalogRoot kaId else world.graphs.latestMerkleRoot kaId
  let duration ← s.getActiveProofingPeriodDurationInBlocks env
  return (s, ⟨kaId, chunkId, currentEpoch, startBlock, duration.toNat, false, isCurated,
    challengeLeafCount, challengeRoot⟩)

/-- The stake of a node with the boosts expired that end by the block. -/
def settledStake (s : State) (env : Env c) (identityId : ℕ) :
    Except Err (Staking.Storage × ℕ) := do
  let css ← (s.staking.css.settleNodeTo identityId (uint40 env.staking.block.timestamp)).mapError
    .staking
  return (css, (css.nodes identityId).runningEffectiveStake)

def createChallenge (s : State) (env : Env c) (identityId : ℕ) (seed : Bytes32) :
    Except Err State := do
  let nodeChallenge := s.nodesChallenges identityId
  let (s, start) ← s.updateAndGetActiveProofPeriodStartBlock env
  require (¬(nodeChallenge.activeProofPeriodStartBlock = start ∧ nodeChallenge.solved))
    .alreadySolvedThisPeriod
  require (¬(nodeChallenge.activeProofPeriodStartBlock = start ∧
    nodeChallenge.knowledgeAssetId ≠ 0)) .unsolvedChallengeExists
  let (s, challenge) ← s.generateChallenge keccak256 env seed
  let s := s.setNodeChallenge identityId challenge
  let (css, stake) ← s.settledStake env identityId
  return { s with
    staking := s.staking.setCss css
    nodeChallengeStakeSnapshot :=
      update s.nodeChallengeStakeSnapshot identityId (some stake) }

end Challenges

section Scores

/-- `_calculateNodeScore`: the stake factor times the publishing and the ask factor. -/
def calculateNodeScore (env : Env c) (identityId nodeEffectiveStake : ℕ) : Except Err ℕ := do
  let currentEpoch := env.currentEpoch
  let stakeCap := env.staking.maximumStake
  require (stakeCap ≠ 0) .panic
  let stakeRatio18 := min nodeEffectiveStake stakeCap * SCALE18 / stakeCap
  let stakeFactor18 := Nat.sqrt (stakeRatio18 * SCALE18)
  let nodeKV := env.nodePublishingAllocation identityId currentEpoch
  let totalKV := env.publishingAllocation currentEpoch
  let publishingFactor18 := if totalKV > 0 then nodeKV * SCALE18 / totalKV else 0
  let nodeAsk := env.ask identityId
  let networkPrice := env.pricePerKbEpoch
  let askAlignmentFactor18 :=
    if networkPrice > 0 then
      let deviation :=
        if nodeAsk > networkPrice then nodeAsk - networkPrice else networkPrice - nodeAsk
      let deviationRatio18 := deviation * SCALE18 / networkPrice
      if deviationRatio18 ≥ SCALE18 then 0 else SCALE18 - deviationRatio18
    else 0
  let baselineComponent18 := 2 * SCALE18 / 1000
  let publishingComponent18 := 86 * publishingFactor18 / 100
  let askPublishingComponent18 := 60 * askAlignmentFactor18 * publishingFactor18 / (100 * SCALE18)
  let innerScore18 := baselineComponent18 + publishingComponent18 + askPublishingComponent18
  return stakeFactor18 * innerScore18 / SCALE18

/-- The stake a proof is scored with: no more than at the creation of the challenge. -/
def scoredStake (s : State) (identityId effectiveNodeStake : ℕ) : ℕ :=
  match s.nodeChallengeStakeSnapshot identityId with
  | some stakeSnapshot =>
    if stakeSnapshot < effectiveNodeStake then stakeSnapshot else effectiveNodeStake
  | none => effectiveNodeStake

/-- What `submitProof` books for a solved challenge. -/
def addScore (s : State) (env : Env c) (identityId start : ℕ) : Except Err State := do
  let epoch := env.currentEpoch
  let (_, effectiveNodeStake) ← s.settledStake env identityId
  let score18 ← calculateNodeScore env identityId (s.scoredStake identityId effectiveNodeStake)
  let staking ← (s.staking.submitProof env.staking identityId score18).mapError .staking
  return { s with
    staking
    epochNodeValidProofsCount := update s.epochNodeValidProofsCount (epoch, identityId)
      (s.epochNodeValidProofsCount (epoch, identityId) + 1)
    nodeEpochProofPeriodScore :=
      update s.nodeEpochProofPeriodScore (identityId, epoch, start)
        (s.nodeEpochProofPeriodScore (identityId, epoch, start) + score18) }

def submitProof (keccak256 : Bytes → Bytes32) (s : State) (env : Env c) (identityId : ℕ)
    (content : Bytes) (merkleProof : List Bytes32) : Except Err State := do
  let challenge := s.nodesChallenges identityId
  require (challenge.solved = false) .challengeSolved
  let (s, start) ← s.updateAndGetActiveProofPeriodStartBlock env
  require (challenge.activeProofPeriodStartBlock = start) .challengeNotActive
  let () ← (Merkle.checkProof keccak256 challenge content merkleProof).mapError
    fun e => .merkleRootMismatch e.computedMerkleRoot e.expectedMerkleRoot
  let s := s.setNodeChallenge identityId { challenge with solved := true }
  s.addScore env identityId start

end Scores

/-- The sweep deletes the challenges of the named nodes, solved or not. -/
def clearOutstandingChallenges (s : State) (identityIds : List ℕ) : State :=
  identityIds.foldl (fun s identityId => s.setNodeChallenge identityId noChallenge) s

end State

inductive Op where
  | createChallenge (identityId : ℕ) (seed : Bytes32)
  | submitProof (identityId : ℕ) (content : Bytes) (merkleProof : List Bytes32)
  | updateAndGetActiveProofPeriodStartBlock
  | setProofingPeriodDurationInBlocks (durationInBlocks : UInt16)
  | clearOutstandingChallenges (identityIds : List ℕ)
  /-- A call on the weight tree, the value ledger or the context graphs; the draws are those
  of `createChallenge`. -/
  | world (op : Sampling.Op) (not_draw : ∀ seed, op ≠ .draw seed)
  /-- A call on the staking contracts; the proofs are those of `submitProof`. -/
  | staking (op : Staking.Op) (not_proof : ∀ node score18, op ≠ .submitProof node score18)

structure Call (c : Chronos) where
  env : Env c
  op : Op

def Call.blockNumber (call : Call c) : ℕ := call.env.blockNumber

def step (keccak256 : Bytes → Bytes32) (s : State) (call : Call c) : Except Err State :=
  let env := call.env
  match call.op with
  | .createChallenge identityId seed => s.createChallenge keccak256 env identityId seed
  | .submitProof identityId content merkleProof =>
    s.submitProof keccak256 env identityId content merkleProof
  | .updateAndGetActiveProofPeriodStartBlock => do
    let (s, _) ← s.updateAndGetActiveProofPeriodStartBlock env
    return s
  | .setProofingPeriodDurationInBlocks durationInBlocks =>
    s.setProofingPeriodDurationInBlocks env durationInBlocks
  | .clearOutstandingChallenges identityIds => .ok (s.clearOutstandingChallenges identityIds)
  | .world op _ => do
    let world ← (Sampling.step keccak256 s.world
      ⟨env.currentEpoch, c.epochAtTimestamp_pos _, op⟩).mapError .draw
    return { s with world }
  | .staking op _ => do
    let staking ← (Staking.step s.staking ⟨env.staking, op⟩).mapError .staking
    return { s with staking }

/-- After the deployment in the epoch of `env`, over `2 ^ k` context graphs. -/
def deployed (env : Env c) (durationInBlocks : UInt16) (k : ℕ) (g : Sampling.Graphs) : State where
  proofingPeriodDurations := [⟨durationInBlocks, env.currentEpoch⟩]
  activeProofPeriodStartBlock := 0
  nodesChallenges := fun _ => noChallenge
  nodeChallengeStakeSnapshot := fun _ => none
  epochNodeValidProofsCount := fun _ => 0
  nodeEpochProofPeriodScore := fun _ => 0
  world := World.deployed k g
  staking := .initial

end Dkg.RandomSampling
