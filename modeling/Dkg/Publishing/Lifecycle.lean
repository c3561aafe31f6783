import Dkg.Publishing.System
import Dkg.Sampling.Draw

/-!
`KnowledgeAssetsLifecycle`: publishing, updating and extending a knowledge asset. A call is
paid from the registration escrow of the context graph first, then by the conviction account
of the caller if that can pay, and from the wallet of the caller otherwise. The bookings on
`EpochStorage` and the fees of the calls are kept in a journal.
-/

namespace Dkg.Lifecycle
open Revert Function
open Merkle (Bytes32 zero32)
open Sampling (World Graphs)
open Publishing (Booking STAKER_SHARD_ID feeOf treasuryBps prorateActiveSink bookingsOf)

inductive Err where
  | authorRequired
  /-- Another revert of `_verifyAuthorAttestation` or `_verifyUpdateAuthorAttestation`. -/
  | authorAttestation
  /-- A revert of `_verifySignatures`. -/
  | acknowledgements
  | invalidKnowledgeAssetsAmount (amount : ℕ)
  | zeroContextGraphId
  | zeroEpochs
  | curatedCGRequiresCatalogCommitment (contextGraphId : ℕ)
  | incompleteCatalogCommitment
  | publicCGCannotHaveCatalogCommitment (contextGraphId : ℕ)
  | publicKARequiresMerkleLeafCount (contextGraphId : ℕ)
  | invalidTokenAmount (expected tokenAmount : ℕ)
  | unauthorizedPublisher (contextGraphId publisher : ℕ)
  | kaIdNamespaceMismatch (kaId author : ℕ)
  | kaIdAlreadyMinted (kaId : ℕ)
  | contextGraphNotActive (contextGraphId : ℕ)
  | knowledgeAssetAlreadyRegistered (kaId contextGraphId : ℕ)
  | knowledgeAssetExpired (id currentEpoch endEpoch : ℕ)
  | cannotUpdateImmutableKnowledgeAsset (id : ℕ)
  | missingContextGraphBinding (id : ℕ)
  | notKnowledgeAssetOwner (id owner author : ℕ)
  | cannotShrinkTokenAmount (current new : ℕ)
  | noRemainingLifetimeForDelta (id currentEpoch endEpoch : ℕ)
  | exceededKnowledgeAssetBatchSize (id minted : ℕ)
  | cannotWriteValueToInactiveContextGraph (contextGraphId : ℕ)
  | contextGraphDoesNotExist (contextGraphId : ℕ)
  /-- `InvalidContextGraphConfig("escrow underflow")`. -/
  | escrowUnderflow
  | tooLowAllowance (allowance expected : ℕ)
  | tooLowBalance (balance expected : ℕ)
  | transferFailed
  /-- A revert of the weight tree or of the value ledger. -/
  | sampling (e : Sampling.Err)
  /-- A revert of `EpochStorage` or of `PublishingConviction`. -/
  | publishing (e : Publishing.Err)
  /-- Checked arithmetic and `SafeCast`. -/
  | panic

/-- What the contract reads of an asset besides what the sampling reads. -/
structure Asset where
  /-- `ownerOf`, 0 for an id that was not minted. -/
  owner : ℕ
  byteSize : ℕ
  tokenAmount : ℕ
  isImmutable : Bool
  /-- `kaToContextGraph`. -/
  contextGraph : ℕ

structure State where
  publishing : Publishing.State
  world : World
  assets : ℕ → Asset
  latestContextGraphId : ℕ
  registrationEscrow : ℕ → ℕ
  /-- The TRAC of each address. -/
  balances : ℕ → ℕ
  /-- The calls on `EpochStorage` made so far. -/
  bookings : List Booking
  /-- The treasury fees paid so far. -/
  feesPaid : ℕ
  /-- How many calls a conviction account has paid for. -/
  viaConviction : ℕ

variable {c : Chronos} {vault : ℕ}

/-- What a call reads from the chain and from contracts outside the system. The contract of the
vault, at the address `vault`, makes no calls. -/
structure Env (c : Chronos) (vault : ℕ) where
  publishing : Publishing.Env c
  /-- `MAX_PROTOCOL_TREASURY_FEE`. -/
  protocolTreasuryFee_le : publishing.protocolTreasuryFee ≤ 1000
  sender : ℕ
  sender_ne : sender ≠ vault
  /-- `token.allowance(msg.sender, address(this))`. -/
  allowance : ℕ
  authorAttested : Bool
  acknowledged : Bool
  /-- `isAuthorizedPublisher(·, msg.sender)`. -/
  authorizedPublisher : ℕ → Bool
  contextGraphOwner : ℕ → ℕ
  stakeWeightedAverageAsk : ℕ

def Env.currentEpoch (env : Env c vault) : ℕ := env.publishing.block.currentEpoch

def Env.timestamp (env : Env c vault) : ℕ := env.publishing.block.timestamp

section Payment

/-- A plain ERC-20 transfer. -/
def transfer (balances : ℕ → ℕ) (sender receiver amount : ℕ) : Except Err (ℕ → ℕ) := do
  require (amount ≤ balances sender) .transferFailed
  let balances := update balances sender (balances sender - amount)
  return update balances receiver (balances receiver + amount)

/-- `_treasuryFee`; the rate is at most a tenth, so the cast to `uint96` is exact. -/
def treasuryFee (env : Env c vault) (amount : ℕ) : ℕ := feeOf amount (treasuryBps env.publishing)

/-- The fee goes to the treasury if one is wired. -/
def State.payTreasury (s : State) (env : Env c vault) (payer fee : ℕ) : Except Err State :=
  if fee > 0 ∧ env.publishing.protocolTreasury ≠ 0 then do
    let balances ← transfer s.balances payer env.publishing.protocolTreasury fee
    return { s with balances, feesPaid := s.feesPaid + fee }
  else .ok s

/-- The wallet of the caller pays: the net goes to the vault. -/
def State.addTokens (s : State) (env : Env c vault) (tokenAmount : ℕ) : Except Err (State × ℕ) := do
  require (¬env.allowance < tokenAmount) (.tooLowAllowance env.allowance tokenAmount)
  require (¬s.balances env.sender < tokenAmount)
    (.tooLowBalance (s.balances env.sender) tokenAmount)
  let fee := treasuryFee env tokenAmount
  let net ← Checked.sub tokenAmount fee .panic
  let balances ← transfer s.balances env.sender vault net
  let s ← State.payTreasury { s with balances } env env.sender fee
  return (s, net)

/-- The escrow is in the vault already: only the fee moves. -/
def State.chargeEscrowTreasuryFee (s : State) (env : Env c vault) (fromEscrow : ℕ) :
    Except Err (State × ℕ) := do
  let fee := treasuryFee env fromEscrow
  let net ← Checked.sub fromEscrow fee .panic
  let s ← s.payTreasury env vault fee
  return (s, net)

def State.decreaseRegistrationEscrow (s : State) (contextGraphId amount : ℕ) :
    Except Err State := do
  require (contextGraphId ≠ 0 ∧ contextGraphId ≤ s.latestContextGraphId)
    (.contextGraphDoesNotExist contextGraphId)
  let left ← Checked.sub (s.registrationEscrow contextGraphId) amount .escrowUnderflow
  return { s with registrationEscrow := update s.registrationEscrow contextGraphId left }

/-- The escrow of a graph is the budget of its owner. -/
def State.useCgEscrow (s : State) (env : Env c vault) (contextGraphId cost : ℕ) :
    Except Err (State × ℕ) :=
  if contextGraphId = 0 ∨ cost = 0 then .ok (s, 0)
  else
    let esc := s.registrationEscrow contextGraphId
    if esc = 0 then .ok (s, 0)
    else if env.sender ≠ env.contextGraphOwner contextGraphId then .ok (s, 0)
    else do
      let used := if esc ≥ cost then cost else esc
      let s ← s.decreaseRegistrationEscrow contextGraphId used
      return (s, used)

/-- The net of the escrow, and what is left to the wallet. -/
def State.consumeEscrowNet (s : State) (env : Env c vault) (contextGraphId amount : ℕ) :
    Except Err (State × ℕ × ℕ) := do
  let (s, fromEscrow) ← s.useCgEscrow env contextGraphId amount
  let (s, netEscrow) ←
    (if fromEscrow > 0 then s.chargeEscrowTreasuryFee env fromEscrow else .ok (s, 0))
  let walletRemainder ← Checked.sub amount fromEscrow .panic
  return (s, netEscrow, walletRemainder)

/-- Calls of `addTokensToEpochRange`. -/
def State.book (s : State) (env : Env c vault) (bookings : List Booking) : Except Err State := do
  let epochStorage ← (Publishing.issue env.currentEpoch s.publishing.epochStorage
    bookings).mapError .publishing
  return { s with
    publishing := { s.publishing with epochStorage }
    bookings := s.bookings ++ bookings }

def State.distributeTokens (s : State) (env : Env c vault) (tokenAmount epochs currentEpoch : ℕ) :
    Except Err State := do
  let ranges ← prorateActiveSink Err.panic tokenAmount currentEpoch epochs c.epochLength
    (c.timeUntilNextEpoch env.timestamp)
  s.book env (bookingsOf STAKER_SHARD_ID ranges)

/-- The conviction account of the caller can be asked to pay; `lockFits` compares its lock
with the epochs to pay for. -/
def State.convictionEligible (s : State) (env : Env c vault) (lockFits : ℕ → Bool) : Bool :=
  let accountId := env.publishing.agentToAccountId env.sender
  let account := (s.publishing.ledgers accountId).account
  accountId ≠ 0 ∧ env.timestamp < account.expiresAtTimestamp ∧
    lockFits account.lockDurationEpochs = true

/-- An account that cannot pay leaves the payment to the wallet; the fee of one that pays comes
out of the vault. -/
def State.coverViaConvictionOrFallThrough (s : State) (env : Env c vault) (baseCost kaEpochs : ℕ) :
    Except Err (State × Bool) :=
  match Publishing.step s.publishing
      ⟨env.publishing, .coverPublishingCost env.sender baseCost kaEpochs⟩ with
  | .ok publishing => do
    let accountId := env.publishing.agentToAccountId env.sender
    let fee := (publishing.journal accountId).feesPaid - (s.publishing.journal accountId).feesPaid
    let s ← State.payTreasury { s with publishing } env vault fee
    return ({ s with viaConviction := s.viaConviction + 1 }, true)
  | .error (.insufficientAllowance _ _ _ _) => .ok (s, false)
  | .error (.accountExpired _ _) => .ok (s, false)
  | .error e => .error (.publishing e)

/-- The payment of `publish` and `update` over `epochs` epochs from the current one. -/
def State.pay (s : State) (env : Env c vault) (contextGraphId amount epochs currentEpoch : ℕ)
    (lockFits : ℕ → Bool) : Except Err State := do
  let (s, netEscrow, walletCost) ← s.consumeEscrowNet env contextGraphId amount
  let s ← (if netEscrow > 0 then s.distributeTokens env netEscrow epochs currentEpoch else .ok s)
  if walletCost = 0 then return s
  else do
    let (s, covered) ←
      (if s.convictionEligible env lockFits then
        s.coverViaConvictionOrFallThrough env walletCost epochs
      else .ok (s, false))
    if covered then return s
    else do
      let (s, net) ← s.addTokens env walletCost
      s.distributeTokens env net epochs currentEpoch

end Payment

section Core

/-- `_validateTokenAmount`. -/
def validateTokenAmount (env : Env c vault) (byteSize epochs tokenAmount : ℕ)
    (includeCurrentEpoch : Bool) : Except Err Unit := do
  require (tokenAmount ≠ 0) (.invalidTokenAmount 1 0)
  let totalStorageTime :=
    epochs * 10 ^ 18 + c.timeUntilNextEpoch env.timestamp * 10 ^ 18 / c.epochLength
  let expectedTokenAmount :=
    if includeCurrentEpoch then
      env.stakeWeightedAverageAsk * byteSize * totalStorageTime / 1024 / 10 ^ 18
    else env.stakeWeightedAverageAsk * byteSize * epochs / 1024
  require (expectedTokenAmount < 2 ^ 96) .panic
  require (¬tokenAmount < expectedTokenAmount)
    (.invalidTokenAmount expectedTokenAmount tokenAmount)

/-- The value ledger takes the amount, and the leaf of the graph is settled. -/
def writeValue (env : Env c vault) (w : World) (contextGraphId startEpoch lifetime value : ℕ) :
    Except Err World := do
  let values ← (ValueLedger.addCGValueForEpochRange w.values env.currentEpoch contextGraphId
    startEpoch lifetime value).mapError fun e => .sampling (.values e)
  (World.settle { w with values } env.currentEpoch contextGraphId).mapError .sampling

structure PublishParams where
  contextGraphId : ℕ
  merkleRoot : Bytes32
  knowledgeAssetsAmount : ℕ
  byteSize : ℕ
  epochs : ℕ
  tokenAmount : ℕ
  isImmutable : Bool
  merkleLeafCount : UInt32
  catalogRoot : Bytes32
  catalogLeafCount : UInt32
  authorAddress : ℕ
  reservedKaId : ℕ

/-- The commitment to a catalog belongs to the assets of curated graphs. -/
def PublishParams.checkCatalog (p : PublishParams) (isCurated : Bool) : Except Err Unit :=
  let hasCatalogCommitment : Bool := p.catalogRoot ≠ zero32 ∨ p.catalogLeafCount ≠ 0
  if isCurated then do
    require (hasCatalogCommitment = true) (.curatedCGRequiresCatalogCommitment p.contextGraphId)
    require (¬(p.catalogRoot = zero32 ∨ p.catalogLeafCount = 0)) .incompleteCatalogCommitment
  else do
    require (hasCatalogCommitment = false) (.publicCGCannotHaveCatalogCommitment p.contextGraphId)
    require (p.merkleLeafCount ≠ 0) (.publicKARequiresMerkleLeafCount p.contextGraphId)

/-- What the sampling reads of a new asset. -/
def PublishParams.register (p : PublishParams) (g : Graphs) (endEpoch : ℕ) : Graphs :=
  let kaId := p.reservedKaId
  { g with
    samplingKAList := update g.samplingKAList p.contextGraphId
      (g.samplingKAList p.contextGraphId ++ [kaId])
    endEpoch := update g.endEpoch kaId endEpoch
    merkleLeafCount := update g.merkleLeafCount kaId p.merkleLeafCount
    latestMerkleRoot := update g.latestMerkleRoot kaId p.merkleRoot
    catalogRoot :=
      if g.isCurated p.contextGraphId then update g.catalogRoot kaId p.catalogRoot
      else g.catalogRoot
    catalogLeafCount :=
      if g.isCurated p.contextGraphId then
        update g.catalogLeafCount kaId p.catalogLeafCount
      else g.catalogLeafCount }

/-- `_executePublishCore`, with `createKnowledgeAsset` and `registerKnowledgeAsset`. -/
def State.executePublishCore (s : State) (env : Env c vault) (p : PublishParams) :
    Except Err (State × ℕ) := do
  require (p.authorAddress ≠ 0) .authorRequired
  require (env.authorAttested = true) .authorAttestation
  require (p.knowledgeAssetsAmount = 1) (.invalidKnowledgeAssetsAmount p.knowledgeAssetsAmount)
  require (env.acknowledged = true) .acknowledgements
  require (p.contextGraphId ≠ 0) .zeroContextGraphId
  require (p.epochs ≠ 0) .zeroEpochs
  p.checkCatalog (s.world.graphs.isCurated p.contextGraphId)
  validateTokenAmount env p.byteSize p.epochs p.tokenAmount false
  require (env.authorizedPublisher p.contextGraphId = true)
    (.unauthorizedPublisher p.contextGraphId env.sender)
  let currentEpoch := uint40 env.currentEpoch
  let endEpoch ← Checked.add 40 currentEpoch p.epochs .panic
  require (p.reservedKaId / 2 ^ 96 = p.authorAddress)
    (.kaIdNamespaceMismatch p.reservedKaId p.authorAddress)
  require ((s.assets p.reservedKaId).owner = 0) (.kaIdAlreadyMinted p.reservedKaId)
  require (s.world.graphs.active p.contextGraphId = true)
    (.contextGraphNotActive p.contextGraphId)
  require ((s.assets p.reservedKaId).contextGraph = 0)
    (.knowledgeAssetAlreadyRegistered p.reservedKaId (s.assets p.reservedKaId).contextGraph)
  let assets := update s.assets p.reservedKaId
    ⟨p.authorAddress, p.byteSize, p.tokenAmount, p.isImmutable, p.contextGraphId⟩
  let world := { s.world with graphs := p.register s.world.graphs endEpoch }
  let world ← writeValue env world p.contextGraphId currentEpoch p.epochs p.tokenAmount
  return ({ s with assets, world }, currentEpoch)

structure UpdateParams where
  id : ℕ
  newMerkleRoot : Bytes32
  newByteSize : ℕ
  newTokenAmount : ℕ
  newMerkleLeafCount : UInt32
  mintKnowledgeAssetsAmount : ℕ
  knowledgeAssetsToBurn : List ℕ
  newCatalogRoot : Bytes32
  newCatalogLeafCount : UInt32
  authorAddress : ℕ

/-- Once committed, the catalog changes with every update. -/
def UpdateParams.refreshCatalog (p : UpdateParams) (g : Graphs) (contextGraphId delta : ℕ) :
    Except Err Graphs :=
  let hasNewCatalogCommitment : Bool := p.newCatalogRoot ≠ zero32 ∨ p.newCatalogLeafCount ≠ 0
  if g.isCurated contextGraphId then
    if hasNewCatalogCommitment then do
      require (¬(p.newCatalogRoot = zero32 ∨ p.newCatalogLeafCount = 0))
        .incompleteCatalogCommitment
      return { g with
        catalogRoot := update g.catalogRoot p.id p.newCatalogRoot
        catalogLeafCount := update g.catalogLeafCount p.id p.newCatalogLeafCount }
    else do
      require (g.catalogRoot p.id = zero32) .incompleteCatalogCommitment
      require (¬delta > 0) (.curatedCGRequiresCatalogCommitment contextGraphId)
      return g
  else do
    require (hasNewCatalogCommitment = false)
      (.publicCGCannotHaveCatalogCommitment contextGraphId)
    require (p.newMerkleLeafCount ≠ 0) (.publicKARequiresMerkleLeafCount contextGraphId)
    return g

/-- `_executeUpdateCore`, with `updateKnowledgeAsset`: the delta to pay, the epochs that remain
and the current epoch. -/
def State.executeUpdateCore (s : State) (env : Env c vault) (p : UpdateParams) :
    Except Err (State × ℕ × ℕ × ℕ) := do
  let ka := s.assets p.id
  let endEpoch := s.world.graphs.endEpoch p.id
  require (ka.isImmutable = false) (.cannotUpdateImmutableKnowledgeAsset p.id)
  let currentEpoch := uint40 env.currentEpoch
  require (¬currentEpoch > endEpoch) (.knowledgeAssetExpired p.id currentEpoch endEpoch)
  let remainingEpochs := endEpoch - currentEpoch
  let contextGraphId := ka.contextGraph
  require (contextGraphId ≠ 0) (.missingContextGraphBinding p.id)
  require (env.acknowledged = true) .acknowledgements
  require (p.authorAddress ≠ 0) .authorRequired
  require (env.authorAttested = true) .authorAttestation
  require (ka.owner = p.authorAddress) (.notKnowledgeAssetOwner p.id ka.owner p.authorAddress)
  require (¬p.newTokenAmount < ka.tokenAmount)
    (.cannotShrinkTokenAmount ka.tokenAmount p.newTokenAmount)
  let delta := p.newTokenAmount - ka.tokenAmount
  require (¬(remainingEpochs = 0 ∧ (delta > 0 ∨ p.newByteSize > ka.byteSize)))
    (.noRemainingLifetimeForDelta p.id currentEpoch endEpoch)
  (if p.newByteSize > ka.byteSize then
    validateTokenAmount env (p.newByteSize - ka.byteSize) remainingEpochs delta false
  else .ok ())
  require (¬(p.mintKnowledgeAssetsAmount ≠ 0 ∨ p.knowledgeAssetsToBurn.length ≠ 0))
    (.exceededKnowledgeAssetBatchSize p.id p.mintKnowledgeAssetsAmount)
  let assets := update s.assets p.id
    { ka with byteSize := p.newByteSize, tokenAmount := p.newTokenAmount }
  let graphs ← p.refreshCatalog { s.world.graphs with
    merkleLeafCount := update s.world.graphs.merkleLeafCount p.id p.newMerkleLeafCount
    latestMerkleRoot := update s.world.graphs.latestMerkleRoot p.id p.newMerkleRoot }
    contextGraphId delta
  let world ←
    (if delta > 0 then do
      require (graphs.active contextGraphId = true)
        (.cannotWriteValueToInactiveContextGraph contextGraphId)
      writeValue env { s.world with graphs } contextGraphId currentEpoch remainingEpochs delta
    else .ok { s.world with graphs })
  return ({ s with assets, world }, delta, remainingEpochs, currentEpoch)

end Core

namespace State

def publish (s : State) (env : Env c vault) (p : PublishParams) : Except Err State := do
  let (s, currentEpoch) ← s.executePublishCore env p
  s.pay env p.contextGraphId p.tokenAmount p.epochs currentEpoch fun lock => p.epochs = lock

def update (s : State) (env : Env c vault) (p : UpdateParams) : Except Err State := do
  let (s, delta, remainingEpochs, currentEpoch) ← s.executeUpdateCore env p
  if delta = 0 then return s
  else s.pay env (s.assets p.id).contextGraph delta remainingEpochs currentEpoch fun lock =>
    remainingEpochs ≤ lock

/-- The asset lives on for `epochs` epochs, paid for after its old end. -/
def extendKnowledgeAssetLifetime (s : State) (env : Env c vault) (id epochs tokenAmount : ℕ) :
    Except Err State := do
  let ka := s.assets id
  let endEpoch := s.world.graphs.endEpoch id
  let currentEpoch := env.currentEpoch
  require (¬currentEpoch > endEpoch) (.knowledgeAssetExpired id currentEpoch endEpoch)
  require (epochs ≠ 0) .zeroEpochs
  let newEndEpoch ← Checked.add 40 endEpoch epochs .panic
  let newTokenAmount ← Checked.add 96 ka.tokenAmount tokenAmount .panic
  let assets := Function.update s.assets id { ka with tokenAmount := newTokenAmount }
  let graphs := { s.world.graphs with
    endEpoch := Function.update s.world.graphs.endEpoch id newEndEpoch }
  let s := { s with assets, world := { s.world with graphs } }
  validateTokenAmount env ka.byteSize epochs tokenAmount false
  let cgId := ka.contextGraph
  let (s, netEscrow, walletCost) ← s.consumeEscrowNet env cgId tokenAmount
  let s ←
    (if netEscrow > 0 then
      s.book env [⟨⟨endEpoch + 1, newEndEpoch, netEscrow⟩, STAKER_SHARD_ID⟩]
    else .ok s)
  let s ←
    (if walletCost > 0 then do
      let (s, net) ← s.addTokens env walletCost
      s.book env [⟨⟨endEpoch + 1, newEndEpoch, net⟩, STAKER_SHARD_ID⟩]
    else .ok s)
  if epochs > 0 ∧ tokenAmount > 0 ∧ cgId ≠ 0 then do
    require (s.world.graphs.active cgId = true) (.cannotWriteValueToInactiveContextGraph cgId)
    let world ← writeValue env s.world cgId endEpoch epochs tokenAmount
    return { s with world }
  else return s

end State

inductive Op where
  | publish (p : PublishParams)
  | update (p : UpdateParams)
  | extendKnowledgeAssetLifetime (id epochs tokenAmount : ℕ)

structure Call (c : Chronos) (vault : ℕ) where
  env : Env c vault
  op : Op

def step (s : State) (call : Call c vault) : Except Err State :=
  match call.op with
  | .publish p => s.publish call.env p
  | .update p => s.update call.env p
  | .extendKnowledgeAssetLifetime id epochs tokenAmount =>
    s.extendKnowledgeAssetLifetime call.env id epochs tokenAmount

end Dkg.Lifecycle
