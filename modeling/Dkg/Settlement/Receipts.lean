import Dkg.Lib.BitWords
import Dkg.Subscriptions.Service

/-!
`QueryInferenceSettlement.submitReceiptBatch`: a seller's batch of receipt groups is
checked item by item, marks the nonces used and counts each group's value up to what the
budget has left. Whether a signature recovers to a key is a parameter.
-/

namespace Dkg.Settlement
open Revert

def SCALE18 : ℕ := 10 ^ 18
def BPS : ℕ := 10000

/-- No nonce word is cached yet. -/
def NONE : ℕ := 2 ^ 256 - 1

/-- Why a batch is refused: a group's fault, or an item's. -/
inductive Fault where
  | unknownSubscription
  | unknownBudget
  | outsideEpoch
  | emptyGroup
  | belowMinCounted
  | badSignature
  | inactiveGrant
  | duplicateNonce
  | outsideTime
  | priceOutOfRange
  | badArithmetic
  | zeroResultCommitment
  deriving DecidableEq, Repr

inductive Err where
  | profileDoesntExist (identityId : ℕ)
  | nodeNotInShardingTable (identityId : ℕ)
  | batchOutOfBounds (groupCount itemCount : ℕ)
  | groupFault (groupIndex : ℕ) (fault : Fault)
  | receiptFault (groupIndex itemIndex : ℕ) (fault : Fault)
  | queryInferencePaused
  | queryInferenceNotActive (activationEpoch currentEpoch : ℕ)
  | noNodeScore (identityId epoch : ℕ)
  | invalidParameter
  /-- A revert in `QueryInferenceStorage`. -/
  | queryInference (e : Staking.Err)
  /-- A revert in a subscription contract. -/
  | subscriptions (e : Subscriptions.Err)
  /-- Checked arithmetic and array bounds. -/
  | panic
  deriving DecidableEq, Repr

structure ReceiptItem where
  nonce : ℕ
  pricePerUnit : ℕ
  maxUnits : ℕ
  maxValueWei : ℕ
  issuedAt : ℕ
  expiry : ℕ
  units : ℕ
  valueWei : ℕ
  resultCommitment : ℕ
  completedAt : ℕ
  sigR : ℕ
  sigVS : ℕ
  nonce_lt : nonce < 2 ^ 64
  deriving DecidableEq, Repr

structure ReceiptGroup where
  subscriptionId : ℕ
  budgetIndex : ℕ
  minCounted : ℕ
  items : List ReceiptItem
  deriving DecidableEq, Repr

/-- What the session key signs. -/
structure ServiceRequest where
  subscriptionId : ℕ
  serviceId : ℕ
  seller : ℕ
  nonce : ℕ
  pricePerUnit : ℕ
  maxUnits : ℕ
  maxValueWei : ℕ
  issuedAt : ℕ
  expiry : ℕ
  deriving DecidableEq, Repr

/-- The event `ReceiptsLanded`, with the items in the place of their digest. -/
structure Landed where
  subscriptionId : ℕ
  budgetIndex : ℕ
  seller : ℕ
  items : List ReceiptItem
  value : ℕ
  counted : ℕ
  stakeFactor18 : ℕ

structure Env (c : Chronos) extends toSubscriptionsEnv : Subscriptions.Env c where
  /-- `IdentityStorage.getIdentityId`. -/
  getIdentityId : ℕ → ℕ
  profileExists : ℕ → Bool
  /-- Of a node in the current epoch. -/
  nodeEpochScore : ℕ → ℕ
  nodeEffectiveStake : ℕ → ℕ
  /-- The stake at the node's current challenge, if that took a snapshot. -/
  nodeChallengeStakeSnapshot : ℕ → Option ℕ
  maximumStake : ℕ

structure State where
  system : Subscriptions.System
  maxGroupsPerBatch : ℕ
  maxItemsPerBatch : ℕ
  /-- Per subscription and budget. -/
  budgetUsed : ℕ × ℕ → ℕ
  /-- Per subscription, seller and word. -/
  nonceBitmap : ℕ × ℕ × ℕ → ℕ
  /-- The groups landed so far, in order. -/
  landed : List Landed

/-- What a group is checked against and counts by. -/
structure GroupContext where
  sessionKey : ℕ
  startsAt : ℕ
  grantEnd : ℕ
  serviceId : ℕ
  maxPrice : ℕ
  budgetValue : ℕ
  discountBps : ℕ

/-- What a batch keeps across its groups. -/
structure Batch where
  seller : ℕ
  epoch : ℕ
  stakeFactor18 : ℕ

variable {c : Chronos}

def uint96 (n : ℕ) : ℕ := n % 2 ^ 96

def requireLive (env : Env c) (activation : ℕ) (isPaused : Bool) : Except Err ℕ := do
  require (isPaused = false) .queryInferencePaused
  let currentEpoch := env.block.currentEpoch
  require (¬(activation = 0 ∨ currentEpoch < activation))
    (.queryInferenceNotActive activation currentEpoch)
  return currentEpoch

def coreNodeOf (env : Env c) (operational : ℕ) : Except Err ℕ := do
  let identityId := env.getIdentityId operational
  require (env.profileExists identityId = true) (.profileDoesntExist identityId)
  require (env.nodeExists identityId = true) (.nodeNotInShardingTable identityId)
  return identityId

/-- The lower of the live stake and the snapshot, capped. -/
def factorStake (env : Env c) (identityId : ℕ) : ℕ :=
  let stake := env.nodeEffectiveStake identityId
  let stake :=
    match env.nodeChallengeStakeSnapshot identityId with
    | some snapshot => if snapshot < stake then snapshot else stake
    | none => stake
  if stake > env.maximumStake then env.maximumStake else stake

def stakeFactor (env : Env c) (identityId : ℕ) : Except Err ℕ := do
  require (env.maximumStake ≠ 0) .panic
  return Nat.sqrt (factorStake env identityId * SCALE18 / env.maximumStake * SCALE18)

def contextOf (b : Batch) (subs : Subscriptions.Storage) (g subscriptionId budgetIndex : ℕ) :
    Except Err GroupContext := do
  let s := subs.subscriptions subscriptionId
  require (s.startsAt ≠ 0) (.groupFault g .unknownSubscription)
  require (budgetIndex < s.budgetCount) (.groupFault g .unknownBudget)
  require (s.epoch = b.epoch) (.groupFault g .outsideEpoch)
  match (subs.budgets subscriptionId)[budgetIndex]? with
  | none => .error .panic
  | some budget => return {
      sessionKey := s.sessionKey
      startsAt := s.startsAt
      -- a wallet subscription has no grant that could end
      grantEnd :=
        if s.accountId ≠ 0 then subs.grantEnd s.accountId s.buyer s.grantNonce else 2 ^ 256 - 1
      serviceId := budget.serviceId
      maxPrice := budget.maxPricePerUnit
      budgetValue := budget.value
      discountBps := s.discountBps }

/-- The request an item answers, with the group's subscription and the sender's node. -/
def requestOf (subscriptionId serviceId seller : ℕ) (it : ReceiptItem) : ServiceRequest where
  subscriptionId
  serviceId
  seller
  nonce := it.nonce
  pricePerUnit := it.pricePerUnit
  maxUnits := it.maxUnits
  maxValueWei := it.maxValueWei
  issuedAt := it.issuedAt
  expiry := it.expiry

/-- The nonce words of a seller in a subscription. -/
def nonceKey (subscriptionId seller word : ℕ) : ℕ × ℕ × ℕ := (subscriptionId, seller, word)

/-- What the loop over a group's items carries. -/
structure Scan where
  nonceBitmap : ℕ × ℕ × ℕ → ℕ
  cache : BitWords.Cache
  value : ℕ

/-- One round of the loop of `_acceptGroup`. Word indices are below `2 ^ 56`, so their casts
to `uint64` lose nothing. -/
def acceptItem (signedBy : ServiceRequest → ℕ → ℕ → ℕ → Bool) (env : Env c) (b : Batch)
    (ctx : GroupContext) (g subscriptionId j : ℕ) (scan : Scan) (it : ReceiptItem) :
    Except Err Scan := do
  let request := requestOf subscriptionId ctx.serviceId b.seller it
  require (signedBy request it.sigR it.sigVS ctx.sessionKey = true)
    (.receiptFault g j .badSignature)
  require (¬it.issuedAt ≥ ctx.grantEnd) (.receiptFault g j .inactiveGrant)
  let (nonceBitmap, cache) :=
    BitWords.seek (nonceKey subscriptionId b.seller) scan.nonceBitmap scan.cache (it.nonce >>> 8)
  require ((cache.stored ||| cache.used) &&& BitWords.bit 8 it.nonce = 0)
    (.receiptFault g j .duplicateNonce)
  let cache := BitWords.mark 8 cache it.nonce
  require (¬(it.issuedAt < ctx.startsAt ∨ it.completedAt < it.issuedAt ∨
    it.completedAt > it.expiry ∨ it.completedAt > env.block.timestamp))
    (.receiptFault g j .outsideTime)
  require (¬(it.pricePerUnit = 0 ∨ it.pricePerUnit > ctx.maxPrice))
    (.receiptFault g j .priceOutOfRange)
  require (¬(it.units = 0 ∨ it.units > it.maxUnits ∨ it.units * it.pricePerUnit ≠ it.valueWei ∨
    it.valueWei > it.maxValueWei)) (.receiptFault g j .badArithmetic)
  require (it.resultCommitment ≠ 0) (.receiptFault g j .zeroResultCommitment)
  return ⟨nonceBitmap, cache, scan.value + it.valueWei⟩

/-- The items from index `j` on. -/
def acceptItems (signedBy : ServiceRequest → ℕ → ℕ → ℕ → Bool) (env : Env c) (b : Batch)
    (ctx : GroupContext) (g subscriptionId : ℕ) : ℕ → Scan → List ReceiptItem → Except Err Scan
  | _, scan, [] => .ok scan
  | j, scan, it :: items => do
    let scan ← acceptItem signedBy env b ctx g subscriptionId j scan it
    acceptItems signedBy env b ctx g subscriptionId (j + 1) scan items

/-- `qis.countReceipts`. -/
def countReceipts (env : Env c) (s : State) (subscriptionId budgetIndex seller epoch counted
    servedValue weightedValue : ℕ) : Except Err State := do
  let qis ← (s.system.qis.countReceipts env.block.currentEpoch seller epoch servedValue
    weightedValue).mapError .queryInference
  let used ← Checked.add 96 (s.budgetUsed (subscriptionId, budgetIndex)) counted
    (.queryInference .panic)
  return { s with
    system := { s.system with qis }
    budgetUsed := Function.update s.budgetUsed (subscriptionId, budgetIndex) used }

def acceptGroup (signedBy : ServiceRequest → ℕ → ℕ → ℕ → Bool) (env : Env c) (b : Batch) (g : ℕ)
    (s : State) (group : ReceiptGroup) : Except Err State := do
  require (group.items.length ≠ 0) (.groupFault g .emptyGroup)
  let ctx ← contextOf b s.system.subs g group.subscriptionId group.budgetIndex
  let scan ← acceptItems signedBy env b ctx g group.subscriptionId 0
    ⟨s.nonceBitmap, ⟨NONE, 0, 0⟩, 0⟩ group.items
  let left ← Checked.sub ctx.budgetValue (s.budgetUsed (group.subscriptionId, group.budgetIndex))
    .panic
  let counted := if scan.value < left then scan.value else left
  require (¬counted < group.minCounted) (.groupFault g .belowMinCounted)
  let keep ← Checked.sub BPS ctx.discountBps .panic
  let served := counted * keep / BPS
  let s ← countReceipts env s group.subscriptionId group.budgetIndex b.seller b.epoch
    (uint96 counted) (uint96 served) (uint96 (served * b.stakeFactor18 / SCALE18))
  return { s with
    nonceBitmap :=
      BitWords.flush (nonceKey group.subscriptionId b.seller) scan.nonceBitmap scan.cache
    landed := s.landed ++ [⟨group.subscriptionId, group.budgetIndex, b.seller, group.items,
      scan.value, counted, b.stakeFactor18⟩] }

/-- The groups from index `g` on. -/
def acceptGroups (signedBy : ServiceRequest → ℕ → ℕ → ℕ → Bool) (env : Env c) (b : Batch) :
    ℕ → State → List ReceiptGroup → Except Err State
  | _, s, [] => .ok s
  | g, s, group :: groups => do
    let s ← acceptGroup signedBy env b g s group
    acceptGroups signedBy env b (g + 1) s groups

def submitReceiptBatch (signedBy : ServiceRequest → ℕ → ℕ → ℕ → Bool) (env : Env c) (s : State)
    (groups : List ReceiptGroup) : Except Err State := do
  let current ← requireLive env s.system.qis.activationEpoch s.system.qis.paused
  let seller ← coreNodeOf env env.sender
  require (env.nodeEpochScore seller ≠ 0) (.noNodeScore seller current)
  let groupCount := groups.length
  let itemCount := (groups.map fun group => group.items.length).sum
  require (¬(groupCount = 0 ∨ groupCount > s.maxGroupsPerBatch ∨ itemCount = 0 ∨
    itemCount > s.maxItemsPerBatch)) (.batchOutOfBounds groupCount itemCount)
  let stakeFactor18 ← stakeFactor env seller
  acceptGroups signedBy env ⟨seller, current, stakeFactor18⟩ 0 s groups

inductive Op where
  | submitReceiptBatch (groups : List ReceiptGroup)
  | setMaxItemsPerBatch (value : ℕ)
  | setMaxGroupsPerBatch (value : ℕ)
  | setLambdaBps (value : ℕ)
  /-- A call on the subscription contracts and what they stand on. -/
  | subscriptions (op : Subscriptions.Op)

structure Call (c : Chronos) where
  env : Env c
  op : Op

def step (subscriptionIdOf : ℕ → ℕ → ℕ) (signedBy : ServiceRequest → ℕ → ℕ → ℕ → Bool) (s : State)
    (call : Call c) : Except Err State :=
  let env := call.env
  match call.op with
  | .submitReceiptBatch groups => submitReceiptBatch signedBy env s groups
  | .setMaxItemsPerBatch value => do
    require (¬(value = 0 ∨ value > 1024)) .invalidParameter
    return { s with maxItemsPerBatch := value }
  | .setMaxGroupsPerBatch value => do
    require (value ≠ 0) .invalidParameter
    return { s with maxGroupsPerBatch := value }
  | .setLambdaBps value => do
    let qis ← (s.system.qis.setLambdaBps value).mapError .queryInference
    return { s with system := { s.system with qis } }
  | .subscriptions op => do
    let call : Subscriptions.Call c := ⟨env.toSubscriptionsEnv, op⟩
    let system ← (Subscriptions.step subscriptionIdOf s.system call).mapError .subscriptions
    return { s with system }

/-- No subscription and no receipt yet. -/
def State.fresh (publishing : Publishing.State) (qis : Staking.QueryInference)
    (holder : ℕ → Option ℕ) : State where
  system := .fresh publishing qis holder
  maxGroupsPerBatch := 32
  maxItemsPerBatch := 256
  budgetUsed := fun _ => 0
  nonceBitmap := fun _ => 0
  landed := []

end Dkg.Settlement
