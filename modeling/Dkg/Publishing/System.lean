import Dkg.Publishing.Account

/-!
The publishing accounts together with `EpochStorage`: account creation, re-designation of
the primary node, and the atomic calls of the system. For each account the calls made on
its behalf and the amounts that left or entered it are kept in a journal.
-/

namespace Dkg.Publishing
open Revert Function

variable {c : Chronos}

/-- A call that changes the publishing allocations. -/
inductive Allocation where
  | add (node epoch amount : ℕ)
  | move (fromNode toNode epoch amount : ℕ)
  deriving DecidableEq, Repr

/-- `_scheduleFor`: the proration of the commitment from stored fields only. -/
def scheduleFor (c : Chronos) (a : Account) : Except Err Ranges :=
  let nextEpochStart := c.timestampForEpoch (a.createdAtEpoch + 1)
  let timeRemaining :=
    if nextEpochStart > a.createdAtTimestamp then nextEpochStart - a.createdAtTimestamp else 0
  prorateActiveSink .panic a.committedTRAC a.createdAtEpoch a.lockDurationEpochs c.epochLength
    timeRemaining

def amountForEpoch (r : Ranges) (committedTRAC epochs e : ℕ) : ℕ :=
  if r.first.tokenAmount > 0 ∧ e = r.first.startEpoch then r.first.tokenAmount
  else if r.full.tokenAmount > 0 ∧ e ≥ r.full.startEpoch ∧ e ≤ r.full.endEpoch then
    committedTRAC / epochs
  else if r.last.tokenAmount > 0 ∧ e = r.last.startEpoch then r.last.tokenAmount
  else 0

/-- The calls of a seed or move loop over the epochs from `e`, `n` of them; epochs without
an amount are skipped. -/
def allocationsFrom (call : ℕ → ℕ → Allocation) (amountAt : ℕ → ℕ) (e n : ℕ) : List Allocation :=
  ((List.range' e n).filter (amountAt · ≠ 0)).map fun i => call i (amountAt i)

/-- The record `createAccount` stores. -/
def newAccount (env : Env c) (committedTRAC primaryNode : ℕ) : Except Err Account := do
  let currentEpoch := uint40 env.block.currentEpoch
  let createdAtTimestamp := uint40 env.block.timestamp
  let configuredEpochs := env.publishingConvictionEpochs
  require (configuredEpochs ≠ 0 ∧ configuredEpochs ≤ 65535)
    (.invalidPublishingConvictionEpochs configuredEpochs)
  let lockDurationEpochs := uint16 configuredEpochs
  let expiresAtTimestamp := uint40 (createdAtTimestamp + lockDurationEpochs * c.epochLength)
  let lastSecond ← Checked.sub expiresAtTimestamp 1 .panic
  return {
    committedTRAC
    createdAtEpoch := currentEpoch
    expiresAtEpoch := uint40 (c.epochAtTimestamp lastSecond) + 1
    createdAtTimestamp
    expiresAtTimestamp
    lockDurationEpochs
    discountBps := discountBps committedTRAC
    lastSettledWindow := 0
    fullySwept := false
    primaryNode
    lastPrimaryNodeChangeEpoch := currentEpoch
    lock_lt := Nat.mod_lt _ (by norm_num) }

/-- The allocations seeded at creation. -/
def seeds (c : Chronos) (a : Account) : Except Err (List Allocation) :=
  if a.primaryNode ≠ 0 then do
    let ranges ← scheduleFor c a
    return allocationsFrom (.add a.primaryNode)
      (amountForEpoch ranges a.committedTRAC a.lockDurationEpochs) a.createdAtEpoch
      (a.lockDurationEpochs + 1)
  else .ok []

def createAccount (env : Env c) (l : Ledger) (accountId committedTRAC primaryNode : ℕ) :
    Except Err (Ledger × List Allocation) := do
  require (committedTRAC ≠ 0) .invalidAmount
  require (primaryNode = 0 ∨ env.nodeExists primaryNode = true)
    (.primaryNodeNotInShardingTable primaryNode)
  let account ← newAccount env committedTRAC primaryNode
  require (l.account.lockDurationEpochs = 0) (.accountAlreadyExists accountId)
  let allocations ← seeds c account
  return ({ l with account }, allocations)

/-- Only the epochs after the current one change node; the first designation of an
account created without one adds them. -/
def setPrimaryNode (env : Env c) (l : Ledger) (accountId newNode : ℕ) :
    Except Err (Ledger × List Allocation) := do
  let a := l.account
  require (a.lockDurationEpochs ≠ 0) (.unknownAccount accountId)
  let currentEpoch := uint40 env.block.currentEpoch
  require (currentEpoch > a.lastPrimaryNodeChangeEpoch)
    (.primaryNodeChangeRateLimited accountId a.lastPrimaryNodeChangeEpoch)
  require (newNode ≠ 0) .zeroPrimaryNode
  require (env.nodeExists newNode = true) (.primaryNodeNotInShardingTable newNode)
  require (newNode ≠ a.primaryNode) (.primaryNodeUnchanged accountId newNode)
  let ranges ← scheduleFor c a
  let lastEpoch := a.createdAtEpoch + a.lockDurationEpochs
  return (
    { l with account :=
      { a with primaryNode := newNode, lastPrimaryNodeChangeEpoch := currentEpoch } },
    allocationsFrom (if a.primaryNode ≠ 0 then .move a.primaryNode newNode else .add newNode)
      (amountForEpoch ranges a.committedTRAC a.lockDurationEpochs) (currentEpoch + 1)
      (lastEpoch - currentEpoch))

/-- What was done for an account so far. -/
structure Journal where
  toppedUp : ℕ
  bookings : List Booking
  feesPaid : ℕ
  serviceCosts : ℕ
  allocations : List Allocation

structure State where
  ledgers : ℕ → Ledger
  epochStorage : EpochStorage.Storage
  journal : ℕ → Journal

/-- An account id that is not in use. -/
def Ledger.empty : Ledger where
  account := {
    committedTRAC := 0
    createdAtEpoch := 0
    expiresAtEpoch := 0
    createdAtTimestamp := 0
    expiresAtTimestamp := 0
    lockDurationEpochs := 0
    discountBps := 0
    lastSettledWindow := 0
    fullySwept := false
    primaryNode := 0
    lastPrimaryNodeChangeEpoch := 0
    lock_lt := by norm_num }
  windowSpent := fun _ => 0
  topUpBalance := 0

def State.empty : State where
  ledgers := fun _ => .empty
  epochStorage := EpochStorage.empty
  journal := fun _ => ⟨0, [], 0, 0, []⟩

/-- The bookings of a call, made in order at epoch `cur`. -/
def issue (cur : ℕ) (s : EpochStorage.Storage) (bookings : List Booking) :
    Except Err EpochStorage.Storage :=
  bookings.foldlM (fun s b =>
    (EpochStorage.addTokensToEpochRange s cur b.shardId b.startEpoch b.endEpoch
      b.tokenAmount).mapError fun _ => .booking) s

def allocate1 (s : EpochStorage.Storage) : Allocation → Except Err EpochStorage.Storage
  | .add node epoch amount =>
    (EpochStorage.addEpochPublishingAllocation s node epoch amount).mapError fun _ => .allocation
  | .move fromNode toNode epoch amount =>
    (EpochStorage.moveEpochPublishingAllocation s fromNode toNode epoch amount).mapError
      fun _ => .move

def allocate (s : EpochStorage.Storage) (allocations : List Allocation) :
    Except Err EpochStorage.Storage :=
  allocations.foldlM allocate1 s

/-- Commit an operation on the account's money. -/
def State.commit (s : State) (env : Env c) (accountId toppedUp : ℕ) (r : Ledger × Effects) :
    Except Err State := do
  let epochStorage ← issue env.block.currentEpoch s.epochStorage r.2.bookings
  require (r.2.fee = 0 ∨ env.transferSucceeds accountId = true) .transfer
  let j := s.journal accountId
  return {
    ledgers := update s.ledgers accountId r.1
    epochStorage
    journal := update s.journal accountId
      { j with
        toppedUp := j.toppedUp + toppedUp
        bookings := j.bookings ++ r.2.bookings
        feesPaid := j.feesPaid + r.2.fee
        serviceCosts := j.serviceCosts + r.2.serviceCost } }

/-- Commit an operation on the account's designation. -/
def State.designate (s : State) (accountId : ℕ) (r : Ledger × List Allocation) :
    Except Err State := do
  let epochStorage ← allocate s.epochStorage r.2
  let j := s.journal accountId
  return {
    ledgers := update s.ledgers accountId r.1
    epochStorage
    journal := update s.journal accountId { j with allocations := j.allocations ++ r.2 } }

inductive Op where
  | createAccount (accountId committedTRAC primaryNode : ℕ)
  | setPrimaryNode (accountId newNode : ℕ)
  | topUp (accountId amount : ℕ)
  | coverPublishingCost (publishingAgent baseCost kaEpochs : ℕ)
  | coverServiceCost (accountId value : ℕ)
  | settle (accountId : ℕ)
  | settleMany (accountIds : List ℕ)
  | onTransfer (accountId : ℕ)
  /-- Other contracts add to the pools and pay them out too. -/
  | addTokensToEpochRange (shardId startEpoch endEpoch tokenAmount : ℕ)
  | payOutEpochTokens (shardId epoch identityId amount : ℕ)

structure Call (c : Chronos) where
  env : Env c
  op : Op

def settleAccount (env : Env c) (s : State) (accountId : ℕ) : Except Err State := do
  let r ← settle env (s.ledgers accountId) accountId
  s.commit env accountId 0 r

def step (s : State) (call : Call c) : Except Err State :=
  let env := call.env
  match call.op with
  | .createAccount id committedTRAC primaryNode => do
    let r ← createAccount env (s.ledgers id) id committedTRAC primaryNode
    s.designate id r
  | .setPrimaryNode id newNode => do
    let r ← setPrimaryNode env (s.ledgers id) id newNode
    s.designate id r
  | .topUp id amount => do
    let r ← topUp env (s.ledgers id) id amount
    s.commit env id amount r
  | .coverPublishingCost agent baseCost kaEpochs => do
    let id := env.agentToAccountId agent
    require (id ≠ 0) (.noConvictionAccount agent)
    let r ← coverPublishingCost env (s.ledgers id) id baseCost kaEpochs
    s.commit env id 0 r
  | .coverServiceCost id value => do
    let (r, _) ← coverServiceCost env (s.ledgers id) id value
    s.commit env id 0 r
  | .settle id => settleAccount env s id
  | .settleMany ids => ids.foldlM (settleAccount env) s
  | .onTransfer id => settleAccount env s id
  | .addTokensToEpochRange shardId startEpoch endEpoch tokenAmount => do
    let epochStorage ← (EpochStorage.addTokensToEpochRange s.epochStorage env.block.currentEpoch
      shardId startEpoch endEpoch tokenAmount).mapError fun _ => .booking
    return { s with epochStorage }
  | .payOutEpochTokens shardId epoch identityId amount => do
    let epochStorage ← (EpochStorage.payOutEpochTokens s.epochStorage env.block.currentEpoch
      shardId epoch identityId amount).mapError fun _ => .booking
    return { s with epochStorage }

/-- The clock reading of a call. -/
def Call.time (call : Call c) : ℕ := call.env.block.timestamp

end Dkg.Publishing
