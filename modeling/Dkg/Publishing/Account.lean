import Dkg.Publishing.Proration
import Dkg.Epochs.EpochStorage

/-!
`PublishingConviction`: what the operations do to one account. A billing window's unused
budget is booked once the window has closed; a spend is booked when it is made. The calls
an operation makes on `EpochStorage` and the fee it pays are returned with the new ledger.
-/

namespace Dkg.Publishing
open Revert

def BPS_DENOMINATOR : ℕ := 10000
def STAKER_SHARD_ID : ℕ := 1
def TREASURY_SHARD_ID : ℕ := 2

inductive Err where
  | invalidAmount
  | primaryNodeNotInShardingTable (node : ℕ)
  | invalidPublishingConvictionEpochs (epochs : ℕ)
  | accountAlreadyExists (accountId : ℕ)
  | unknownAccount (accountId : ℕ)
  | primaryNodeChangeRateLimited (accountId epoch : ℕ)
  | zeroPrimaryNode
  | primaryNodeUnchanged (accountId node : ℕ)
  | accountExpired (accountId epoch : ℕ)
  | noConvictionAccount (agent : ℕ)
  | invalidConvictionKaEpochs (lock kaEpochs : ℕ)
  | insufficientAllowance (accountId epoch cost available : ℕ)
  | zeroServiceValue
  | serviceFundingPausedTreasuryWired (treasury : ℕ)
  | emissionAlreadyScheduled (accountId : ℕ)
  /-- A revert in `EpochStorage.addTokensToEpochRange`. -/
  | booking
  /-- A revert in `EpochStorage.addEpochPublishingAllocation`. -/
  | allocation
  /-- A revert in `EpochStorage.moveEpochPublishingAllocation`. -/
  | move
  /-- A revert in `ConvictionStakingStorage.transferStake`. -/
  | transfer
  /-- Checked arithmetic. -/
  | panic
  deriving DecidableEq, Repr

structure Account where
  committedTRAC : ℕ
  createdAtEpoch : ℕ
  expiresAtEpoch : ℕ
  createdAtTimestamp : ℕ
  expiresAtTimestamp : ℕ
  lockDurationEpochs : ℕ
  discountBps : ℕ
  lastSettledWindow : ℕ
  fullySwept : Bool
  primaryNode : ℕ
  lastPrimaryNodeChangeEpoch : ℕ
  lock_lt : lockDurationEpochs < 2 ^ 16

/-- What `PublishingConvictionStorage` keeps for an account id. -/
structure Ledger where
  account : Account
  windowSpent : ℕ → ℕ
  topUpBalance : ℕ

/-- What a call reads outside the contract. -/
structure Env (c : Chronos) where
  block : Block c
  protocolTreasury : ℕ
  protocolTreasuryFee : ℕ
  protocolTreasuryFee_le : protocolTreasuryFee ≤ 10000
  publishingConvictionEpochs : ℕ
  nodeExists : ℕ → Bool
  agentToAccountId : ℕ → ℕ
  /-- Whether the vault pays the fee of an account. -/
  transferSucceeds : ℕ → Bool

/-- A call of `EpochStorage.addTokensToEpochRange`. -/
structure Booking extends ActiveSinkRange where
  shardId : ℕ
  deriving DecidableEq, Repr

/-- What an operation does outside the account. -/
structure Effects where
  bookings : List Booking
  /-- The fee paid to the treasury at once. -/
  fee : ℕ
  /-- The service cost returned to the caller. -/
  serviceCost : ℕ

/-- What `coverServiceCost` returns. -/
structure ServiceSpend where
  cost : ℕ
  spentFromWindow : ℕ
  spentFromTopUp : ℕ
  window : ℕ
  epoch : ℕ
  discountBps : ℕ

variable {c : Chronos}

/-- `B`, the base budget of a window. -/
def Account.baseAllowance (a : Account) : ℕ := a.committedTRAC / a.lockDurationEpochs

def Account.dust (a : Account) : ℕ := a.committedTRAC - a.baseAllowance * a.lockDurationEpochs

/-- The fee rate of `_treasuryParams`. -/
def treasuryBps (env : Env c) : ℕ :=
  if env.protocolTreasury = 0 then 0 else env.protocolTreasuryFee

def feeOf (amount bps : ℕ) : ℕ := if bps = 0 then 0 else amount * bps / BPS_DENOMINATOR

def discounted (amount bps : ℕ) : ℕ :=
  let cost := amount * (BPS_DENOMINATOR - bps) / BPS_DENOMINATOR
  if cost = 0 ∧ amount > 0 then 1 else cost

/-- The calls for the ranges of a proration; empty ranges are skipped. -/
def bookingsOf (shardId : ℕ) (r : Ranges) : List Booking :=
  (r.toList.filter (·.tokenAmount ≠ 0)).map fun x => { x with shardId }

def emitForwardFrom (c : Chronos) (shardId fromTs amount lockEpochs currentEpoch : ℕ) :
    Except Err (List Booking) := do
  let closeEpoch := c.epochAtTimestamp fromTs
  let nextBoundary := c.timestampForEpoch (closeEpoch + 1)
  let timeRemaining := if nextBoundary > fromTs then nextBoundary - fromTs else 0
  let ranges ← prorateActiveSink Err.panic amount
    (uint40 (if closeEpoch < currentEpoch then currentEpoch else closeEpoch)) lockEpochs
    c.epochLength timeRemaining
  return bookingsOf shardId ranges

def distributeProrated (env : Env c) (amount firstEpoch storageUnits : ℕ) :
    Except Err (List Booking) := do
  let ranges ← prorateActiveSink Err.panic amount firstEpoch storageUnits c.epochLength
    (c.timeUntilNextEpoch env.block.timestamp)
  return bookingsOf STAKER_SHARD_ID ranges

/-- The unused budget of window `w`; the last window also carries the dust. -/
def Ledger.remainder (l : Ledger) (w : ℕ) : ℕ :=
  let unused :=
    if l.windowSpent w < l.account.baseAllowance then l.account.baseAllowance - l.windowSpent w
    else 0
  if w = l.account.lockDurationEpochs - 1 then unused + l.account.dust else unused

/-- One side of a window's split; nothing is booked for a zero amount. -/
def emitSide (env : Env c) (l : Ledger) (shardId w amount : ℕ) : Except Err (List Booking) :=
  if amount > 0 then
    emitForwardFrom c shardId (l.account.createdAtTimestamp + (w + 1) * c.epochLength) amount
      l.account.lockDurationEpochs env.block.currentEpoch
  else .ok []

/-- One round of the loop of `_bookWindows`. -/
def bookWindow (env : Env c) (l : Ledger) (w : ℕ) : Except Err (List Booking) :=
  let remainder := l.remainder w
  if remainder = 0 then .ok []
  else do
    let fee := feeOf remainder (treasuryBps env)
    let net ← Checked.sub remainder fee Err.panic
    let stakers ← emitSide env l STAKER_SHARD_ID w net
    let treasury ← emitSide env l TREASURY_SHARD_ID w fee
    return stakers ++ treasury

/-- `n` rounds from window `w`. -/
def bookLoop (env : Env c) (l : Ledger) : ℕ → ℕ → Except Err (List Booking)
  | 0, _ => .ok []
  | n + 1, w => do
    let now ← bookWindow env l w
    let rest ← bookLoop env l n (w + 1)
    return now ++ rest

def bookWindows (env : Env c) (l : Ledger) (toWindow : ℕ) : Except Err (Ledger × List Booking) :=
  let fromWindow := l.account.lastSettledWindow
  if fromWindow ≥ toWindow then .ok (l, [])
  else do
    let bookings ← bookLoop env l (toWindow - fromWindow) fromWindow
    return ({ l with account := { l.account with lastSettledWindow := uint16 toWindow } }, bookings)

def currentBillingWindow (env : Env c) (a : Account) : ℕ :=
  if env.block.timestamp ≤ a.createdAtTimestamp then 0
  else uint40 ((env.block.timestamp - a.createdAtTimestamp) / c.epochLength)

def sweepClosedWindows (env : Env c) (l : Ledger) : Except Err (Ledger × List Booking) :=
  let currentWindow := currentBillingWindow env l.account
  let lock := l.account.lockDurationEpochs
  bookWindows env l (if currentWindow < lock then currentWindow else lock)

/-- The result of `_spend`: the ledger and the parts taken from the window and from the top-up
buffer. A window never spends past its base allowance, so the `uint96` sum cannot overflow. -/
def spend (l : Ledger) (accountId cost window epoch : ℕ) : Except Err (Ledger × ℕ × ℕ) :=
  let base := l.account.baseAllowance
  let spent := l.windowSpent window
  let windowRemaining := if spent < base then base - spent else 0
  if cost ≤ windowRemaining then
    .ok ({ l with windowSpent := Function.update l.windowSpent window (spent + cost) }, cost, 0)
  else
    let shortfall := cost - windowRemaining
    if shortfall > l.topUpBalance then
      .error (.insufficientAllowance accountId epoch cost (windowRemaining + l.topUpBalance))
    else
      .ok ({ l with
        windowSpent := Function.update l.windowSpent window (spent + windowRemaining)
        topUpBalance := l.topUpBalance - shortfall }, windowRemaining, shortfall)

/-- `_payTreasury`: nothing moves for a zero fee or while no treasury is wired. -/
def paidFee (env : Env c) (totalFee : ℕ) : ℕ :=
  if totalFee = 0 ∨ env.protocolTreasury = 0 then 0 else totalFee

def bookNet (env : Env c) (net epochs : ℕ) : Except Err (List Booking) :=
  if net > 0 then distributeProrated env net (uint40 env.block.currentEpoch) epochs else .ok []

/-- The booking of a publishing spend. -/
def bookSpend (env : Env c) (booked epochs : ℕ) : Except Err Effects :=
  if booked > 0 then do
    let fee := feeOf booked (treasuryBps env)
    let net ← Checked.sub booked fee Err.panic
    let bookings ← bookNet env net epochs
    return { bookings, fee := paidFee env fee, serviceCost := 0 }
  else .ok { bookings := [], fee := 0, serviceCost := 0 }

def requireLive (env : Env c) (l : Ledger) (accountId : ℕ) : Except Err Unit :=
  require (env.block.timestamp < l.account.expiresAtTimestamp)
    (.accountExpired accountId l.account.expiresAtEpoch)

def topUp (env : Env c) (l : Ledger) (accountId amount : ℕ) : Except Err (Ledger × Effects) := do
  require (amount ≠ 0) .invalidAmount
  require (l.account.lockDurationEpochs ≠ 0) (.unknownAccount accountId)
  requireLive env l accountId
  let (l, bookings) ← sweepClosedWindows env l
  let topUpBalance ← Checked.add 96 l.topUpBalance amount .panic
  return ({ l with topUpBalance }, { bookings, fee := 0, serviceCost := 0 })

/-- A live account whose cursor is at the lock was scheduled in full: only its top-up
spend is booked, over the lock. -/
def coverPublishingCost (env : Env c) (l : Ledger) (accountId baseCost kaEpochs : ℕ) :
    Except Err (Ledger × Effects) := do
  require (l.account.lockDurationEpochs ≠ 0) (.unknownAccount accountId)
  requireLive env l accountId
  require (kaEpochs ≠ 0 ∧ kaEpochs ≤ l.account.lockDurationEpochs)
    (.invalidConvictionKaEpochs l.account.lockDurationEpochs kaEpochs)
  let scheduled := l.account.lastSettledWindow ≥ l.account.lockDurationEpochs
  let window := currentBillingWindow env l.account
  let (l, swept) ← sweepClosedWindows env l
  let cost := discounted baseCost l.account.discountBps
  let (l, _, fromTopUp) ← spend l accountId cost window (uint40 env.block.currentEpoch)
  let effects ← bookSpend env (if scheduled then fromTopUp else cost)
    (if scheduled then l.account.lockDurationEpochs else kaEpochs)
  return (l, { effects with bookings := swept ++ effects.bookings })

def coverServiceCost (env : Env c) (l : Ledger) (accountId value : ℕ) :
    Except Err ((Ledger × Effects) × ServiceSpend) := do
  require (value ≠ 0) .zeroServiceValue
  require (env.protocolTreasury = 0) (.serviceFundingPausedTreasuryWired env.protocolTreasury)
  require (l.account.lockDurationEpochs ≠ 0) (.unknownAccount accountId)
  requireLive env l accountId
  require (l.account.lastSettledWindow < l.account.lockDurationEpochs)
    (.emissionAlreadyScheduled accountId)
  let window := currentBillingWindow env l.account
  let (l, bookings) ← sweepClosedWindows env l
  let epoch := uint40 env.block.currentEpoch
  let discountBps := l.account.discountBps
  let cost := discounted value discountBps
  let (l, spentFromWindow, spentFromTopUp) ← spend l accountId cost window epoch
  return ((l, { bookings, fee := 0, serviceCost := cost }),
    { cost, spentFromWindow, spentFromTopUp, window, epoch, discountBps })

/-- `clearTopUpBalance` and `setFullySwept`. -/
def Ledger.sweptOut (l : Ledger) : Ledger :=
  { l with topUpBalance := 0, account := { l.account with fullySwept := true } }

/-- `_finalSweep`: the leftover top-up goes to the current epoch. -/
def finalSweep (env : Env c) (l : Ledger) : Except Err (Ledger × Effects) := do
  let fee := feeOf l.topUpBalance (treasuryBps env)
  let net ← Checked.sub l.topUpBalance fee .panic
  let cur := env.block.currentEpoch
  return (l.sweptOut,
    { bookings := if net > 0 then [⟨⟨cur, cur, net⟩, STAKER_SHARD_ID⟩] else []
      fee := paidFee env fee
      serviceCost := 0 })

/-- `_settle`, behind `settle`, `settleMany` and the transfer hook. -/
def settle (env : Env c) (l : Ledger) (accountId : ℕ) : Except Err (Ledger × Effects) := do
  require (l.account.lockDurationEpochs ≠ 0) (.unknownAccount accountId)
  if l.account.fullySwept then return (l, { bookings := [], fee := 0, serviceCost := 0 })
  else do
    let (l, swept) ← sweepClosedWindows env l
    if env.block.timestamp ≥ l.account.expiresAtTimestamp then do
      let (l, effects) ← finalSweep env l
      return (l, { effects with bookings := swept ++ effects.bookings })
    else return (l, { bookings := swept, fee := 0, serviceCost := 0 })

end Dkg.Publishing
