import Dkg.Subscriptions.Storage

/-!
`ServiceSubscriptions` and `ServiceSubscriptionsWallet` with the rules of `SubscriptionLib`:
the owner's opt-in and grants, the buyer's fundings and top-ups from an account or a
wallet, and the transfers of the account between owners. The id of a subscription, a hash
of its buyer and epoch, is a parameter, and so is the check of a signature.
-/

namespace Dkg.Subscriptions
open Revert Function
open Publishing (ServiceSpend)

/-- What both parties of a grant consent to. -/
structure BuyerTerms where
  accountId : ℕ
  buyer : ℕ
  maxCostPerEpoch : ℕ
  expiresAt : ℕ
  nonce : ℕ
  deriving DecidableEq, Repr

structure FundingRequest where
  accountId : ℕ
  epoch : ℕ
  sessionKey : ℕ
  planDigest : ℕ
  budgets : List ServiceBudget
  deriving DecidableEq, Repr

structure WalletFundingRequest where
  epoch : ℕ
  sessionKey : ℕ
  planDigest : ℕ
  budgets : List ServiceBudget
  deriving DecidableEq, Repr

structure Env (c : Chronos) extends Publishing.Env c where
  sender : ℕ
  /-- Whether bytes are a signature of a party over the digest of the terms, by its key or
  its code. -/
  validSignature : ℕ → BuyerTerms → List UInt8 → Bool
  /-- Whether the token moves an amount from a wallet to the vault. -/
  transferFrom : ℕ → ℕ → Bool

structure System where
  subs : Storage
  publishing : Publishing.State
  qis : Staking.QueryInference
  /-- The holder of an account's token. -/
  holder : ℕ → Option ℕ

variable {c : Chronos}

/-- `SafeCast.toUint40`. -/
def toUint40 (n : ℕ) : Except Err ℕ := do
  require (n < 2 ^ 40) .panic
  return n

section Library

def requireNotPaused (qis : Staking.QueryInference) : Except Err ℕ := do
  require (qis.paused = false) .queryInferencePaused
  return qis.activationEpoch

def requireLive (env : Env c) (qis : Staking.QueryInference) : Except Err ℕ := do
  let activation ← requireNotPaused qis
  let currentEpoch := env.block.currentEpoch
  require (¬(activation = 0 ∨ currentEpoch < activation))
    (.queryInferenceNotActive activation currentEpoch)
  return currentEpoch

def timesOf (env : Env c) (epoch currentEpoch : ℕ) : Except Err (ℕ × ℕ) := do
  require (epoch = currentEpoch ∨ epoch = currentEpoch + 1) (.invalidFundingRequest .epoch)
  let start := c.timestampForEpoch epoch
  let startsAt ← toUint40 (if env.block.timestamp > start then env.block.timestamp else start)
  let endsAt ← toUint40 (c.timestampForEpoch (epoch + 1))
  return (startsAt, endsAt)

def requireNewBudgetTerms (b : ServiceBudget) : Except Err Unit := do
  require (b.serviceClass = CLASS_INFERENCE ∨ b.serviceClass = CLASS_QUERY)
    (.invalidFundingRequest .serviceClass)
  require (b.value ≠ 0) (.invalidFundingRequest .budgetValue)
  require (b.maxPricePerUnit ≠ 0) (.invalidFundingRequest .maxPricePerUnit)

/-- Ids increase strictly; the first budget has none before it. -/
def requireOrder : Option ServiceBudget → ServiceBudget → Except Err Unit
  | none, _ => .ok ()
  | some before, b => require (before.serviceId < b.serviceId) (.invalidFundingRequest .budgetOrder)

/-- A subscription value fits a `uint96`. -/
def toValue (total : ℕ) : Except Err ℕ := do
  require (total < 2 ^ 96) (.invalidFundingRequest .value)
  return total

/-- The loop of `fundingValue`. -/
def sumBudgets : Option ServiceBudget → List ServiceBudget → Except Err ℕ
  | _, [] => .ok 0
  | before, b :: budgets => do
    requireOrder before b
    requireNewBudgetTerms b
    let rest ← sumBudgets (some b) budgets
    return b.value + rest

def fundingValue (budgets : List ServiceBudget) (maxBudgets : ℕ) : Except Err ℕ := do
  require (¬(budgets.length = 0 ∨ budgets.length > maxBudgets))
    (.invalidFundingRequest .budgetCount)
  let total ← sumBudgets none budgets
  toValue total

def requireTopUpOpen (env : Env c) (subscriptionId : ℕ) (s : Subscription) (buyer : ℕ)
    (fromAccount : Bool) : Except Err Unit := do
  require (s.startsAt ≠ 0) (.subscriptionNotFound subscriptionId)
  require (s.buyer = buyer) (.notSubscriptionBuyer subscriptionId buyer)
  require (decide (s.accountId ≠ 0) = fromAccount) (.wrongFundingSource subscriptionId s.accountId)
  require (env.block.timestamp < s.endsAt) (.subscriptionEnded subscriptionId s.endsAt)

/-- A top-up's additions, merged into the stored budgets. -/
structure TopUp where
  value : ℕ
  added : List ℕ
  appended : List ServiceBudget

/-- The loop of `mergeTopUp`: an addition with a stored id is added in its place, any
other is appended. -/
def mergeAdditions (stored : List ServiceBudget) :
    Option ServiceBudget → List ServiceBudget → TopUp → Except Err TopUp
  | _, [], t => .ok t
  | before, b :: additions, t => do
    requireOrder before b
    match stored.zipIdx.find? fun x => x.1.serviceId = b.serviceId with
    | some (old, i) => do
      require (b.value ≠ 0) (.invalidFundingRequest .budgetValue)
      require (b.serviceClass = old.serviceClass ∧ b.maxPricePerUnit = old.maxPricePerUnit)
        (.budgetTermsChanged b.serviceId)
      mergeAdditions stored (some b) additions
        { t with value := t.value + b.value, added := t.added.set i b.value }
    | none => do
      requireNewBudgetTerms b
      mergeAdditions stored (some b) additions
        { t with value := t.value + b.value, appended := t.appended ++ [b] }

def mergeTopUp (stored additions : List ServiceBudget) (maxBudgets subscriptionValue : ℕ) :
    Except Err TopUp := do
  require (additions.length ≠ 0) (.invalidFundingRequest .budgetCount)
  let t ← mergeAdditions stored none additions ⟨0, List.replicate stored.length 0, []⟩
  require (¬stored.length + t.appended.length > maxBudgets) (.invalidFundingRequest .budgetCount)
  let _ ← toValue t.value
  let _ ← toValue (subscriptionValue + t.value)
  return t

end Library

section Checks

def System.ownerOf (s : System) (accountId : ℕ) : Except Err ℕ :=
  match s.holder accountId with
  | some owner => .ok owner
  | none => .error (.nonexistentToken accountId)

def requireOwner (env : Env c) (s : System) (accountId : ℕ) : Except Err Unit := do
  let owner ← s.ownerOf accountId
  require (owner = env.sender) (.notAccountOwner accountId env.sender)

def validateLimits (env : Env c) (limits : BuyerLimits) : Except Err Unit := do
  require (limits.maxCostPerEpoch ≠ 0) (.invalidBuyerTerms .maxCostPerEpoch)
  require (¬limits.expiresAt ≤ env.block.timestamp) (.invalidBuyerTerms .expiresAt)

/-- The opt-in counts for the owner who made it. -/
def requireSpendingOn (s : System) (accountId : ℕ) : Except Err ℕ := do
  let spending := s.subs.serviceSpending accountId
  require (spending.enabledAt ≠ 0) (.serviceSpendingDisabled accountId)
  let owner ← s.ownerOf accountId
  require (spending.owner = owner) (.serviceSpendingDisabled accountId)
  return owner

def liveGrant (env : Env c) (s : System) (accountId buyer accountOwner : ℕ) :
    Except Err BuyerGrant := do
  let grant := s.subs.grants (accountId, buyer)
  require (grant.grantedAt ≠ 0) (.notABuyer accountId buyer)
  require (grant.owner = accountOwner) (.grantedByFormerOwner accountId buyer)
  require (grant.revokedAt = 0) (.grantRevoked accountId buyer)
  require (env.block.timestamp < grant.expiresAt) (.grantExpired accountId buyer)
  return grant

def requireLiveAtStart (accountId buyer : ℕ) (grant : BuyerGrant) (startsAt : ℕ) :
    Except Err Unit :=
  require (¬grant.expiresAt ≤ startsAt)
    (.grantEndsBeforeSubscription accountId buyer grant.expiresAt startsAt)

def requireFundedUnderLive (env : Env c) (s : System) (accountId buyer nonce startsAt : ℕ) :
    Except Err Unit := do
  let grantEnd := s.subs.grantEnd accountId buyer nonce
  require (env.block.timestamp < grantEnd) (.grantExpired accountId buyer)
  require (¬grantEnd ≤ startsAt) (.grantEndsBeforeSubscription accountId buyer grantEnd startsAt)

/-- A party consents by sending, with no signature, or by signing. -/
def requireConsent (env : Env c) (party : ℕ) (t : BuyerTerms) (signature : List UInt8) :
    Except Err Unit :=
  if env.sender = party then
    require (signature.length = 0) (.invalidConsentSignature party)
  else do
    require (signature.length ≠ 0) (.consentMissing party)
    require (env.validSignature party t signature = true) (.invalidConsentSignature party)

/-- `PublishingConvictionStorage.getAccount`. -/
def getAccount (s : System) (accountId : ℕ) : Except Err Publishing.Account := do
  let account := (s.publishing.ledgers accountId).account
  require (account.lockDurationEpochs ≠ 0) (.conviction (.unknownAccount accountId))
  return account

end Checks

section Owner

def setServiceSpending (env : Env c) (s : System) (accountId : ℕ) (enabled : Bool) :
    Except Err System := do
  requireOwner env s accountId
  let current := s.subs.serviceSpending accountId
  let isOn := current.enabledAt ≠ 0 ∧ current.owner = env.sender
  if enabled then do
    require (env.protocolTreasury = 0) (.serviceFundingPausedTreasuryWired env.protocolTreasury)
    let account ← getAccount s accountId
    require (env.block.timestamp < account.expiresAtTimestamp)
      (.accountExpired accountId account.expiresAtEpoch)
    require (account.lastSettledWindow < account.lockDurationEpochs)
      (.emissionAlreadyScheduled accountId)
    require (¬isOn) (.serviceSpendingUnchanged accountId true)
    let enabledAt ← toUint40 env.block.timestamp
    return { s with subs := s.subs.setServiceSpending accountId ⟨enabledAt, env.sender⟩ }
  else do
    require isOn (.serviceSpendingUnchanged accountId false)
    return { s with subs := s.subs.setServiceSpending accountId ⟨0, 0⟩ }

def addBuyer (env : Env c) (s : System) (t : BuyerTerms)
    (ownerSignature buyerSignature : List UInt8) : Except Err System := do
  let accountOwner ← requireSpendingOn s t.accountId
  require (t.buyer ≠ 0) (.invalidBuyerTerms .buyer)
  validateLimits env ⟨t.maxCostPerEpoch, t.expiresAt⟩
  let expected := s.subs.grantNonce t.accountId
  require (t.nonce = expected) (.invalidGrantNonce t.accountId expected t.nonce)
  requireConsent env accountOwner t ownerSignature
  requireConsent env t.buyer t buyerSignature
  let (used, subs) ← s.subs.consumeGrantNonce t.accountId
  let grantedAt ← toUint40 env.block.timestamp
  return { s with
    subs := subs.setGrant t.accountId t.buyer
      ⟨t.maxCostPerEpoch, grantedAt, t.expiresAt, 0, used, accountOwner⟩ }

def removeBuyer (env : Env c) (s : System) (accountId buyer : ℕ) : Except Err System := do
  requireOwner env s accountId
  let grant := s.subs.grants (accountId, buyer)
  require (grant.grantedAt ≠ 0) (.notABuyer accountId buyer)
  require (grant.revokedAt = 0) (.grantRevoked accountId buyer)
  let revokedAt ← toUint40 env.block.timestamp
  let (_, subs) ← (s.subs.setGrantRevokedAt accountId buyer revokedAt).consumeGrantNonce accountId
  return { s with subs }

def setBuyerLimits (env : Env c) (s : System) (accountId buyer : ℕ) (limits : BuyerLimits) :
    Except Err System := do
  requireOwner env s accountId
  let grant ← liveGrant env s accountId buyer env.sender
  validateLimits env limits
  require (¬(limits.maxCostPerEpoch = grant.maxCostPerEpoch ∧ limits.expiresAt = grant.expiresAt))
    (.buyerLimitsUnchanged accountId buyer)
  return { s with subs := s.subs.setBuyerLimits accountId buyer limits }

def advanceGrantNonce (env : Env c) (s : System) (accountId : ℕ) : Except Err System := do
  requireOwner env s accountId
  let (_, subs) ← s.subs.consumeGrantNonce accountId
  return { s with subs }

end Owner

section Buyer

/-- A service spend on the account's allowance. -/
def coverServiceCost (env : Env c) (p : Publishing.State) (accountId value : ℕ) :
    Except Err (Publishing.State × ServiceSpend) := do
  let (r, spend) ← (Publishing.coverServiceCost env.toEnv (p.ledgers accountId) accountId
    value).mapError .conviction
  let p ← (p.commit env.toEnv accountId 0 r).mapError .conviction
  return (p, spend)

/-- `_spend`: the cost and the window must be those computed here. -/
def spend (env : Env c) (s : System) (accountId value cost window : ℕ) :
    Except Err (System × ServiceSpend) := do
  let (publishing, spend) ← coverServiceCost env s.publishing accountId value
  require (spend.cost = cost ∧ spend.window = window)
    (.spendMismatch cost spend.cost window spend.window)
  return ({ s with publishing }, spend)

/-- `qis.addAccountFunding`. -/
def addAccountFunding (env : Env c) (s : System) (epoch amount : ℕ) : Except Err System := do
  let qis ← (s.qis.addAccountFunding env.block.currentEpoch epoch amount).mapError .queryInference
  return { s with qis }

def fundFromAccount (subscriptionIdOf : ℕ → ℕ → ℕ) (env : Env c) (s : System)
    (r : FundingRequest) : Except Err System := do
  let buyer := env.sender
  let currentEpoch ← requireLive env s.qis
  require (r.sessionKey ≠ 0) .zeroSessionKey
  let (startsAt, endsAt) ← timesOf env r.epoch currentEpoch
  let accountOwner ← requireSpendingOn s r.accountId
  let grant ← liveGrant env s r.accountId buyer accountOwner
  requireLiveAtStart r.accountId buyer grant startsAt
  let value ← fundingValue r.budgets s.subs.maxBudgetsPerSubscription
  let subscriptionId := subscriptionIdOf buyer r.epoch
  require ((s.subs.subscriptions subscriptionId).startsAt = 0)
    (.subscriptionAlreadyFunded subscriptionId)
  let account ← getAccount s r.accountId
  let cost := Publishing.discounted value account.discountBps
  require (¬cost > grant.maxCostPerEpoch)
    (.limitExceeded .maxCostPerEpoch grant.maxCostPerEpoch cost)
  let (s, spend) ← spend env s r.accountId value cost
    (Publishing.currentBillingWindow env.toEnv account)
  let subs ← s.subs.recordUsage r.accountId buyer
  let s ← addAccountFunding env s r.epoch spend.cost
  let epoch ← toUint40 r.epoch
  let subs ← subs.createSubscription subscriptionId
    { accountId := r.accountId
      buyer
      grantNonce := grant.nonce
      sessionKey := r.sessionKey
      epoch
      planDigest := r.planDigest
      startsAt
      endsAt
      fundedEpoch := spend.epoch
      fundedWindow := spend.window
      discountBps := spend.discountBps
      budgetCount := r.budgets.length % 2 ^ 8
      value
      cost := spend.cost
      spentFromWindow := spend.spentFromWindow
      spentFromTopUp := spend.spentFromTopUp }
    r.budgets
  return { s with subs }

def topUpFromAccount (env : Env c) (s : System) (subscriptionId : ℕ)
    (additions : List ServiceBudget) (planDigest : ℕ) : Except Err System := do
  let buyer := env.sender
  let _ ← requireLive env s.qis
  let sub := s.subs.subscriptions subscriptionId
  requireTopUpOpen env subscriptionId sub buyer true
  let accountOwner ← requireSpendingOn s sub.accountId
  let grant ← liveGrant env s sub.accountId buyer accountOwner
  requireLiveAtStart sub.accountId buyer grant sub.startsAt
  requireFundedUnderLive env s sub.accountId buyer sub.grantNonce sub.startsAt
  let t ← mergeTopUp (s.subs.budgets subscriptionId) additions s.subs.maxBudgetsPerSubscription
    sub.value
  let account ← getAccount s sub.accountId
  let cost := Publishing.discounted t.value account.discountBps
  require (¬sub.cost + cost > grant.maxCostPerEpoch)
    (.limitExceeded .maxCostPerEpoch grant.maxCostPerEpoch (sub.cost + cost))
  let (s, spend) ← spend env s sub.accountId t.value cost
    (Publishing.currentBillingWindow env.toEnv account)
  let s ← addAccountFunding env s sub.epoch spend.cost
  let subs ← s.subs.applyTopUp subscriptionId
    ⟨t.value, spend.cost, spend.spentFromWindow, spend.spentFromTopUp⟩ planDigest t.added
    t.appended
  return { s with subs }

end Buyer

section Wallet

/-- `qis.addWalletFunding`. -/
def addWalletFunding (env : Env c) (s : System) (epoch amount : ℕ) : Except Err System := do
  let qis ← (s.qis.addWalletFunding env.block.currentEpoch epoch amount).mapError .queryInference
  return { s with qis }

def fundFromWallet (subscriptionIdOf : ℕ → ℕ → ℕ) (env : Env c) (s : System)
    (r : WalletFundingRequest) : Except Err System := do
  let buyer := env.sender
  let currentEpoch ← requireLive env s.qis
  require (r.sessionKey ≠ 0) .zeroSessionKey
  let (startsAt, endsAt) ← timesOf env r.epoch currentEpoch
  let value ← fundingValue r.budgets s.subs.maxBudgetsPerSubscription
  let subscriptionId := subscriptionIdOf buyer r.epoch
  require ((s.subs.subscriptions subscriptionId).startsAt = 0)
    (.subscriptionAlreadyFunded subscriptionId)
  let s ← addWalletFunding env s r.epoch value
  let epoch ← toUint40 r.epoch
  let fundedEpoch ← toUint40 currentEpoch
  let subs ← s.subs.createSubscription subscriptionId
    { accountId := 0
      buyer
      grantNonce := 0
      sessionKey := r.sessionKey
      epoch
      planDigest := r.planDigest
      startsAt
      endsAt
      fundedEpoch
      fundedWindow := 0
      discountBps := 0
      budgetCount := r.budgets.length % 2 ^ 8
      value
      cost := value
      spentFromWindow := 0
      spentFromTopUp := 0 }
    r.budgets
  require (env.transferFrom buyer value = true) .tokenTransferFailed
  return { s with subs }

def topUpFromWallet (env : Env c) (s : System) (subscriptionId : ℕ)
    (additions : List ServiceBudget) (planDigest : ℕ) : Except Err System := do
  let buyer := env.sender
  let _ ← requireLive env s.qis
  let sub := s.subs.subscriptions subscriptionId
  requireTopUpOpen env subscriptionId sub buyer false
  let t ← mergeTopUp (s.subs.budgets subscriptionId) additions s.subs.maxBudgetsPerSubscription
    sub.value
  let s ← addWalletFunding env s sub.epoch t.value
  let subs ← s.subs.applyTopUp subscriptionId ⟨t.value, t.value, 0, 0⟩ planDigest t.added t.appended
  require (env.transferFrom buyer t.value = true) .tokenTransferFailed
  return { s with subs }

end Wallet

/-- A transfer of the account's token settles the account, unless it goes to its holder. -/
def transfer (env : Env c) (s : System) (accountId receiver : ℕ) : Except Err System := do
  let holder ← s.ownerOf accountId
  let s := { s with holder := update s.holder accountId (some receiver) }
  if holder ≠ receiver then do
    let publishing ←
      (Publishing.settleAccount env.toEnv s.publishing accountId).mapError .conviction
    return { s with publishing }
  else return s

/-- A new account's token goes to the caller. -/
def createAccount (env : Env c) (s : System) (accountId committedTRAC primaryNode : ℕ) :
    Except Err System := do
  let r ← (Publishing.createAccount env.toEnv (s.publishing.ledgers accountId) accountId
    committedTRAC primaryNode).mapError .conviction
  let publishing ← (s.publishing.designate accountId r).mapError .conviction
  return { s with
    publishing
    holder := update s.holder accountId (some env.sender) }

inductive Op where
  | setServiceSpending (accountId : ℕ) (enabled : Bool)
  | addBuyer (t : BuyerTerms) (ownerSignature buyerSignature : List UInt8)
  | removeBuyer (accountId buyer : ℕ)
  | setBuyerLimits (accountId buyer : ℕ) (limits : BuyerLimits)
  | advanceGrantNonce (accountId : ℕ)
  | fundFromAccount (r : FundingRequest)
  | topUpFromAccount (subscriptionId : ℕ) (additions : List ServiceBudget) (planDigest : ℕ)
  | fundFromWallet (r : WalletFundingRequest)
  | topUpFromWallet (subscriptionId : ℕ) (additions : List ServiceBudget) (planDigest : ℕ)
  | transfer (accountId receiver : ℕ)
  | createAccount (accountId committedTRAC primaryNode : ℕ)
  | setMaxBudgetsPerSubscription (value : ℕ)
  | setActivationEpoch (epoch : ℕ)
  | setPaused (value : Bool)
  /-- Any other call on the publishing accounts. -/
  | publishing (op : Publishing.Op)

structure Call (c : Chronos) where
  env : Env c
  op : Op

def Call.time (call : Call c) : ℕ := call.env.block.timestamp

def step (subscriptionIdOf : ℕ → ℕ → ℕ) (s : System) (call : Call c) : Except Err System :=
  let env := call.env
  match call.op with
  | .setServiceSpending accountId enabled => setServiceSpending env s accountId enabled
  | .addBuyer t ownerSignature buyerSignature => addBuyer env s t ownerSignature buyerSignature
  | .removeBuyer accountId buyer => removeBuyer env s accountId buyer
  | .setBuyerLimits accountId buyer limits => setBuyerLimits env s accountId buyer limits
  | .advanceGrantNonce accountId => advanceGrantNonce env s accountId
  | .fundFromAccount r => fundFromAccount subscriptionIdOf env s r
  | .topUpFromAccount subscriptionId additions planDigest =>
    topUpFromAccount env s subscriptionId additions planDigest
  | .fundFromWallet r => fundFromWallet subscriptionIdOf env s r
  | .topUpFromWallet subscriptionId additions planDigest =>
    topUpFromWallet env s subscriptionId additions planDigest
  | .transfer accountId receiver => transfer env s accountId receiver
  | .createAccount accountId committedTRAC primaryNode =>
    createAccount env s accountId committedTRAC primaryNode
  | .setMaxBudgetsPerSubscription value => do
    let subs ← s.subs.setMaxBudgetsPerSubscription value
    return { s with subs }
  | .setActivationEpoch epoch => do
    let qis ← (s.qis.setActivationEpoch env.block.currentEpoch epoch).mapError .queryInference
    return { s with qis }
  | .setPaused value => .ok { s with qis := s.qis.setPaused value }
  | .publishing op => do
    let publishing ← (Publishing.step s.publishing ⟨env.toEnv, op⟩).mapError .conviction
    return { s with publishing }

section Inversion
variable {env : Env c} {s s' : System} {a b : ℕ}

theorem toUint40_ok {n m : ℕ} (h : toUint40 n = .ok m) : m = n := by
  simp only [toUint40, bind_eq_ok, pure_eq_ok] at h
  obtain ⟨_, _, rfl⟩ := h
  rfl

theorem ownerOf_holder {owner : ℕ} (h : s.ownerOf a = .ok owner) : s.holder a ≠ none := by
  intro hnone
  simp [System.ownerOf, hnone] at h

theorem transfer_ok {receiver : ℕ} (h : transfer env s a receiver = .ok s') :
    s.holder a ≠ none ∧ ∃ publishing,
      s' = { s with publishing, holder := update s.holder a (some receiver) } := by
  simp only [transfer, bind_eq_ok] at h
  obtain ⟨owner, howner, h⟩ := h
  refine ⟨ownerOf_holder howner, ?_⟩
  split at h
  · simp only [bind_eq_ok, pure_eq_ok] at h
    obtain ⟨publishing, _, rfl⟩ := h
    exact ⟨publishing, rfl⟩
  · simp only [pure_eq_ok] at h
    exact ⟨s.publishing, h.symm⟩

theorem setServiceSpending_ok {enabled : Bool} (h : setServiceSpending env s a enabled = .ok s') :
    ∃ spending, s' = { s with subs := s.subs.setServiceSpending a spending } := by
  cases enabled with
  | true =>
    simp only [setServiceSpending, bind_eq_ok, if_true, pure_eq_ok] at h
    obtain ⟨_, _, _, _, _, _, _, _, _, _, _, _, _, _, rfl⟩ := h
    exact ⟨_, rfl⟩
  | false =>
    simp only [setServiceSpending, bind_eq_ok, Bool.false_eq_true, if_false, pure_eq_ok] at h
    obtain ⟨_, _, _, _, rfl⟩ := h
    exact ⟨_, rfl⟩

theorem consumeGrantNonce_ok {s s' : Storage} {used : ℕ}
    (h : s.consumeGrantNonce a = .ok (used, s')) :
    used = s.grantNonce a ∧
      s' = { s with grantNonce := update s.grantNonce a (s.grantNonce a + 1) } := by
  simp only [Storage.consumeGrantNonce, bind_eq_ok, Checked.add_eq_ok, pure_eq_ok,
    Prod.mk.injEq] at h
  obtain ⟨_, ⟨_, rfl⟩, rfl, rfl⟩ := h
  exact ⟨rfl, rfl⟩

/-- The grant that `addBuyer` stores. -/
def grantOf (t : BuyerTerms) (now owner : ℕ) : BuyerGrant :=
  ⟨t.maxCostPerEpoch, now, t.expiresAt, 0, t.nonce, owner⟩

theorem addBuyer_ok {t : BuyerTerms} {os bs : List UInt8} (h : addBuyer env s t os bs = .ok s') :
    t.nonce = s.subs.grantNonce t.accountId ∧ ∃ owner, s' = { s with subs :=
      { s.subs with
        grantNonce := update s.subs.grantNonce t.accountId (t.nonce + 1)
        replacedGrantEnd := s.subs.archive t.accountId t.buyer
        grants := update s.subs.grants (t.accountId, t.buyer)
          (grantOf t env.block.timestamp owner)
        usage := update s.subs.usage (t.accountId, t.buyer) 0 } } := by
  simp only [addBuyer, bind_eq_ok, require_eq_ok, pure_eq_ok, Prod.exists] at h
  obtain ⟨owner, _, _, _, _, _, _, hnonce, _, _, _, _, used, subs, hconsume, now, hnow, rfl⟩ := h
  obtain ⟨rfl, rfl⟩ := consumeGrantNonce_ok hconsume
  obtain rfl := toUint40_ok hnow
  refine ⟨hnonce, owner, ?_⟩
  rw [hnonce, grantOf, hnonce]
  rfl

theorem removeBuyer_ok (h : removeBuyer env s a b = .ok s') :
    (s.subs.grants (a, b)).revokedAt = 0 ∧ s' = { s with subs :=
      { s.subs.setGrantRevokedAt a b env.block.timestamp with
        grantNonce := update s.subs.grantNonce a (s.subs.grantNonce a + 1) } } := by
  simp only [removeBuyer, bind_eq_ok, require_eq_ok, pure_eq_ok, Prod.exists] at h
  obtain ⟨_, _, _, _, _, hlive, now, hnow, _, subs, hconsume, rfl⟩ := h
  obtain ⟨_, rfl⟩ := consumeGrantNonce_ok hconsume
  obtain rfl := toUint40_ok hnow
  exact ⟨hlive, rfl⟩

theorem setBuyerLimits_ok {limits : BuyerLimits} (h : setBuyerLimits env s a b limits = .ok s') :
    (s.subs.grants (a, b)).revokedAt = 0 ∧
      env.block.timestamp < (s.subs.grants (a, b)).expiresAt ∧
      s' = { s with subs := s.subs.setBuyerLimits a b limits } := by
  simp only [setBuyerLimits, liveGrant, bind_eq_ok, require_eq_ok, pure_eq_ok] at h
  obtain ⟨_, _, _, ⟨_, _, _, _, _, hrevoked, _, hexpires, rfl⟩, _, _, _, _, rfl⟩ := h
  exact ⟨hrevoked, hexpires, rfl⟩

theorem advanceGrantNonce_ok (h : advanceGrantNonce env s a = .ok s') :
    s' = { s with subs := { s.subs with
      grantNonce := update s.subs.grantNonce a (s.subs.grantNonce a + 1) } } := by
  simp only [advanceGrantNonce, bind_eq_ok, pure_eq_ok, Prod.exists] at h
  obtain ⟨_, _, _, subs, hconsume, rfl⟩ := h
  rw [(consumeGrantNonce_ok hconsume).2]

end Inversion

/-- No grant, opt-in or subscription yet; anything else may have happened before. -/
def System.fresh (publishing : Publishing.State) (qis : Staking.QueryInference)
    (holder : ℕ → Option ℕ) : System :=
  ⟨.initial, publishing, qis, holder⟩

end Dkg.Subscriptions
