import Dkg.Publishing.System
import Dkg.Staking.QueryInference

/-!
`ServiceSubscriptionsStorage`: the owners' opt-ins, the buyers' grants with the ends of the
grants that were replaced, and the funded subscriptions with their budgets.
-/

namespace Dkg.Subscriptions
open Revert Function

def CLASS_INFERENCE : ℕ := 1
def CLASS_QUERY : ℕ := 2

/-- What an error about a request or about terms names. -/
inductive Field where
  | buyer
  | maxCostPerEpoch
  | expiresAt
  | epoch
  | budgetCount
  | budgetOrder
  | budgetValue
  | serviceClass
  | maxPricePerUnit
  | value
  | maxBudgetsPerSubscription
  deriving DecidableEq, Repr

inductive Err where
  | notAccountOwner (accountId caller : ℕ)
  | serviceSpendingDisabled (accountId : ℕ)
  | serviceSpendingUnchanged (accountId : ℕ) (enabled : Bool)
  | invalidBuyerTerms (field : Field)
  | invalidGrantNonce (accountId expected provided : ℕ)
  | consentMissing (party : ℕ)
  | invalidConsentSignature (party : ℕ)
  | notABuyer (accountId buyer : ℕ)
  | grantedByFormerOwner (accountId buyer : ℕ)
  | grantRevoked (accountId buyer : ℕ)
  | grantExpired (accountId buyer : ℕ)
  | grantEndsBeforeSubscription (accountId buyer expiresAt startsAt : ℕ)
  | buyerLimitsUnchanged (accountId buyer : ℕ)
  | limitExceeded (field : Field) (limit attempted : ℕ)
  | spendMismatch (expectedCost cost expectedWindow window : ℕ)
  | serviceFundingPausedTreasuryWired (treasury : ℕ)
  | accountExpired (accountId epoch : ℕ)
  | emissionAlreadyScheduled (accountId : ℕ)
  | queryInferencePaused
  | queryInferenceNotActive (activationEpoch currentEpoch : ℕ)
  | invalidFundingRequest (field : Field)
  | invalidParameter (field : Field)
  | zeroSessionKey
  | subscriptionAlreadyFunded (subscriptionId : ℕ)
  | subscriptionNotFound (subscriptionId : ℕ)
  | notSubscriptionBuyer (subscriptionId buyer : ℕ)
  | wrongFundingSource (subscriptionId accountId : ℕ)
  | subscriptionEnded (subscriptionId endsAt : ℕ)
  | budgetTermsChanged (serviceId : ℕ)
  | zeroSubscriptionStart (subscriptionId : ℕ)
  | subscriptionExists (subscriptionId : ℕ)
  | budgetTopUpOutOfRange (subscriptionId count budgetCount : ℕ)
  | nonexistentToken (accountId : ℕ)
  | tokenTransferFailed
  /-- A revert in `PublishingConviction` or its storage. -/
  | conviction (e : Publishing.Err)
  /-- A revert in `QueryInferenceStorage`. -/
  | queryInference (e : Staking.Err)
  /-- Checked arithmetic, `SafeCast` and array bounds. -/
  | panic
  deriving DecidableEq, Repr

/-- An account's opt-in; it counts while the owner who made it holds the account. -/
structure ServiceSpending where
  enabledAt : ℕ
  owner : ℕ
  deriving DecidableEq, Repr

/-- `grantedAt` is zero for no grant, `revokedAt` for one that is not revoked. -/
structure BuyerGrant where
  maxCostPerEpoch : ℕ
  grantedAt : ℕ
  expiresAt : ℕ
  revokedAt : ℕ
  nonce : ℕ
  owner : ℕ
  deriving DecidableEq, Repr

structure BuyerLimits where
  maxCostPerEpoch : ℕ
  expiresAt : ℕ
  deriving DecidableEq, Repr

/-- `accountId` is zero for a wallet subscription, `startsAt` for no record. -/
structure Subscription where
  accountId : ℕ
  buyer : ℕ
  grantNonce : ℕ
  sessionKey : ℕ
  epoch : ℕ
  planDigest : ℕ
  startsAt : ℕ
  endsAt : ℕ
  fundedEpoch : ℕ
  fundedWindow : ℕ
  discountBps : ℕ
  budgetCount : ℕ
  value : ℕ
  cost : ℕ
  spentFromWindow : ℕ
  spentFromTopUp : ℕ
  deriving DecidableEq, Repr

structure ServiceBudget where
  serviceId : ℕ
  serviceClass : ℕ
  value : ℕ
  maxPricePerUnit : ℕ
  deriving DecidableEq, Repr

structure TopUpAmounts where
  value : ℕ
  cost : ℕ
  spentFromWindow : ℕ
  spentFromTopUp : ℕ
  deriving DecidableEq, Repr

structure Storage where
  maxBudgetsPerSubscription : ℕ
  serviceSpending : ℕ → ServiceSpending
  grantNonce : ℕ → ℕ
  /-- Per account and buyer, as the next. -/
  grants : ℕ × ℕ → BuyerGrant
  usage : ℕ × ℕ → ℕ
  /-- Per account, buyer and nonce. -/
  replacedGrantEnd : ℕ × ℕ × ℕ → ℕ
  subscriptions : ℕ → Subscription
  budgets : ℕ → List ServiceBudget

def BuyerGrant.none : BuyerGrant := ⟨0, 0, 0, 0, 0, 0⟩

def Subscription.none : Subscription := ⟨0, 0, 0, 0, 0, 0, 0, 0, 0, 0, 0, 0, 0, 0, 0, 0⟩

/-- `_endOf`: the expiry, or the revocation if that is sooner. -/
def BuyerGrant.endOf (g : BuyerGrant) : ℕ :=
  if g.revokedAt ≠ 0 ∧ g.revokedAt < g.expiresAt then g.revokedAt else g.expiresAt

namespace Storage

/-- The storage after `initialize`. -/
def initial : Storage where
  maxBudgetsPerSubscription := 16
  serviceSpending := fun _ => ⟨0, 0⟩
  grantNonce := fun _ => 0
  grants := fun _ => .none
  usage := fun _ => 0
  replacedGrantEnd := fun _ => 0
  subscriptions := fun _ => .none
  budgets := fun _ => []

def setMaxBudgetsPerSubscription (s : Storage) (value : ℕ) : Except Err Storage := do
  require (¬(value = 0 ∨ value > 32)) (.invalidParameter .maxBudgetsPerSubscription)
  return { s with maxBudgetsPerSubscription := value }

def setServiceSpending (s : Storage) (accountId : ℕ) (spending : ServiceSpending) : Storage :=
  { s with serviceSpending := update s.serviceSpending accountId spending }

/-- The nonce used, and the storage with the next one. -/
def consumeGrantNonce (s : Storage) (accountId : ℕ) : Except Err (ℕ × Storage) := do
  let used := s.grantNonce accountId
  let next ← Checked.add 64 used 1 .panic
  return (used, { s with grantNonce := update s.grantNonce accountId next })

/-- A grant that is replaced keeps its end. -/
def archive (s : Storage) (accountId buyer : ℕ) : ℕ × ℕ × ℕ → ℕ :=
  let replaced := s.grants (accountId, buyer)
  if replaced.grantedAt ≠ 0 then
    update s.replacedGrantEnd (accountId, buyer, replaced.nonce) replaced.endOf
  else s.replacedGrantEnd

def setGrant (s : Storage) (accountId buyer : ℕ) (grant : BuyerGrant) : Storage :=
  { s with
    replacedGrantEnd := s.archive accountId buyer
    grants := update s.grants (accountId, buyer) grant
    usage := update s.usage (accountId, buyer) 0 }

def setGrantRevokedAt (s : Storage) (accountId buyer at_ : ℕ) : Storage :=
  { s with
    grants := update s.grants (accountId, buyer)
      { s.grants (accountId, buyer) with revokedAt := at_ } }

def setBuyerLimits (s : Storage) (accountId buyer : ℕ) (limits : BuyerLimits) : Storage :=
  { s with
    grants := update s.grants (accountId, buyer)
      { s.grants (accountId, buyer) with
        maxCostPerEpoch := limits.maxCostPerEpoch
        expiresAt := limits.expiresAt } }

def recordUsage (s : Storage) (accountId buyer : ℕ) : Except Err Storage := do
  let used ← Checked.add 32 (s.usage (accountId, buyer)) 1 .panic
  return { s with usage := update s.usage (accountId, buyer) used }

def createSubscription (s : Storage) (subscriptionId : ℕ) (sub : Subscription)
    (budgets : List ServiceBudget) : Except Err Storage := do
  require (sub.startsAt ≠ 0) (.zeroSubscriptionStart subscriptionId)
  require (¬((s.subscriptions subscriptionId).startsAt ≠ 0 ∨ (s.budgets subscriptionId).length ≠ 0))
    (.subscriptionExists subscriptionId)
  return { s with
    subscriptions := update s.subscriptions subscriptionId sub
    budgets := update s.budgets subscriptionId budgets }

def addValue (b : ServiceBudget) (added : ℕ) : Except Err ServiceBudget :=
  if added ≠ 0 then do
    let value ← Checked.add 96 b.value added .panic
    return { b with value }
  else .ok b

/-- `stored[i].value += added[i]`, entry by entry. -/
def addValues : List ServiceBudget → List ℕ → Except Err (List ServiceBudget)
  | stored, [] => .ok stored
  | [], _ :: _ => .error .panic
  | b :: stored, x :: added => do
    let b ← addValue b x
    let rest ← addValues stored added
    return b :: rest

/-- Only appended budgets change the count, which is a `uint8`. -/
def countWith (sub : Subscription) (budgets appended : List ServiceBudget) : Except Err ℕ :=
  if appended.length ≠ 0 then do
    require (budgets.length < 2 ^ 8) .panic
    return budgets.length
  else .ok sub.budgetCount

/-- The sums of the spend split are written only if one of the two parts is non-zero. -/
def splitWith (sub : Subscription) (t : TopUpAmounts) : Except Err (ℕ × ℕ) :=
  if t.spentFromWindow ≠ 0 ∨ t.spentFromTopUp ≠ 0 then do
    let spentFromWindow ← Checked.add 96 sub.spentFromWindow t.spentFromWindow .panic
    let spentFromTopUp ← Checked.add 96 sub.spentFromTopUp t.spentFromTopUp .panic
    return (spentFromWindow, spentFromTopUp)
  else .ok (sub.spentFromWindow, sub.spentFromTopUp)

def applyTopUp (s : Storage) (subscriptionId : ℕ) (t : TopUpAmounts) (planDigest : ℕ)
    (added : List ℕ) (appended : List ServiceBudget) : Except Err Storage := do
  let sub := s.subscriptions subscriptionId
  require (sub.startsAt ≠ 0) (.subscriptionNotFound subscriptionId)
  let stored := s.budgets subscriptionId
  require (¬added.length > stored.length)
    (.budgetTopUpOutOfRange subscriptionId added.length stored.length)
  let raised ← addValues stored added
  let budgets := raised ++ appended
  let budgetCount ← countWith sub budgets appended
  let value ← Checked.add 96 sub.value t.value .panic
  let cost ← Checked.add 96 sub.cost t.cost .panic
  let (spentFromWindow, spentFromTopUp) ← splitWith sub t
  return { s with
    subscriptions := update s.subscriptions subscriptionId
      { sub with budgetCount, value, cost, spentFromWindow, spentFromTopUp, planDigest }
    budgets := update s.budgets subscriptionId budgets }

/-- When the grant that consumed `nonce` ended or ends. -/
def grantEnd (s : Storage) (accountId buyer nonce : ℕ) : ℕ :=
  let grant := s.grants (accountId, buyer)
  if grant.grantedAt ≠ 0 ∧ grant.nonce = nonce then grant.endOf
  else s.replacedGrantEnd (accountId, buyer, nonce)

end Storage

end Dkg.Subscriptions
