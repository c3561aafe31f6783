import Dkg.Publishing.Escrow
import Dkg.Subscriptions.Service

/-!
What the calls do to the stored budgets: a funding writes them once, a top-up raises or
appends, and nothing else touches them.
-/

namespace Dkg.Subscriptions
open Revert Function
open Publishing (ServiceSpend)

variable {c : Chronos} {idOf : ℕ → ℕ → ℕ} {env : Env c} {s s' : System} {call : Call c}
  {n maxBudgets value : ℕ} {budgets stored additions appended : List ServiceBudget}
  {before : Option ServiceBudget}

/-- The sum of the budgets' values. -/
def totalValue (budgets : List ServiceBudget) : ℕ := (budgets.map (·.value)).sum

theorem le_totalValue {b : ServiceBudget} (h : b ∈ budgets) : b.value ≤ totalValue budgets :=
  List.le_sum_of_mem (List.mem_map_of_mem h)

section Values

theorem toValue_ok {total : ℕ} (h : toValue total = .ok value) : total < 2 ^ 96 ∧ value = total := by
  simp only [toValue, bind_eq_ok, require_eq_ok, pure_eq_ok] at h
  obtain ⟨_, hlt, rfl⟩ := h
  exact ⟨hlt, rfl⟩

theorem sumBudgets_ok (h : sumBudgets before budgets = .ok value) : value = totalValue budgets := by
  induction budgets generalizing before value with
  | nil => exact (Except.ok.inj h).symm
  | cons b budgets ih =>
    simp only [sumBudgets, bind_eq_ok, pure_eq_ok] at h
    obtain ⟨_, _, _, _, rest, hrest, rfl⟩ := h
    rw [ih hrest]
    rfl

theorem fundingValue_ok (h : fundingValue budgets maxBudgets = .ok value) :
    value = totalValue budgets ∧ value < 2 ^ 96 := by
  simp only [fundingValue, bind_eq_ok] at h
  obtain ⟨_, _, total, htotal, hvalue⟩ := h
  obtain ⟨hlt, rfl⟩ := toValue_ok hvalue
  exact ⟨sumBudgets_ok htotal, hlt⟩

theorem mergeAdditions_appended {t t' : TopUp}
    (h : mergeAdditions stored before additions t = .ok t')
    (ht : totalValue t.appended ≤ t.value) : totalValue t'.appended ≤ t'.value := by
  induction additions generalizing before t with
  | nil =>
    obtain rfl := Except.ok.inj h
    exact ht
  | cons b additions ih =>
    simp only [mergeAdditions, bind_eq_ok] at h
    obtain ⟨_, _, h⟩ := h
    split at h
    · simp only [bind_eq_ok] at h
      obtain ⟨_, _, _, _, h⟩ := h
      exact ih h (ht.trans (Nat.le_add_right _ _))
    · simp only [bind_eq_ok] at h
      obtain ⟨_, _, h⟩ := h
      refine ih h ?_
      simpa [totalValue] using ht

theorem mergeTopUp_appended {t : TopUp} (h : mergeTopUp stored additions maxBudgets value = .ok t) :
    totalValue t.appended < 2 ^ 96 := by
  simp only [mergeTopUp, bind_eq_ok, pure_eq_ok] at h
  obtain ⟨_, _, t', ht', _, _, _, htotal, _, _, rfl⟩ := h
  have hle := mergeAdditions_appended ht' (Nat.zero_le _)
  exact hle.trans_lt (toValue_ok htotal).1

/-- Two budgets of the same service, the second with at least the value, in `uint96`. -/
structure Raised (b b' : ServiceBudget) : Prop where
  serviceId : b'.serviceId = b.serviceId
  serviceClass : b'.serviceClass = b.serviceClass
  maxPricePerUnit : b'.maxPricePerUnit = b.maxPricePerUnit
  value_le : b.value ≤ b'.value
  value_lt : b.value < 2 ^ 96 → b'.value < 2 ^ 96

theorem Raised.refl (b : ServiceBudget) : Raised b b := ⟨rfl, rfl, rfl, le_rfl, id⟩

theorem Raised.trans {b b' b'' : ServiceBudget} (h : Raised b b') (h' : Raised b' b'') :
    Raised b b'' where
  serviceId := h'.serviceId.trans h.serviceId
  serviceClass := h'.serviceClass.trans h.serviceClass
  maxPricePerUnit := h'.maxPricePerUnit.trans h.maxPricePerUnit
  value_le := h.value_le.trans h'.value_le
  value_lt hlt := h'.value_lt (h.value_lt hlt)

theorem addValue_raised {b b' : ServiceBudget} {added : ℕ}
    (h : Storage.addValue b added = .ok b') : Raised b b' := by
  unfold Storage.addValue at h
  split at h
  · simp only [bind_eq_ok, Checked.add_eq_ok, pure_eq_ok] at h
    obtain ⟨_, ⟨hlt, rfl⟩, rfl⟩ := h
    exact ⟨rfl, rfl, rfl, Nat.le_add_right _ _, fun _ => hlt⟩
  · obtain rfl := Except.ok.inj h
    exact .refl b

theorem addValues_raised {added : List ℕ} {raised : List ServiceBudget}
    (h : Storage.addValues stored added = .ok raised) : List.Forall₂ Raised stored raised := by
  induction stored generalizing added raised with
  | nil =>
    cases added with
    | nil =>
      obtain rfl := Except.ok.inj h
      exact .nil
    | cons x added => cases h
  | cons b stored ih =>
    cases added with
    | nil =>
      obtain rfl := Except.ok.inj h
      exact List.forall₂_same.mpr fun b _ => .refl b
    | cons x added =>
      simp only [Storage.addValues, bind_eq_ok, pure_eq_ok] at h
      obtain ⟨b', hb', rest, hrest, rfl⟩ := h
      exact .cons (addValue_raised hb') (ih hrest)

/-- A stored budget is raised in its place; what is at a new index was appended. -/
theorem raised_getElem? (appended : List ServiceBudget) {raised : List ServiceBudget}
    (h : List.Forall₂ Raised stored raised) (i : ℕ) :
    (∃ b b', stored[i]? = some b ∧ (raised ++ appended)[i]? = some b' ∧ Raised b b') ∨
      stored[i]? = none ∧ ∀ b', (raised ++ appended)[i]? = some b' → b' ∈ appended := by
  induction h generalizing i with
  | nil => exact .inr ⟨rfl, fun b' hb' => List.mem_of_getElem? hb'⟩
  | cons hb h ih =>
    cases i with
    | zero => exact .inl ⟨_, _, rfl, rfl, hb⟩
    | succ i => exact ih i

end Values

section Calls

theorem spend_ok {a cost window : ℕ} {r : ServiceSpend}
    (h : spend env s a value cost window = .ok (s', r)) :
    r.cost = r.spentFromWindow + r.spentFromTopUp ∧ ∃ publishing, s' = { s with publishing } := by
  simp only [spend, coverServiceCost, bind_eq_ok, mapError_eq_ok, pure_eq_ok, Prod.exists,
    Prod.mk.injEq] at h
  obtain ⟨_, _, ⟨_, _, spend, hcover, _, _, rfl, rfl⟩, _, _, rfl, rfl⟩ := h
  exact ⟨Publishing.coverServiceCost_split hcover, _, rfl⟩

/-- The funding of one epoch grows. -/
def raise (funding : ℕ → ℕ) (epoch amount : ℕ) : ℕ → ℕ :=
  update funding epoch (funding epoch + amount)

theorem addAccountFunding_ok {epoch amount : ℕ}
    (h : addAccountFunding env s epoch amount = .ok s') : ∃ qis, s' = { s with qis } ∧
      qis.accountFunding = raise s.qis.accountFunding epoch amount := by
  simp only [addAccountFunding, Staking.QueryInference.addAccountFunding, bind_eq_ok,
    mapError_eq_ok, Checked.add_eq_ok, pure_eq_ok] at h
  obtain ⟨_, ⟨_, _, _, ⟨_, rfl⟩, rfl⟩, rfl⟩ := h
  exact ⟨_, rfl, rfl⟩

theorem addWalletFunding_ok {epoch amount : ℕ}
    (h : addWalletFunding env s epoch amount = .ok s') : ∃ qis, s' = { s with qis } ∧
      qis.accountFunding = raise s.qis.accountFunding epoch 0 := by
  simp only [addWalletFunding, Staking.QueryInference.addWalletFunding, bind_eq_ok,
    mapError_eq_ok, pure_eq_ok] at h
  obtain ⟨_, ⟨_, _, _, _, rfl⟩, rfl⟩ := h
  exact ⟨_, rfl, by rw [raise, add_zero, update_eq_self]⟩

theorem createSubscription_ok {s s' : Storage} {id : ℕ} {sub : Subscription}
    (h : s.createSubscription id sub budgets = .ok s') :
    sub.startsAt ≠ 0 ∧ (s.subscriptions id).startsAt = 0 ∧ s.budgets id = [] ∧
      s' = { s with
        subscriptions := update s.subscriptions id sub
        budgets := update s.budgets id budgets } := by
  simp only [Storage.createSubscription, bind_eq_ok, require_eq_ok, pure_eq_ok] at h
  obtain ⟨_, hstart, _, hfree, rfl⟩ := h
  rw [not_or, not_not, not_not, List.length_eq_zero_iff] at hfree
  exact ⟨hstart, hfree.1, hfree.2, rfl⟩

theorem requireSpendingOn_holder {a owner : ℕ} (h : requireSpendingOn s a = .ok owner) :
    s.holder a ≠ none := by
  intro hnone
  simp [requireSpendingOn, System.ownerOf, hnone, bind_eq_ok] at h

/-- A new subscription for these budgets, of which the accounts paid `paid`. -/
structure Funded (idOf : ℕ → ℕ → ℕ) (sub : Subscription) (budgets : List ServiceBudget)
    (paid : ℕ) (s s' : System) : Prop where
  start : sub.startsAt ≠ 0
  new : (s.subs.subscriptions (idOf sub.buyer sub.epoch)).startsAt = 0
  empty : s.subs.budgets (idOf sub.buyer sub.epoch) = []
  value : fundingValue budgets s.subs.maxBudgetsPerSubscription = .ok sub.value
  budgetCount : sub.budgetCount = budgets.length % 2 ^ 8
  split : sub.accountId ≠ 0 → sub.cost = sub.spentFromWindow + sub.spentFromTopUp
  subs : s'.subs = { s.subs with
    usage := s'.subs.usage
    subscriptions := update s.subs.subscriptions (idOf sub.buyer sub.epoch) sub
    budgets := update s.subs.budgets (idOf sub.buyer sub.epoch) budgets }
  funding : s'.qis.accountFunding = raise s.qis.accountFunding sub.epoch paid
  holder : s'.holder = s.holder

theorem fundFromAccount_ok {r : FundingRequest} (h : fundFromAccount idOf env s r = .ok s') :
    ∃ sub, s.holder sub.accountId ≠ none ∧ Funded idOf sub r.budgets sub.cost s s' := by
  simp only [fundFromAccount, Storage.recordUsage, bind_eq_ok, pure_eq_ok, Prod.exists] at h
  obtain ⟨_, _, _, _, _, _, _, owner, howner, _, _, _, _, value, hvalue, _, _, _, _, _, _, s₁, r₁,
    hspend, _, ⟨_, _, rfl⟩, s₂, hfunding, epoch, hepoch, subs, hcreate, rfl⟩ := h
  obtain ⟨hsplit, _, rfl⟩ := spend_ok hspend
  obtain ⟨_, rfl, hfund⟩ := addAccountFunding_ok hfunding
  obtain rfl := toUint40_ok hepoch
  obtain ⟨hstart, hnew, hempty, rfl⟩ := createSubscription_ok hcreate
  exact ⟨_, requireSpendingOn_holder howner,
    ⟨hstart, hnew, hempty, hvalue, rfl, fun _ => hsplit, rfl, hfund, rfl⟩⟩

theorem fundFromWallet_ok {r : WalletFundingRequest} (h : fundFromWallet idOf env s r = .ok s') :
    ∃ sub, sub.accountId = 0 ∧ Funded idOf sub r.budgets 0 s s' := by
  simp only [fundFromWallet, bind_eq_ok, pure_eq_ok, Prod.exists] at h
  obtain ⟨_, _, _, _, _, _, _, value, hvalue, _, _, s₁, hfunding, epoch, hepoch, _, _, subs,
    hcreate, _, _, rfl⟩ := h
  obtain ⟨_, rfl, hfund⟩ := addWalletFunding_ok hfunding
  obtain rfl := toUint40_ok hepoch
  obtain ⟨hstart, hnew, hempty, rfl⟩ := createSubscription_ok hcreate
  exact ⟨_, rfl, ⟨hstart, hnew, hempty, hvalue, rfl, fun hne => absurd rfl hne, rfl, hfund, rfl⟩⟩

theorem splitWith_ok {sub : Subscription} {t : TopUpAmounts} {w b : ℕ}
    (h : Storage.splitWith sub t = .ok (w, b)) :
    w = sub.spentFromWindow + t.spentFromWindow ∧ b = sub.spentFromTopUp + t.spentFromTopUp := by
  unfold Storage.splitWith at h
  split at h
  · simp only [bind_eq_ok, Checked.add_eq_ok, pure_eq_ok, Prod.mk.injEq] at h
    obtain ⟨_, ⟨_, rfl⟩, _, ⟨_, rfl⟩, rfl, rfl⟩ := h
    exact ⟨rfl, rfl⟩
  · simp only [Except.ok.injEq, Prod.mk.injEq] at h
    omega

/-- What an account pays of a cost: wallet subscriptions are those of account 0. -/
def charged (accountId cost : ℕ) : ℕ := if accountId = 0 then 0 else cost

/-- A subscription with a top-up of these amounts, and `count` budgets after it. -/
def Subscription.topUp (sub : Subscription) (a : TopUpAmounts) (count planDigest : ℕ) :
    Subscription :=
  { sub with
    budgetCount := count
    value := sub.value + a.value
    cost := sub.cost + a.cost
    spentFromWindow := sub.spentFromWindow + a.spentFromWindow
    spentFromTopUp := sub.spentFromTopUp + a.spentFromTopUp
    planDigest }

theorem applyTopUp_ok {s s' : Storage} {id digest : ℕ} {a : TopUpAmounts} {added : List ℕ}
    (h : s.applyTopUp id a digest added appended = .ok s') :
    (s.subscriptions id).startsAt ≠ 0 ∧ ∃ raised count,
      Storage.addValues (s.budgets id) added = .ok raised ∧
      Storage.countWith (s.subscriptions id) (raised ++ appended) appended = .ok count ∧
      s' = { s with
        subscriptions := update s.subscriptions id ((s.subscriptions id).topUp a count digest)
        budgets := update s.budgets id (raised ++ appended) } := by
  simp only [Storage.applyTopUp, bind_eq_ok, require_eq_ok, Checked.add_eq_ok, pure_eq_ok,
    Prod.exists] at h
  obtain ⟨_, hold, _, _, raised, hraised, count, hcount, _, ⟨_, rfl⟩, _, ⟨_, rfl⟩, _, _, hspent,
    rfl⟩ := h
  obtain ⟨rfl, rfl⟩ := splitWith_ok hspent
  exact ⟨hold, raised, count, hraised, hcount, rfl⟩

/-- A stored subscription with these additions to its budgets, of which an account paid its
part out of two pots. -/
structure ToppedUp (id : ℕ) (t : TopUp) (a : TopUpAmounts) (additions : List ServiceBudget)
    (s s' : System) : Prop where
  merged : mergeTopUp (s.subs.budgets id) additions s.subs.maxBudgetsPerSubscription
    (s.subs.subscriptions id).value = .ok t
  value : a.value = t.value
  split : (s.subs.subscriptions id).accountId ≠ 0 → a.cost = a.spentFromWindow + a.spentFromTopUp
  applied : ∃ digest, s.subs.applyTopUp id a digest t.added t.appended = .ok s'.subs
  funding : s'.qis.accountFunding = raise s.qis.accountFunding (s.subs.subscriptions id).epoch
    (charged (s.subs.subscriptions id).accountId a.cost)
  holder : s'.holder = s.holder

theorem topUpFromAccount_ok {id digest : ℕ}
    (h : topUpFromAccount env s id additions digest = .ok s') :
    ∃ t a, ToppedUp id t a additions s s' := by
  simp only [topUpFromAccount, requireTopUpOpen, bind_eq_ok, require_eq_ok, pure_eq_ok,
    Prod.exists] at h
  obtain ⟨_, _, _, ⟨_, _, _, _, _, haccount, _⟩, _, _, _, _, _, _, _, _, t, ht, _, _, _, _, s₁, _,
    hspend, s₂, hfunding, subs, happly, rfl⟩ := h
  obtain ⟨hsplit, _, rfl⟩ := spend_ok hspend
  obtain ⟨_, rfl, hfund⟩ := addAccountFunding_ok hfunding
  refine ⟨t, _, ht, rfl, fun _ => hsplit, ⟨digest, happly⟩, ?_, rfl⟩
  rw [charged, if_neg (of_decide_eq_true haccount)]
  exact hfund

theorem topUpFromWallet_ok {id digest : ℕ}
    (h : topUpFromWallet env s id additions digest = .ok s') :
    ∃ t a, ToppedUp id t a additions s s' := by
  simp only [topUpFromWallet, requireTopUpOpen, bind_eq_ok, require_eq_ok, pure_eq_ok] at h
  obtain ⟨_, _, _, ⟨_, _, _, _, _, haccount, _⟩, t, ht, s₁, hfunding, subs, happly, _, _, rfl⟩ := h
  obtain ⟨_, rfl, hfund⟩ := addWalletFunding_ok hfunding
  have hzero : (s.subs.subscriptions id).accountId = 0 := of_not_not (of_decide_eq_false haccount)
  refine ⟨t, _, ht, rfl, fun hne => absurd hzero hne, ⟨digest, happly⟩, ?_, rfl⟩
  rw [charged, if_pos hzero]
  exact hfund

end Calls

section Steps

/-- The subscription a top-up names. -/
def Op.toppedUp : Op → Option ℕ
  | .topUpFromAccount id _ _ => some id
  | .topUpFromWallet id _ _ => some id
  | _ => none

/-- What a call can do to the records and their budgets, with the subscription it tops up. -/
inductive BudgetStep : Option ℕ → Storage → Storage → Prop
  | same {s s' : Storage} (hsubs : s'.subscriptions = s.subscriptions)
      (hbudgets : s'.budgets = s.budgets) : BudgetStep none s s'
  | create {s s' : Storage} (id : ℕ) (sub : Subscription) (budgets : List ServiceBudget)
      (hnew : (s.subscriptions id).startsAt = 0) (hempty : s.budgets id = [])
      (hstart : sub.startsAt ≠ 0) (hvalue : totalValue budgets < 2 ^ 96)
      (hsubs : s'.subscriptions = update s.subscriptions id sub)
      (hbudgets : s'.budgets = update s.budgets id budgets) : BudgetStep none s s'
  | topUp {s s' : Storage} (id : ℕ) (sub : Subscription) (raised appended : List ServiceBudget)
      (hold : (s.subscriptions id).startsAt ≠ 0)
      (hstart : sub.startsAt = (s.subscriptions id).startsAt)
      (hraised : List.Forall₂ Raised (s.budgets id) raised)
      (hvalue : totalValue appended < 2 ^ 96)
      (hsubs : s'.subscriptions = update s.subscriptions id sub)
      (hbudgets : s'.budgets = update s.budgets id (raised ++ appended)) :
      BudgetStep (some id) s s'

/-- A stored budget stays at its index. -/
theorem BudgetStep.raised {top : Option ℕ} {s s' : Storage} (h : BudgetStep top s s') {id i : ℕ}
    {b : ServiceBudget} (hb : (s.budgets id)[i]? = some b) :
    ∃ b', (s'.budgets id)[i]? = some b' ∧ Raised b b' := by
  cases h with
  | same _ hbudgets => exact ⟨b, by rw [hbudgets, hb], .refl b⟩
  | create new sub budgets _ hempty _ _ _ hbudgets =>
    have hne : id ≠ new := by
      rintro rfl
      simp [hempty] at hb
    exact ⟨b, by rw [hbudgets, update_of_ne hne, hb], .refl b⟩
  | topUp top sub raised appended _ _ hraised _ _ hbudgets =>
    by_cases hid : id = top
    · subst hid
      rw [hbudgets, update_self]
      rcases raised_getElem? appended hraised i with ⟨old, b', hold, hb', hr⟩ | ⟨hnone, -⟩
      · rw [hold, Option.some.injEq] at hb
        exact ⟨b', hb', hb ▸ hr⟩
      · rw [hnone] at hb
        cases hb
    · exact ⟨b, by rw [hbudgets, update_of_ne hid, hb], .refl b⟩

theorem Funded.step {sub : Subscription} {paid : ℕ} (h : Funded idOf sub budgets paid s s') :
    BudgetStep none s.subs s'.subs := by
  obtain ⟨hvalue, hlt⟩ := fundingValue_ok h.value
  exact .create _ sub budgets h.new h.empty h.start (hvalue ▸ hlt) (by rw [h.subs]) (by rw [h.subs])

theorem ToppedUp.step {id : ℕ} {t : TopUp} {a : TopUpAmounts}
    (h : ToppedUp id t a additions s s') : BudgetStep (some id) s.subs s'.subs := by
  obtain ⟨digest, happly⟩ := h.applied
  obtain ⟨hold, raised, count, hraised, _, hs'⟩ := applyTopUp_ok happly
  exact .topUp id ((s.subs.subscriptions id).topUp a count digest) raised t.appended hold rfl
    (addValues_raised hraised) (mergeTopUp_appended h.merged) (by rw [hs']) (by rw [hs'])

/-- A call that writes a record. -/
def Op.writesRecord : Op → Bool
  | .fundFromAccount _ => true
  | .topUpFromAccount _ _ _ => true
  | .fundFromWallet _ => true
  | .topUpFromWallet _ _ _ => true
  | _ => false

/-- The mint counter of the accounts starts at 1. -/
def Op.MintsFromOne : Op → Prop
  | .createAccount accountId _ _ => accountId ≠ 0
  | _ => True

/-- What the calls that write no record leave alone. -/
structure Quiet (op : Op) (s s' : System) : Prop where
  subscriptions : s'.subs.subscriptions = s.subs.subscriptions
  budgets : s'.subs.budgets = s.subs.budgets
  accountFunding : s'.qis.accountFunding = s.qis.accountFunding
  maxBudgets : s.subs.maxBudgetsPerSubscription ≤ 32 → s'.subs.maxBudgetsPerSubscription ≤ 32
  holder : op.MintsFromOne → s.holder 0 = none → s'.holder 0 = none

/-- The grants, the nonces and the ends that were kept are the same. -/
structure SameGrants (s s' : Storage) : Prop where
  grantNonce : s'.grantNonce = s.grantNonce
  grants : s'.grants = s.grants
  replaced : s'.replacedGrantEnd = s.replacedGrantEnd

/-- A call that changes a grant or uses a nonce. -/
def Op.changesGrants : Op → Bool
  | .addBuyer _ _ _ => true
  | .removeBuyer _ _ => true
  | .setBuyerLimits _ _ _ => true
  | .advanceGrantNonce _ => true
  | _ => false

theorem step_quiet (hop : call.op.writesRecord = false) (h : step idOf s call = .ok s') :
    Quiet call.op s s' ∧ (call.op.changesGrants = false → SameGrants s.subs s'.subs) := by
  obtain ⟨env, op⟩ := call
  cases op with
  | setServiceSpending a enabled =>
    obtain ⟨_, rfl⟩ := setServiceSpending_ok h
    exact ⟨⟨rfl, rfl, rfl, id, fun _ => id⟩, fun _ => ⟨rfl, rfl, rfl⟩⟩
  | addBuyer t os bs =>
    obtain ⟨_, _, rfl⟩ := addBuyer_ok h
    exact ⟨⟨rfl, rfl, rfl, id, fun _ => id⟩, nofun⟩
  | removeBuyer a b =>
    obtain ⟨_, rfl⟩ := removeBuyer_ok h
    exact ⟨⟨rfl, rfl, rfl, id, fun _ => id⟩, nofun⟩
  | setBuyerLimits a b limits =>
    obtain ⟨_, _, rfl⟩ := setBuyerLimits_ok h
    exact ⟨⟨rfl, rfl, rfl, id, fun _ => id⟩, nofun⟩
  | advanceGrantNonce a =>
    obtain rfl := advanceGrantNonce_ok h
    exact ⟨⟨rfl, rfl, rfl, id, fun _ => id⟩, nofun⟩
  | fundFromAccount r => cases hop
  | topUpFromAccount id additions digest | fundFromWallet r | topUpFromWallet id additions digest =>
    cases hop
  | transfer a receiver =>
    obtain ⟨hholder, _, rfl⟩ := transfer_ok h
    refine ⟨⟨rfl, rfl, rfl, id, fun _ hnone => ?_⟩, fun _ => ⟨rfl, rfl, rfl⟩⟩
    have hne : 0 ≠ a := fun h => hholder (h ▸ hnone)
    exact (update_of_ne hne _ _).trans hnone
  | createAccount a committedTRAC primaryNode =>
    simp only [step, createAccount, bind_eq_ok, pure_eq_ok] at h
    obtain ⟨_, _, _, _, rfl⟩ := h
    refine ⟨⟨rfl, rfl, rfl, id, fun hmint hnone => ?_⟩, fun _ => ⟨rfl, rfl, rfl⟩⟩
    have hne : 0 ≠ a := fun h => hmint h.symm
    exact (update_of_ne hne _ _).trans hnone
  | setMaxBudgetsPerSubscription value =>
    simp only [step, Storage.setMaxBudgetsPerSubscription, bind_eq_ok, require_eq_ok,
      pure_eq_ok] at h
    obtain ⟨_, ⟨_, hvalue, rfl⟩, rfl⟩ := h
    exact ⟨⟨rfl, rfl, rfl, fun _ => by dsimp only; omega, fun _ => id⟩, fun _ => ⟨rfl, rfl, rfl⟩⟩
  | setActivationEpoch epoch =>
    simp only [step, Staking.QueryInference.setActivationEpoch, bind_eq_ok, mapError_eq_ok,
      pure_eq_ok] at h
    obtain ⟨_, ⟨_, _, _, _, rfl⟩, rfl⟩ := h
    exact ⟨⟨rfl, rfl, rfl, id, fun _ => id⟩, fun _ => ⟨rfl, rfl, rfl⟩⟩
  | setPaused value =>
    obtain rfl : _ = s' := Except.ok.inj h
    exact ⟨⟨rfl, rfl, rfl, id, fun _ => id⟩, fun _ => ⟨rfl, rfl, rfl⟩⟩
  | publishing op =>
    simp only [step, bind_eq_ok, pure_eq_ok] at h
    obtain ⟨_, _, rfl⟩ := h
    exact ⟨⟨rfl, rfl, rfl, id, fun _ => id⟩, fun _ => ⟨rfl, rfl, rfl⟩⟩

theorem step_budgets (h : step idOf s call = .ok s') :
    BudgetStep call.op.toppedUp s.subs s'.subs := by
  obtain ⟨env, op⟩ := call
  cases hop : op.writesRecord with
  | true =>
    cases op with
    | fundFromAccount r =>
      obtain ⟨_, _, h⟩ := fundFromAccount_ok h
      exact h.step
    | topUpFromAccount id additions digest =>
      obtain ⟨_, _, h⟩ := topUpFromAccount_ok h
      exact h.step
    | fundFromWallet r =>
      obtain ⟨_, _, h⟩ := fundFromWallet_ok h
      exact h.step
    | topUpFromWallet id additions digest =>
      obtain ⟨_, _, h⟩ := topUpFromWallet_ok h
      exact h.step
    | _ => cases hop
  | false =>
    have hquiet := (step_quiet hop h).1
    have hnone : op.toppedUp = none := by
      cases op <;> first | rfl | cases hop
    rw [hnone]
    exact .same hquiet.subscriptions hquiet.budgets

end Steps

end Dkg.Subscriptions
