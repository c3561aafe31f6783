import Dkg.Staking.NodeStake

/-!
`QueryInferenceStorage` and the reward views of `QueryInferenceSettlement`: what was funded
and served per epoch, the pool an epoch's nodes share, and a node's gross from it.
-/

namespace Dkg.Staking
open Revert Function Finset

def BPS : ℕ := 10000

structure EpochTotals where
  totalServed : ℕ
  totalWeighted : ℕ
  lambdaBps : ℕ
  deriving DecidableEq, Repr

structure NodeEpoch where
  servedValue : ℕ
  weightedValue : ℕ
  deriving DecidableEq, Repr

structure QueryInference where
  activationEpoch : ℕ
  paused : Bool
  lambdaBps : ℕ
  walletFunding : ℕ → ℕ
  accountFunding : ℕ → ℕ
  epochTotals : ℕ → EpochTotals
  /-- Per node and epoch. -/
  nodeEpoch : ℕ × ℕ → NodeEpoch

namespace QueryInference

def initial : QueryInference where
  activationEpoch := 0
  paused := false
  lambdaBps := 0
  walletFunding := fun _ => 0
  accountFunding := fun _ => 0
  epochTotals := fun _ => ⟨0, 0, 0⟩
  nodeEpoch := fun _ => ⟨0, 0⟩

def setActivationEpoch (q : QueryInference) (currentEpoch epoch : ℕ) :
    Except Err QueryInference := do
  require (q.activationEpoch = 0) .activationEpochAlreadySet
  require (¬(epoch = 0 ∨ epoch < currentEpoch)) .invalidParameter
  return { q with activationEpoch := epoch }

def setPaused (q : QueryInference) (value : Bool) : QueryInference := { q with paused := value }

def setLambdaBps (q : QueryInference) (value : ℕ) : Except Err QueryInference := do
  require (value ≤ BPS) .invalidParameter
  return { q with lambdaBps := value }

def requireNotEnded (currentEpoch epoch : ℕ) : Except Err Unit :=
  require (¬epoch < currentEpoch) .epochEnded

def addWalletFunding (q : QueryInference) (currentEpoch epoch amount : ℕ) :
    Except Err QueryInference := do
  requireNotEnded currentEpoch epoch
  let funding ← Checked.add 96 (q.walletFunding epoch) amount .panic
  return { q with walletFunding := update q.walletFunding epoch funding }

def addAccountFunding (q : QueryInference) (currentEpoch epoch amount : ℕ) :
    Except Err QueryInference := do
  requireNotEnded currentEpoch epoch
  let funding ← Checked.add 96 (q.accountFunding epoch) amount .panic
  return { q with accountFunding := update q.accountFunding epoch funding }

/-- The first value of an epoch takes the λ of the moment. -/
def lambdaFor (q : QueryInference) (epoch : ℕ) : ℕ :=
  if (q.epochTotals epoch).totalServed = 0 then q.lambdaBps else (q.epochTotals epoch).lambdaBps

/-- `countReceipts`, without the buyer's budget. -/
def countReceipts (q : QueryInference) (currentEpoch seller epoch servedValue weightedValue : ℕ) :
    Except Err QueryInference := do
  requireNotEnded currentEpoch epoch
  let n := q.nodeEpoch (seller, epoch)
  let t := q.epochTotals epoch
  let served ← Checked.add 128 n.servedValue servedValue .panic
  let weighted ← Checked.add 128 n.weightedValue weightedValue .panic
  let totalServed ← Checked.add 120 t.totalServed servedValue .panic
  let totalWeighted ← Checked.add 120 t.totalWeighted weightedValue .panic
  return { q with
    nodeEpoch := update q.nodeEpoch (seller, epoch) ⟨served, weighted⟩
    epochTotals := update q.epochTotals epoch
      ⟨totalServed, totalWeighted, q.lambdaFor epoch⟩ }

def moneyOf (q : QueryInference) (epoch : ℕ) : ℕ := q.walletFunding epoch + q.accountFunding epoch

/-- The money of the run of epochs right before `e` in which no value was served. -/
def rolledOver (q : QueryInference) : ℕ → ℕ
  | 0 => 0
  | e + 1 =>
    if e + 1 > q.activationEpoch then
      if (q.epochTotals e).totalServed ≠ 0 then 0 else q.moneyOf e + q.rolledOver e
    else 0

def poolWithValue (q : QueryInference) (epoch : ℕ) : ℕ := q.moneyOf epoch + q.rolledOver epoch

def epochPool (q : QueryInference) (epoch : ℕ) : ℕ :=
  if (q.epochTotals epoch).totalServed = 0 then 0 else q.poolWithValue epoch

def mulDiv (x y denominator : ℕ) : ℕ := x * y / denominator

/-- The part of the pool that λ assigns by weight; by served value if nothing has weight. -/
def weightedGross (pool : ℕ) (t : EpochTotals) (n : NodeEpoch) : ℕ :=
  if t.lambdaBps ≠ 0 then
    if t.totalWeighted = 0 then mulDiv (pool * t.lambdaBps) n.servedValue (BPS * t.totalServed)
    else mulDiv (pool * t.lambdaBps) n.weightedValue (BPS * t.totalWeighted)
  else 0

def queryInferenceGross (q : QueryInference) (epoch identityId : ℕ) : ℕ :=
  let n := q.nodeEpoch (identityId, epoch)
  if n.servedValue = 0 then 0
  else
    let t := q.epochTotals epoch
    let pool := q.poolWithValue epoch
    mulDiv (pool * (BPS - t.lambdaBps)) n.servedValue (BPS * t.totalServed) +
      weightedGross pool t n

section Shares
variable {q q' : QueryInference} {e epoch currentEpoch seller served weighted : ℕ}

/-- The totals of an epoch cover what its nodes served, and no λ exceeds one. -/
structure Ok (q : QueryInference) : Prop where
  lambda_le : q.lambdaBps ≤ BPS
  epochLambda_le : ∀ e, (q.epochTotals e).lambdaBps ≤ BPS
  served : ∀ e (N : Finset ℕ),
    ∑ n ∈ N, (q.nodeEpoch (n, e)).servedValue ≤ (q.epochTotals e).totalServed
  weighted : ∀ e (N : Finset ℕ),
    ∑ n ∈ N, (q.nodeEpoch (n, e)).weightedValue ≤ (q.epochTotals e).totalWeighted

/-- The grosses of an epoch stay within its pool. -/
theorem Ok.sum_gross_le (h : q.Ok) (e : ℕ) (N : Finset ℕ) :
    ∑ n ∈ N, q.queryInferenceGross e n ≤ q.epochPool e := by
  set t := q.epochTotals e with ht
  by_cases hserved : t.totalServed = 0
  · have hzero : ∀ n ∈ N, q.queryInferenceGross e n = 0 := by
      intro n hn
      have hle := h.served e {n}
      rw [sum_singleton, ← ht, hserved, Nat.le_zero] at hle
      exact if_pos hle
    rw [sum_eq_zero hzero]
    exact Nat.zero_le _
  set pool := q.poolWithValue e
  have hpool : q.epochPool e = pool := if_neg hserved
  have hbase : ∑ n ∈ N, mulDiv (pool * (BPS - t.lambdaBps)) (q.nodeEpoch (n, e)).servedValue
      (BPS * t.totalServed) ≤ pool * (BPS - t.lambdaBps) / BPS :=
    Sums.sum_share_le (h.served e N) _ _
  have hweighted : ∑ n ∈ N, weightedGross pool t (q.nodeEpoch (n, e)) ≤
      pool * t.lambdaBps / BPS := by
    unfold weightedGross
    by_cases hl : t.lambdaBps = 0
    · simp [hl]
    · by_cases hw : t.totalWeighted = 0
      · simp only [hl, hw, ne_eq, not_false_iff, if_true]
        exact Sums.sum_share_le (h.served e N) _ _
      · simp only [hl, hw, ne_eq, not_false_iff, if_true, if_false]
        exact Sums.sum_share_le (h.weighted e N) _ _
  calc ∑ n ∈ N, q.queryInferenceGross e n
      ≤ ∑ n ∈ N, (mulDiv (pool * (BPS - t.lambdaBps)) (q.nodeEpoch (n, e)).servedValue
          (BPS * t.totalServed) + weightedGross pool t (q.nodeEpoch (n, e))) := by
        refine sum_le_sum fun n _ => ?_
        unfold queryInferenceGross
        dsimp only
        split
        · exact Nat.zero_le _
        · exact le_rfl
    _ ≤ pool * (BPS - t.lambdaBps) / BPS + pool * t.lambdaBps / BPS := by
        rw [sum_add_distrib]
        exact Nat.add_le_add hbase hweighted
    _ ≤ (pool * (BPS - t.lambdaBps) + pool * t.lambdaBps) / BPS := Nat.div_add_div_le_add_div
    _ = q.epochPool e := by
        rw [← mul_add, Nat.sub_add_cancel (h.epochLambda_le e), hpool,
          Nat.mul_div_cancel _ (by decide)]

end Shares

section Frozen
variable {q q' : QueryInference} {e epoch currentEpoch : ℕ}

/-- What happens in epoch `currentEpoch` leaves the epochs before it as they are. -/
structure Frozen (currentEpoch : ℕ) (q q' : QueryInference) : Prop where
  activation : q.activationEpoch ≠ 0 → q'.activationEpoch = q.activationEpoch
  money : ∀ e < currentEpoch, q'.moneyOf e = q.moneyOf e
  totals : ∀ e < currentEpoch, q'.epochTotals e = q.epochTotals e
  node : ∀ e < currentEpoch, ∀ n, q'.nodeEpoch (n, e) = q.nodeEpoch (n, e)

theorem Frozen.rolledOver (h : Frozen currentEpoch q q') (ha : q.activationEpoch ≠ 0)
    (he : e < currentEpoch) : q'.rolledOver e = q.rolledOver e := by
  induction e with
  | zero => rfl
  | succ e ih =>
    simp only [QueryInference.rolledOver]
    rw [h.activation ha, h.totals e (by omega), h.money e (by omega), ih (by omega)]

/-- The gross of an epoch that has ended is final. -/
theorem Frozen.gross (h : Frozen currentEpoch q q') (ha : q.activationEpoch ≠ 0)
    (he : e < currentEpoch) (n : ℕ) : q'.queryInferenceGross e n = q.queryInferenceGross e n := by
  unfold QueryInference.queryInferenceGross poolWithValue
  rw [h.node e he n, h.totals e he, h.money e he, h.rolledOver ha he]

theorem setLambdaBps_spec {value : ℕ} (hq : q.Ok) (hok : q.setLambdaBps value = .ok q') :
    q'.Ok ∧ Frozen currentEpoch q q' := by
  simp only [setLambdaBps, bind_eq_ok, require_eq_ok, pure_eq_ok] at hok
  obtain ⟨_, hle, rfl⟩ := hok
  exact ⟨⟨hle, hq.epochLambda_le, hq.served, hq.weighted⟩,
    fun _ => rfl, fun _ _ => rfl, fun _ _ => rfl, fun _ _ _ => rfl⟩

theorem addWalletFunding_spec {amount : ℕ} (hq : q.Ok)
    (hok : q.addWalletFunding currentEpoch epoch amount = .ok q') :
    q'.Ok ∧ Frozen currentEpoch q q' := by
  simp only [addWalletFunding, requireNotEnded, bind_eq_ok, require_eq_ok, pure_eq_ok] at hok
  obtain ⟨_, hnot, _, _, rfl⟩ := hok
  refine ⟨⟨hq.lambda_le, hq.epochLambda_le, hq.served, hq.weighted⟩,
    fun _ => rfl, fun e he => ?_, fun _ _ => rfl, fun _ _ _ => rfl⟩
  simp only [moneyOf]
  rw [update_of_ne (by omega)]

theorem addAccountFunding_spec {amount : ℕ} (hq : q.Ok)
    (hok : q.addAccountFunding currentEpoch epoch amount = .ok q') :
    q'.Ok ∧ Frozen currentEpoch q q' := by
  simp only [addAccountFunding, requireNotEnded, bind_eq_ok, require_eq_ok, pure_eq_ok] at hok
  obtain ⟨_, hnot, _, _, rfl⟩ := hok
  refine ⟨⟨hq.lambda_le, hq.epochLambda_le, hq.served, hq.weighted⟩,
    fun _ => rfl, fun e he => ?_, fun _ _ => rfl, fun _ _ _ => rfl⟩
  simp only [moneyOf]
  rw [update_of_ne (by omega)]

/-- One node's value grows with the total. -/
theorem sum_value_update_le {f : NodeEpoch → ℕ} {v : NodeEpoch} {seller x total : ℕ}
    (N : Finset ℕ) (hv : f v = f (q.nodeEpoch (seller, epoch)) + x)
    (hle : ∑ n ∈ N, f (q.nodeEpoch (n, epoch)) ≤ total) :
    ∑ n ∈ N, f (update q.nodeEpoch (seller, epoch) v (n, epoch)) ≤ total + x := by
  have hvalue : ∀ n ∈ N, f (update q.nodeEpoch (seller, epoch) v (n, epoch)) =
      f (q.nodeEpoch (n, epoch)) + if n = seller then x else 0 := by
    intro n _
    by_cases hn : n = seller
    · subst hn
      simp [hv]
    · simp [hn]
  rw [sum_congr rfl hvalue, sum_add_distrib, sum_ite_eq']
  split <;> omega

theorem countReceipts_spec {seller servedValue weightedValue : ℕ} (hq : q.Ok)
    (hok : q.countReceipts currentEpoch seller epoch servedValue weightedValue = .ok q') :
    q'.Ok ∧ Frozen currentEpoch q q' := by
  simp only [countReceipts, requireNotEnded, bind_eq_ok, require_eq_ok, Checked.add_eq_ok,
    pure_eq_ok] at hok
  obtain ⟨_, hnot, served, ⟨_, hserved⟩, weighted, ⟨_, hweighted⟩, totalServed, ⟨_, htotal⟩,
    totalWeighted, ⟨_, htotalWeighted⟩, rfl⟩ := hok
  refine ⟨⟨hq.lambda_le, fun e => ?_, fun e N => ?_, fun e N => ?_⟩, fun _ => rfl, fun _ _ => rfl,
    fun e he => update_of_ne (by omega) _ _,
    fun e he n => update_of_ne (fun h => ?_) _ _⟩
  · by_cases he : e = epoch
    · subst he
      simp only [update_self, lambdaFor]
      split
      · exact hq.lambda_le
      · exact hq.epochLambda_le e
    · simpa [he] using hq.epochLambda_le e
  · by_cases he : e = epoch
    · subst he
      simp only [update_self, ← htotal]
      exact sum_value_update_le (f := NodeEpoch.servedValue) N hserved.symm (hq.served e N)
    · simpa [he] using hq.served e N
  · by_cases he : e = epoch
    · subst he
      simp only [update_self, ← htotalWeighted]
      exact sum_value_update_le (f := NodeEpoch.weightedValue) N hweighted.symm (hq.weighted e N)
    · simpa [he] using hq.weighted e N
  · have := congrArg Prod.snd h
    dsimp only at this
    omega

end Frozen

end QueryInference

end Dkg.Staking
