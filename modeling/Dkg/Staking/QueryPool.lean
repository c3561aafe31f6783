import Dkg.Staking.QueryInference

/-!
The query/inference pool over whole runs: which pool the money of an epoch is paid from,
and how much of a pool its nodes receive.
-/

namespace Dkg.Staking.QueryInference
open Revert Function Finset

/-- A batch's stake factor is at most one, so it counts no more weight than value. -/
inductive Op where
  | addWalletFunding (epoch amount : ℕ)
  | addAccountFunding (epoch amount : ℕ)
  | countReceipts (seller epoch servedValue weightedValue : ℕ)
      (weighted_le : weightedValue ≤ servedValue)
  | setLambdaBps (value : ℕ)

structure Call where
  currentEpoch : ℕ
  op : Op

def step (q : QueryInference) (c : Call) : Except Err QueryInference :=
  match c.op with
  | .addWalletFunding epoch amount => q.addWalletFunding c.currentEpoch epoch amount
  | .addAccountFunding epoch amount => q.addAccountFunding c.currentEpoch epoch amount
  | .countReceipts seller epoch servedValue weightedValue _ =>
    q.countReceipts c.currentEpoch seller epoch servedValue weightedValue
  | .setLambdaBps value => q.setLambdaBps value

/-- The storage once its activation epoch is set. -/
def activated (epoch : ℕ) : QueryInference := { initial with activationEpoch := epoch }

/-- What a call funds for an epoch. -/
def Call.funding (epoch : ℕ) (c : Call) : ℕ :=
  match c.op with
  | .addWalletFunding e amount => if e = epoch then amount else 0
  | .addAccountFunding e amount => if e = epoch then amount else 0
  | _ => 0

/-- The money a list of accepted calls funded for an epoch. -/
def funded (calls : List Call) (epoch : ℕ) : ℕ := (calls.map (Call.funding epoch)).sum

/-- No value was served from epoch `i` up to epoch `j`. -/
def Idle (q : QueryInference) (i j : ℕ) : Prop :=
  ∀ k ∈ Finset.Ico i j, (q.epochTotals k).totalServed = 0

instance (q : QueryInference) (i j : ℕ) : Decidable (q.Idle i j) :=
  inferInstanceAs (Decidable (∀ k ∈ Finset.Ico i j, _))

/-- The money of epoch `i` belongs to the pool of epoch `j`: its own, or the next one in
which value was served. -/
def PaidIn (q : QueryInference) (i j : ℕ) : Prop :=
  i ≤ j ∧ (q.epochTotals j).totalServed ≠ 0 ∧ q.Idle i j

instance (q : QueryInference) (i j : ℕ) : Decidable (q.PaidIn i j) :=
  inferInstanceAs (Decidable (_ ∧ _ ∧ _))

variable {q q' : QueryInference} {e i j j' n : ℕ}

section Pools

theorem idle_self (q : QueryInference) (e : ℕ) : q.Idle e e := by
  intro k hk
  simp at hk

theorem idle_succ (hi : i ≤ e) :
    q.Idle i (e + 1) ↔ q.Idle i e ∧ (q.epochTotals e).totalServed = 0 := by
  constructor
  · intro h
    refine ⟨fun k hk => ?_, h e (mem_Ico.mpr ⟨hi, e.lt_succ_self⟩)⟩
    rw [mem_Ico] at hk
    exact h k (mem_Ico.mpr ⟨hk.1, by omega⟩)
  · rintro ⟨h, hlast⟩ k hk
    rw [mem_Ico] at hk
    by_cases hke : k = e
    · rw [hke]
      exact hlast
    · exact h k (mem_Ico.mpr ⟨hk.1, by omega⟩)

theorem PaidIn.unique (h : q.PaidIn i j) (h' : q.PaidIn i j') : j = j' := by
  obtain ⟨hij, hserved, hidle⟩ := h
  obtain ⟨hij', hserved', hidle'⟩ := h'
  rcases lt_trichotomy j j' with hlt | heq | hgt
  · exact absurd (hidle' j (mem_Ico.mpr ⟨hij, hlt⟩)) hserved
  · exact heq
  · exact absurd (hidle j' (mem_Ico.mpr ⟨hij', hgt⟩)) hserved'

theorem exists_paidIn (hij : i ≤ j) (hserved : (q.epochTotals j).totalServed ≠ 0) :
    ∃ k ≤ j, q.PaidIn i k := by
  classical
  have hex : ∃ k, i ≤ k ∧ (q.epochTotals k).totalServed ≠ 0 := ⟨j, hij, hserved⟩
  obtain ⟨hk, hfirst⟩ := Nat.find_spec hex
  refine ⟨Nat.find hex, Nat.find_min' hex ⟨hij, hserved⟩, hk, hfirst, fun l hl => ?_⟩
  obtain ⟨hil, hlt⟩ := mem_Ico.mp hl
  by_contra hne
  exact Nat.find_min hex hlt ⟨hil, hne⟩

theorem sum_idle {P : ℕ → Prop} [DecidablePred P] (he : q.activationEpoch ≤ e) (hlast : P e)
    (hP : ∀ i < e, P i ↔ q.Idle i e) :
    ∑ i ∈ (Finset.Icc q.activationEpoch e).filter P, q.moneyOf i = q.moneyOf e +
      ∑ i ∈ (Finset.Ico q.activationEpoch e).filter (q.Idle · e), q.moneyOf i := by
  have hset : (Finset.Icc q.activationEpoch e).filter P =
      insert e ((Finset.Ico q.activationEpoch e).filter (q.Idle · e)) := by
    ext i
    rw [mem_insert, mem_filter, mem_filter, mem_Ico, mem_Icc]
    constructor
    · rintro ⟨hi, hPi⟩
      by_cases hie : i = e
      · exact .inl hie
      · exact .inr ⟨by omega, (hP i (by omega)).mp hPi⟩
    · rintro (rfl | ⟨hi, hidle⟩)
      · exact ⟨by omega, hlast⟩
      · exact ⟨by omega, (hP i hi.2).mpr hidle⟩
  rw [hset, sum_insert (by simp)]

/-- The rollover covers the run of idle epochs right before `e`. -/
theorem rolledOver_eq (he : q.activationEpoch ≤ e) :
    q.rolledOver e = ∑ i ∈ (Finset.Ico q.activationEpoch e).filter (q.Idle · e), q.moneyOf i := by
  induction e with
  | zero => simp [rolledOver]
  | succ e ih =>
    rw [rolledOver]
    split
    · split
      · rename_i hact hserved
        symm
        apply sum_eq_zero
        intro i hi
        obtain ⟨hi, hidle⟩ := mem_filter.mp hi
        rw [mem_Ico] at hi
        exact absurd ((idle_succ (by omega)).mp hidle).2 hserved
      · rename_i hact hserved
        rw [not_not] at hserved
        have hidle : ∀ i ≤ e, q.Idle i (e + 1) ↔ q.Idle i e :=
          fun i hi => (idle_succ hi).trans (and_iff_left hserved)
        rw [ih (Nat.le_of_lt_succ hact)]
        exact (sum_idle (Nat.le_of_lt_succ hact) ((hidle e le_rfl).mpr (idle_self q e))
          fun i hi => hidle i hi.le).symm
    · rw [Finset.Ico_eq_empty (by omega)]
      simp

/-- The pool of an epoch is the money that is paid in it. -/
theorem epochPool_eq (he : q.activationEpoch ≤ e) :
    q.epochPool e =
      ∑ i ∈ (Finset.Icc q.activationEpoch e).filter (q.PaidIn · e), q.moneyOf i := by
  unfold epochPool
  split_ifs with hzero
  · symm
    apply sum_eq_zero
    intro i hi
    exact absurd hzero (mem_filter.mp hi).2.2.1
  · rw [sum_idle he ⟨le_rfl, hzero, idle_self q e⟩ fun i hi =>
      ⟨fun h => h.2.2, fun h => ⟨hi.le, hzero, h⟩⟩, poolWithValue, rolledOver_eq he]

/-- No money is in two pools. -/
theorem sum_epochPool_le (q : QueryInference) (e : ℕ) :
    ∑ j ∈ Finset.Icc q.activationEpoch e, q.epochPool j ≤
      ∑ i ∈ Finset.Icc q.activationEpoch e, q.moneyOf i := by
  set E := Finset.Icc q.activationEpoch e
  have hpool : ∀ j ∈ E, q.epochPool j = ∑ i ∈ E, if q.PaidIn i j then q.moneyOf i else 0 := by
    intro j hj
    rw [mem_Icc] at hj
    rw [epochPool_eq hj.1, sum_filter]
    apply sum_subset
    · exact Finset.Icc_subset_Icc_right hj.2
    · intro i _ hi
      rw [if_neg]
      intro hpaid
      exact hi (mem_Icc.mpr ⟨(mem_Icc.mp ‹i ∈ E›).1, hpaid.1⟩)
  rw [sum_congr rfl hpool, sum_comm]
  refine sum_le_sum fun i _ => ?_
  by_cases hex : ∃ j ∈ E, q.PaidIn i j
  · obtain ⟨j, hj, hpaid⟩ := hex
    rw [sum_eq_single j (fun j' _ hne => if_neg fun h => hne (h.unique hpaid))
      (fun h => absurd hj h), if_pos hpaid]
  · rw [sum_eq_zero fun j hj => if_neg fun h => hex ⟨j, hj, h⟩]
    exact Nat.zero_le _

end Pools

section Gross

/-- The totals of an epoch are what its nodes served and weigh, exactly. -/
structure Exact (q : QueryInference) : Prop where
  ok : q.Ok
  weighted_le : ∀ e n, (q.nodeEpoch (n, e)).weightedValue ≤ (q.nodeEpoch (n, e)).servedValue
  finite : ∀ e, (support fun n => (q.nodeEpoch (n, e)).servedValue).Finite
  served : ∀ e, ∑ᶠ n, (q.nodeEpoch (n, e)).servedValue = (q.epochTotals e).totalServed
  weighted : ∀ e, ∑ᶠ n, (q.nodeEpoch (n, e)).weightedValue = (q.epochTotals e).totalWeighted

/-- The nodes with served value in an epoch. -/
def servers (q : QueryInference) (e : ℕ) : Set ℕ :=
  support fun n => (q.nodeEpoch (n, e)).servedValue

theorem gross_of_not_served (hzero : (q.nodeEpoch (n, e)).servedValue = 0) :
    q.queryInferenceGross e n = 0 := if_pos hzero

theorem gross_support_subset (q : QueryInference) (e : ℕ) :
    support (q.queryInferenceGross e) ⊆ q.servers e := by
  intro n hn hzero
  exact hn (gross_of_not_served hzero)

theorem Exact.finsum_gross_le (h : q.Exact) (e : ℕ) :
    ∑ᶠ n, q.queryInferenceGross e n ≤ q.epochPool e := by
  have hsub : support (q.queryInferenceGross e) ⊆ (h.finite e).toFinset := by
    rw [Set.Finite.coe_toFinset]
    exact gross_support_subset q e
  rw [finsum_eq_sum_of_support_subset _ hsub]
  exact h.ok.sum_gross_le e _

theorem Exact.servers_nonempty (h : q.Exact) :
    (q.servers e).Nonempty ↔ (q.epochTotals e).totalServed ≠ 0 := by
  constructor
  · rintro ⟨n, hn⟩ hzero
    have hle := h.ok.served e {n}
    rw [sum_singleton, hzero] at hle
    exact hn (Nat.le_zero.mp hle)
  · intro hserved
    rw [← h.served e] at hserved
    by_contra hempty
    exact hserved (finsum_eq_zero_of_forall_eq_zero fun n => by_contra fun hn => hempty ⟨n, hn⟩)

/-- Each of a node's two terms is short of its share by less than one. -/
theorem Exact.lt_finsum_gross (h : q.Exact) (hne : (q.servers e).Nonempty) :
    q.epochPool e < ∑ᶠ n, q.queryInferenceGross e n + 2 * (q.servers e).ncard := by
  have hserved := h.servers_nonempty.mp hne
  set t := q.epochTotals e with ht
  set pool := q.poolWithValue e
  set N := (h.finite e).toFinset with hN
  have hcoe : (N : Set ℕ) = q.servers e := Set.Finite.coe_toFinset _
  have hsumServed : ∑ n ∈ N, (q.nodeEpoch (n, e)).servedValue = t.totalServed := by
    rw [← finsum_eq_sum_of_support_subset _ (hcoe ▸ subset_rfl)]
    exact h.served e
  have hsumWeighted : ∑ n ∈ N, (q.nodeEpoch (n, e)).weightedValue = t.totalWeighted := by
    rw [← finsum_eq_sum_of_support_subset]
    · exact h.weighted e
    · rw [hcoe]
      intro n hn hzero
      have hle := h.weighted_le e n
      rw [show (q.nodeEpoch (n, e)).servedValue = 0 from hzero] at hle
      exact hn (Nat.le_zero.mp hle)
  have hcard : 0 < N.card := by
    rw [card_pos, nonempty_iff_ne_empty]
    intro hempty
    rw [hempty, sum_empty] at hsumServed
    exact hserved hsumServed.symm
  have hgross : ∀ n ∈ N, q.queryInferenceGross e n =
      mulDiv (pool * (BPS - t.lambdaBps)) (q.nodeEpoch (n, e)).servedValue (BPS * t.totalServed) +
        weightedGross pool t (q.nodeEpoch (n, e)) := by
    intro n hn
    have hne : (q.nodeEpoch (n, e)).servedValue ≠ 0 := (h.finite e).mem_toFinset.mp hn
    exact if_neg hne
  have hbase : pool * (BPS - t.lambdaBps) < BPS * (∑ n ∈ N, mulDiv (pool * (BPS - t.lambdaBps))
      (q.nodeEpoch (n, e)).servedValue (BPS * t.totalServed) + N.card) :=
    Sums.lt_sum_share (by decide) (Nat.pos_of_ne_zero hserved) hsumServed _
  have hweighted : pool * t.lambdaBps <
      BPS * (∑ n ∈ N, weightedGross pool t (q.nodeEpoch (n, e)) + N.card) := by
    unfold weightedGross
    by_cases hl : t.lambdaBps = 0
    · simp only [hl, ne_eq, not_true, if_false, sum_const_zero, zero_add, mul_zero]
      exact Nat.mul_pos (by decide) hcard
    · by_cases hw : t.totalWeighted = 0
      · simp only [hl, hw, ne_eq, not_false_iff, if_true]
        exact Sums.lt_sum_share (by decide) (Nat.pos_of_ne_zero hserved) hsumServed _
      · simp only [hl, hw, ne_eq, not_false_iff, if_true, if_false]
        exact Sums.lt_sum_share (by decide) (Nat.pos_of_ne_zero hw) hsumWeighted _
  have hsub : support (q.queryInferenceGross e) ⊆ N := by
    rw [hcoe]
    exact gross_support_subset q e
  have hncard : (q.servers e).ncard = N.card := by
    rw [← hcoe, Set.ncard_coe_finset]
  have hpool : q.epochPool e = pool := if_neg hserved
  rw [hpool, hncard, finsum_eq_sum_of_support_subset _ hsub, sum_congr rfl hgross,
    sum_add_distrib]
  have hsplit : pool * (BPS - t.lambdaBps) + pool * t.lambdaBps = BPS * pool := by
    rw [← mul_add, Nat.sub_add_cancel (h.ok.epochLambda_le e), mul_comm]
  refine Nat.lt_of_mul_lt_mul_left (a := BPS) ?_
  calc BPS * pool = pool * (BPS - t.lambdaBps) + pool * t.lambdaBps := hsplit.symm
    _ < _ := Nat.add_lt_add hbase hweighted
    _ = _ := by ring

end Gross

section Runs
variable {past calls : List Call} {c : Call} {a : ℕ}

theorem initial_exact (a : ℕ) : (activated a).Exact where
  ok := by constructor <;> simp [activated, initial]
  weighted_le := fun _ _ => le_rfl
  finite := fun e => by simp [activated, initial]
  served := fun e => by simp [activated, initial]
  weighted := fun e => by simp [activated, initial]

/-- One node's value in one epoch grows; the sums over the nodes follow. -/
theorem value_update {f : NodeEpoch → ℕ} {v : NodeEpoch} {seller epoch x : ℕ}
    (hv : f v = f (q.nodeEpoch (seller, epoch)) + x) (e : ℕ) :
    (fun n => f (update q.nodeEpoch (seller, epoch) v (n, e))) =
      (fun n => f (q.nodeEpoch (n, e))) + Pi.single seller (if e = epoch then x else 0) := by
  funext n
  by_cases hn : n = seller
  · subst hn
    by_cases he : e = epoch
    · subst he
      simp [hv]
    · simp [he]
  · simp [hn]

theorem Exact.countReceipts {currentEpoch seller epoch served weighted : ℕ} (h : q.Exact)
    (hle : weighted ≤ served)
    (hok : q.countReceipts currentEpoch seller epoch served weighted = .ok q') : q'.Exact := by
  have hspec := (countReceipts_spec h.ok hok).1
  simp only [QueryInference.countReceipts, requireNotEnded, bind_eq_ok, require_eq_ok,
    Checked.add_eq_ok, pure_eq_ok] at hok
  obtain ⟨_, _, s', ⟨_, hs⟩, w', ⟨_, hw⟩, ts, ⟨_, hts⟩, tw, ⟨_, htw⟩, rfl⟩ := hok
  have hweightedFinite : ∀ e, (support fun n => (q.nodeEpoch (n, e)).weightedValue).Finite := by
    intro e
    refine (h.finite e).subset fun n hn hzero => hn ?_
    have hle := h.weighted_le e n
    rw [show (q.nodeEpoch (n, e)).servedValue = 0 from hzero] at hle
    exact Nat.le_zero.mp hle
  have hservedMap := fun e => value_update (f := NodeEpoch.servedValue) (v := ⟨s', w'⟩) hs.symm e
  have hweightedMap := fun e =>
    value_update (f := NodeEpoch.weightedValue) (v := ⟨s', w'⟩) hw.symm e
  refine ⟨hspec, fun e n => ?_, fun e => ?_, fun e => ?_, fun e => ?_⟩
  · have hserved := congrFun (hservedMap e) n
    have hweighted := congrFun (hweightedMap e) n
    dsimp only at hserved hweighted ⊢
    rw [hserved, hweighted]
    refine Nat.add_le_add (h.weighted_le e n) ?_
    by_cases hn : n = seller
    · subst hn
      simp only [Pi.single_eq_same]
      split
      · exact hle
      · exact le_rfl
    · simp [hn]
  · rw [hservedMap e]
    exact Sums.support_add_single_finite (h.finite e) _ _
  · rw [hservedMap e, Sums.finsum_add_single (h.finite e), h.served e]
    by_cases he : e = epoch
    · subst he
      simp [hts]
    · simp [he]
  · rw [hweightedMap e, Sums.finsum_add_single (hweightedFinite e), h.weighted e]
    by_cases he : e = epoch
    · subst he
      simp [htw]
    · simp [he]

/-- Every pool is exact, and the money of an epoch is what was funded for it. -/
structure RunInv (a : ℕ) (past : List Call) (q : QueryInference) : Prop where
  exact : q.Exact
  activation : q.activationEpoch = a
  money : ∀ e, q.moneyOf e = funded past e

theorem funded_append_singleton (e : ℕ) :
    funded (past ++ [c]) e = funded past e + c.funding e := by
  simp [funded]

theorem step_frozen (hq : q.Ok) (hok : step q c = .ok q') : q'.Ok ∧ Frozen c.currentEpoch q q' := by
  obtain ⟨cur, op⟩ := c
  cases op with
  | addWalletFunding epoch amount => exact addWalletFunding_spec hq hok
  | addAccountFunding epoch amount => exact addAccountFunding_spec hq hok
  | countReceipts seller epoch served weighted hle => exact countReceipts_spec hq hok
  | setLambdaBps value => exact setLambdaBps_spec hq hok

theorem RunInv.step (h : RunInv a past q) (hok : step q c = .ok q') :
    RunInv a (past ++ [c]) q' := by
  have hspec := step_frozen h.exact.ok hok
  obtain ⟨cur, op⟩ := c
  cases op with
  | addWalletFunding epoch amount | addAccountFunding epoch amount =>
    simp only [QueryInference.step, QueryInference.addWalletFunding,
      QueryInference.addAccountFunding, bind_eq_ok, Checked.add_eq_ok, pure_eq_ok] at hok
    obtain ⟨_, _, _, ⟨_, rfl⟩, rfl⟩ := hok
    refine ⟨⟨hspec.1, h.exact.weighted_le, h.exact.finite, h.exact.served, h.exact.weighted⟩,
      h.activation, fun e => ?_⟩
    rw [funded_append_singleton, ← h.money e]
    by_cases he : epoch = e
    · subst he
      simp [moneyOf, Call.funding]
      omega
    · simp [moneyOf, Call.funding, he, Ne.symm he]
  | countReceipts seller epoch served weighted hle =>
    have hexact := h.exact.countReceipts hle hok
    simp only [QueryInference.step, QueryInference.countReceipts, bind_eq_ok, pure_eq_ok] at hok
    obtain ⟨_, _, _, _, _, _, _, _, _, _, rfl⟩ := hok
    exact ⟨hexact, h.activation, fun e => by
      rw [funded_append_singleton]
      exact h.money e⟩
  | setLambdaBps value =>
    simp only [QueryInference.step, QueryInference.setLambdaBps, bind_eq_ok, pure_eq_ok] at hok
    obtain ⟨_, _, rfl⟩ := hok
    exact ⟨⟨hspec.1, h.exact.weighted_le, h.exact.finite, h.exact.served, h.exact.weighted⟩,
      h.activation, fun e => by
        rw [funded_append_singleton]
        exact h.money e⟩

theorem run_runInv (hsorted : calls.Pairwise fun a b => a.currentEpoch ≤ b.currentEpoch) (a : ℕ) :
    RunInv a (accepted QueryInference.step (activated a) calls)
      (run QueryInference.step (activated a) calls) := by
  refine run_invariant_accepted (n := 0) (fun _ => RunInv a) ?_ ?_ ?_ ?_ hsorted
  · intro _ _ _ _ _ h
    exact h
  · intro _ _ _ _ _ h hok
    exact h.step hok
  · exact ⟨initial_exact a, rfl, fun _ => rfl⟩
  · intro _ _
    exact Nat.zero_le _

theorem Frozen.epochPool {currentEpoch : ℕ} (h : Frozen currentEpoch q q')
    (ha : q.activationEpoch ≠ 0) (he : e < currentEpoch) : q'.epochPool e = q.epochPool e := by
  unfold QueryInference.epochPool poolWithValue
  rw [h.totals e he, h.money e he, h.rolledOver ha he]

/-- What an epoch pays is final once it has ended. -/
theorem run_final (hq : q.Ok) (ha : q.activationEpoch ≠ 0)
    (hlater : ∀ c ∈ calls, e < c.currentEpoch) :
    (run step q calls).epochPool e = q.epochPool e ∧
      ∀ n, (run step q calls).queryInferenceGross e n = q.queryInferenceGross e n := by
  induction calls generalizing q with
  | nil => exact ⟨rfl, fun _ => rfl⟩
  | cons c calls ih =>
    have hrest : ∀ c ∈ calls, e < c.currentEpoch := fun c hc => hlater c (by simp [hc])
    have hc : e < c.currentEpoch := hlater c (by simp)
    obtain ⟨t, ht, hexec⟩ | ⟨_, hexec⟩ := exec_cases step q c
    · obtain ⟨hok, hfrozen⟩ := step_frozen hq ht
      obtain ⟨hpool, hgross⟩ := ih hok (by rwa [hfrozen.activation ha]) hrest
      rw [run_cons, hexec, hpool, hfrozen.epochPool ha hc]
      exact ⟨rfl, fun n => (hgross n).trans (hfrozen.gross ha hc n)⟩
    · rw [run_cons, hexec]
      exact ih hq ha hrest

end Runs

/-- The nodes of an epoch share its pool up to less than two units each, every epoch's
money is in one pool as soon as value is served, and what an ended epoch pays never changes. -/
theorem run_pays_once {a : ℕ} (ha : a ≠ 0) {calls later : List Call}
    (hsorted : (calls ++ later).Pairwise fun x y => x.currentEpoch ≤ y.currentEpoch) :
    let q := run step (activated a) calls
    let money := funded (accepted step (activated a) calls)
    (∀ e, (support (q.queryInferenceGross e)).Finite ∧
      ∑ᶠ n, q.queryInferenceGross e n ≤ q.epochPool e ∧
      (q.servers e).Finite ∧
      ((q.servers e).Nonempty →
        q.epochPool e < ∑ᶠ n, q.queryInferenceGross e n + 2 * (q.servers e).ncard) ∧
      (q.servers e = ∅ → q.epochPool e = 0 ∧ ∑ᶠ n, q.queryInferenceGross e n = 0)) ∧
    (∀ e, a ≤ e → q.epochPool e = ∑ i ∈ (Finset.Icc a e).filter (q.PaidIn · e), money i) ∧
    (∀ i j j', q.PaidIn i j → q.PaidIn i j' → j = j') ∧
    (∀ i j, i ≤ j → (q.servers j).Nonempty → ∃ k ≤ j, q.PaidIn i k) ∧
    (∀ e, ∑ j ∈ Finset.Icc a e, q.epochPool j ≤ ∑ i ∈ Finset.Icc a e, money i) ∧
    ∀ e, (∀ c ∈ later, e < c.currentEpoch) →
      (run step (activated a) (calls ++ later)).epochPool e = q.epochPool e ∧
      ∀ n, (run step (activated a) (calls ++ later)).queryInferenceGross e n =
        q.queryInferenceGross e n := by
  intro q money
  have hinv : RunInv a _ q := run_runInv (List.pairwise_append.mp hsorted).1 a
  have hmoney : q.moneyOf = money := funext hinv.money
  refine ⟨fun e => ⟨?_, hinv.exact.finsum_gross_le e, hinv.exact.finite e,
      hinv.exact.lt_finsum_gross, fun hempty => ?_⟩,
    fun e he => ?_, fun i j j' h h' => h.unique h',
    fun i j hij hne => exists_paidIn hij (hinv.exact.servers_nonempty.mp hne),
    fun e => ?_, fun e he => ?_⟩
  · exact (hinv.exact.finite e).subset (gross_support_subset q e)
  · have hserved := hinv.exact.servers_nonempty.not.mp (Set.not_nonempty_iff_eq_empty.mpr hempty)
    have hpool : q.epochPool e = 0 := if_pos (not_not.mp hserved)
    exact ⟨hpool, Nat.le_zero.mp (hpool ▸ hinv.exact.finsum_gross_le e)⟩
  · have hpool := epochPool_eq (q := q) (e := e) (by rwa [hinv.activation])
    rw [hinv.activation, hmoney] at hpool
    exact hpool
  · have hsum := sum_epochPool_le q e
    rw [hinv.activation, hmoney] at hsum
    exact hsum
  · rw [run_append]
    exact run_final hinv.exact.ok (by rwa [hinv.activation]) he

/-- Epoch 1 is funded and serves nothing; two nodes serve in epoch 2. -/
def rollover : List Call :=
  [⟨1, .setLambdaBps 5000⟩, ⟨1, .addWalletFunding 1 10⟩, ⟨1, .addAccountFunding 2 5⟩,
    ⟨2, .countReceipts 7 2 3 2 (by decide)⟩, ⟨2, .countReceipts 8 2 4 4 (by decide)⟩]

theorem run_pays_once_rollover :
    let q := run step (activated 1) rollover
    q.epochPool 1 = 0 ∧ q.epochPool 2 = 15 ∧ q.queryInferenceGross 2 7 = 5 ∧
      q.queryInferenceGross 2 8 = 9 ∧
      (run step (activated 1) (rollover ++ [⟨3, .addWalletFunding 3 1⟩])).epochPool 2 =
        q.epochPool 2 := by
  have hsorted : (rollover ++ [(⟨3, .addWalletFunding 3 1⟩ : Call)]).Pairwise
      fun x y => x.currentEpoch ≤ y.currentEpoch := by decide
  obtain ⟨_, _, _, _, _, hfinal⟩ := run_pays_once (a := 1) (by decide) hsorted
  exact ⟨by decide +kernel, by decide +kernel, by decide +kernel, by decide +kernel,
    (hfinal 2 (by decide)).1⟩

/-- An ended epoch without served value has an empty pool, so its nodes do not receive more
than the pool less nothing. -/
theorem idle_epoch_not_strict :
    let q := run step (activated 1) [⟨1, .addWalletFunding 1 10⟩, ⟨2, .setLambdaBps 5000⟩]
    q.epochPool 1 = 0 ∧ q.servers 1 = ∅ ∧
      ¬q.epochPool 1 < ∑ᶠ n, q.queryInferenceGross 1 n + 2 * (q.servers 1).ncard := by
  intro q
  have hpool : q.epochPool 1 = 0 := by decide +kernel
  have hnode : ∀ n, (q.nodeEpoch (n, 1)).servedValue = 0 := fun n => rfl
  have hservers : q.servers 1 = ∅ := by
    ext n
    simp [servers, hnode]
  have hgross : ∀ n, q.queryInferenceGross 1 n = 0 := fun n => gross_of_not_served (hnode n)
  refine ⟨hpool, hservers, ?_⟩
  simp [hpool, hservers, hgross]

end Dkg.Staking.QueryInference
