import Dkg.Epochs.EpochStorage

namespace Dkg.EpochStorage
open Revert DiffArray Function Finset

variable {s t : Shard} {diff : ℕ → ℤ} {cumulative : ℕ → ℕ} {cur added amount e l n : ℕ}

/-- All pools are non-negative and below half the width, so the casts are exact. -/
def Bounded (diff : ℕ → ℤ) : Prop := ∀ e, 0 ≤ level diff e ∧ level diff e < 2 ^ 95

/-- The pools of a shard hold what was added to it. -/
structure ShardInv (cur added : ℕ) (s : Shard) : Prop where
  last_lt : s.lastFinalizedEpoch ≤ cur - 1
  frozen : ∀ e, e ≤ s.lastFinalizedEpoch → (s.cumulative e : ℤ) = level s.diff e
  unfrozen : ∀ e, s.lastFinalizedEpoch < e → s.cumulative e = 0
  nonneg : ∀ e, 0 ≤ level s.diff e
  total : ∃ n, (∀ e, n ≤ e → level s.diff e = 0) ∧
    ∑ e ∈ range n, level s.diff e + s.accumulatedRemainder = added

theorem fold_eq (hb : Bounded diff) {prev : ℕ} (hprev : (prev : ℤ) = level diff l) :
    ∃ v, fold prev (diff (l + 1)) = .ok v ∧ (v : ℤ) = level diff (l + 1) := by
  obtain ⟨hnn, hlt⟩ := hb (l + 1)
  have hl := (hb l).2
  have hcast : Checked.toInt 96 prev = prev :=
    Checked.toInt_of_lt (by norm_num) (by norm_num; omega)
  have hsum : (prev : ℤ) + diff (l + 1) = level diff (l + 1) := by rw [hprev, level_succ]
  have hfits : Checked.FitsInt 96 (level diff (l + 1)) := ⟨by norm_num; omega, by norm_num; omega⟩
  refine ⟨Checked.toUint 96 (level diff (l + 1)), ?_,
    Checked.toUint_of_nonneg hnn (by norm_num; omega)⟩
  simp [fold, hcast, hsum, Checked.addInt, if_pos hfits, pure, Except.pure]

theorem finalizeLoop_eq (hb : Bounded diff) (hl : (cumulative l : ℤ) = level diff l) (n : ℕ) :
    ∃ c, finalizeLoop diff n (l + 1) cumulative = .ok c ∧
      ∀ e, if l < e ∧ e ≤ l + n then (c e : ℤ) = level diff e else c e = cumulative e := by
  induction n generalizing l cumulative with
  | zero => exact ⟨cumulative, rfl, fun e => by rw [if_neg (by omega)]⟩
  | succ n ih =>
    have hprev : ((if l + 1 > 1 then cumulative (l + 1 - 1) else 0 : ℕ) : ℤ) = level diff l := by
      split
      · exact hl
      · have : l = 0 := by omega
        simp [this]
    obtain ⟨v, hv, hlevel⟩ := fold_eq hb hprev
    have hl' : (update cumulative (l + 1) v (l + 1) : ℤ) = level diff (l + 1) := by
      simpa using hlevel
    obtain ⟨c, hc, hspec⟩ := ih hl'
    refine ⟨c, by rw [finalizeLoop, hv, ok_bind, hc], fun e => ?_⟩
    have he := hspec e
    by_cases h1 : e = l + 1
    · subst h1
      rw [if_neg (by omega), update_self] at he
      rw [if_pos (by omega), he]
      exact hlevel
    · rw [update_of_ne h1] at he
      split at he
      · rw [if_pos (by omega)]
        exact he
      · rw [if_neg (by omega)]
        exact he

theorem simulateLoop_eq (hb : Bounded diff) {acc : ℕ} (hacc : (acc : ℤ) = level diff l) (n : ℕ) :
    ∃ v, simulateLoop diff n (l + 1) acc = .ok v ∧ (v : ℤ) = level diff (l + n) := by
  induction n generalizing l acc with
  | zero => exact ⟨acc, rfl, hacc⟩
  | succ n ih =>
    obtain ⟨v, hv, hlevel⟩ := fold_eq hb hacc
    obtain ⟨w, hw, hspec⟩ := ih hlevel
    refine ⟨w, by rw [simulateLoop, hv, ok_bind, hw], ?_⟩
    rw [hspec, show l + 1 + n = l + (n + 1) by omega]

namespace ShardInv

theorem bounded (h : ShardInv cur added s) (hadded : added < 2 ^ 95) : Bounded s.diff := by
  intro e
  refine ⟨h.nonneg e, ?_⟩
  obtain ⟨n, hz, hsum⟩ := h.total
  have hle : level s.diff e ≤ ∑ e ∈ range n, level s.diff e := by
    by_cases hn : e < n
    · exact single_le_sum (fun i _ => h.nonneg i) (mem_range.mpr hn)
    · rw [hz e (by omega)]
      exact sum_nonneg fun i _ => h.nonneg i
  zify at hadded
  omega

theorem remainder_le (h : ShardInv cur added s) : s.accumulatedRemainder ≤ added := by
  obtain ⟨n, _, hsum⟩ := h.total
  have := sum_nonneg fun i (_ : i ∈ range n) => h.nonneg i
  omega

theorem mono {cur' : ℕ} (h : ShardInv cur added s) (hc : cur ≤ cur') : ShardInv cur' added s :=
  ⟨by have := h.last_lt; omega, h.frozen, h.unfrozen, h.nonneg, h.total⟩

/-- Freezing the past keeps the invariant, and no arithmetic in it fails. -/
theorem finalizePast (h : ShardInv cur added s) (hadded : added < 2 ^ 95) :
    ∃ t, s.finalizePast cur = .ok t ∧ ShardInv cur added t ∧ t.diff = s.diff ∧
      t.accumulatedRemainder = s.accumulatedRemainder := by
  unfold Shard.finalizePast
  split
  · have hlast := h.last_lt
    obtain ⟨c, hc, hspec⟩ := finalizeLoop_eq (h.bounded hadded) (h.frozen _ le_rfl)
      (cur - 1 - s.lastFinalizedEpoch)
    refine ⟨{ s with cumulative := c, lastFinalizedEpoch := cur - 1 },
      by rw [Shard.finalizeEpochsUpTo, hc, ok_bind]; rfl,
      ⟨le_rfl, fun e he => ?_, fun e he => ?_, h.nonneg, h.total⟩, rfl, rfl⟩
    · have hce := hspec e
      dsimp only at he ⊢
      split at hce
      · exact hce
      · rw [hce]
        exact h.frozen e (by omega)
    · have hce := hspec e
      dsimp only at he ⊢
      rw [if_neg (by omega)] at hce
      rw [hce]
      exact h.unfrozen e (by omega)
  · exact ⟨s, rfl, h, rfl, rfl⟩

/-- The pools after `p` tokens are added to each epoch of `[a, b]`. -/
theorem addRange {a b p rem : ℕ} (h : ShardInv cur added s) (ha : s.lastFinalizedEpoch < a)
    (hab : a ≤ b) (hp : (b + 1 - a) * p + rem = amount + s.accumulatedRemainder) :
    ShardInv cur (added + amount)
      { s with accumulatedRemainder := rem, diff := DiffArray.addRange s.diff a b (p : ℤ) } := by
  obtain ⟨n, hz, hsum⟩ := h.total
  have hpos : 0 < a := by omega
  refine ⟨h.last_lt, fun e he => ?_, h.unfrozen, fun e => ?_, max n (b + 1), fun e he => ?_, ?_⟩
  · dsimp only at he ⊢
    rw [level_addRange_of_lt hpos hab (by omega)]
    exact h.frozen e he
  · dsimp only
    rw [level_addRange hpos hab]
    have := h.nonneg e
    split <;> omega
  · dsimp only
    rw [level_addRange hpos hab, hz e (by omega), if_neg (by omega), add_zero]
  · have hext : ∑ e ∈ range (max n (b + 1)), level s.diff e = ∑ e ∈ range n, level s.diff e := by
      refine (sum_subset (range_subset_range.mpr (le_max_left _ _)) ?_).symm
      intro e _ he
      exact hz e (by simpa using he)
    dsimp only
    rw [sum_level_addRange hpos hab (by omega), hext]
    rw [nsmul_eq_mul]
    zify at hp
    push_cast at hp ⊢
    omega

/-- An accepted credit reaches the pools in full: the per-epoch share over the clamped
range, and the rest as the new remainder. -/
theorem addTokensToEpochRange {startEpoch endEpoch : ℕ} (h : ShardInv cur added s)
    (hadded : added + amount < 2 ^ 95)
    (hok : s.addTokensToEpochRange cur startEpoch endEpoch amount = .ok t) :
    ShardInv cur (added + amount) t := by
  simp only [Shard.addTokensToEpochRange, bind_eq_ok, Checked.sub_eq_ok, Checked.add_eq_ok,
    Checked.addInt_eq_ok] at hok
  obtain ⟨span, ⟨hle, hspan⟩, num, ⟨_, hnum⟩, tokens, ⟨_, htokens⟩, v, ⟨_, hv⟩, last, ⟨_, hlast⟩,
    w, ⟨_, hw⟩, hok⟩ := hok
  have hopen : s.lastFinalizedEpoch < (s.clamp startEpoch endEpoch).1 := by
    unfold Shard.clamp
    dsimp only
    split <;> dsimp only <;> omega
  set a := (s.clamp startEpoch endEpoch).1 with ha
  set b := (s.clamp startEpoch endEpoch).2 with hb
  clear_value a b
  subst hspan hnum hv hlast hw htokens
  have hrem := h.remainder_le
  have hper : Checked.toInt 96 ((amount + s.accumulatedRemainder) / (b - a + 1)) =
      ((amount + s.accumulatedRemainder) / (b - a + 1) : ℕ) := by
    apply Checked.toInt_of_lt (by norm_num)
    have := Nat.div_le_self (amount + s.accumulatedRemainder) (b - a + 1)
    norm_num
    omega
  rw [hper, ← sub_eq_add_neg] at hok
  set p : ℕ := (amount + s.accumulatedRemainder) / (b - a + 1) with hp
  have hinv : ShardInv cur (added + amount)
      { s with
        accumulatedRemainder := (amount + s.accumulatedRemainder) % (b - a + 1)
        diff := DiffArray.addRange s.diff a b (p : ℤ) } := by
    refine h.addRange hopen hle ?_
    rw [show b + 1 - a = b - a + 1 by omega]
    exact Nat.div_add_mod _ _
  obtain ⟨t', ht', hinv', _⟩ := hinv.finalizePast hadded
  rw [DiffArray.addRange] at ht'
  rw [ht'] at hok
  simp only [Except.ok.injEq] at hok
  exact hok ▸ hinv'

end ShardInv

/-- The pool of an epoch as the level of the difference array. -/
def Shard.pool (s : Shard) (e : ℕ) : ℕ := (level s.diff e).toNat

theorem rangeFinalizedLoop_eq {acc : ℕ}
    (hlt : acc + ∑ i ∈ Finset.Ico e (e + n), cumulative i < 2 ^ 96) :
    rangeFinalizedLoop cumulative n e acc =
      .ok (acc + ∑ i ∈ Finset.Ico e (e + n), cumulative i) := by
  induction n generalizing e acc with
  | zero => simp [rangeFinalizedLoop]
  | succ n ih =>
    rw [sum_eq_sum_Ico_succ_bot (by omega), ← add_assoc,
      show e + (n + 1) = e + 1 + n by omega] at hlt ⊢
    rw [rangeFinalizedLoop, Checked.add, if_pos (by omega), ok_bind, ih hlt]

theorem rangeSimulatedLoop_eq {startEpoch acc simulated : ℕ} (hb : Bounded s.diff)
    (hpool : ∀ e, (s.pool e : ℤ) = level s.diff e) (hsim : (simulated : ℤ) = level s.diff l)
    (hlt : acc + ∑ i ∈ (Finset.Ico (l + 1) (l + 1 + n)).filter (startEpoch ≤ ·), s.pool i <
      2 ^ 96) :
    rangeSimulatedLoop s.diff startEpoch n (l + 1) simulated acc =
      .ok (acc + ∑ i ∈ (Finset.Ico (l + 1) (l + 1 + n)).filter (startEpoch ≤ ·), s.pool i) := by
  induction n generalizing l acc simulated with
  | zero => simp [rangeSimulatedLoop]
  | succ n ih =>
    obtain ⟨v, hv, hlevel⟩ := fold_eq hb hsim
    have hvp : v = s.pool (l + 1) := by have := hpool (l + 1); omega
    rw [sum_filter, sum_eq_sum_Ico_succ_bot (by omega), ← add_assoc,
      show l + 1 + (n + 1) = l + 1 + 1 + n by omega, ← sum_filter, ← hvp] at hlt ⊢
    rw [rangeSimulatedLoop, hv, ok_bind]
    by_cases hge : startEpoch ≤ l + 1
    · rw [if_pos hge] at hlt ⊢
      rw [addFrom, if_pos hge, Checked.add, if_pos (by omega), ok_bind, ih hlevel hlt]
    · rw [if_neg hge, add_zero] at hlt ⊢
      rw [addFrom, if_neg hge, ok_bind, ih hlevel hlt]

namespace ShardInv
variable (h : ShardInv cur added s) (hadded : added < 2 ^ 95)
include h

theorem pool_eq (e : ℕ) : (s.pool e : ℤ) = level s.diff e := Int.toNat_of_nonneg (h.nonneg e)

theorem sum_pool_le (k : Finset ℕ) : ∑ e ∈ k, s.pool e ≤ added := by
  obtain ⟨n, hz, hsum⟩ := h.total
  have hle : ∑ e ∈ k, s.pool e ≤ ∑ e ∈ range n, s.pool e := by
    apply sum_le_sum_of_ne_zero
    intro e _ hne
    rw [mem_range]
    by_contra hge
    exact hne (by simp [Shard.pool, hz e (by omega)])
  have hpool : ((∑ e ∈ range n, s.pool e : ℕ) : ℤ) = ∑ e ∈ range n, level s.diff e := by
    push_cast
    exact sum_congr rfl fun e _ => h.pool_eq e
  omega

include hadded

theorem getEpochPool_eq (e : ℕ) : s.getEpochPool e = .ok (s.pool e) := by
  have hpool := h.pool_eq e
  unfold Shard.getEpochPool Shard.simulateEpochFinalization
  split
  · rename_i hle
    have := h.frozen e hle
    congr 1
    omega
  · rename_i hgt
    have hstart : ((if s.lastFinalizedEpoch > 0 then s.cumulative s.lastFinalizedEpoch else 0 : ℕ) :
        ℤ) = level s.diff s.lastFinalizedEpoch := by
      split_ifs with hz
      · exact h.frozen _ le_rfl
      · have : s.lastFinalizedEpoch = 0 := by omega
        simp [this]
    obtain ⟨v, hv, hlevel⟩ := simulateLoop_eq (h.bounded hadded) hstart (e - s.lastFinalizedEpoch)
    rw [show s.lastFinalizedEpoch + (e - s.lastFinalizedEpoch) = e by omega] at hlevel
    rw [hv]
    congr 1
    omega

theorem getEpochRangePool_eq (a b : ℕ) :
    s.getEpochRangePool a b = .ok (∑ e ∈ Finset.Icc a b, s.pool e) := by
  have hsum := lt_of_le_of_lt (h.sum_pool_le (Finset.Icc a b)) hadded
  have hsim : ((if s.lastFinalizedEpoch > 0 then s.cumulative s.lastFinalizedEpoch
      else s.cumulative 1 : ℕ) : ℤ) = level s.diff s.lastFinalizedEpoch := by
    split_ifs with hz
    · exact h.frozen _ le_rfl
    · rw [h.unfrozen 1 (by omega), show s.lastFinalizedEpoch = 0 by omega]
      simp
  set l := s.lastFinalizedEpoch with hl
  -- the simulated part covers the epochs of the range above the freeze line
  have hopen : (Finset.Ico (l + 1) (l + 1 + (b - l))).filter (a ≤ ·) =
      (Finset.Icc a b).filter (l < ·) := by
    ext e
    simp only [mem_filter, mem_Ico, mem_Icc]
    omega
  have hfrozen : s.rangeFinalized a b =
      .ok (∑ e ∈ (Finset.Icc a b).filter (¬l < ·), s.pool e) := by
    rw [Shard.rangeFinalized, ← hl]
    by_cases hal : a ≤ l
    · have hrange : Finset.Ico a (a + (min l b + 1 - a)) = (Finset.Icc a b).filter (¬l < ·) := by
        ext e
        simp only [mem_filter, mem_Ico, mem_Icc]
        omega
      have hcum : ∑ e ∈ (Finset.Icc a b).filter (¬l < ·), s.cumulative e =
          ∑ e ∈ (Finset.Icc a b).filter (¬l < ·), s.pool e := by
        refine sum_congr rfl fun e he => ?_
        have hfe := h.frozen e (by have := (mem_filter.mp he).2; omega)
        have := h.pool_eq e
        omega
      have hle := h.sum_pool_le ((Finset.Icc a b).filter (¬l < ·))
      rw [if_pos hal, rangeFinalizedLoop_eq (by rw [hrange, hcum]; omega), hrange, hcum, zero_add]
    · have hempty : (Finset.Icc a b).filter (¬l < ·) = ∅ := by
        ext e
        simp only [mem_filter, mem_Icc, notMem_empty, iff_false]
        omega
      rw [if_neg hal, hempty, sum_empty]
  rw [← sum_filter_not_add_sum_filter _ (l < ·)] at hsum ⊢
  rw [Shard.getEpochRangePool, hfrozen, ok_bind, ← hl,
    rangeSimulatedLoop_eq (h.bounded hadded) h.pool_eq hsim (by rw [hopen]; omega), hopen]

end ShardInv

theorem empty_shardInv (shardId : ℕ) : ShardInv 0 0 (empty.shards shardId) where
  last_lt := le_rfl
  frozen := fun e _ => by simp [empty, level]
  unfrozen := fun _ _ => rfl
  nonneg := fun e => by simp [empty, level]
  total := ⟨0, fun e _ => by simp [empty, level], by simp [empty]⟩

/-- One call keeps the invariant of every shard, with what it adds there. -/
theorem step_shardInv {s t : Storage} {c : Call} {shardId : ℕ} (h : step s c = .ok t)
    (hinv : ShardInv c.currentEpoch added (s.shards shardId))
    (hadded : added + c.amountTo shardId < 2 ^ 95) :
    ShardInv c.currentEpoch (added + c.amountTo shardId) (t.shards shardId) := by
  obtain ⟨cur, op⟩ := c
  cases op with
  | addTokensToEpochRange id startEpoch endEpoch tokenAmount =>
    simp only [step, EpochStorage.addTokensToEpochRange, bind_eq_ok, pure_eq_ok] at h
    obtain ⟨shard, hshard, rfl⟩ := h
    simp only [Call.amountTo] at hadded ⊢
    by_cases hid : id = shardId
    · subst hid
      rw [if_pos rfl] at hadded ⊢
      rw [update_self]
      exact hinv.addTokensToEpochRange hadded hshard
    · rw [if_neg hid, add_zero] at hadded ⊢
      rw [update_of_ne (Ne.symm hid)]
      exact hinv
  | payOutEpochTokens id epoch identityId amount =>
    simp only [step, EpochStorage.payOutEpochTokens, bind_eq_ok, pure_eq_ok] at h
    obtain ⟨shard, hshard, _, _, _, _, rfl⟩ := h
    simp only [Call.amountTo, add_zero] at hadded ⊢
    by_cases hid : id = shardId
    · subst hid
      obtain ⟨shard', hshard', hinv', _⟩ := hinv.finalizePast hadded
      obtain rfl : shard' = shard := by simpa [hshard'] using hshard
      rw [update_self]
      exact ⟨hinv'.last_lt, hinv'.frozen, hinv'.unfrozen, hinv'.nonneg, hinv'.total⟩
    · rw [update_of_ne (Ne.symm hid)]
      exact hinv
  | addEpochPublishingAllocation identityId epoch amount =>
    simp only [step, EpochStorage.addEpochPublishingAllocation, bind_eq_ok, pure_eq_ok] at h
    obtain ⟨_, _, _, _, rfl⟩ := h
    exact hinv
  | moveEpochPublishingAllocation fromId toId epoch amount =>
    simp only [step, EpochStorage.moveEpochPublishingAllocation, bind_eq_ok, pure_eq_ok] at h
    obtain ⟨_, _, _, _, rfl⟩ := h
    exact hinv

theorem run_shardInv {calls : List Call} {shardId : ℕ}
    (hsorted : calls.Pairwise fun a b => a.currentEpoch ≤ b.currentEpoch)
    (hadded : committed step (Call.amountTo shardId) empty calls < 2 ^ 95) :
    ShardInv (now Call.currentEpoch 0 calls) (committed step (Call.amountTo shardId) empty calls)
      ((run step empty calls).shards shardId) := by
  rw [committed_eq_sum] at hadded ⊢
  refine run_invariant_accepted (fun cur past s => (past.map (Call.amountTo shardId)).sum < 2 ^ 95 →
    ShardInv cur (past.map (Call.amountTo shardId)).sum (s.shards shardId)) ?_ ?_ ?_ ?_ hsorted
    hadded
  · intro n m past s hnm h hx
    exact (h hx).mono hnm
  · intro c _ past s t h hstep hx
    rw [List.map_append, List.sum_append, List.map_singleton, List.sum_singleton] at hx ⊢
    exact step_shardInv hstep (h (by omega)) hx
  · intro _
    exact empty_shardInv shardId
  · intro _ _
    exact Nat.zero_le _

/-- Every token given to a shard is in the pool of exactly one epoch or in the
remainder, and the three readers of the pools agree. -/
theorem run_conserves_tokens {calls : List Call}
    (hsorted : calls.Pairwise fun a b => a.currentEpoch ≤ b.currentEpoch) (shardId : ℕ)
    (hadded : committed step (Call.amountTo shardId) empty calls < 2 ^ 95) :
    let s := run step empty calls
    ∃ pool : ℕ → ℕ, (∀ e, getEpochPool s shardId e = .ok (pool e)) ∧
      (∀ e, (pool e : ℤ) = ∑ i ∈ Finset.Ioc 0 e, (s.shards shardId).diff i) ∧
      pool.support.Finite ∧
      ∑ᶠ e, pool e + (s.shards shardId).accumulatedRemainder =
        committed step (Call.amountTo shardId) empty calls ∧
      ∀ a b, getEpochRangePool s shardId a b = .ok (∑ e ∈ Finset.Icc a b, pool e) := by
  intro s
  have hinv := run_shardInv hsorted hadded
  obtain ⟨n, hz, hsum⟩ := hinv.total
  have hsupp : support (s.shards shardId).pool ⊆ range n := by
    intro e he
    rw [coe_range, Set.mem_Iio]
    by_contra hge
    exact he (by simp [Shard.pool, s, hz e (by omega)])
  refine ⟨(s.shards shardId).pool, fun e => hinv.getEpochPool_eq hadded e, hinv.pool_eq,
    (finite_toSet _).subset hsupp, ?_, fun a b => hinv.getEpochRangePool_eq hadded a b⟩
  rw [finsum_eq_sum_of_support_subset _ hsupp]
  zify
  rw [← hsum]
  congr 1
  exact sum_congr rfl fun e _ => hinv.pool_eq e

/-- Two credits, the second to a range that is already frozen. -/
def lateCredit : List Call :=
  [⟨1, .addTokensToEpochRange 1 1 3 10⟩, ⟨4, .addTokensToEpochRange 1 1 2 7⟩,
    ⟨5, .addTokensToEpochRange 1 2 2 5⟩]

theorem run_conserves_tokens_lateCredit :
    committed step (Call.amountTo 1) empty lateCredit = 22 ∧
    ∃ pool : ℕ → ℕ, (∀ e, getEpochPool (run step empty lateCredit) 1 e = .ok (pool e)) ∧
      ∑ᶠ e, pool e + ((run step empty lateCredit).shards 1).accumulatedRemainder =
        committed step (Call.amountTo 1) empty lateCredit := by
  have hsorted : lateCredit.Pairwise fun a b => a.currentEpoch ≤ b.currentEpoch := by decide
  obtain ⟨pool, hpool, _, _, hsum, _⟩ := run_conserves_tokens hsorted 1 (by decide)
  exact ⟨by decide, pool, hpool, hsum⟩

end Dkg.EpochStorage
