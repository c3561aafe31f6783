import Dkg.Publishing.Escrow

namespace Dkg.Publishing
open Revert Function List

/-- What a call adds to the bucket of node `n` in epoch `e`. -/
def Allocation.net (n e : ℕ) : Allocation → ℤ
  | .add node epoch amount => if n = node ∧ e = epoch then amount else 0
  | .move fromNode toNode epoch amount =>
    (if n = toNode ∧ e = epoch then amount else 0) -
      if n = fromNode ∧ e = epoch then amount else 0

/-- What a call adds to the total of epoch `e`. -/
def Allocation.added (e : ℕ) : Allocation → ℤ
  | .add _ epoch amount => if e = epoch then amount else 0
  | .move _ _ _ _ => 0

/-- What the calls made for an account leave in a node's bucket. -/
def held (allocations : List Allocation) (n e : ℕ) : ℤ := (allocations.map (·.net n e)).sum

variable {c : Chronos} {env : Env c} {l l' : Ledger} {a : Account} {s t : State} {r : Ranges}
  {es es' : EpochStorage.Storage} {call : ℕ → ℕ → Allocation} {amountAt : ℕ → ℕ}
  {as bs : List Allocation} {x : Allocation} {n e e₀ k id node : ℕ}
  {p : Ledger × List Allocation} {newNode : ℕ}

theorem held_append (as bs : List Allocation) (n e : ℕ) :
    held (as ++ bs) n e = held as n e + held bs n e := by
  simp [held]

section Schedule

/-- A slot that holds something has the bounds it was given. -/
theorem slot_bounds (i j n e : ℕ) :
    (n > 0 ∧ e = (slot i j n).startEpoch ↔ n > 0 ∧ e = i) ∧
      (n > 0 ∧ e ≥ (slot i j n).startEpoch ∧ e ≤ (slot i j n).endEpoch ↔
        n > 0 ∧ e ≥ i ∧ e ≤ j) := by
  unfold slot
  split_ifs with hn
  · exact ⟨Iff.rfl, Iff.rfl⟩
  · simp [hn]

/-- The amounts of the schedule are the parts of the proration. -/
theorem amountForEpoch_anchored {anchor epochs first amount last : ℕ} (hn : 0 < epochs) (e : ℕ) :
    amountForEpoch (.anchored anchor epochs first (amount / epochs) last) amount epochs e =
      if e < anchor then 0 else part epochs first (amount / epochs) last (e - anchor) := by
  simp only [amountForEpoch, Ranges.anchored, slot_tokenAmount, slot_bounds]
  by_cases he : e < anchor
  · rw [if_pos he, if_neg (by omega), if_neg (by omega), if_neg (by omega)]
  · obtain ⟨k, rfl⟩ : ∃ k, e = anchor + k := ⟨e - anchor, by omega⟩
    rw [if_neg he, Nat.add_sub_cancel_left, part]
    rcases Nat.eq_zero_or_pos k with rfl | hk
    · rcases Nat.eq_zero_or_pos first with rfl | hfirst
      · rw [if_neg (by omega), if_neg (by omega), if_neg (by omega), if_pos rfl]
      · rw [if_pos ⟨hfirst, rfl⟩, if_pos rfl]
    · rw [if_neg (by omega), if_neg (show k ≠ 0 by omega)]
      rcases lt_trichotomy k epochs with h | rfl | h
      · rw [if_pos h, if_neg (show ¬ (_ ∧ anchor + k = _) by omega)]
        split
        · rfl
        · -- an empty full range has nothing per epoch
          rename_i hfull
          have hzero : amount / epochs * (epochs - 1) = 0 := by
            by_contra hne
            exact hfull ⟨Nat.pos_of_ne_zero hne, by omega, by omega⟩
          rcases Nat.mul_eq_zero.mp hzero with h0 | h0
          · exact h0.symm
          · omega
      · rw [if_neg (show ¬ (_ ∧ _ ∧ _) by omega), if_neg (lt_irrefl k), if_pos rfl]
        split <;> omega
      · rw [if_neg (show ¬ (_ ∧ _ ∧ _) by omega), if_neg (by omega), if_neg (by omega),
          if_neg (by omega)]

/-- The schedule of an account: nothing outside its epochs, the commitment in total. -/
structure Scheduled (a : Account) (r : Ranges) : Prop where
  outside : ∀ e, e < a.createdAtEpoch ∨ a.createdAtEpoch + a.lockDurationEpochs < e →
    amountForEpoch r a.committedTRAC a.lockDurationEpochs e = 0
  total : ∑ e ∈ Finset.Icc a.createdAtEpoch (a.createdAtEpoch + a.lockDurationEpochs),
    amountForEpoch r a.committedTRAC a.lockDurationEpochs e = a.committedTRAC

theorem scheduleFor_ok (h : scheduleFor c a = .ok r) : Scheduled a r := by
  obtain ⟨hlock, first, last, hsum, rfl, -⟩ := prorateActiveSink_ok h
  constructor
  · intro e he
    rw [amountForEpoch_anchored hlock]
    rcases he with he | he
    · rw [if_pos he]
    · rw [if_neg (by omega), part, if_neg (by omega), if_neg (by omega), if_neg (by omega)]
  · rw [← Finset.Ico_add_one_right_eq_Icc, Finset.sum_Ico_eq_sum_range,
      show a.createdAtEpoch + a.lockDurationEpochs + 1 - a.createdAtEpoch =
        a.lockDurationEpochs + 1 by omega,
      Finset.sum_congr rfl fun k _ => ?_, sum_part hlock, hsum]
    rw [amountForEpoch_anchored hlock, if_neg (by omega), Nat.add_sub_cancel_left]

end Schedule

section Calls

/-- A seed or move loop touches each epoch of its range once. -/
theorem sum_allocationsFrom (f : Allocation → ℤ) (hne : ∀ i y, i ≠ e → f (call i y) = 0)
    (hzero : f (call e 0) = 0) :
    ((allocationsFrom call amountAt e₀ k).map f).sum =
      if e₀ ≤ e ∧ e < e₀ + k then f (call e (amountAt e)) else 0 := by
  induction k generalizing e₀ with
  | zero =>
    rw [if_neg (by omega)]
    rfl
  | succ k ih =>
    have hrest := @ih (e₀ + 1)
    unfold allocationsFrom at hrest ⊢
    rw [range'_succ, filter_cons]
    by_cases he : e₀ = e
    · subst he
      rw [if_neg (by omega)] at hrest
      have hin : e₀ ≤ e₀ ∧ e₀ < e₀ + (k + 1) := ⟨le_rfl, by omega⟩
      rw [if_pos hin]
      by_cases hz : amountAt e₀ = 0
      · simpa [hz, hzero] using hrest
      · simpa [hz] using hrest
    · have hcond : (e₀ ≤ e ∧ e < e₀ + (k + 1)) ↔ (e₀ + 1 ≤ e ∧ e < e₀ + 1 + k) := by omega
      simp only [hcond]
      by_cases hz : amountAt e₀ = 0
      · simpa [hz] using hrest
      · simpa [hz, hne e₀ _ he] using hrest

theorem held_add (node : ℕ) (amountAt : ℕ → ℕ) (e₀ k n e : ℕ) :
    held (allocationsFrom (.add node) amountAt e₀ k) n e =
      if e₀ ≤ e ∧ e < e₀ + k then (if n = node then (amountAt e : ℤ) else 0) else 0 := by
  rw [held, sum_allocationsFrom (e := e)]
  · simp [Allocation.net]
  · intro i y hi
    simp [Allocation.net, hi.symm]
  · simp [Allocation.net]

theorem held_move (fromNode toNode : ℕ) (amountAt : ℕ → ℕ) (e₀ k n e : ℕ) :
    held (allocationsFrom (.move fromNode toNode) amountAt e₀ k) n e = if e₀ ≤ e ∧ e < e₀ + k then
        (if n = toNode then (amountAt e : ℤ) else 0) - (if n = fromNode then (amountAt e : ℤ) else 0)
      else 0 := by
  rw [held, sum_allocationsFrom (e := e)]
  · simp [Allocation.net]
  · intro i y hi
    simp [Allocation.net, hi.symm]
  · simp [Allocation.net]

theorem added_add (node : ℕ) (amountAt : ℕ → ℕ) (e₀ k e : ℕ) :
    ((allocationsFrom (.add node) amountAt e₀ k).map (·.added e)).sum =
      if e₀ ≤ e ∧ e < e₀ + k then (amountAt e : ℤ) else 0 := by
  rw [sum_allocationsFrom (e := e)]
  · simp [Allocation.added]
  · intro i y hi
    simp [Allocation.added, hi.symm]
  · simp [Allocation.added]

theorem added_move (fromNode toNode : ℕ) (amountAt : ℕ → ℕ) (e₀ k e : ℕ) :
    ((allocationsFrom (.move fromNode toNode) amountAt e₀ k).map (·.added e)).sum = 0 := by
  rw [sum_allocationsFrom (e := e)] <;> simp [Allocation.added]

end Calls

section Storage

/-- The totals of the epochs: each is the sum over the nodes and fits. -/
structure Totals (es : EpochStorage.Storage) : Prop where
  finite : ∀ e, (fun n => (es.nodesEpochPublishingAllocation n e : ℤ)).support.Finite
  sum_eq : ∀ e, (es.epochPublishingAllocation e : ℤ) =
    ∑ᶠ n, (es.nodesEpochPublishingAllocation n e : ℤ)
  lt : ∀ e, es.epochPublishingAllocation e < 2 ^ 96

/-- What a committed call does to the buckets and the totals. -/
structure Allocates (x : Allocation) (es es' : EpochStorage.Storage) : Prop where
  node : ∀ n e, (es'.nodesEpochPublishingAllocation n e : ℤ) =
    es.nodesEpochPublishingAllocation n e + x.net n e
  total : ∀ e, (es'.epochPublishingAllocation e : ℤ) = es.epochPublishingAllocation e + x.added e
  lt : (∀ e, es.epochPublishingAllocation e < 2 ^ 96) →
    ∀ e, es'.epochPublishingAllocation e < 2 ^ 96

theorem update_update_apply {f : ℕ → ℕ → ℕ} {i j v : ℕ} (n e : ℕ) :
    update f i (update (f i) j v) n e = if n = i ∧ e = j then v else f n e := by
  by_cases hn : n = i
  · subst hn
    simp [update_apply]
  · simp [hn]

theorem allocate1_ok (h : allocate1 es x = .ok es') : Allocates x es es' := by
  cases x with
  | add node epoch amount =>
    simp only [allocate1, mapError_eq_ok, EpochStorage.addEpochPublishingAllocation, bind_eq_ok,
      Checked.add_eq_ok, pure_eq_ok] at h
    obtain ⟨_, ⟨hn, rfl⟩, _, ⟨ht, rfl⟩, rfl⟩ := h
    refine ⟨fun n e => ?_, fun e => ?_, fun hlt e => ?_⟩
    · simp only [EpochStorage.setNodeAllocation, update_update_apply, Allocation.net]
      split_ifs with hne
      · rw [hne.1, hne.2, Nat.cast_add]
      · rw [add_zero]
    · simp only [EpochStorage.setNodeAllocation, update_apply, Allocation.added]
      split_ifs with he
      · rw [he, Nat.cast_add]
      · rw [add_zero]
    · simp only [EpochStorage.setNodeAllocation, update_apply]
      split
      · exact ht
      · exact hlt e
  | move fromNode toNode epoch amount =>
    simp only [allocate1, mapError_eq_ok, EpochStorage.moveEpochPublishingAllocation, bind_eq_ok,
      Checked.add_eq_ok, Checked.sub_eq_ok, pure_eq_ok] at h
    obtain ⟨_, ⟨hf, rfl⟩, _, ⟨ht, rfl⟩, rfl⟩ := h
    refine ⟨fun n e => ?_, fun e => ?_, fun hlt e => hlt e⟩
    · simp only [EpochStorage.setNodeAllocation, update_update_apply, Allocation.net]
      by_cases he : e = epoch
      · subst he
        by_cases hto : n = toNode <;> by_cases hfrom : n = fromNode
        · subst hto hfrom
          simp
          omega
        · subst hto
          simp [hfrom]
        · subst hfrom
          simp [hto]
          omega
        · simp [hto, hfrom]
      · simp [he]
    · simp [EpochStorage.setNodeAllocation, Allocation.added]

/-- Over the nodes, a call adds to an epoch what it adds to the total. -/
theorem net_eq_single (x : Allocation) (f : ℕ → ℤ) (e : ℕ) (hf : f.support.Finite) :
    (fun n => f n + x.net n e).support.Finite ∧ ∑ᶠ n, (f n + x.net n e) = ∑ᶠ n, f n + x.added e := by
  cases x with
  | add node epoch amount =>
    by_cases he : e = epoch
    · have hnet : (fun n => f n + (Allocation.add node epoch amount).net n e) =
          f + Pi.single node (amount : ℤ) := by
        funext n
        by_cases hn : n = node
        · subst hn
          simp [Allocation.net, he]
        · simp [Allocation.net, hn]
      rw [hnet]
      refine ⟨Sums.support_add_single_finite hf _ _, ?_⟩
      rw [Sums.finsum_add_single hf]
      simp [Allocation.added, he]
    · simpa [Allocation.net, Allocation.added, he] using hf
  | move fromNode toNode epoch amount =>
    by_cases he : e = epoch
    · have hnet : (fun n => f n + (Allocation.move fromNode toNode epoch amount).net n e) =
          f + Pi.single toNode (amount : ℤ) + Pi.single fromNode (-amount : ℤ) := by
        funext n
        simp only [Allocation.net, he, and_true, Pi.add_apply, Pi.single_apply]
        split <;> split <;> omega
      have hto := Sums.support_add_single_finite hf toNode (amount : ℤ)
      rw [hnet]
      refine ⟨Sums.support_add_single_finite hto _ _, ?_⟩
      rw [Sums.finsum_add_single hto, Sums.finsum_add_single hf]
      simp [Allocation.added]
    · simpa [Allocation.net, Allocation.added, he] using hf

theorem Totals.allocate1 (ht : Totals es) (h : allocate1 es x = .ok es') : Totals es' := by
  have hx := allocate1_ok h
  refine ⟨fun e => ?_, fun e => ?_, hx.lt ht.lt⟩
  · simp only [hx.node]
    exact (net_eq_single x _ e (ht.finite e)).1
  · simp only [hx.node, hx.total, ht.sum_eq]
    exact (net_eq_single x _ e (ht.finite e)).2.symm

/-- A list of committed calls. -/
theorem allocate_ok (ht : Totals es) (h : allocate es as = .ok es') :
    Totals es' ∧ ∀ n e, (es'.nodesEpochPublishingAllocation n e : ℤ) =
      es.nodesEpochPublishingAllocation n e + held as n e := by
  induction as generalizing es with
  | nil =>
    simp only [allocate, foldlM_nil, pure_eq_ok] at h
    subst h
    exact ⟨ht, fun n e => (add_zero _).symm⟩
  | cons x as ih =>
    simp only [allocate, foldlM_cons, bind_eq_ok] at h
    obtain ⟨es₁, hx, h⟩ := h
    obtain ⟨ht', hnode⟩ := ih (ht.allocate1 hx) h
    refine ⟨ht', fun n e => ?_⟩
    rw [hnode, (allocate1_ok hx).node, add_assoc]
    rfl

/-- The moves of a loop succeed when each epoch's amount is in the bucket it is taken from
and fits the one it is put into. -/
theorem allocate_move {fromNode toNode : ℕ} (hne : fromNode ≠ toNode)
    (hfrom : ∀ i, e₀ ≤ i → amountAt i ≤ es.nodesEpochPublishingAllocation fromNode i)
    (hto : ∀ i, e₀ ≤ i → es.nodesEpochPublishingAllocation toNode i + amountAt i < 2 ^ 96) :
    ∃ es', allocate es (allocationsFrom (.move fromNode toNode) amountAt e₀ k) = .ok es' := by
  induction k generalizing es e₀ with
  | zero => exact ⟨es, rfl⟩
  | succ k ih =>
    unfold allocationsFrom
    rw [range'_succ, filter_cons]
    by_cases hz : amountAt e₀ = 0
    · rw [if_neg (by simpa using hz)]
      exact ih (fun i hi => hfrom i (by omega)) fun i hi => hto i (by omega)
    · rw [if_pos (by simpa using hz), map_cons]
      obtain ⟨es₁, hes₁⟩ : ∃ es₁, Publishing.allocate1 es
          (.move fromNode toNode e₀ (amountAt e₀)) = .ok es₁ := by
        have hto' : update es.nodesEpochPublishingAllocation fromNode
            (update (es.nodesEpochPublishingAllocation fromNode) e₀
              (es.nodesEpochPublishingAllocation fromNode e₀ - amountAt e₀)) toNode e₀ +
            amountAt e₀ < 2 ^ 96 := by
          rw [update_of_ne hne.symm]
          exact hto e₀ le_rfl
        simp only [Publishing.allocate1, mapError_eq_ok,
          EpochStorage.moveEpochPublishingAllocation, bind_eq_ok, Checked.add_eq_ok,
          Checked.sub_eq_ok, pure_eq_ok]
        exact ⟨_, _, ⟨hfrom e₀ le_rfl, rfl⟩, _, ⟨hto', rfl⟩, rfl⟩
      -- the later epochs are not touched by this one
      have hsame : ∀ n i, e₀ + 1 ≤ i → es₁.nodesEpochPublishingAllocation n i =
          es.nodesEpochPublishingAllocation n i := by
        intro n i hi
        have hnode := (allocate1_ok hes₁).node n i
        have hnet : (Allocation.move fromNode toNode e₀ (amountAt e₀)).net n i = 0 := by
          simp [Allocation.net, show i ≠ e₀ by omega]
        omega
      obtain ⟨es', hes'⟩ := @ih es₁ (e₀ + 1)
        (fun i hi => by rw [hsame _ _ hi]; exact hfrom i (by omega))
        (fun i hi => by rw [hsame _ _ hi]; exact hto i (by omega))
      refine ⟨es', ?_⟩
      simp only [allocate, foldlM_cons, bind_eq_ok]
      exact ⟨es₁, hes₁, hes'⟩

end Storage

section Accounts

/-- Where the allocations of an account are, by its record: nowhere without a designation,
else after the last change of node all on the current one, as scheduled. -/
structure Placed (c : Chronos) (a : Account) (as : List Allocation) : Prop where
  nonneg : ∀ n e, 0 ≤ held as n e
  unused : a.lockDurationEpochs = 0 ∨ a.primaryNode = 0 → as = []
  current : a.primaryNode ≠ 0 → ∃ r, scheduleFor c a = .ok r ∧
    ∀ e > a.lastPrimaryNodeChangeEpoch, ∀ n, held as n e = if n = a.primaryNode then
        (amountForEpoch r a.committedTRAC a.lockDurationEpochs e : ℤ) else 0

/-- An account that was designated at creation: each epoch's total is as scheduled. -/
structure Seeded (c : Chronos) (a : Account) (as : List Allocation) : Prop where
  lock_pos : 0 < a.lockDurationEpochs
  designated : a.primaryNode ≠ 0
  added : ∃ r, scheduleFor c a = .ok r ∧ ∀ e, (as.map (·.added e)).sum =
    (amountForEpoch r a.committedTRAC a.lockDurationEpochs e : ℤ)

theorem newAccount_createdAtEpoch {committed : ℕ} (h : newAccount env committed node = .ok a) :
    a.createdAtEpoch = env.block.currentEpoch ∧
      a.lastPrimaryNodeChangeEpoch = env.block.currentEpoch := by
  simp only [newAccount, bind_eq_ok, pure_eq_ok] at h
  obtain ⟨_, _, _, _, rfl⟩ := h
  have hcur := uint40_of_lt (lt_trans env.block.epoch_lt (by norm_num))
  exact ⟨hcur, hcur⟩

/-- The seed puts the whole schedule on the designated node. -/
theorem seeds_placed
    (hchange : a.lastPrimaryNodeChangeEpoch = a.createdAtEpoch) (h : seeds c a = .ok as) :
    Placed c a as ∧ (a.primaryNode ≠ 0 → Seeded c a as) := by
  unfold seeds at h
  by_cases hp : a.primaryNode = 0
  · rw [if_neg (by simpa using hp)] at h
    simp only [Except.ok.injEq] at h
    subst h
    exact ⟨⟨fun _ _ => le_rfl, fun _ => rfl, fun hne => absurd hp hne⟩, fun hne => absurd hp hne⟩
  · rw [if_pos hp] at h
    simp only [bind_eq_ok, pure_eq_ok] at h
    obtain ⟨r, hr, rfl⟩ := h
    have hlock := (prorateActiveSink_ok hr).1
    have hout := (scheduleFor_ok hr).outside
    refine ⟨⟨fun n e => ?_, fun hz => ?_, fun _ => ⟨r, hr, fun e he n => ?_⟩⟩,
      fun _ => ⟨hlock, hp, r, hr, fun e => ?_⟩⟩
    · rw [held_add]
      split
      · split <;> omega
      · exact le_rfl
    · omega
    · rw [held_add]
      split
      · rfl
      · rw [hout e (by omega)]
        simp
    · rw [added_add]
      split
      · rfl
      · rw [hout e (by omega)]
        rfl

theorem setPrimaryNode_ok (h : setPrimaryNode env l id newNode = .ok p) :
    l.account.lockDurationEpochs ≠ 0 ∧
      l.account.lastPrimaryNodeChangeEpoch < uint40 env.block.currentEpoch ∧ newNode ≠ 0 ∧
      newNode ≠ l.account.primaryNode ∧
      p.1.account = { l.account with
        primaryNode := newNode, lastPrimaryNodeChangeEpoch := uint40 env.block.currentEpoch } ∧
      ∃ r, scheduleFor c l.account = .ok r ∧ p.2 = allocationsFrom
          (if l.account.primaryNode ≠ 0 then .move l.account.primaryNode newNode else .add newNode)
          (amountForEpoch r l.account.committedTRAC l.account.lockDurationEpochs)
          (uint40 env.block.currentEpoch + 1)
          (l.account.createdAtEpoch + l.account.lockDurationEpochs -
            uint40 env.block.currentEpoch) := by
  simp only [setPrimaryNode, bind_eq_ok, require_eq_ok, pure_eq_ok] at h
  obtain ⟨_, hlock, _, hcur, _, hnew, _, _, _, hne, r, hr, rfl⟩ := h
  exact ⟨hlock, hcur, hnew, hne, rfl, r, hr, rfl⟩

/-- The calls of a change of node at epoch `cur`: after it, the schedule goes from the old
node to the new one. -/
theorem held_change {oldNode newNode cur lastEpoch : ℕ} (hne : newNode ≠ oldNode)
    (hout : ∀ e, lastEpoch < e → amountAt e = 0) (n e : ℕ) :
    held (allocationsFrom (if oldNode ≠ 0 then .move oldNode newNode else .add newNode) amountAt
      (cur + 1) (lastEpoch - cur)) n e =
      if cur < e then
        if n = newNode then (amountAt e : ℤ)
        else if n = oldNode ∧ oldNode ≠ 0 then -(amountAt e : ℤ) else 0
      else 0 := by
  have hzero : cur < e → ¬ e < cur + 1 + (lastEpoch - cur) → amountAt e = 0 :=
    fun _ _ => hout e (by omega)
  by_cases hold : oldNode = 0
  · rw [if_neg (by simpa using hold), held_add]
    split
    · rename_i hin
      simp [hold, show cur < e by omega]
    · rename_i hin
      split
      · simp [hzero ‹_› (by omega)]
      · rfl
  · rw [if_pos hold, held_move]
    split
    · rename_i hin
      have hlt : cur < e := hin.1
      rw [if_pos hlt]
      by_cases hn : n = newNode
      · simp [hn, hne]
      · by_cases ho : n = oldNode
        · simp [ho, hne.symm, hold]
        · simp [hn, ho]
    · rename_i hin
      split
      · simp [hzero ‹_› (by omega)]
      · rfl

/-- A change of node takes the later epochs along. -/
theorem setPrimaryNode_placed
    (hpl : Placed c l.account as) (h : setPrimaryNode env l id newNode = .ok p) :
    Placed c p.1.account (as ++ p.2) := by
  obtain ⟨hlock, hcur, hnew, hne, hacc, r, hr, hcalls⟩ := setPrimaryNode_ok h
  have hout := (scheduleFor_ok hr).outside
  have hout := fun e he => hout e (.inr he)
  have hlate : ∀ e > uint40 env.block.currentEpoch, ∀ n, held (as ++ p.2) n e =
      if n = newNode then
        (amountForEpoch r l.account.committedTRAC l.account.lockDurationEpochs e : ℤ) else 0 := by
    intro e he n
    rw [held_append, hcalls, held_change hne hout, if_pos he]
    by_cases hp : l.account.primaryNode = 0
    · rw [hpl.unused (.inr hp)]
      simp [held, hp]
    · obtain ⟨r', hr', hheld⟩ := hpl.current hp
      obtain rfl : r' = r := by
        rw [hr] at hr'
        exact (Except.ok.inj hr').symm
      rw [hheld e (by omega)]
      by_cases hn : n = newNode
      · simp [hn, hne]
      · by_cases hold : n = l.account.primaryNode
        · simp [hold, hp, hne.symm]
        · simp [hn, hold]
  have hearly : ∀ e ≤ uint40 env.block.currentEpoch, ∀ n, held (as ++ p.2) n e = held as n e := by
    intro e he n
    rw [held_append, hcalls, held_change hne hout, if_neg (by omega), add_zero]
  constructor
  · intro n e
    by_cases he : e ≤ uint40 env.block.currentEpoch
    · rw [hearly e he]
      exact hpl.nonneg n e
    · rw [hlate e (by omega)]
      split <;> omega
  · intro hz
    rw [hacc] at hz
    rcases hz with hz | hz
    · exact absurd hz hlock
    · exact absurd hz hnew
  · intro _
    rw [hacc]
    exact ⟨r, hr, fun e he n => hlate e he n⟩

/-- A move leaves the totals of a seeded account. -/
theorem setPrimaryNode_seeded
    (hs : Seeded c l.account as) (h : setPrimaryNode env l id newNode = .ok p) :
    Seeded c p.1.account (as ++ p.2) := by
  obtain ⟨_, _, hnew, _, hacc, r, hr, hcalls⟩ := setPrimaryNode_ok h
  obtain ⟨r', hr', hadded⟩ := hs.added
  rw [hacc]
  refine ⟨hs.lock_pos, hnew, r', hr', fun e => ?_⟩
  rw [map_append, sum_append, hadded, hcalls, if_pos hs.designated, added_move, add_zero]

end Accounts

section Money

/-- The account with other progress marks. -/
def Account.progress (a : Account) (w : ℕ) (swept : Bool) : Account :=
  { a with lastSettledWindow := w, fullySwept := swept }

/-- The operations on an account's money change only its progress marks. -/
def Progresses (l l' : Ledger) : Prop := ∃ w swept, l'.account = l.account.progress w swept

variable {bookings : List Booking}

theorem Progresses.trans {l₁ l₂ : Ledger} (h : Progresses l l₁) (h' : Progresses l₁ l₂) :
    Progresses l l₂ := by
  obtain ⟨w, b, hw⟩ := h
  obtain ⟨w', b', hw'⟩ := h'
  exact ⟨w', b', by rw [hw', hw]; rfl⟩

theorem Progresses.of_eq (h : l'.account = l.account) : Progresses l l' := ⟨_, _, h⟩

theorem Pays.progresses {toppedUp : ℕ} {p : Ledger × Effects} (h : Pays env l toppedUp p) :
    Progresses l p.1 := by
  have hswept : ∀ {l₁ swept}, sweepClosedWindows env l = .ok (l₁, swept) → Progresses l l₁ := by
    intro l₁ swept hsweep
    obtain ⟨rfl, _⟩ := sweepClosedWindows_ok hsweep
    exact ⟨_, _, rfl⟩
  cases h with
  | none => exact .of_eq rfl
  | topUp amount hlive hsweep => exact (hswept hsweep).trans (.of_eq rfl)
  | publish id cost kaEpochs epoch hlive hsweep hspend =>
    exact (hswept hsweep).trans (.of_eq (spend_account hspend))
  | service id cost epoch hlive hsweep hspend =>
    exact (hswept hsweep).trans (.of_eq (spend_account hspend))
  | settle hopen hsweep => exact hswept hsweep
  | sweep hexpired hsweep hfinal =>
    refine (hswept hsweep).trans ?_
    rw [(finalSweep_ok hfinal).1]
    exact ⟨_, _, rfl⟩

/-- Bookings leave the publishing allocations alone. -/
theorem issue_allocations {cur : ℕ} (h : issue cur es bookings = .ok es') :
    es'.nodesEpochPublishingAllocation = es.nodesEpochPublishingAllocation ∧
      es'.epochPublishingAllocation = es.epochPublishingAllocation := by
  refine foldlM_invariant (fun x : EpochStorage.Storage =>
    x.nodesEpochPublishingAllocation = es.nodesEpochPublishingAllocation ∧
      x.epochPublishingAllocation = es.epochPublishingAllocation) ?_ ⟨rfl, rfl⟩ h
  intro x b y hx hy
  simp only [mapError_eq_ok, EpochStorage.addTokensToEpochRange, bind_eq_ok, pure_eq_ok] at hy
  obtain ⟨_, _, rfl⟩ := hy
  exact hx

end Money

section Run

/-- The allocations of a state: totals over the nodes, buckets over the accounts, and each
account's part where its record says. -/
structure AllocInv (c : Chronos) (s : State) : Prop where
  totals : Totals s.epochStorage
  finite : {id | (s.journal id).allocations ≠ []}.Finite
  node : ∀ n e, (s.epochStorage.nodesEpochPublishingAllocation n e : ℤ) =
    ∑ᶠ id, held (s.journal id).allocations n e
  placed : ∀ id, Placed c (s.ledgers id).account (s.journal id).allocations

theorem AllocInv.support_finite (hinv : AllocInv c s) (n e : ℕ) :
    (fun id => held (s.journal id).allocations n e).support.Finite := by
  refine hinv.finite.subset fun id hid => ?_
  intro hnil
  exact hid (by simp [hnil, held])

theorem empty_allocInv : AllocInv c State.empty where
  totals := by
    refine ⟨fun e => ?_, fun e => ?_, fun e => ?_⟩ <;> simp [State.empty, EpochStorage.empty]
  finite := by simp [State.empty]
  node := by
    intro n e
    simp [State.empty, EpochStorage.empty, held]
  placed := by
    intro id
    refine ⟨fun n e => le_rfl, fun _ => rfl, fun hne => absurd rfl hne⟩

/-- A designation that places its account keeps the invariant. -/
theorem designate_allocInv (hinv : AllocInv c s)
    (hpl : Placed c p.1.account ((s.journal id).allocations ++ p.2))
    (h : s.designate id p = .ok t) : AllocInv c t := by
  simp only [State.designate, bind_eq_ok, pure_eq_ok] at h
  obtain ⟨es, hes, rfl⟩ := h
  obtain ⟨htot, hnode⟩ := allocate_ok hinv.totals hes
  refine ⟨htot, ?_, fun n e => ?_, fun i => ?_⟩
  · refine (hinv.finite.union (Set.finite_singleton id)).subset fun i hi => ?_
    by_cases hid : i = id
    · exact .inr hid
    · simp only [Set.mem_ofPred_eq, update_of_ne hid] at hi
      exact .inl hi
  · have hsum : (fun i => held (update s.journal id { s.journal id with
        allocations := (s.journal id).allocations ++ p.2 } i).allocations n e) =
        (fun i => held (s.journal i).allocations n e) + Pi.single id (held p.2 n e) := by
      funext i
      by_cases hid : i = id
      · subst hid
        simp [held_append]
      · simp [hid]
    dsimp only
    rw [hnode, hinv.node, hsum, Sums.finsum_add_single (hinv.support_finite n e)]
  · by_cases hid : i = id
    · subst hid
      simpa using hpl
    · simpa [hid] using hinv.placed i

theorem commit_allocInv {p : Ledger × Effects} {toppedUp : ℕ} (hinv : AllocInv c s)
    (hp : Progresses (s.ledgers id) p.1) (h : s.commit env id toppedUp p = .ok t) :
    AllocInv c t := by
  simp only [State.commit, bind_eq_ok, require_eq_ok, pure_eq_ok] at h
  obtain ⟨es, hes, _, _, rfl⟩ := h
  obtain ⟨hnodes, htotals⟩ := issue_allocations hes
  obtain ⟨w, b, hacc⟩ := hp
  have hj : ∀ i, (update s.journal id { s.journal id with
      toppedUp := (s.journal id).toppedUp + toppedUp
      bookings := (s.journal id).bookings ++ p.2.bookings
      feesPaid := (s.journal id).feesPaid + p.2.fee
      serviceCosts := (s.journal id).serviceCosts + p.2.serviceCost } i).allocations =
      (s.journal i).allocations := by
    intro i
    by_cases hid : i = id
    · subst hid
      simp
    · simp [hid]
  refine ⟨⟨?_, ?_, ?_⟩, ?_, fun n e => ?_, fun i => ?_⟩
  · simpa only [hnodes] using hinv.totals.finite
  · simpa only [hnodes, htotals] using hinv.totals.sum_eq
  · simpa only [htotals] using hinv.totals.lt
  · simpa only [hj] using hinv.finite
  · simpa only [hnodes, hj] using hinv.node n e
  · rw [hj]
    by_cases hid : i = id
    · subst hid
      have hpl := hinv.placed i
      simp only [update_self, hacc]
      exact ⟨hpl.nonneg, hpl.unused, hpl.current⟩
    · simpa [hid] using hinv.placed i

/-- A created account gets its seeds, on an id that had none. -/
theorem createAccount_placed {committed : ℕ}
    (hinv : AllocInv c s) (h : createAccount env (s.ledgers id) id committed node = .ok p) :
    p.1.account.committedTRAC = committed ∧ p.1.account.primaryNode = node ∧
      p.1.account.createdAtEpoch = env.block.currentEpoch ∧
      Placed c p.1.account ((s.journal id).allocations ++ p.2) ∧
      (node ≠ 0 → Seeded c p.1.account ((s.journal id).allocations ++ p.2)) := by
  simp only [createAccount, bind_eq_ok, require_eq_ok, pure_eq_ok] at h
  obtain ⟨_, _, _, _, a, ha, _, hfresh, as, has, rfl⟩ := h
  obtain ⟨hcommitted, hnode, _, _, hlock, _, _⟩ := newAccount_ok ha
  obtain ⟨hcreated, hchange⟩ := newAccount_createdAtEpoch ha
  obtain ⟨hpl, hseeded⟩ := seeds_placed (hchange.trans hcreated.symm) has
  have hnone := (hinv.placed id).unused (.inl hfresh)
  rw [hnone, nil_append]
  exact ⟨hcommitted, hnode, hcreated, hpl, fun hne => hseeded (hnode ▸ hne)⟩

theorem step_allocInv {call : Call c} (hinv : AllocInv c s) (h : step s call = .ok t) :
    AllocInv c t := by
  refine step_induction (AllocInv c) ?_ ?_ ?_ ?_ hinv h
  · intro s id committed node p t hs hp ht
    exact designate_allocInv hs (createAccount_placed hs hp).2.2.2.1 ht
  · intro s id newNode p t hs hp ht
    exact designate_allocInv hs (setPrimaryNode_placed (hs.placed id) hp) ht
  · intro s id toppedUp p t hs hlock hp ht
    exact commit_allocInv hs hp.progresses ht
  · intro s es hs hnodes htotals
    refine ⟨⟨?_, ?_, ?_⟩, hs.finite, fun n e => ?_, hs.placed⟩
    · simpa only [hnodes] using hs.totals.finite
    · simpa only [hnodes, htotals] using hs.totals.sum_eq
    · simpa only [htotals] using hs.totals.lt
    · simpa only [hnodes] using hs.node n e

theorem run_allocInv (calls : List (Call c)) : AllocInv c (run step State.empty calls) :=
  run_invariant (AllocInv c) (fun _ _ _ hs h => step_allocInv hs h) empty_allocInv

/-- An account seeded with a commitment at an epoch. -/
def SeededAt (c : Chronos) (id committed epoch : ℕ) (s : State) : Prop :=
  (s.ledgers id).account.committedTRAC = committed ∧
    (s.ledgers id).account.createdAtEpoch = epoch ∧
    Seeded c (s.ledgers id).account (s.journal id).allocations

theorem step_seededAt {call : Call c} {committed epoch : ℕ} (hs : SeededAt c id committed epoch s)
    (h : step s call = .ok t) : SeededAt c id committed epoch t := by
  refine step_induction (SeededAt c id committed epoch) ?_ ?_ ?_ ?_ hs h
  · -- the id is taken
    intro s i committed' node p t hs hp ht
    simp only [State.designate, bind_eq_ok, pure_eq_ok] at ht
    obtain ⟨_, _, rfl⟩ := ht
    have hne : id ≠ i := by
      rintro rfl
      simp only [createAccount, bind_eq_ok, require_eq_ok] at hp
      obtain ⟨_, _, _, _, _, _, _, hfresh, _⟩ := hp
      exact absurd hfresh hs.2.2.lock_pos.ne'
    simpa [SeededAt, hne] using hs
  · intro s i newNode p t hs hp ht
    simp only [State.designate, bind_eq_ok, pure_eq_ok] at ht
    obtain ⟨_, _, rfl⟩ := ht
    by_cases hi : id = i
    · subst hi
      obtain ⟨_, _, _, _, hacc, _⟩ := setPrimaryNode_ok hp
      have hseeded := setPrimaryNode_seeded hs.2.2 hp
      simp only [SeededAt, update_self]
      exact ⟨by rw [hacc]; exact hs.1, by rw [hacc]; exact hs.2.1, hseeded⟩
    · simpa [SeededAt, hi] using hs
  · intro s i toppedUp p t hs hlock hp ht
    simp only [State.commit, bind_eq_ok, pure_eq_ok] at ht
    obtain ⟨_, _, _, _, rfl⟩ := ht
    by_cases hi : id = i
    · subst hi
      obtain ⟨w, b, hacc⟩ := hp.progresses
      simp only [SeededAt, update_self, hacc]
      exact ⟨hs.1, hs.2.1, hs.2.2.lock_pos, hs.2.2.designated, hs.2.2.added⟩
    · simpa [SeededAt, hi] using hs
  · intro s es hs _ _
    exact hs

theorem finsum_held (as : List Allocation) (e : ℕ) :
    (fun n => held as n e).support.Finite ∧ ∑ᶠ n, held as n e = (as.map (·.added e)).sum := by
  induction as with
  | nil => simp [held]
  | cons x as ih =>
    have hcons : ∀ n, held (x :: as) n e = held as n e + x.net n e := by
      intro n
      simp [held, add_comm]
    obtain ⟨hfin, hsum⟩ := net_eq_single x (fun n => held as n e) e ih.1
    simp only [hcons]
    refine ⟨hfin, ?_⟩
    rw [hsum, ih.2, map_cons, sum_cons, add_comm]

/-- An account's part is in the bucket. -/
theorem AllocInv.held_le (hinv : AllocInv c s) (id n e : ℕ) :
    held (s.journal id).allocations n e ≤ s.epochStorage.nodesEpochPublishingAllocation n e := by
  rw [hinv.node]
  exact single_le_finsum id (hinv.support_finite n e) fun i => (hinv.placed i).nonneg n e

/-- Two buckets together are within the epoch's total. -/
theorem Totals.pair_le (ht : Totals es) {n m : ℕ} (hne : n ≠ m) (e : ℕ) :
    es.nodesEpochPublishingAllocation n e + es.nodesEpochPublishingAllocation m e ≤
      es.epochPublishingAllocation e := by
  have hsub : (fun i => (es.nodesEpochPublishingAllocation i e : ℤ)).support ⊆
      ((ht.finite e).toFinset ∪ {n, m} : Finset ℕ) := by
    intro i hi
    simp only [Finset.coe_union, Set.Finite.coe_toFinset]
    exact .inl hi
  have hsum := ht.sum_eq e
  rw [finsum_eq_sum_of_support_subset _ hsub] at hsum
  have hpair : ∑ i ∈ {n, m}, (es.nodesEpochPublishingAllocation i e : ℤ) ≤
      ∑ i ∈ (ht.finite e).toFinset ∪ {n, m}, (es.nodesEpochPublishingAllocation i e : ℤ) :=
    Finset.sum_le_sum_of_subset_of_nonneg Finset.subset_union_right
      fun i _ _ => Int.natCast_nonneg _
  rw [Finset.sum_pair hne] at hpair
  omega

/-- A change of node that passes its checks commits: every move is covered by the old
node's bucket and fits the new one's. -/
theorem setPrimaryNode_commits (hinv : AllocInv c s) (hp : (s.ledgers id).account.primaryNode ≠ 0)
    (h : setPrimaryNode env (s.ledgers id) id newNode = .ok p) :
    ∃ t, step s ⟨env, .setPrimaryNode id newNode⟩ = .ok t := by
  obtain ⟨_, hcur, _, hne, _, r, hr, hcalls⟩ := setPrimaryNode_ok h
  obtain ⟨r', hr', hheld⟩ := (hinv.placed id).current hp
  obtain rfl : r' = r := by
    rw [hr] at hr'
    exact (Except.ok.inj hr').symm
  have hcover : ∀ i, uint40 env.block.currentEpoch + 1 ≤ i →
      amountForEpoch r' (s.ledgers id).account.committedTRAC
        (s.ledgers id).account.lockDurationEpochs i ≤
      s.epochStorage.nodesEpochPublishingAllocation (s.ledgers id).account.primaryNode i := by
    intro i hi
    have hle := hinv.held_le id (s.ledgers id).account.primaryNode i
    rw [hheld i (by omega), if_pos rfl] at hle
    exact_mod_cast hle
  obtain ⟨es, hes⟩ : ∃ es, allocate s.epochStorage p.2 = .ok es := by
    rw [hcalls, if_pos hp]
    refine allocate_move hne.symm hcover fun i hi => ?_
    have := hinv.totals.pair_le hne i
    have := hinv.totals.lt i
    have := hcover i hi
    omega
  simp only [step, State.designate, bind_eq_ok, pure_eq_ok]
  exact ⟨_, p, h, es, hes, rfl⟩

theorem support_natCast {f : ℕ → ℕ} : (fun n => (f n : ℤ)).support.Finite ↔ f.support.Finite := by
  have hsupp : (fun n => (f n : ℤ)).support = f.support := by
    ext n
    simp
  rw [hsupp]

/-- The publishing allocations in every reachable state: an epoch's total is the sum over
the nodes, a node's bucket the sum over the accounts, a change of node never fails to move
what the account holds, and what an account holds after its last change is on its current
node as scheduled. An account designated at creation holds its commitment. -/
theorem run_allocations_exact (calls : List (Call c)) :
    let s := run step State.empty calls
    let es := s.epochStorage
    (∀ e, (fun n => es.nodesEpochPublishingAllocation n e).support.Finite ∧
      es.epochPublishingAllocation e = ∑ᶠ n, es.nodesEpochPublishingAllocation n e) ∧
    (∀ n e, (es.nodesEpochPublishingAllocation n e : ℤ) =
      ∑ᶠ id, held (s.journal id).allocations n e) ∧
    (∀ (env : Env c) id newNode p, (s.ledgers id).account.primaryNode ≠ 0 →
      setPrimaryNode env (s.ledgers id) id newNode = .ok p →
      ∃ t, step s ⟨env, .setPrimaryNode id newNode⟩ = .ok t) ∧
    (∀ id, let a := (s.ledgers id).account
      if a.primaryNode = 0 then ∀ n e, held (s.journal id).allocations n e = 0
      else ∃ r, scheduleFor c a = .ok r ∧ ∀ e > a.lastPrimaryNodeChangeEpoch, ∀ n,
        held (s.journal id).allocations n e = if n = a.primaryNode then
            (amountForEpoch r a.committedTRAC a.lockDurationEpochs e : ℤ) else 0) ∧
    ∀ (env : Env c) id committed node t (more : List (Call c)), node ≠ 0 →
      step s ⟨env, .createAccount id committed node⟩ = .ok t →
      let u := run step t more
      let a := (u.ledgers id).account
      a.committedTRAC = committed ∧ a.createdAtEpoch = env.block.currentEpoch ∧
      ∑ e ∈ Finset.Icc a.createdAtEpoch (a.createdAtEpoch + a.lockDurationEpochs),
        ∑ᶠ n, held (u.journal id).allocations n e = committed := by
  intro s es
  have hinv : AllocInv c s := run_allocInv calls
  refine ⟨fun e => ⟨?_, ?_⟩, hinv.node, fun env id newNode p => setPrimaryNode_commits hinv,
    fun id => ?_, fun env id committed node t more hnode ht => ?_⟩
  · exact support_natCast.mp (hinv.totals.finite e)
  · have hsum := hinv.totals.sum_eq e
    have hcast : ((∑ᶠ n, es.nodesEpochPublishingAllocation n e : ℕ) : ℤ) =
        ∑ᶠ n, (es.nodesEpochPublishingAllocation n e : ℤ) :=
      (Nat.castAddMonoidHom ℤ).map_finsum (support_natCast.mp (hinv.totals.finite e))
    exact_mod_cast hsum.trans hcast.symm
  · dsimp only
    split
    · intro n e
      rw [(hinv.placed id).unused (.inr ‹_›)]
      rfl
    · exact (hinv.placed id).current ‹_›
  · intro u a
    have hstart : SeededAt c id committed env.block.currentEpoch t := by
      simp only [step, State.designate, bind_eq_ok, pure_eq_ok] at ht
      obtain ⟨p, hp, _, _, rfl⟩ := ht
      obtain ⟨hcommitted, _, hcreated, _, hseeded⟩ := createAccount_placed hinv hp
      simpa [SeededAt] using ⟨hcommitted, hcreated, hseeded hnode⟩
    obtain ⟨hcommitted, hcreated, hseeded⟩ : SeededAt c id committed env.block.currentEpoch u :=
      run_invariant _ (fun _ _ _ hs h => step_seededAt hs h) hstart
    refine ⟨hcommitted, hcreated, ?_⟩
    obtain ⟨r, hr, hadded⟩ := hseeded.added
    have htotal := (scheduleFor_ok hr).total
    rw [Finset.sum_congr rfl fun e _ => (finsum_held _ e).2.trans (hadded e), ← hcommitted]
    exact_mod_cast htotal

theorem run_allocations_exact_moved :
    let s := run step State.empty movedAccount
    (s.ledgers 7).account.primaryNode = 5 ∧
      s.epochStorage.nodesEpochPublishingAllocation 5 3 = 333 ∧
      ∃ t, step s ⟨envAt 24, .setPrimaryNode 7 4⟩ = .ok t := by
  have hp : ∃ p, setPrimaryNode (envAt 24)
      ((run step State.empty movedAccount).ledgers 7) 7 4 = .ok p := ⟨_, rfl⟩
  obtain ⟨p, hp⟩ := hp
  refine ⟨by decide, by decide, ?_⟩
  exact (run_allocations_exact movedAccount).2.2.1 _ 7 4 p (by decide) hp

end Run

end Dkg.Publishing
