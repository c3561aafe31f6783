import Dkg.Staking.CallWalk

/-!
The cap on a node's pending expiry slots. While every credit taken off an expiry is a
multiple of the bucket, the pending expiries lie on the bucket grid within the longest
lock, which leaves room for every new slot. Credits off the grid fill the queue.
-/

namespace Dkg.Staking
open Revert NodeStake List Function

variable {c : Chronos} {b : Block c} {s s' : Storage} {p : Position} {n : NodeStake} {S : Set ℕ}
  {i now t d raw m tokenId lockTier x k : ℕ} {f : NodeStake → Except Err NodeStake}

section Grid

/-- The last slot a lock that starts at `now` can end in. -/
def horizon (now : ℕ) : ℕ :=
  (now + MAX_TIER_DURATION + EXPIRY_BUCKET_SECONDS - 1) / EXPIRY_BUCKET_SECONDS *
    EXPIRY_BUCKET_SECONDS

theorem horizon_mono {now' : ℕ} (h : now ≤ now') : horizon now ≤ horizon now' :=
  Nat.mul_le_mul_right _ (Nat.div_le_div_right (by omega))

/-- An expiry on the grid that a lock can have by `now`. -/
structure Aligned (now t : ℕ) : Prop where
  dvd : EXPIRY_BUCKET_SECONDS ∣ t
  le : t ≤ horizon now
  lt : t < 2 ^ 40

theorem Aligned.mono {now' : ℕ} (h : Aligned now t) (hle : now ≤ now') : Aligned now' t :=
  ⟨h.dvd, h.le.trans (horizon_mono hle), h.lt⟩

theorem aligned_zero : Aligned now 0 := ⟨dvd_zero _, Nat.zero_le _, by norm_num⟩

/-- The grid has room for `MAX_NODE_PENDING_EXPIRIES` slots between a moment and the end of
the longest lock. -/
theorem slots_le (now : ℕ) {l : List ℕ} (hnodup : l.Nodup)
    (hl : ∀ t ∈ l, now < t ∧ Aligned now t) :
    l.length ≤ MAX_NODE_PENDING_EXPIRIES := by
  have hB : 0 < EXPIRY_BUCKET_SECONDS := by decide
  have hinj : (l.map (· / EXPIRY_BUCKET_SECONDS)).Nodup := by
    refine hnodup.map_on fun x hx y hy hxy => ?_
    rw [← Nat.div_mul_cancel (hl x hx).2.dvd, ← Nat.div_mul_cancel (hl y hy).2.dvd, hxy]
  have hsub : (l.map (· / EXPIRY_BUCKET_SECONDS)).toFinset ⊆
      Finset.Ioc (now / EXPIRY_BUCKET_SECONDS)
        (now / EXPIRY_BUCKET_SECONDS + MAX_NODE_PENDING_EXPIRIES) := by
    intro k hk
    obtain ⟨t, ht, rfl⟩ := mem_map.mp (mem_toFinset.mp hk)
    obtain ⟨hnow, hdvd, hle, -⟩ := hl t ht
    obtain ⟨k, rfl⟩ := hdvd
    rw [Finset.mem_Ioc, Nat.mul_div_cancel_left _ hB]
    unfold horizon MAX_TIER_DURATION at hle
    unfold EXPIRY_BUCKET_SECONDS MAX_NODE_PENDING_EXPIRIES at *
    omega
  have hcard := Finset.card_le_card hsub
  rwa [toFinset_card_of_nodup hinj, length_map, Nat.card_Ioc, Nat.add_sub_cancel_left] at hcard

end Grid

section Queue

/-- A node's queue at `now`: in order, and on the grid. -/
structure QueueOk (now : ℕ) (n : NodeStake) : Prop where
  wf : Wf n.lastSettledAt n
  settled_le : n.lastSettledAt ≤ now
  aligned : ∀ t ∈ n.pending, Aligned now t

theorem QueueOk.mono {now' : ℕ} (h : QueueOk now n) (hle : now ≤ now') : QueueOk now' n :=
  ⟨h.wf, h.settled_le.trans hle, fun t ht => (h.aligned t ht).mono hle⟩

theorem QueueOk.shrink {n' : NodeStake} (h : QueueOk now n) (hn : Ordered n')
    (hle : n'.lastSettledAt ≤ now) (hpending : ∀ t ∈ n'.pending, t ∈ n.pending) : QueueOk now n' :=
  ⟨hn, hle, fun t ht => h.aligned t (hpending t ht)⟩

/-- A slot is reserved for the new expiry and for no other. -/
theorem scheduleNodeExpiry_present {n' : NodeStake} (h : n.scheduleNodeExpiry t d = .ok n')
    (hx : n'.expiryPresent x = true) : x = t ∨ n.expiryPresent x = true := by
  simp only [NodeStake.scheduleNodeExpiry, bind_eq_ok, reserve] at h
  obtain ⟨_, _, _, _, total, _, h⟩ := h
  split at h
  · obtain rfl := Except.ok.inj h
    exact .inr hx
  · split at h
    · cases h
    · obtain rfl := Except.ok.inj h
      by_cases hxt : x = t
      · exact .inl hxt
      · exact .inr (by simpa [hxt] using hx)

/-- Only a queue without a slot for the new expiry can be full. -/
theorem scheduleNodeExpiry_full {pending : ℕ}
    (h : n.scheduleNodeExpiry t d = .error (.nodeExpiryQueueFull pending)) :
    n.lastSettledAt < t ∧ n.expiryPresent t = false ∧
      MAX_NODE_PENDING_EXPIRIES ≤ n.pending.length := by
  simp only [NodeStake.scheduleNodeExpiry, bind_eq_error, require_eq_error, require_eq_ok,
    Checked.add_eq_error, reduceCtorEq, and_false, false_or, exists_const] at h
  obtain ⟨_, hpast, total, _, hfull⟩ := h
  unfold reserve at hfull
  split at hfull
  · cases hfull
  case isFalse hpresent =>
    dsimp only at hfull
    split at hfull
    · exact ⟨hpast, by simpa using hpresent, by rwa [NodeStake.pending, length_drop]⟩
    · cases hfull

/-- A settled queue on the grid has room for a new slot on the grid. -/
theorem scheduleNodeExpiry_ends (h : QueueOk now n) (hsettled : n.lastSettledAt = now)
    (ht : Aligned now t) :
    Ends NotFull (fun n' => QueueOk now n' ∧ n'.lastSettledAt = n.lastSettledAt)
      (n.scheduleNodeExpiry t d) := by
  cases hs : n.scheduleNodeExpiry t d with
  | ok n' =>
    obtain ⟨hwf, hlast⟩ := scheduleNodeExpiry_ordered h.wf hs
    refine ⟨⟨hwf, hlast ▸ h.settled_le, fun x hx => ?_⟩, hlast⟩
    rcases scheduleNodeExpiry_present hs ((hwf.present_iff x).mpr hx) with rfl | hx
    · exact ht
    · exact h.aligned x ((h.wf.present_iff x).mp hx)
  | error e =>
    cases e <;> try trivial
    obtain ⟨hpast, hnew, hfull⟩ := scheduleNodeExpiry_full hs
    have hnot : t ∉ n.pending := fun hmem => by simp [(h.wf.present_iff t).mpr hmem] at hnew
    have hroom : (t :: n.pending).length ≤ MAX_NODE_PENDING_EXPIRIES := by
      refine slots_le now (nodup_cons.mpr ⟨hnot, ?_⟩) fun x hx => ?_
      · exact h.wf.sorted.imp fun hlt => hlt.ne
      · rcases mem_cons.mp hx with rfl | hx
        · exact ⟨hsettled ▸ hpast, ht⟩
        · exact ⟨hsettled ▸ h.wf.future x hx, h.aligned x hx⟩
    rw [length_cons] at hroom
    omega

end Queue

section Calls

/-- Locks are at most the longest one. -/
def TiersBounded (Ti : ℕ → Option TierConfig) : Prop :=
  ∀ lockTier tc, Ti lockTier = some tc → tc.duration ≤ MAX_TIER_DURATION

theorem baselineTiers_bounded : TiersBounded baselineTiers := by
  intro lockTier tc h
  unfold baselineTiers at h
  split at h
  all_goals simp only [Option.some.injEq, reduceCtorEq] at h
  all_goals subst h
  all_goals decide

/-- The storage within a call at `now`, with the nodes that are settled. -/
structure Within (now : ℕ) (S : Set ℕ) (s : Storage) : Prop where
  tiers : TiersBounded s.tiers
  positions : ∀ tokenId, Aligned now (s.positions tokenId).expiryTimestamp
  nodes : ∀ i, QueueOk now (s.nodes i)
  settled : ∀ i ∈ S, (s.nodes i).lastSettledAt = now

theorem Within.later {now' : ℕ} (h : Within now ∅ s) (hle : now ≤ now') : Within now' ∅ s :=
  ⟨h.tiers, fun i => (h.positions i).mono hle, fun i => (h.nodes i).mono hle, by simp⟩

theorem Within.done (h : Within now S s) : Within now ∅ s :=
  ⟨h.tiers, h.positions, h.nodes, by simp⟩

theorem Within.frame (h : Within now S s) (hs : SameStake s s') : Within now S s' := by
  constructor
  · exact hs.tiers ▸ h.tiers
  · exact hs.positions ▸ h.positions
  · exact hs.nodes ▸ h.nodes
  · exact hs.nodes ▸ h.settled

theorem Within.setPosition (h : Within now S s) (tokenId : ℕ)
    (hp : Aligned now p.expiryTimestamp) : Within now S (s.setPosition tokenId p) := by
  refine ⟨h.tiers, fun i => ?_, h.nodes, h.settled⟩
  by_cases hi : i = tokenId
  · simpa [Storage.setPosition, hi] using hp
  · simpa [Storage.setPosition, hi] using h.positions i

theorem Within.setNode {S' : Set ℕ} (h : Within now S s) (hn : QueueOk now n)
    (hi : i ∈ S' → n.lastSettledAt = now) (hS : ∀ j ∈ S', j ≠ i → j ∈ S) :
    Within now S' { s with nodes := update s.nodes i n } := by
  refine ⟨h.tiers, h.positions, fun j => ?_, fun j hj => ?_⟩ <;> by_cases hji : j = i
  · simpa [hji] using hn
  · simpa [hji] using h.nodes j
  · subst hji
    simpa using hi hj
  · simpa [hji] using h.settled j (hS j hj hji)

theorem Within.onNode (h : Within now S s)
    (hf : Ends NotFull (fun n => QueueOk now n ∧ n.lastSettledAt = (s.nodes i).lastSettledAt)
      (f (s.nodes i))) : Ends NotFull (Within now S) (s.onNode i f) := by
  refine hf.bind fun n ⟨hn, hlast⟩ => ?_
  exact h.setNode hn (fun hi => hlast.trans (h.settled i hi)) fun j hj _ => hj

theorem Within.settleNodeTo (h : Within now S s) (i : ℕ) :
    Ends NotFull (Within now (insert i S)) (s.settleNodeTo i now) := by
  refine (settleNodeTo_ends (h.nodes i).wf now).bind fun n ⟨hn, hlast, hpending⟩ => ?_
  rw [max_eq_right (h.nodes i).settled_le] at hlast
  exact h.setNode ((h.nodes i).shrink hn hlast.le hpending) (fun _ => hlast)
    fun j hj hji => hj.resolve_left hji

theorem Within.quiet (h : Within now S s)
    (hf : Ends NotFull (fun n => Ordered n ∧ n.lastSettledAt = (s.nodes i).lastSettledAt ∧
      n.pending = (s.nodes i).pending) (f (s.nodes i))) :
    Ends NotFull (Within now S) (s.onNode i f) :=
  h.onNode (hf.mono fun _ ⟨hn, hlast, hpending⟩ =>
    ⟨(h.nodes i).shrink hn (hlast ▸ (h.nodes i).settled_le) fun _ ht => hpending ▸ ht, hlast⟩)

/-- A bucketed expiry is on the grid. -/
theorem bucketExpiryTimestamp_aligned (hx : x ≤ now + MAX_TIER_DURATION) :
    Ends NotFull (Aligned now) (Storage.bucketExpiryTimestamp x) := by
  refine ends_guard trivial fun hle => ends_pure ?_
  rw [uint40_of_lt (by omega)]
  refine ⟨Dvd.intro_left _ rfl, ?_, by omega⟩
  exact Nat.mul_le_mul_right _ (Nat.div_le_div_right (by omega))

theorem computeExpiryTimestamp_aligned (h : TiersBounded s.tiers) (lockTier : ℕ) :
    Ends NotFull (Aligned now) (s.computeExpiryTimestamp now lockTier) := by
  unfold Storage.computeExpiryTimestamp Storage.tierDuration
  split
  · exact aligned_zero
  · refine Ends.bind (P := fun duration => duration ≤ MAX_TIER_DURATION) ?_ fun duration hd => ?_
    · exact (tier_ends trivial s lockTier).bind fun tc htc => ends_pure (h lockTier tc htc)
    · exact bucketExpiryTimestamp_aligned (by omega)

/-- A credit of whole buckets keeps the expiry on the grid. -/
theorem shortenExpiry_aligned {expiry ts migrationEpoch credit : ℕ} (h : Aligned now expiry)
    (hcredit : EXPIRY_BUCKET_SECONDS ∣ credit) :
    Ends NotFull (Aligned now) (s.shortenExpiry ts expiry lockTier migrationEpoch credit) := by
  unfold Storage.shortenExpiry Storage.tierDuration
  split
  · refine ends_guard trivial fun _ => ?_
    refine ends_guard trivial fun _ => ?_
    refine Ends.bind (P := fun _ => True)
      ((tier_ends trivial s lockTier).bind fun tc _ => ends_pure trivial) fun duration _ => ?_
    refine ends_guard trivial fun _ => ?_
    unfold Checked.sub
    split
    · rw [ok_bind]
      refine ends_guard trivial fun _ => ends_pure ?_
      have hlt := h.lt
      rw [uint40_of_lt (by omega)]
      exact ⟨Nat.dvd_sub h.dvd hcredit, (Nat.sub_le _ _).trans h.le, by omega⟩
    · exact trivial
  · exact h

section Ops
open Storage

variable (hb : Within b.timestamp ∅ s)
include hb

theorem addTier_within (lockTier duration multiplier18 : ℕ) :
    Ends NotFull (Within b.timestamp ∅) (s.addTier lockTier duration multiplier18) := by
  refine ends_guard trivial fun _ => ?_
  refine Ends.bind (P := fun _ => duration ≤ MAX_TIER_DURATION) ?_ fun _ hle => ?_
  · unfold checkTier
    split
    · exact (ends_require fun _ => trivial).mono fun _ h => h.1 ▸ Nat.zero_le _
    · refine ends_guard trivial fun _ => ?_
      refine ends_guard trivial fun hle => ?_
      exact (ends_require fun _ => trivial).mono fun _ _ => hle
  · exact ⟨tiers_update hb.tiers hle, hb.positions, hb.nodes, hb.settled⟩

theorem deactivateTier_within (lockTier : ℕ) :
    Ends NotFull (Within b.timestamp ∅) (s.deactivateTier lockTier) := by
  refine (tier_ends trivial s lockTier).bind fun tc htc => ?_
  refine ends_guard trivial fun _ => ?_
  exact ⟨tiers_update hb.tiers (hb.tiers lockTier tc htc), hb.positions, hb.nodes, hb.settled⟩

theorem setConvictionCreditSeconds_within (secondsValue : ℕ) :
    Ends NotFull (Within b.timestamp ∅) (s.setConvictionCreditSeconds secondsValue) := by
  refine Ends.bind (P := fun _ => True)
    ((tier_ends trivial s 6).bind fun tc _ => ends_pure trivial) fun duration _ => ?_
  refine ends_guard trivial fun _ => ?_
  exact ⟨hb.tiers, hb.positions, hb.nodes, hb.settled⟩

end Ops

theorem within_walk (b : Block c) :
    Walk NotFull b.timestamp (Aligned b.timestamp) (Within b.timestamp) where
  error := id
  zero := aligned_zero
  expiry tokenId h := h.positions tokenId
  frame := Within.frame
  setPosition tokenId h := h.setPosition tokenId
  done := Within.done
  settle i h := h.settleNodeTo i
  delta i δ h := h.quiet (applyNodeStakeDelta_ends (h.nodes i).wf δ)
  cancel i t d h := h.quiet (cancelNodeExpiry_ends (h.nodes i).wf t d)
  schedule _ h hi ht := h.onNode (scheduleNodeExpiry_ends (h.nodes _) (h.settled _ hi) ht)
  compute lockTier h := computeExpiryTimestamp_aligned h.tiers lockTier
  addTier _ _ _ h := addTier_within h ..
  deactivateTier _ h := deactivateTier_within h ..
  setCredit _ h := setConvictionCreditSeconds_within h ..

end Calls

section Runs
open Storage

/-- A call with a credit of whole buckets keeps the grid. -/
theorem step_within (call : Call c) (hcredit : EXPIRY_BUCKET_SECONDS ∣ call.op.credit)
    (h : Within call.time ∅ s) : Ends NotFull (Within call.time ∅) (step s call) :=
  (within_walk call.block).step h fun _ _ _ he => shortenExpiry_aligned he hcredit

theorem initial_within : Within 0 ∅ Storage.initial :=
  ⟨baselineTiers_bounded, fun _ => aligned_zero,
    fun _ => ⟨empty_wf, le_rfl, by simp [Storage.initial, NodeStake.empty, pending]⟩, by simp⟩

/-- While the credits are whole buckets no call finds a full queue. -/
theorem run_never_full {calls : List (Call c)} {call : Call c}
    (hsorted : (calls ++ [call]).Pairwise fun a b => a.time ≤ b.time)
    (hcredit : ∀ a ∈ calls ++ [call], EXPIRY_BUCKET_SECONDS ∣ a.op.credit) (pending : ℕ) :
    step (run step Storage.initial calls) call ≠ .error (.nodeExpiryQueueFull pending) := by
  have hwithin := run_invariant_timed (fun now s => Within now ∅ s)
    (fun _ _ _ hle h => h.later hle)
    (fun a ha s t h hok => (step_within a (hcredit a (by simp [ha])) h).of_ok hok) initial_within
    (fun _ _ => Nat.zero_le _) (pairwise_append.mp hsorted).1
  have hle : Revert.now Call.time 0 calls ≤ call.time :=
    now_le (mem_singleton_self call) (Nat.zero_le _) hsorted
  intro hfull
  exact (step_within call (hcredit call (by simp)) (hwithin.later hle)).of_error hfull

/-- A stake moved with a credit of one bucket, and another after it. -/
theorem run_never_full_bucketCredit : let credited : Call monthly :=
      ⟨blockAt 100 (by decide) (by decide), .createPosition 1 7 1001 6 1 43200⟩
    let fresh : Call monthly := ⟨blockAt 200 (by decide) (by decide), .createPosition 2 7 10 6 0 0⟩
    step (run step Storage.initial [credited]) fresh ≠ .error (.nodeExpiryQueueFull 1024) := by
  intro credited fresh
  exact run_never_full (by decide) (by decide) 1024

section Crowd

/-- The moment of the crowd. -/
abbrev crowdBlock : Block monthly := blockAt 5 (by decide) (by decide)

/-- Moves of `k` stakes of one token to node 1 at one moment, each with a credit that is one
second shorter than the one before. -/
def crowd : ℕ → List (Call monthly)
  | 0 => [⟨crowdBlock, .settleNodeTo 1⟩]
  | k + 1 => crowd k ++ [⟨crowdBlock, .setConvictionCreditSeconds (1025 - k)⟩,
      ⟨crowdBlock, .createPosition (k + 1) 1 SCALE18 6 1 (1025 - k)⟩]

/-- Node 1 after them: the credits spread one bucket's expiries over as many slots. -/
def crowdedNode (stake k : ℕ) : NodeStake where
  runningEffectiveStake := stake
  lastSettledAt := 5
  expiryTimes := range' 15594175 k
  expiryDrop t := if t ∈ range' 15594175 k then 25 * SCALE18 / 10 else 0
  expiryHead := 0
  expiryPresent t := decide (t ∈ range' 15594175 k)

/-- The first `k` tokens stake `raw` in all, and node 1 is `n`. -/
structure Crowded (k raw : ℕ) (n : NodeStake) (s : Storage) : Prop where
  tiers : s.tiers = baselineTiers
  free : ∀ tokenId, k < tokenId → s.positions tokenId = .empty
  stake : s.nodeStakeV10 1 = raw
  total : s.totalStakeV10 = raw
  node : s.nodes 1 = n

theorem Crowded.onNode {n' : NodeStake} (h : Crowded k raw n s) (hf : f n = .ok n') :
    ∃ s', s.onNode 1 f = .ok s' ∧ Crowded k raw n' s' := by
  have he : s.onNode 1 f = .ok { s with nodes := update s.nodes 1 n' } := by
    rw [Storage.onNode, h.node, hf, ok_bind]
    rfl
  exact ⟨_, he, h.tiers, h.free, h.stake, h.total, by simp⟩

theorem Crowded.increaseNodeStakeV10 (h : Crowded k raw n s) (hx : raw + x < 2 ^ 256) :
    ∃ s', s.increaseNodeStakeV10 1 x = .ok s' ∧ Crowded k (raw + x) n s' := by
  have hadd : Checked.add 256 raw x Err.panic = .ok (raw + x) := Checked.add_eq_ok.mpr ⟨hx, rfl⟩
  have he : s.increaseNodeStakeV10 1 x = .ok { s with
      nodeStakeV10 := update s.nodeStakeV10 1 (raw + x), totalStakeV10 := raw + x } := by
    rw [Storage.increaseNodeStakeV10, h.stake, h.total, hadd, ok_bind, ok_bind]
    rfl
  exact ⟨_, he, h.tiers, h.free, by simp, rfl, h.node⟩

theorem Crowded.setPosition (h : Crowded k raw n s) (p : Position) :
    Crowded (k + 1) raw n ((s.setPosition (k + 1) p).pushNodeToken 1 (k + 1)) := by
  refine ⟨h.tiers, fun tokenId ht => ?_, h.stake, h.total, h.node⟩
  have hne : tokenId ≠ k + 1 := by omega
  exact (update_of_ne hne _ _).trans (h.free tokenId (by omega))

/-- A last expiry stays at the tail of the queue. -/
theorem bubble_tail {l : List ℕ} (hl : ∀ i ∈ l, i ≤ t) (head : ℕ) :
    bubble t head l.length (l ++ [t]) = l ++ [t] := by
  cases hn : l.length with
  | zero =>
    obtain rfl := length_eq_zero_iff.mp hn
    rfl
  | succ j =>
    have hj : j < l.length := by omega
    have hle : ¬t < (l ++ [t]).getD j 0 := by
      rw [getD_append _ _ _ _ hj, getD_eq_getElem _ _ hj]
      exact not_lt.mpr (hl _ (getElem_mem hj))
    rw [bubble, if_neg fun h => hle h.2, ← hn, set_append_right _ _ le_rfl, Nat.sub_self,
      set_cons_zero]

theorem crowdedNode_schedule {stake k : ℕ} (hk : k ≤ 1024) :
    (crowdedNode stake k).scheduleNodeExpiry (15594175 + k) (25 * SCALE18 / 10) =
      if k < 1024 then .ok (crowdedNode stake (k + 1))
      else .error (.nodeExpiryQueueFull 1024) := by
  have hnew : 15594175 + k ∉ range' 15594175 k := by simp
  have hslots : range' 15594175 (k + 1) = range' 15594175 k ++ [15594175 + k] := by
    rw [range'_concat, one_mul]
  have hadd : Checked.add 256 0 (25 * SCALE18 / 10) Err.panic = .ok (25 * SCALE18 / 10) := by
    decide +kernel
  have htail := bubble_tail (t := 15594175 + k) (l := range' 15594175 k)
    (fun i hi => by simp at hi; omega) 0
  rw [length_range'] at htail
  have hlater : 15594175 + k > (crowdedNode stake k).lastSettledAt := by
    change 5 < _
    omega
  unfold NodeStake.scheduleNodeExpiry
  rw [require_of (by decide), ok_bind, require_of hlater, ok_bind]
  simp only [crowdedNode, if_neg hnew, hadd, ok_bind, reserve, decide_eq_true_eq,
    length_range', Nat.sub_zero, htail]
  split
  case isTrue hfull =>
    have : k = 1024 := le_antisymm hk hfull
    simp [this]
  case isFalse hroom =>
    unfold MAX_NODE_PENDING_EXPIRIES at hroom
    rw [if_pos (by omega), hslots]
    congr 2
    · funext i
      by_cases hi : i = 15594175 + k <;> simp [hi]
    · funext i
      by_cases hi : i = 15594175 + k <;> simp [hi]

theorem shortenExpiry_crowd (hk : k ≤ 1024)
    (htier : s.tier 6 = .ok ⟨180 * 86400, 35 * SCALE18 / 10, true⟩) :
    s.shortenExpiry 5 15595200 6 1 (1025 - k) = .ok (15594175 + k) := by
  have hne : 1025 - k ≠ 0 := by omega
  have h40 : uint40 (15594175 + k) = 15594175 + k := uint40_of_lt (by omega)
  simp only [Storage.shortenExpiry, if_pos hne, Storage.tierDuration, htier, ok_bind, bind_eq_ok,
    require_eq_ok, pure_eq_ok, Checked.sub_eq_ok]
  refine ⟨(), by decide, (), by decide, _, rfl, (), by omega, 15594175 + k, by omega, (), ?_, h40⟩
  omega

/-- Up to its last step a move does not depend on the queue. -/
theorem Crowded.createPosition
    (h : Crowded k (k * SCALE18) (crowdedNode (k * (35 * SCALE18 / 10)) k) s) (hk : k ≤ 1024) :
    ∃ s', s.createPosition crowdBlock (k + 1) 1 SCALE18 6 1 (1025 - k) =
        s'.onNode 1 (·.scheduleNodeExpiry (15594175 + k) (25 * SCALE18 / 10)) ∧
      Crowded (k + 1) ((k + 1) * SCALE18) (crowdedNode ((k + 1) * (35 * SCALE18 / 10)) k) s' := by
  have htier : s.tier 6 = .ok ⟨180 * 86400, 35 * SCALE18 / 10, true⟩ := by
    rw [Storage.tier, h.tiers]
    rfl
  have hexpiry : s.computeExpiryTimestamp 5 6 = .ok 15595200 := by
    simp only [Storage.computeExpiryTimestamp, Storage.tierDuration, htier]
    rfl
  have hfree : (s.positions (k + 1)).identityId = 0 := by
    rw [h.free _ (Nat.lt_succ_self k)]
    rfl
  have hbound : k * (35 * SCALE18 / 10) + 35 * SCALE18 / 10 < 2 ^ 256 := by
    unfold SCALE18
    omega
  have hsettle : (crowdedNode (k * (35 * SCALE18 / 10)) k).settleNodeTo 5 = .ok _ :=
    if_pos (le_refl 5)
  have hdelta : (crowdedNode (k * (35 * SCALE18 / 10)) k).applyNodeStakeDelta
      (scaled SCALE18 (35 * SCALE18 / 10) : ℕ) =
        .ok (crowdedNode ((k + 1) * (35 * SCALE18 / 10)) k) := by
    have hadd : Checked.add 256 (k * (35 * SCALE18 / 10)) (35 * SCALE18 / 10) Err.panic =
        .ok ((k + 1) * (35 * SCALE18 / 10)) :=
      Checked.add_eq_ok.mpr ⟨hbound, (Nat.succ_mul _ _).symm⟩
    unfold NodeStake.applyNodeStakeDelta
    rw [if_neg (by decide), if_pos (by decide)]
    exact congrArg (· >>= _) hadd
  obtain ⟨s₁, h₁, hs₁⟩ := (h.setPosition
    ⟨SCALE18, 6, 15594175 + k, 1, 0, 35 * SCALE18 / 10, uint32 (crowdBlock.currentEpoch - 1), 1⟩
    ).increaseNodeStakeV10 (x := SCALE18) (by unfold SCALE18; omega)
  obtain ⟨s₂, h₂, hs₂⟩ := hs₁.onNode (f := (·.settleNodeTo 5)) hsettle
  obtain ⟨s₃, h₃, hs₃⟩ := hs₂.onNode (f := (·.applyNodeStakeDelta _)) hdelta
  refine ⟨s₃, ?_, by rwa [← Nat.succ_mul] at hs₃⟩
  have hnow : crowdBlock.timestamp = 5 := rfl
  have h40 : uint40 5 = 5 := rfl
  have hboost : boostOf SCALE18 (35 * SCALE18 / 10) = 25 * SCALE18 / 10 := by decide +kernel
  unfold Storage.createPosition Storage.requireOpenTier Storage.tierMultiplier
  rw [require_of (by decide), ok_bind, require_of hfree, ok_bind, require_of (by decide), ok_bind,
    if_neg (by decide), ok_bind, htier, ok_bind, pure_bind, require_of (by decide), ok_bind, hnow,
    h40, hexpiry, ok_bind, shortenExpiry_crowd hk htier, ok_bind]
  dsimp only
  rw [h₁, ok_bind, Storage.settleNodeTo, h₂, ok_bind, Storage.applyNodeStakeDelta, h₃, ok_bind,
    Storage.scheduleBoost, if_pos (by decide), hboost]

theorem Crowded.setConvictionCreditSeconds (h : Crowded k raw n s) (hx : x ≤ 1025) :
    ∃ s', s.setConvictionCreditSeconds x = .ok s' ∧ Crowded k raw n s' := by
  have he : s.setConvictionCreditSeconds x = .ok { s with convictionCreditSeconds := x } := by
    have htier : s.tier 6 = .ok ⟨180 * 86400, 35 * SCALE18 / 10, true⟩ := by
      rw [Storage.tier, h.tiers]
      rfl
    simp only [Storage.setConvictionCreditSeconds, Storage.tierDuration, htier, ok_bind,
      bind_eq_ok, require_eq_ok, pure_eq_ok]
    exact ⟨_, rfl, (), by omega, trivial⟩
  exact ⟨_, he, h.tiers, h.free, h.stake, h.total, h.node⟩

theorem crowd_time {call : Call monthly} (h : call ∈ crowd k) : call.time = 5 := by
  induction k with
  | zero =>
    obtain rfl := mem_singleton.mp h
    rfl
  | succ k ih =>
    rcases mem_append.mp h with h | h
    · exact ih h
    · rcases mem_pair.mp h with rfl | rfl <;> rfl

theorem crowd_run (hk : k ≤ 1024) : accepted step Storage.initial (crowd k) = crowd k ∧
      Crowded k (k * SCALE18) (crowdedNode (k * (35 * SCALE18 / 10)) k)
        (run step Storage.initial (crowd k)) := by
  induction k with
  | zero =>
    have hinit : Crowded 0 (0 * SCALE18) NodeStake.empty Storage.initial :=
      ⟨rfl, fun _ _ => rfl, by simp [Storage.initial], by simp [Storage.initial], rfl⟩
    have hsettle : NodeStake.empty.settleNodeTo 5 = .ok (crowdedNode 0 0) := by
      simp [NodeStake.settleNodeTo, NodeStake.empty, pending, settleLoop, crowdedNode, pure,
        Except.pure]
    obtain ⟨s₁, h₁, hs₁⟩ := hinit.onNode (f := (·.settleNodeTo 5)) hsettle
    have hstep : step Storage.initial ⟨crowdBlock, .settleNodeTo 1⟩ = .ok s₁ := h₁
    rw [crowd, run_cons, exec_ok hstep, accepted_cons_ok hstep, Nat.zero_mul]
    exact ⟨rfl, by simpa using hs₁⟩
  | succ k ih =>
    obtain ⟨hacc, hrun⟩ := ih (by omega)
    obtain ⟨s₁, h₁, hs₁⟩ := hrun.setConvictionCreditSeconds (x := 1025 - k) (by omega)
    obtain ⟨s₂, h₂, hs₂⟩ := hs₁.createPosition (by omega)
    obtain ⟨s₃, h₃, hs₃⟩ := hs₂.onNode (f := (·.scheduleNodeExpiry _ _))
      ((crowdedNode_schedule (by omega)).trans (if_pos (by omega)))
    have hset : step (run step Storage.initial (crowd k))
      ⟨crowdBlock, .setConvictionCreditSeconds (1025 - k)⟩ = .ok s₁ := h₁
    have hcreate : step s₁ ⟨crowdBlock, .createPosition (k + 1) 1 SCALE18 6 1 (1025 - k)⟩ =
      .ok s₃ := h₂.trans h₃
    rw [crowd, accepted_append, run_append, hacc, accepted_cons_ok hset, accepted_cons_ok hcreate,
      run_cons, exec_ok hset, run_cons, exec_ok hcreate]
    exact ⟨rfl, hs₃⟩

/-- Credits that differ by seconds fill the queue of a node. -/
theorem crowd_fills_queue :
    let calls := crowd 1024 ++ [⟨crowdBlock, .setConvictionCreditSeconds 1⟩]
    let call : Call monthly := ⟨crowdBlock, .createPosition 1025 1 SCALE18 6 1 1⟩
    (calls ++ [call]).Pairwise (fun a b => a.time ≤ b.time) ∧
      accepted step Storage.initial calls = calls ∧
        step (run step Storage.initial calls) call = .error (.nodeExpiryQueueFull 1024) := by
  intro calls call
  obtain ⟨hacc, hrun⟩ := crowd_run le_rfl
  obtain ⟨s₁, h₁, hs₁⟩ := hrun.setConvictionCreditSeconds (x := 1) (by omega)
  obtain ⟨s₂, h₂, hs₂⟩ := hs₁.createPosition le_rfl
  have hset : step (run step Storage.initial (crowd 1024))
    ⟨crowdBlock, .setConvictionCreditSeconds 1⟩ = .ok s₁ := h₁
  refine ⟨?_, ?_, ?_⟩
  · have hcalls : calls ++ [call] = crowd (1024 + 1) := append_assoc ..
    have hall : ∀ a ∈ calls ++ [call], a.time = 5 := fun a ha => crowd_time (hcalls ▸ ha)
    exact pairwise_of_forall_mem_list fun a ha b hb => (hall a ha).trans (hall b hb).symm |>.le
  · rw [accepted_append, hacc, accepted_cons_ok hset]
    rfl
  · rw [run_append, run_cons, exec_ok hset, run_nil]
    refine h₂.trans ?_
    rw [Storage.onNode, hs₂.node, crowdedNode_schedule le_rfl]
    rfl

end Crowd

end Runs

end Dkg.Staking
