import Dkg.Staking.ExpiryQueue
import Dkg.Staking.Storage

namespace Dkg.Staking
open Revert NodeStake Function

/-- The effective stake of a position at `T`. -/
def Position.effectiveAt (p : Position) (T : ℕ) : ℕ :=
  if p.expiryTimestamp > T then p.raw * p.multiplier18 / SCALE18 else p.raw

/-- What a position contributes to node `id` at `T`. -/
def Position.on (p : Position) (id T : ℕ) : ℕ := if p.identityId = id then p.effectiveAt T else 0

/-- The effective stake of node `id` at `T`, summed over the positions. -/
noncomputable def effectiveStake (positions : ℕ → Position) (id T : ℕ) : ℕ :=
  ∑ᶠ tokenId, (positions tokenId).on id T

variable {c : Chronos} {b : Block c} {s s' : Storage} {p p' : Position} {P : ℕ → Position}
  {Ti : ℕ → Option TierConfig} {F : ℕ → ℕ → ℤ} {S : Set ℕ} {n : NodeStake}
  {i id ts now t T d raw raw' m tokenId lockTier : ℕ} {δ : ℤ} {E : Err → Prop}

section Positions

/-- A position in use: without a lock it has no boost. -/
structure Position.Ok (p : Position) : Prop where
  scale_le : SCALE18 ≤ p.multiplier18
  rest : p.expiryTimestamp = 0 → p.multiplier18 = SCALE18

theorem scaled_eq (h : SCALE18 ≤ m) : scaled raw m = raw + boostOf raw m := by
  obtain ⟨k, rfl⟩ := Nat.exists_eq_add_of_le h
  unfold scaled boostOf
  rw [Nat.add_sub_cancel_left, mul_add, mul_comm raw SCALE18,
    Nat.mul_add_div (by norm_num [SCALE18])]

theorem boostOf_scale (raw : ℕ) : boostOf raw SCALE18 = 0 := by
  simp [boostOf]

theorem Position.Ok.effectiveAt_eq (h : p.Ok) (T : ℕ) :
    p.effectiveAt T = p.raw + if T < p.expiryTimestamp then boostOf p.raw p.multiplier18 else 0 := by
  unfold Position.effectiveAt
  split
  · exact scaled_eq h.scale_le
  · rfl

/-- From `ts` on only the expiry changes the effective stake of a position. -/
theorem Position.Ok.effectiveAt_later (h : p.Ok) (hT : ts ≤ T) :
    (p.effectiveAt T : ℤ) = p.effectiveAt ts -
      if ts < p.expiryTimestamp ∧ p.expiryTimestamp ≤ T then
        (boostOf p.raw p.multiplier18 : ℤ) else 0 := by
  rw [h.effectiveAt_eq, h.effectiveAt_eq]
  split <;> split <;> split <;> push_cast <;> omega

theorem boostOf_mono (h : raw ≤ raw') (m : ℕ) : boostOf raw m ≤ boostOf raw' m :=
  Nat.div_le_div_right (Nat.mul_le_mul_right _ h)

/-- The same position with another raw stake. -/
def Position.withRaw (p : Position) (raw : ℕ) : Position := { p with raw }

theorem Position.Ok.withRaw (h : p.Ok) (raw : ℕ) : (p.withRaw raw).Ok :=
  ⟨h.scale_le, h.rest⟩

@[simp] theorem withRaw_self (p : Position) : p.withRaw p.raw = p := rfl

theorem stillBoosted_iff : p.StillBoosted ts ↔ ts < p.expiryTimestamp := by
  unfold Position.StillBoosted
  omega

theorem effDelta_eq (p : Position) (ts : ℕ) (h : raw ≤ raw') :
    (Storage.effDelta p ts raw raw' : ℤ) =
      (p.withRaw raw').effectiveAt ts - (p.withRaw raw).effectiveAt ts := by
  have hle : scaled raw p.multiplier18 ≤ scaled raw' p.multiplier18 :=
    Nat.div_le_div_right (Nat.mul_le_mul_right _ h)
  simp only [Storage.effDelta, stillBoosted_iff]
  by_cases hts : ts < p.expiryTimestamp
  · have hat : ∀ r, (p.withRaw r).effectiveAt ts = scaled r p.multiplier18 := fun _ => if_pos hts
    rw [if_pos hts, hat, hat]
    exact Int.ofNat_sub hle
  · have hat : ∀ r, (p.withRaw r).effectiveAt ts = r := fun _ => if_neg hts
    rw [if_neg hts, hat, hat]
    exact Int.ofNat_sub h

/-- How a change of the raw stake shows from `ts` on. -/
theorem Position.Ok.effectiveAt_withRaw (hp : p.Ok) (h : raw ≤ raw') (hT : ts ≤ T) :
    ((p.withRaw raw').effectiveAt T : ℤ) - (p.withRaw raw).effectiveAt T =
      Storage.effDelta p ts raw raw' - if ts < p.expiryTimestamp ∧ p.expiryTimestamp ≤ T then
        ((boostOf raw' p.multiplier18 - boostOf raw p.multiplier18 : ℕ) : ℤ) else 0 := by
  have hlater : ∀ r, ((p.withRaw r).effectiveAt T : ℤ) = (p.withRaw r).effectiveAt ts -
      if ts < p.expiryTimestamp ∧ p.expiryTimestamp ≤ T then (boostOf r p.multiplier18 : ℤ) else 0 :=
    fun r => (hp.withRaw r).effectiveAt_later hT
  have hdelta := effDelta_eq p ts h
  have hboost := boostOf_mono h p.multiplier18
  rw [hlater, hlater]
  split <;> omega

theorem effectiveNow_eq (p : Position) (ts : ℕ) : p.effectiveNow ts = p.effectiveAt ts := by
  simp only [Position.effectiveNow, stillBoosted_iff]
  rfl

@[simp] theorem on_self (p : Position) (T : ℕ) : p.on p.identityId T = p.effectiveAt T :=
  if_pos rfl

theorem on_of_ne (h : i ≠ p.identityId) (T : ℕ) : p.on i T = 0 :=
  if_neg fun he => h he.symm

@[simp] theorem withRaw_on_self (p : Position) (raw T : ℕ) :
    (p.withRaw raw).on p.identityId T = (p.withRaw raw).effectiveAt T :=
  if_pos rfl

theorem withRaw_on_of_ne (h : i ≠ p.identityId) (raw T : ℕ) : (p.withRaw raw).on i T = 0 :=
  on_of_ne (p := p.withRaw raw) h T

@[simp] theorem empty_on (id T : ℕ) : Position.empty.on id T = 0 := by
  simp [Position.on, Position.effectiveAt, Position.empty]

/-- What the positions of a storage satisfy. -/
structure PositionsOk (P : ℕ → Position) : Prop where
  finite : {tokenId | P tokenId ≠ .empty}.Finite
  unused : ∀ tokenId, (P tokenId).identityId = 0 → P tokenId = .empty
  ok : ∀ tokenId, (P tokenId).identityId ≠ 0 → (P tokenId).Ok

theorem PositionsOk.support_finite (h : PositionsOk P) (id T : ℕ) :
    (fun tokenId => (P tokenId).on id T).support.Finite := by
  refine h.finite.subset fun tokenId ht => ?_
  intro he
  exact ht (by simp [he])

theorem PositionsOk.set (h : PositionsOk P) (tokenId : ℕ) (hz : p.identityId = 0 → p = .empty)
    (hok : p.identityId ≠ 0 → p.Ok) : PositionsOk (update P tokenId p) where
  finite := by
    refine (h.finite.union (Set.finite_singleton tokenId)).subset fun i hi => ?_
    by_cases hit : i = tokenId
    · exact .inr hit
    · exact .inl (by simpa [hit] using hi)
  unused := by
    intro i hi
    by_cases hit : i = tokenId
    · subst hit
      simpa using hz (by simpa using hi)
    · simpa [hit] using h.unused i (by simpa [hit] using hi)
  ok := by
    intro i hi
    by_cases hit : i = tokenId
    · subst hit
      simpa using hok (by simpa using hi)
    · simpa [hit] using h.ok i (by simpa [hit] using hi)

theorem PositionsOk.withRaw (h : PositionsOk P) (hid : (P tokenId).identityId ≠ 0) (raw : ℕ) :
    PositionsOk (update P tokenId ((P tokenId).withRaw raw)) :=
  h.set tokenId (fun hz => absurd hz hid) fun _ => (h.ok tokenId hid).withRaw raw

theorem PositionsOk.remove (h : PositionsOk P) (tokenId : ℕ) :
    PositionsOk (update P tokenId .empty) :=
  h.set tokenId (fun _ => rfl) fun hne => absurd rfl hne

/-- Changing one position changes the sum by its own contribution. -/
theorem effectiveStake_update (h : PositionsOk P) (tokenId : ℕ) (p : Position) (id T : ℕ) :
    (effectiveStake (update P tokenId p) id T : ℤ) =
      effectiveStake P id T - (P tokenId).on id T + p.on id T := by
  have hsplit : (fun i => (P i).on id T) =
      (fun i => (update P tokenId Position.empty i).on id T) +
        Pi.single tokenId ((P tokenId).on id T) := by
    funext i
    by_cases hi : i = tokenId
    · subst hi
      simp
    · simp [hi]
  have hnew : (fun i => (update P tokenId p i).on id T) =
      (fun i => (update P tokenId Position.empty i).on id T) + Pi.single tokenId (p.on id T) := by
    funext i
    by_cases hi : i = tokenId
    · subst hi
      simp
    · simp [hi]
  have hfin : (fun i => (update P tokenId Position.empty i).on id T).support.Finite :=
    (h.remove tokenId).support_finite id T
  have hold : effectiveStake P id T =
      effectiveStake (update P tokenId .empty) id T + (P tokenId).on id T := by
    unfold effectiveStake
    rw [hsplit]
    exact Sums.finsum_add_single hfin tokenId _
  have hsum : effectiveStake (update P tokenId p) id T =
      effectiveStake (update P tokenId .empty) id T + p.on id T := by
    unfold effectiveStake
    rw [hnew]
    exact Sums.finsum_add_single hfin tokenId _
  omega

/-- The effective stake of a position is within its node's. -/
theorem PositionsOk.effectiveAt_le (h : PositionsOk P) (tokenId T : ℕ) :
    ((P tokenId).effectiveAt T : ℤ) ≤ effectiveStake P (P tokenId).identityId T := by
  have hle := single_le_finsum tokenId (h.support_finite (P tokenId).identityId T)
    fun _ => Nat.zero_le _
  rw [on_self] at hle
  exact Int.ofNat_le.mpr hle

/-- The boosts that end at a moment are in the fall of the node's stake there. -/
theorem PositionsOk.boost_le (h : PositionsOk P) (hid : (P tokenId).identityId ≠ 0)
    (ht : 0 < (P tokenId).expiryTimestamp) :
    (boostOf (P tokenId).raw (P tokenId).multiplier18 : ℤ) ≤
      effectiveStake P (P tokenId).identityId ((P tokenId).expiryTimestamp - 1) -
        effectiveStake P (P tokenId).identityId (P tokenId).expiryTimestamp := by
  -- without this position the stake still does not rise over time
  have hrest := h.remove tokenId
  have hanti : ∀ id T, effectiveStake (update P tokenId .empty) id (T + 1) ≤
      effectiveStake (update P tokenId .empty) id T := by
    intro id T
    refine finsum_le_finsum' (hrest.support_finite id (T + 1)) (hrest.support_finite id T) ?_
    intro i
    dsimp only
    unfold Position.on
    split
    · by_cases hz : (update P tokenId Position.empty i).identityId = 0
      · rw [hrest.unused i hz]
        simp [Position.effectiveAt, Position.empty]
      · rw [(hrest.ok i hz).effectiveAt_eq, (hrest.ok i hz).effectiveAt_eq]
        split <;> split <;> omega
    · exact le_rfl
  have hok := h.ok tokenId hid
  have hmono := hanti (P tokenId).identityId ((P tokenId).expiryTimestamp - 1)
  rw [Nat.sub_add_cancel ht] at hmono
  have hbefore := effectiveStake_update h tokenId .empty (P tokenId).identityId
    ((P tokenId).expiryTimestamp - 1)
  have hafter := effectiveStake_update h tokenId .empty (P tokenId).identityId
    (P tokenId).expiryTimestamp
  rw [empty_on, on_self, hok.effectiveAt_eq, if_pos (by omega)] at hbefore
  rw [empty_on, on_self, hok.effectiveAt_eq, if_neg (lt_irrefl _)] at hafter
  push_cast at hbefore hafter
  omega

end Positions

section Mid

/-- The storage within a call at `ts`: its positions and tiers, which nodes are settled, and
the effective stake each node keeps. -/
structure Mid (P : ℕ → Position) (Ti : ℕ → Option TierConfig) (ts : ℕ) (S : Set ℕ)
    (F : ℕ → ℕ → ℤ) (s : Storage) : Prop where
  positions_eq : s.positions = P
  tiers_eq : s.tiers = Ti
  settled_le : ∀ i, (s.nodes i).lastSettledAt ≤ ts
  settled : ∀ i ∈ S, (s.nodes i).lastSettledAt = ts
  keeps : ∀ i, Keeps (F i) (s.nodes i)

/-- Other data of the storage does not matter. -/
structure SameStake (s s' : Storage) : Prop where
  positions : s'.positions = s.positions
  tiers : s'.tiers = s.tiers
  nodes : s'.nodes = s.nodes

theorem pushNodeToken_same (s : Storage) (identityId tokenId : ℕ) :
    SameStake s (s.pushNodeToken identityId tokenId) :=
  ⟨rfl, rfl, rfl⟩

theorem rewardCarries_same (s : Storage) (carries : ℕ → List RewardCarry) :
    SameStake s { s with rewardCarries := carries } :=
  ⟨rfl, rfl, rfl⟩

theorem moveRewardCarries_same (s : Storage) (oldTokenId newTokenId : ℕ) :
    SameStake s (s.moveRewardCarries oldTokenId newTokenId) :=
  ⟨rfl, rfl, rfl⟩

theorem Mid.frame (h : Mid P Ti ts S F s) (hs : SameStake s s') : Mid P Ti ts S F s' := by
  constructor
  · rw [hs.positions, h.positions_eq]
  · rw [hs.tiers, h.tiers_eq]
  · rw [hs.nodes]
    exact h.settled_le
  · rw [hs.nodes]
    exact h.settled
  · rw [hs.nodes]
    exact h.keeps

theorem Mid.setPosition (h : Mid P Ti ts S F s) (tokenId : ℕ) (p : Position) :
    Mid (update P tokenId p) Ti ts S F (s.setPosition tokenId p) :=
  ⟨by rw [← h.positions_eq]; rfl, h.tiers_eq, h.settled_le, h.settled, h.keeps⟩

/-- One node changes. -/
theorem Mid.setNode {S' : Set ℕ} {G : ℕ → ℤ} (h : Mid P Ti ts S F s) (hn : Keeps G n)
    (hle : n.lastSettledAt ≤ ts) (hi : i ∈ S' → n.lastSettledAt = ts)
    (hS : ∀ j ∈ S', j ≠ i → j ∈ S) :
    Mid P Ti ts S' (update F i G) { s with nodes := update s.nodes i n } := by
  refine ⟨h.positions_eq, h.tiers_eq, fun j => ?_, fun j hj => ?_, fun j => ?_⟩ <;>
    by_cases hji : j = i
  · simpa [hji] using hle
  · simpa [hji] using h.settled_le j
  · subst hji
    simpa using hi hj
  · simpa [hji] using h.settled j (hS j hj hji)
  · simpa [hji] using hn
  · simpa [hji] using h.keeps j

theorem Mid.onNode {f : NodeStake → Except Err NodeStake} {G : ℕ → ℤ} (h : Mid P Ti ts S F s)
    (hf : Ends Benign (fun n => Keeps G n ∧ n.lastSettledAt = (s.nodes i).lastSettledAt)
      (f (s.nodes i))) :
    Ends Benign (Mid P Ti ts S (update F i G)) (s.onNode i f) := by
  refine hf.bind fun n ⟨hn, hlast⟩ => ?_
  refine h.setNode hn (hlast ▸ h.settled_le i) (fun hi => ?_) fun j hj _ => hj
  rw [hlast, h.settled i hi]

theorem Mid.settleNodeTo (h : Mid P Ti ts S F s) (i : ℕ) (hnn : ∀ T, 0 ≤ F i T) :
    Ends Benign (Mid P Ti ts (insert i S) F) (s.settleNodeTo i ts) := by
  obtain ⟨n, hn, hk, hlast⟩ := settleNodeTo_keeps (h.keeps i) (h.settled_le i) fun T _ => hnn T
  rw [Storage.settleNodeTo, Storage.onNode, hn, ok_bind, ← update_eq_self i F]
  exact h.setNode hk hlast.le (fun _ => hlast) fun j hj hji => hj.resolve_left hji

theorem Mid.applyNodeStakeDelta (h : Mid P Ti ts S F s) (hi : i ∈ S) (δ : ℤ)
    (hδ : 0 ≤ F i ts + δ) :
    Ends Benign (Mid P Ti ts S (update F i fun T => F i T + δ)) (s.applyNodeStakeDelta i δ) :=
  h.onNode (applyNodeStakeDelta_keeps (h.keeps i) δ (by rw [h.settled i hi]; exact hδ))

theorem Mid.schedule (h : Mid P Ti ts S F s) (i t d : ℕ) :
    Ends Benign (Mid P Ti ts S (update F i fun T => F i T - if t ≤ T then (d : ℤ) else 0))
      (s.onNode i (·.scheduleNodeExpiry t d)) :=
  h.onNode (scheduleNodeExpiry_keeps (h.keeps i))

theorem Mid.cancel (h : Mid P Ti ts S F s) (hi : i ∈ S) (ht : ts < t)
    (hd : (d : ℤ) ≤ F i (t - 1) - F i t) :
    Ends Benign (Mid P Ti ts S (update F i fun T => F i T + if t ≤ T then (d : ℤ) else 0))
      (s.onNode i (·.cancelNodeExpiry t d)) := by
  refine h.onNode ?_
  obtain ⟨n, hn, hk, hlast⟩ :=
    cancelNodeExpiry_keeps (h.keeps i) (by rw [h.settled i hi]; exact ht) hd
  rw [hn]
  exact ⟨hk, hlast⟩

theorem increaseNodeStakeV10_same (hE : E .panic) (s : Storage) (i d : ℕ) :
    Ends E (SameStake s) (s.increaseNodeStakeV10 i d) := by
  unfold Storage.increaseNodeStakeV10 Checked.add
  split
  · rw [ok_bind]
    split
    · exact ⟨rfl, rfl, rfl⟩
    · exact hE
  · exact hE

theorem decreaseNodeStakeV10_same (hE : E .panic) (s : Storage) (i d : ℕ) :
    Ends E (SameStake s) (s.decreaseNodeStakeV10 i d) := by
  unfold Storage.decreaseNodeStakeV10 Checked.sub
  split
  · rw [ok_bind]
    split
    · exact ⟨rfl, rfl, rfl⟩
    · exact hE
  · exact hE

theorem decreaseNodeStakePositive_same (hE : E .panic) (s : Storage) (i d : ℕ) :
    Ends E (SameStake s) (s.decreaseNodeStakePositive i d) :=
  ends_ite (fun _ => decreaseNodeStakeV10_same hE s i d) ⟨rfl, rfl, rfl⟩

theorem moveNodeStakeV10_same (hE : E .panic) (s : Storage) (i j d : ℕ) :
    Ends E (SameStake s) (s.moveNodeStakeV10 i j d) := by
  unfold Storage.moveNodeStakeV10 Checked.sub Checked.add
  split
  · rw [ok_bind]
    dsimp only
    split
    · exact ⟨rfl, rfl, rfl⟩
    · exact hE
  · exact hE

theorem popNodeToken_same (hE : E .panic) (s : Storage) (i tokenId : ℕ) :
    Ends E (SameStake s) (s.popNodeToken i tokenId) := by
  unfold Storage.popNodeToken Checked.sub
  dsimp only
  split
  · rw [ok_bind]
    unfold Storage.swapLast
    dsimp only
    split
    · refine Ends.bind (P := SameStake s) ?_ fun s₁ hs => ⟨hs.positions, hs.tiers, hs.nodes⟩
      refine (ends_require fun _ => hE).bind fun _ _ => ?_
      exact ⟨rfl, rfl, rfl⟩
    · exact ⟨rfl, rfl, rfl⟩
  · exact hE

theorem Mid.congr {G : ℕ → ℕ → ℤ} (h : Mid P Ti ts S F s)
    (hFG : ∀ j T, (j ∈ S → ts ≤ T) → F j T = G j T) : Mid P Ti ts S G s := by
  refine ⟨h.positions_eq, h.tiers_eq, h.settled_le, h.settled, fun j => ⟨(h.keeps j).wf, ?_⟩⟩
  intro T hT
  rw [(h.keeps j).value T hT]
  exact hFG j T fun hj => h.settled j hj ▸ hT

/-- Only the values of the changed node that count have to agree. -/
theorem Mid.congr_update {f g : ℕ → ℤ} (h : Mid P Ti ts S (update F i f) s)
    (hfg : ∀ T, (i ∈ S → ts ≤ T) → f T = g T) : Mid P Ti ts S (update F i g) s := by
  refine h.congr fun j T hT => ?_
  by_cases hj : j = i
  · subst hj
    simpa using hfg T hT
  · simp [hj]

/-- Cancelling `d` of a boost raises the stake after the expiry by it. -/
theorem Mid.cancelBoost (h : Mid P Ti ts S F s) (hi : i ∈ S) (hp : p.Ok)
    (hrest : p.multiplier18 = SCALE18 → d = 0)
    (hd : ts < p.expiryTimestamp →
      (d : ℤ) ≤ F i (p.expiryTimestamp - 1) - F i p.expiryTimestamp) :
    Ends Benign (Mid P Ti ts S (update F i fun T =>
        F i T + if ts < p.expiryTimestamp ∧ p.expiryTimestamp ≤ T then (d : ℤ) else 0))
      (s.cancelBoost i p ts d) := by
  unfold Storage.cancelBoost
  simp only [stillBoosted_iff]
  split_ifs with hb
  · refine (h.cancel hi hb.1 (hd hb.1)).mono fun s' hs => hs.congr_update fun T _ => ?_
    simp [hb.1]
  · rw [← update_eq_self i F] at h
    refine h.congr_update fun T _ => ?_
    split
    · have := hp.scale_le
      rw [hrest (by omega)]
      simp
    · simp

/-- Scheduling `d` for a boosted position lowers the stake after its expiry by it. -/
theorem Mid.scheduleDrop (h : Mid P Ti ts S F s) (i : ℕ) (hp : p.Ok)
    (hrest : p.multiplier18 = SCALE18 → d = 0) :
    Ends Benign (Mid P Ti ts S (update F i fun T =>
        F i T - if ts < p.expiryTimestamp ∧ p.expiryTimestamp ≤ T then (d : ℤ) else 0))
      (if p.StillBoosted ts ∧ p.multiplier18 > SCALE18 ∧ d ≠ 0 then
        s.onNode i (·.scheduleNodeExpiry p.expiryTimestamp d) else .ok s) := by
  simp only [stillBoosted_iff]
  split_ifs with hb
  · refine (h.schedule i _ d).mono fun s' hs => hs.congr_update fun T _ => ?_
    simp [hb.1]
  · have hd : ts < p.expiryTimestamp → d = 0 := by
      intro hts
      by_contra hne
      have := hp.scale_le
      exact hb ⟨hts, by have := mt hrest hne; omega, hne⟩
    rw [← update_eq_self i F] at h
    refine h.congr_update fun T _ => ?_
    split_ifs with hT
    · simp [hd hT.1]
    · simp

/-- Scheduling a boost lowers the stake after the expiry by it. -/
theorem Mid.scheduleBoost (h : Mid P Ti ts S F s) (i lockTier t raw m : ℕ) :
    Ends Benign (Mid P Ti ts S (update F i fun T =>
        F i T - if (lockTier > 0 ∧ m > SCALE18) ∧ t ≤ T then (boostOf raw m : ℤ) else 0))
      (s.scheduleBoost i lockTier t raw m) := by
  unfold Storage.scheduleBoost
  split_ifs with hb
  · refine (h.schedule i t _).mono fun s' hs => hs.congr_update fun T _ => ?_
    simp [hb.1, hb.2]
  · rw [← update_eq_self i F] at h
    refine h.congr_update fun T _ => ?_
    rw [if_neg fun hc => hb hc.1, sub_zero]

/-- Unwinding a position takes its effective stake off its node. -/
theorem Mid.unwind {α : Type} {Q : α → Prop} {k : Storage → Except Err α}
    (h : Mid P Ti ts S F s) (hi : i ∈ S) (hp : p.Ok) (hle : (p.effectiveAt ts : ℤ) ≤ F i ts)
    (hboost : ts < p.expiryTimestamp → (boostOf p.raw p.multiplier18 : ℤ) ≤
      F i (p.expiryTimestamp - 1) - F i p.expiryTimestamp)
    (hk : ∀ s', Mid P Ti ts S (update F i fun T => F i T - p.effectiveAt T) s' →
      Ends Benign Q (k s')) :
    Ends Benign Q (do
      let s ← s.applyNodeStakeDelta i (-(p.effectiveNow ts : ℤ))
      let s ← s.cancelBoost i p ts (boostOf p.raw p.multiplier18)
      k s) := by
  rw [effectiveNow_eq]
  refine (h.applyNodeStakeDelta hi _ (by omega)).bind fun s₁ hs₁ => ?_
  refine (hs₁.cancelBoost hi hp (fun hm => by rw [hm, boostOf_scale]) fun hts => ?_).bind
    fun s₂ hs₂ => ?_
  · have := hboost hts
    simp only [update_self]
    omega
  · refine hk s₂ (hs₂.congr fun j T hT => ?_)
    by_cases hj : j = i
    · subst hj
      simp only [update_self]
      rw [hp.effectiveAt_later (hT hi)]
      omega
    · simp [hj]

end Mid

section Tiers

/-- The rest tier has no lock and no boost, the others have both. -/
def TiersOk (Ti : ℕ → Option TierConfig) : Prop :=
  ∀ lockTier tc, Ti lockTier = some tc →
    if lockTier = 0 then tc.duration = 0 ∧ tc.multiplier18 = SCALE18
    else 0 < tc.duration ∧ SCALE18 < tc.multiplier18

theorem baselineTiers_ok : TiersOk baselineTiers := by
  intro lockTier tc h
  unfold baselineTiers at h
  split at h
  all_goals simp only [Option.some.injEq, reduceCtorEq] at h
  all_goals subst h
  all_goals simp [SCALE18]

theorem tiers_update {P : ℕ → TierConfig → Prop} (h : ∀ i tc, Ti i = some tc → P i tc)
    {tc : TierConfig} (htc : P lockTier tc) :
    ∀ i tc', update Ti lockTier (some tc) i = some tc' → P i tc' := by
  intro i tc' hi
  by_cases hil : i = lockTier
  · subst hil
    rw [update_self, Option.some.injEq] at hi
    exact hi ▸ htc
  · rw [update_of_ne hil] at hi
    exact h i tc' hi

theorem tier_ends (hE : E .invalidTier) (s : Storage) (lockTier : ℕ) :
    Ends E (fun tc => s.tiers lockTier = some tc) (s.tier lockTier) := by
  unfold Storage.tier
  split
  · assumption
  · exact hE

theorem tierMultiplier_ends_true (hE : E .invalidTier) (lockTier : ℕ) :
    Ends E (fun _ => True) (s.tierMultiplier lockTier) :=
  (tier_ends hE s lockTier).bind fun _ _ => ends_pure trivial

theorem requireOpenTier_ends (hE : E .invalidTier) (hE' : E .tierInactive)
    {migrationEpoch : ℕ} : Ends E (fun _ => True) (s.requireOpenTier lockTier migrationEpoch) :=
  ends_ite (fun _ => (tier_ends hE s lockTier).bind fun _ _ =>
    (ends_require fun _ => hE').mono fun _ _ => trivial) trivial

theorem tierMultiplier_ends (h : TiersOk s.tiers) (lockTier : ℕ) :
    Ends Benign (fun m => if lockTier = 0 then m = SCALE18 else SCALE18 < m)
      (s.tierMultiplier lockTier) := by
  refine (tier_ends (by decide) s lockTier).bind fun tc htc => ?_
  have hok := h lockTier tc htc
  refine ends_pure ?_
  by_cases hz : lockTier = 0
  · rw [if_pos hz] at hok ⊢
    exact hok.2
  · rw [if_neg hz] at hok ⊢
    exact hok.2

/-- A position on a tier, with an expiry exactly if the tier has a lock. -/
theorem Position.ok_of_tier (hm : if lockTier = 0 then p.multiplier18 = SCALE18
    else SCALE18 < p.multiplier18) (hexpiry : lockTier = 0 ↔ p.expiryTimestamp = 0) : p.Ok := by
  refine ⟨?_, fun hz => ?_⟩
  · split at hm
    · exact hm.ge
    · exact hm.le
  · rwa [if_pos (hexpiry.mpr hz)] at hm

/-- What a new lock adds to its node from the moment it starts. -/
theorem installed_eq (hm : if lockTier = 0 then m = SCALE18 else SCALE18 < m) :
    (scaled raw m : ℤ) -
        (if (lockTier > 0 ∧ m > SCALE18) ∧ t ≤ T then (boostOf raw m : ℤ) else 0) =
      raw + if T < t then (boostOf raw m : ℤ) else 0 := by
  by_cases hz : lockTier = 0
  · rw [if_pos hz] at hm
    subst hm
    rw [scaled_eq le_rfl, boostOf_scale]
    simp
  · rw [if_neg hz] at hm
    rw [scaled_eq hm.le]
    have hpos : lockTier > 0 := Nat.pos_of_ne_zero hz
    simp only [hpos, hm, true_and]
    split <;> split <;> push_cast <;> omega

theorem bucketExpiryTimestamp_ends (x : ℕ) :
    Ends Benign (fun e => x ≤ e) (Storage.bucketExpiryTimestamp x) := by
  refine ends_guard (by decide) fun hle => ends_pure ?_
  rw [uint40_of_lt (by omega)]
  have := Nat.div_add_mod (x + EXPIRY_BUCKET_SECONDS - 1) EXPIRY_BUCKET_SECONDS
  have := Nat.mod_lt (x + EXPIRY_BUCKET_SECONDS - 1) (show EXPIRY_BUCKET_SECONDS > 0 by decide)
  have := Nat.mul_comm ((x + EXPIRY_BUCKET_SECONDS - 1) / EXPIRY_BUCKET_SECONDS)
    EXPIRY_BUCKET_SECONDS
  omega

/-- A tier has an expiry exactly if it has a lock. -/
theorem computeExpiryTimestamp_ends (h : TiersOk s.tiers) (timestamp lockTier : ℕ) :
    Ends Benign (fun e => lockTier = 0 ↔ e = 0) (s.computeExpiryTimestamp timestamp lockTier) := by
  unfold Storage.computeExpiryTimestamp Storage.tierDuration
  split_ifs with hz
  · exact show lockTier = 0 ↔ 0 = 0 by simp [hz]
  · refine Ends.bind (P := fun x => 0 < x) ?_ fun x hx => ?_
    · refine (tier_ends (by decide) s lockTier).bind fun tc htc => ends_pure ?_
      have := h lockTier tc htc
      rw [if_neg hz] at this
      exact this.1
    · refine (bucketExpiryTimestamp_ends _).mono fun e he => ?_
      omega

theorem shortenExpiry_ends {expiry migrationEpoch by' : ℕ} (he : lockTier = 0 ↔ expiry = 0) :
    Ends Benign (fun e => lockTier = 0 ↔ e = 0)
      (s.shortenExpiry ts expiry lockTier migrationEpoch by') := by
  unfold Storage.shortenExpiry Storage.tierDuration
  split
  · refine ends_guard (by decide) fun _ => ?_
    refine ends_guard (by decide) fun hne => ?_
    refine Ends.bind (P := fun _ => True)
      ((tier_ends (by decide) s lockTier).bind fun tc _ => ends_pure trivial) fun x _ => ?_
    refine ends_guard (by decide) fun _ => ?_
    unfold Checked.sub
    split
    · rw [ok_bind]
      refine ends_guard (by decide) fun hgt => ends_pure ?_
      omega
    · exact show Benign _ by decide
  · exact he

end Tiers

section Calls

/-- The storage at time `now`: every node keeps the effective stake of its positions. -/
structure StorageInv (now : ℕ) (s : Storage) : Prop where
  positions : PositionsOk s.positions
  tiers : TiersOk s.tiers
  settled_le : ∀ i, (s.nodes i).lastSettledAt ≤ now
  keeps : ∀ i, Keeps (fun T => effectiveStake s.positions i T) (s.nodes i)

theorem StorageInv.mono {now' : ℕ} (h : StorageInv now s) (hle : now ≤ now') :
    StorageInv now' s :=
  ⟨h.positions, h.tiers, fun i => (h.settled_le i).trans hle, h.keeps⟩

theorem StorageInv.mid (h : StorageInv now s) (hts : now ≤ ts) :
    Mid s.positions s.tiers ts ∅ (fun i T => effectiveStake s.positions i T) s :=
  ⟨rfl, rfl, fun i => (h.settled_le i).trans hts, fun _ hi => absurd hi (Set.notMem_empty _),
    h.keeps⟩

/-- A call is done when the nodes keep the stake of the positions again. -/
theorem Mid.inv (h : Mid P Ti ts S F s) (hP : PositionsOk P) (hTi : TiersOk Ti)
    (hF : ∀ i T, (i ∈ S → ts ≤ T) → F i T = effectiveStake P i T) : StorageInv ts s := by
  have hm := h.congr hF
  refine ⟨h.positions_eq ▸ hP, h.tiers_eq ▸ hTi, h.settled_le, fun i => ?_⟩
  rw [h.positions_eq]
  exact hm.keeps i

theorem initial_inv : StorageInv 0 Storage.initial := by
  refine ⟨⟨by simp [Storage.initial], fun _ _ => rfl, fun _ h => absurd rfl h⟩, baselineTiers_ok,
    fun _ => le_rfl, fun i => ⟨empty_wf, fun T _ => ?_⟩⟩
  simp [Storage.initial, effectiveStake, valueFrom, NodeStake.empty, StepProfile.value]

theorem uint40_timestamp (b : Block c) : uint40 b.timestamp = b.timestamp := by
  have := b.timestamp_lt
  exact uint40_of_lt (by omega)

variable (hinv : StorageInv now s) (hb : now ≤ b.timestamp)
include hinv hb

theorem createPosition_inv (tokenId identityId raw lockTier migrationEpoch by' : ℕ) :
    Ends Benign (StorageInv b.timestamp)
      (s.createPosition b tokenId identityId raw lockTier migrationEpoch by') := by
  refine ends_guard (by decide) fun hid => ?_
  refine ends_guard (by decide) fun hfree => ?_
  refine ends_guard (by decide) fun hraw => ?_
  refine (requireOpenTier_ends (by decide) (by decide)).bind fun _ _ => ?_
  refine (tierMultiplier_ends hinv.tiers lockTier).bind fun m hm => ?_
  refine ends_guard (by decide) fun _ => ?_
  dsimp only
  rw [uint40_timestamp]
  refine (computeExpiryTimestamp_ends hinv.tiers _ lockTier).bind fun e he => ?_
  refine (shortenExpiry_ends he).bind fun expiry hexpiry => ?_
  set p : Position := ⟨raw, lockTier, expiry, identityId, 0, m, uint32 (b.currentEpoch - 1),
    migrationEpoch⟩
  have hok : p.Ok := Position.ok_of_tier hm hexpiry
  have hstart := ((hinv.mid hb).setPosition tokenId p).frame
    (pushNodeToken_same _ identityId tokenId)
  refine (increaseNodeStakeV10_same (by decide) _ identityId raw).bind fun s₁ hs₁ => ?_
  refine ((hstart.frame hs₁).settleNodeTo identityId fun T => Int.natCast_nonneg _).bind
    fun s₂ hs₂ => ?_
  refine (hs₂.applyNodeStakeDelta (Set.mem_insert _ _) (scaled raw m) (by positivity)).bind
    fun s₃ hs₃ => ?_
  refine (hs₃.scheduleBoost identityId lockTier expiry raw m).mono fun s₄ hs₄ => ?_
  refine hs₄.inv (hinv.positions.set tokenId (fun hz => absurd hz hid) fun _ => hok)
    hinv.tiers fun i T hT => ?_
  have hempty := hinv.positions.unused tokenId hfree
  rw [effectiveStake_update hinv.positions, hempty, empty_on]
  by_cases hi : i = identityId
  · subst hi
    have hon : p.on i T = raw + if T < expiry then boostOf raw m else 0 :=
      (if_pos rfl).trans (hok.effectiveAt_eq T)
    have hadd : (scaled raw m : ℤ) - _ = _ := installed_eq (t := expiry) (T := T) hm
    simp only [update_self]
    rw [hon]
    push_cast
    omega
  · have hon : p.on i T = 0 := on_of_ne hi T
    simp [hi, hon]

theorem deletePosition_inv (tokenId : ℕ) :
    Ends Benign (StorageInv b.timestamp) (s.deletePosition b tokenId) := by
  refine ends_guard (by decide) fun hid => ?_
  have hok := hinv.positions.ok tokenId hid
  dsimp only
  rw [uint40_timestamp]
  refine ((hinv.mid hb).settleNodeTo _ fun T => Int.natCast_nonneg _).bind fun s₁ hs₁ => ?_
  refine hs₁.unwind (Set.mem_insert _ _) hok (hinv.positions.effectiveAt_le tokenId _)
    (fun hts => hinv.positions.boost_le hid (by omega)) fun s₂ hs₂ => ?_
  refine (popNodeToken_same (by decide) _ _ tokenId).bind fun s₃ hs₃ => ?_
  refine (decreaseNodeStakePositive_same (by decide) _ _ _).bind fun s₄ hs₄ => ends_pure ?_
  have hend := (((hs₂.frame hs₃).frame hs₄).setPosition tokenId .empty).frame
    (rewardCarries_same _ (update s₄.rewardCarries tokenId []))
  refine hend.inv (hinv.positions.remove tokenId) hinv.tiers fun i T hT => ?_
  rw [effectiveStake_update hinv.positions, empty_on]
  by_cases hi : i = (s.positions tokenId).identityId
  · subst hi
    simp
  · simp [hi, on_of_ne hi]

theorem updateOnRedelegate_inv (tokenId newIdentityId : ℕ) :
    Ends Benign (StorageInv b.timestamp) (s.updateOnRedelegate b tokenId newIdentityId) := by
  refine ends_guard (by decide) fun hnew => ?_
  refine ends_guard (by decide) fun hid => ?_
  refine ends_guard (by decide) fun hne => ?_
  have hok := hinv.positions.ok tokenId hid
  have hok' : Position.Ok { s.positions tokenId with identityId := newIdentityId } :=
    ⟨hok.scale_le, hok.rest⟩
  dsimp only
  rw [uint40_timestamp]
  refine ((hinv.mid hb).settleNodeTo _ fun T => Int.natCast_nonneg _).bind fun s₁ hs₁ => ?_
  refine (hs₁.settleNodeTo newIdentityId fun T => Int.natCast_nonneg _).bind fun s₂ hs₂ => ?_
  refine hs₂.unwind (by simp) hok (hinv.positions.effectiveAt_le tokenId _)
    (fun hts => hinv.positions.boost_le hid (by omega)) fun s₃ hs₃ => ?_
  rw [effectiveNow_eq]
  refine (hs₃.applyNodeStakeDelta (Set.mem_insert _ _) _ ?_).bind fun s₄ hs₄ => ?_
  · rw [update_of_ne hne.symm]
    positivity
  refine (hs₄.scheduleDrop newIdentityId hok fun hm => by rw [hm, boostOf_scale]).bind
    fun s₅ hs₅ => ?_
  have hset := hs₅.setPosition tokenId { s.positions tokenId with identityId := newIdentityId }
  refine (popNodeToken_same (by decide) _ _ tokenId).bind fun s₆ hs₆ => ?_
  have hpush := (hset.frame hs₆).frame (pushNodeToken_same s₆ newIdentityId tokenId)
  refine (moveNodeStakeV10_same (by decide) _ _ _ _).mono fun s₇ hs₇ => ?_
  refine (hpush.frame hs₇).inv (hinv.positions.set tokenId (fun hz => absurd hz hnew)
    fun _ => hok') hinv.tiers fun i T hT => ?_
  rw [effectiveStake_update hinv.positions]
  by_cases hi : i = newIdentityId
  · subst hi
    have hlater := hok.effectiveAt_later (hT (Set.mem_insert _ _))
    have hon : Position.on { s.positions tokenId with identityId := i } i T =
      (s.positions tokenId).effectiveAt T := if_pos rfl
    rw [on_of_ne hne.symm, hon]
    simp only [update_self, update_of_ne hne.symm]
    omega
  · have hon : Position.on { s.positions tokenId with identityId := newIdentityId } i T = 0 :=
      on_of_ne hi T
    rw [hon, update_of_ne hi, update_of_ne hi]
    by_cases hi' : i = (s.positions tokenId).identityId
    · subst hi'
      simp
    · simp [hi', on_of_ne hi']

theorem createNewPositionFromExisting_inv (oldTokenId newTokenId identityId newLockTier : ℕ) :
    Ends Benign (StorageInv b.timestamp)
      (s.createNewPositionFromExisting b oldTokenId newTokenId identityId newLockTier) := by
  refine ends_guard (by decide) fun _ => ?_
  refine ends_guard (by decide) fun hfree => ?_
  refine ends_guard (by decide) fun hne => ?_
  refine ends_guard (by decide) fun hid => ?_
  refine ends_guard (by decide) fun hnode => ?_
  refine ends_guard (by decide) fun _ => ?_
  subst hnode
  have hok := hinv.positions.ok oldTokenId hid
  refine (tierMultiplier_ends hinv.tiers newLockTier).bind fun m hm => ?_
  dsimp only
  rw [uint40_timestamp]
  refine ((hinv.mid hb).settleNodeTo _ fun T => Int.natCast_nonneg _).bind fun s₁ hs₁ => ?_
  refine hs₁.unwind (Set.mem_insert _ _) hok (hinv.positions.effectiveAt_le oldTokenId _)
    (fun hts => hinv.positions.boost_le hid (by omega)) fun s₂ hs₂ => ?_
  refine (computeExpiryTimestamp_ends (hs₂.tiers_eq ▸ hinv.tiers) _ newLockTier).bind
    fun e he => ?_
  have hle := hinv.positions.effectiveAt_le oldTokenId b.timestamp
  refine (hs₂.applyNodeStakeDelta (Set.mem_insert _ _) _ ?_).bind fun s₃ hs₃ => ?_
  · rw [update_self]
    positivity
  refine (hs₃.scheduleBoost _ newLockTier e _ m).bind fun s₄ hs₄ => ?_
  set p : Position := { s.positions oldTokenId with
    lockTier := newLockTier, expiryTimestamp := e, multiplier18 := m }
  have hok' : p.Ok := Position.ok_of_tier hm he
  have hset := (hs₄.setPosition newTokenId p).setPosition oldTokenId .empty
  refine (popNodeToken_same (by decide) _ _ oldTokenId).bind fun s₅ hs₅ => ends_pure ?_
  have hend := ((hset.frame hs₅).frame (pushNodeToken_same s₅
    (s.positions oldTokenId).identityId newTokenId)).frame
      (moveRewardCarries_same _ oldTokenId newTokenId)
  have hmid := hinv.positions.set newTokenId (p := p) (fun hz => absurd hz hid) fun _ => hok'
  refine hend.inv (hmid.remove oldTokenId) hinv.tiers fun i T hT => ?_
  rw [effectiveStake_update hmid, effectiveStake_update hinv.positions,
    update_of_ne hne, hinv.positions.unused newTokenId hfree, empty_on]
  by_cases hi : i = (s.positions oldTokenId).identityId
  · subst hi
    have hon : p.on (s.positions oldTokenId).identityId T = (s.positions oldTokenId).raw +
        if T < e then boostOf (s.positions oldTokenId).raw m else 0 :=
      (if_pos rfl).trans (hok'.effectiveAt_eq T)
    have hadd : (scaled (s.positions oldTokenId).raw m : ℤ) - _ = _ :=
      installed_eq (t := e) (T := T) hm
    simp only [update_self, on_self]
    rw [hon]
    push_cast
    omega
  · have hon : p.on i T = 0 := on_of_ne (p := p) hi T
    simp [hi, hon, on_of_ne hi]

theorem increaseRaw_inv (tokenId amount : ℕ) :
    Ends Benign (StorageInv b.timestamp) (s.increaseRaw b tokenId amount) := by
  refine ends_guard (by decide) fun hid => ?_
  split
  · exact hinv.mono hb
  refine ends_guard (by decide) fun _ => ?_
  have hok := hinv.positions.ok tokenId hid
  dsimp only
  rw [uint40_timestamp]
  refine ((hinv.mid hb).settleNodeTo _ fun T => Int.natCast_nonneg _).bind fun s₁ hs₁ => ?_
  refine (hs₁.applyNodeStakeDelta (Set.mem_insert _ _) _ (by positivity)).bind fun s₂ hs₂ => ?_
  refine (hs₂.scheduleDrop _ hok fun hm => by simp [hm, boostOf_scale]).bind fun s₃ hs₃ => ?_
  have hset := hs₃.setPosition tokenId
    ((s.positions tokenId).withRaw ((s.positions tokenId).raw + amount))
  refine (increaseNodeStakeV10_same (by decide) _ _ amount).mono fun s₄ hs₄ => ?_
  refine (hset.frame hs₄).inv (hinv.positions.withRaw hid _) hinv.tiers fun i T hT => ?_
  rw [effectiveStake_update hinv.positions]
  by_cases hi : i = (s.positions tokenId).identityId
  · subst hi
    have hchange := hok.effectiveAt_withRaw (Nat.le_add_right (s.positions tokenId).raw amount)
      (hT (Set.mem_insert _ _))
    simp only [update_self, withRaw_self, on_self, withRaw_on_self] at hchange ⊢
    omega
  · simp [hi, on_of_ne hi, withRaw_on_of_ne hi]

theorem decreaseRaw_inv (tokenId amount : ℕ) :
    Ends Benign (StorageInv b.timestamp) (s.decreaseRaw b tokenId amount) := by
  refine ends_guard (by decide) fun hid => ?_
  refine ends_guard (by decide) fun hamount => ?_
  split
  · exact hinv.mono hb
  have hok := hinv.positions.ok tokenId hid
  have hle : (s.positions tokenId).raw - amount ≤ (s.positions tokenId).raw := Nat.sub_le _ _
  dsimp only
  rw [uint40_timestamp]
  refine ((hinv.mid hb).settleNodeTo _ fun T => Int.natCast_nonneg _).bind fun s₁ hs₁ => ?_
  refine (hs₁.applyNodeStakeDelta (Set.mem_insert _ _) _ ?_).bind fun s₂ hs₂ => ?_
  · have hdelta := effDelta_eq (s.positions tokenId) b.timestamp hle
    have hown := hinv.positions.effectiveAt_le tokenId b.timestamp
    rw [withRaw_self] at hdelta
    omega
  refine (hs₂.cancelBoost (Set.mem_insert _ _) hok (fun hm => by simp [hm, boostOf_scale])
    fun hts => ?_).bind fun s₃ hs₃ => ?_
  · have hboost := hinv.positions.boost_le hid (by omega)
    simp only [update_self]
    omega
  have hset := hs₃.setPosition tokenId
    ((s.positions tokenId).withRaw ((s.positions tokenId).raw - amount))
  refine (decreaseNodeStakeV10_same (by decide) _ _ amount).mono fun s₄ hs₄ => ?_
  refine (hset.frame hs₄).inv (hinv.positions.withRaw hid _) hinv.tiers fun i T hT => ?_
  rw [effectiveStake_update hinv.positions]
  by_cases hi : i = (s.positions tokenId).identityId
  · subst hi
    have hchange := hok.effectiveAt_withRaw hle (hT (Set.mem_insert _ _))
    simp only [update_self, withRaw_self, on_self, withRaw_on_self] at hchange ⊢
    omega
  · simp [hi, on_of_ne hi, withRaw_on_of_ne hi]

theorem settleNodeTo_inv (identityId : ℕ) :
    Ends Benign (StorageInv b.timestamp) (s.settleNodeTo identityId (uint40 b.timestamp)) := by
  rw [uint40_timestamp]
  refine ((hinv.mid hb).settleNodeTo identityId fun T => Int.natCast_nonneg _).mono fun s' hs => ?_
  exact hs.inv hinv.positions hinv.tiers fun _ _ _ => rfl

omit hb in
theorem addTier_inv (lockTier duration multiplier18 : ℕ) :
    Ends Benign (StorageInv now) (s.addTier lockTier duration multiplier18) := by
  refine ends_guard (by decide) fun _ => ?_
  refine Ends.bind (P := fun _ => if lockTier = 0 then duration = 0 ∧ multiplier18 = SCALE18
    else 0 < duration ∧ SCALE18 < multiplier18) ?_ fun _ htier => ?_
  · unfold Storage.checkTier
    split
    · exact ends_require fun _ => by decide
    · refine ends_guard (by decide) fun hdur => ?_
      refine ends_guard (by decide) fun _ => ?_
      exact (ends_require fun _ => by decide).mono fun _ hmult => ⟨hdur, hmult⟩
  · exact ⟨hinv.positions, tiers_update hinv.tiers htier, hinv.settled_le, hinv.keeps⟩

omit hb in
theorem deactivateTier_inv (lockTier : ℕ) :
    Ends Benign (StorageInv now) (s.deactivateTier lockTier) := by
  refine (tier_ends (by decide) s lockTier).bind fun tc htc => ?_
  refine ends_guard (by decide) fun _ => ?_
  exact ⟨hinv.positions, tiers_update hinv.tiers (hinv.tiers lockTier tc htc), hinv.settled_le,
    hinv.keeps⟩

omit hb in
theorem setConvictionCreditSeconds_inv (secondsValue : ℕ) :
    Ends Benign (StorageInv now) (s.setConvictionCreditSeconds secondsValue) := by
  refine Ends.bind (P := fun _ => True)
    ((tier_ends (by decide) s 6).bind fun tc _ => ends_pure trivial) fun duration _ => ?_
  refine ends_guard (by decide) fun _ => ?_
  exact ⟨hinv.positions, hinv.tiers, hinv.settled_le, hinv.keeps⟩

end Calls

section Runs
open Storage

/-- One call keeps the ledger, or fails for a reason outside it. -/
theorem step_inv (call : Call c) (hinv : StorageInv call.time s) :
    Ends Benign (StorageInv call.time) (step s call) := by
  obtain ⟨b, op⟩ := call
  cases op with
  | createPosition => exact createPosition_inv hinv le_rfl ..
  | updateOnRedelegate => exact updateOnRedelegate_inv hinv le_rfl ..
  | createNewPositionFromExisting => exact createNewPositionFromExisting_inv hinv le_rfl ..
  | increaseRaw => exact increaseRaw_inv hinv le_rfl ..
  | decreaseRaw => exact decreaseRaw_inv hinv le_rfl ..
  | deletePosition => exact deletePosition_inv hinv le_rfl ..
  | addTier => exact addTier_inv hinv ..
  | deactivateTier => exact deactivateTier_inv hinv ..
  | setConvictionCreditSeconds => exact setConvictionCreditSeconds_inv hinv ..
  | settleNodeTo => exact settleNodeTo_inv hinv le_rfl ..

theorem run_inv {calls : List (Call c)}
    (hsorted : calls.Pairwise fun a b => a.time ≤ b.time) :
    StorageInv (Revert.now Call.time 0 calls) (run step Storage.initial calls) :=
  run_invariant_timed StorageInv (fun _ _ _ hle h => h.mono hle)
    (fun call _ _ _ h hok => (step_inv call h).of_ok hok) initial_inv (fun _ _ => Nat.zero_le _)
    hsorted

/-- The view over the queue gives the sum over the positions. -/
theorem StorageInv.view (h : StorageInv now s) (hT : (s.nodes id).lastSettledAt ≤ T) :
    s.getNodeEffectiveStakeAtTimestamp id T = .ok (effectiveStake s.positions id T) := by
  obtain ⟨x, hx, heq⟩ := simulateNodeEffectiveStakeAt_keeps (h.keeps id) hT
    fun i _ => Int.natCast_nonneg _
  rw [Int.ofNat_inj] at heq
  rw [← heq]
  exact hx

/-- After every run, the effective stake a node reports for a moment it can still see is the
sum over its positions, and no call trips the strict checks of the ledger. -/
theorem run_effectiveStake_exact {calls : List (Call c)}
    (hsorted : calls.Pairwise fun a b => a.time ≤ b.time) :
    let s := run step Storage.initial calls
    {tokenId | (s.positions tokenId).identityId ≠ 0}.Finite ∧
    (∀ id T, (s.nodes id).lastSettledAt ≤ T → s.getNodeEffectiveStakeAtTimestamp id T =
        .ok (∑ᶠ tokenId, if (s.positions tokenId).identityId = id then
          (if (s.positions tokenId).expiryTimestamp > T then
            (s.positions tokenId).raw * (s.positions tokenId).multiplier18 / SCALE18
          else (s.positions tokenId).raw) else 0)) ∧
    ∀ (call : Call c) (e : Err), (calls ++ [call]).Pairwise (fun a b => a.time ≤ b.time) →
      step s call = .error e →
      e ≠ .cancelGtScheduled ∧ e ≠ .negRunningStake ∧ e ≠ .dropUnderflow := by
  intro s
  have hinv := run_inv hsorted
  refine ⟨hinv.positions.finite.subset fun tokenId hid he => hid (by rw [he]; rfl),
    fun id T hT => hinv.view hT, fun call e hmore herr => ?_⟩
  have hle : Revert.now Call.time 0 calls ≤ call.time :=
    now_le (List.mem_singleton_self call) (Nat.zero_le _) hmore
  exact (step_inv call (hinv.mono hle)).of_error herr

/-- Epochs of 30 days. -/
def monthly : Chronos := ⟨1, 30 * 86400, Nat.one_pos, by decide⟩

def blockAt (timestamp : ℕ) (ht : timestamp + 65535 * (30 * 86400) < 2 ^ 40)
    (he : monthly.epochAtTimestamp timestamp < 2 ^ 32) : Block monthly :=
  ⟨timestamp, ht, he⟩

/-- A lock of tier 1 that is compounded and moved to another node. -/
def movedLock : List (Call monthly) :=
  [⟨blockAt 100 (by decide) (by decide), .createPosition 1 7 1001 1 0 0⟩,
    ⟨blockAt 100 (by decide) (by decide), .createPosition 2 8 10 0 0 0⟩,
    ⟨blockAt 200 (by decide) (by decide), .increaseRaw 1 2⟩,
    ⟨blockAt 300 (by decide) (by decide), .updateOnRedelegate 1 8⟩]

theorem run_effectiveStake_exact_movedLock :
    let s := run step Storage.initial movedLock
    effectiveStake s.positions 8 2635199 = 1514 ∧ effectiveStake s.positions 8 2635200 = 1013 := by
  intro s
  have hsorted : movedLock.Pairwise fun a b => a.time ≤ b.time := by decide
  obtain ⟨_, hview, _⟩ := run_effectiveStake_exact hsorted
  have hlast : (s.nodes 8).lastSettledAt ≤ 2635199 := by decide +kernel
  have hbefore : s.getNodeEffectiveStakeAtTimestamp 8 2635199 = .ok 1514 := by decide +kernel
  have hafter : s.getNodeEffectiveStakeAtTimestamp 8 2635200 = .ok 1013 := by decide +kernel
  constructor
  · exact Except.ok.inj ((hview 8 2635199 hlast).symm.trans hbefore)
  · exact Except.ok.inj ((hview 8 2635200 (Nat.le_succ_of_le hlast)).symm.trans hafter)

end Runs

end Dkg.Staking
