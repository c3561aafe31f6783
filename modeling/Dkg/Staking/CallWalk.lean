import Dkg.Staking.EffectiveStake

/-! The steps of the storage calls, once for every property of the storage that they keep. -/

namespace Dkg.Staking
open Revert NodeStake Storage

variable {c : Chronos} {b : Block c} {s : Storage} {E : Err → Prop} {A : ℕ → Prop}
  {W : Set ℕ → Storage → Prop} {now : ℕ}

/-- A property within a call at `now` that each step keeps: `A` are the expiries that positions may
have, and a set says which nodes are settled. -/
structure Walk (E : Err → Prop) (now : ℕ) (A : ℕ → Prop) (W : Set ℕ → Storage → Prop) : Prop where
  error : ∀ {e}, NotFull e → E e
  zero : A 0
  expiry : ∀ {S s} tokenId, W S s → A (s.positions tokenId).expiryTimestamp
  frame : ∀ {S s s'}, W S s → SameStake s s' → W S s'
  setPosition : ∀ {S s p} tokenId, W S s → A p.expiryTimestamp → W S (s.setPosition tokenId p)
  done : ∀ {S s}, W S s → W ∅ s
  settle : ∀ {S s} i, W S s → Ends E (W (insert i S)) (s.settleNodeTo i now)
  delta : ∀ {S s} i δ, W S s → Ends E (W S) (s.applyNodeStakeDelta i δ)
  cancel : ∀ {S s} i t d, W S s → Ends E (W S) (s.onNode i (·.cancelNodeExpiry t d))
  schedule : ∀ {S s i t} d, W S s → i ∈ S → A t →
    Ends E (W S) (s.onNode i (·.scheduleNodeExpiry t d))
  compute : ∀ {S s} lockTier, W S s → Ends E A (s.computeExpiryTimestamp now lockTier)
  addTier : ∀ {s} lockTier duration multiplier18, W ∅ s →
    Ends E (W ∅) (s.addTier lockTier duration multiplier18)
  deactivateTier : ∀ {s} lockTier, W ∅ s → Ends E (W ∅) (s.deactivateTier lockTier)
  setCredit : ∀ {s} secondsValue, W ∅ s → Ends E (W ∅) (s.setConvictionCreditSeconds secondsValue)

namespace Walk

theorem set {S : Set ℕ} {s' : Storage} {p : Position} {tokenId : ℕ} (w : Walk E now A W)
    (h : W S s) (hs : SameStake (s.setPosition tokenId p) s') (hp : A p.expiryTimestamp) : W S s' :=
  w.frame (w.setPosition tokenId h hp) hs

variable (w : Walk E b.timestamp A W) (h : W ∅ s)
include w h

theorem createPosition (tokenId identityId raw lockTier migrationEpoch credit : ℕ)
    (hcredit : ∀ e, A e →
      Ends E A (s.shortenExpiry b.timestamp e lockTier migrationEpoch credit)) :
    Ends E (W ∅) (s.createPosition b tokenId identityId raw lockTier migrationEpoch credit) := by
  refine ends_guard (w.error trivial) fun _ => ends_guard (w.error trivial) fun _ => ?_
  refine ends_guard (w.error trivial) fun _ => ?_
  refine (requireOpenTier_ends (w.error trivial) (w.error trivial)).bind fun _ _ => ?_
  refine (tierMultiplier_ends_true (w.error trivial) lockTier).bind fun m _ => ?_
  refine ends_guard (w.error trivial) fun _ => ?_
  dsimp only
  rw [uint40_timestamp]
  refine (w.compute lockTier h).bind fun e he => (hcredit e he).bind fun expiry hexpiry => ?_
  refine (increaseNodeStakeV10_same (w.error trivial) _ identityId raw).bind fun s₁ hs₁ => ?_
  have hpush := w.frame (w.set h (pushNodeToken_same _ identityId tokenId) ?_) hs₁
  swap
  · exact hexpiry
  refine (w.settle identityId hpush).bind fun s₂ hs₂ => ?_
  refine (w.delta identityId _ hs₂).bind fun s₃ hs₃ => ?_
  exact (ends_ite (fun _ => w.schedule _ hs₃ (Set.mem_insert _ _) hexpiry) hs₃).mono
    fun s₄ hs₄ => w.done hs₄

theorem updateOnRedelegate (tokenId newIdentityId : ℕ) :
    Ends E (W ∅) (s.updateOnRedelegate b tokenId newIdentityId) := by
  refine ends_guard (w.error trivial) fun _ => ends_guard (w.error trivial) fun _ => ?_
  refine ends_guard (w.error trivial) fun _ => ?_
  dsimp only
  rw [uint40_timestamp]
  have hp := w.expiry tokenId h
  refine (w.settle _ h).bind fun s₁ hs₁ => (w.settle newIdentityId hs₁).bind fun s₂ hs₂ => ?_
  refine (w.delta _ _ hs₂).bind fun s₃ hs₃ => ?_
  refine (ends_ite (fun _ => w.cancel _ _ _ hs₃) hs₃).bind fun s₄ hs₄ => ?_
  refine (w.delta newIdentityId _ hs₄).bind fun s₅ hs₅ => ?_
  refine (ends_ite (fun _ => w.schedule _ hs₅ (Set.mem_insert _ _) hp) hs₅).bind fun s₆ hs₆ => ?_
  refine (popNodeToken_same (w.error trivial) _ _ tokenId).bind fun s₇ hs₇ => ?_
  refine (moveNodeStakeV10_same (w.error trivial) _ _ _ _).mono fun s₈ hs₈ => ?_
  have hpush := pushNodeToken_same s₇ newIdentityId tokenId
  exact w.done (w.frame (w.frame (w.set hs₆ hs₇ hp) hpush) hs₈)

theorem createNewPositionFromExisting (oldTokenId newTokenId identityId newLockTier : ℕ) :
    Ends E (W ∅)
      (s.createNewPositionFromExisting b oldTokenId newTokenId identityId newLockTier) := by
  refine ends_guard (w.error trivial) fun _ => ends_guard (w.error trivial) fun _ => ?_
  refine ends_guard (w.error trivial) fun _ => ends_guard (w.error trivial) fun _ => ?_
  refine ends_guard (w.error trivial) fun _ => ends_guard (w.error trivial) fun _ => ?_
  refine (tierMultiplier_ends_true (w.error trivial) newLockTier).bind fun m _ => ?_
  dsimp only
  rw [uint40_timestamp]
  refine (w.settle identityId h).bind fun s₁ hs₁ => (w.delta identityId _ hs₁).bind fun s₂ hs₂ => ?_
  refine (ends_ite (fun _ => w.cancel _ _ _ hs₂) hs₂).bind fun s₃ hs₃ => ?_
  refine (w.compute newLockTier hs₃).bind fun e he => ?_
  refine (w.delta identityId _ hs₃).bind fun s₄ hs₄ => ?_
  refine (ends_ite (fun _ => w.schedule _ hs₄ (Set.mem_insert _ _) he) hs₄).bind fun s₅ hs₅ => ?_
  refine (popNodeToken_same (w.error trivial) _ _ oldTokenId).bind fun s₆ hs₆ => ends_pure ?_
  refine w.done (w.frame (w.frame (w.set (w.set hs₅ ⟨rfl, rfl, rfl⟩ ?_) hs₆ w.zero)
    (pushNodeToken_same s₆ identityId newTokenId))
    (moveRewardCarries_same _ oldTokenId newTokenId))
  exact he

theorem increaseRaw (tokenId amount : ℕ) : Ends E (W ∅) (s.increaseRaw b tokenId amount) := by
  refine ends_guard (w.error trivial) fun _ => ?_
  split
  · exact h
  refine ends_guard (w.error trivial) fun _ => ?_
  dsimp only
  rw [uint40_timestamp]
  have hp := w.expiry tokenId h
  refine (w.settle _ h).bind fun s₁ hs₁ => (w.delta _ _ hs₁).bind fun s₂ hs₂ => ?_
  refine (ends_ite (fun _ => w.schedule _ hs₂ (Set.mem_insert _ _) hp) hs₂).bind fun s₃ hs₃ => ?_
  exact (increaseNodeStakeV10_same (w.error trivial) _ _ amount).mono fun s₄ hs₄ =>
    w.done (w.set hs₃ hs₄ hp)

theorem decreaseRaw (tokenId amount : ℕ) : Ends E (W ∅) (s.decreaseRaw b tokenId amount) := by
  refine ends_guard (w.error trivial) fun _ => ends_guard (w.error trivial) fun _ => ?_
  split
  · exact h
  dsimp only
  rw [uint40_timestamp]
  have hp := w.expiry tokenId h
  refine (w.settle _ h).bind fun s₁ hs₁ => (w.delta _ _ hs₁).bind fun s₂ hs₂ => ?_
  refine (ends_ite (fun _ => w.cancel _ _ _ hs₂) hs₂).bind fun s₃ hs₃ => ?_
  exact (decreaseNodeStakeV10_same (w.error trivial) _ _ amount).mono fun s₄ hs₄ =>
    w.done (w.set hs₃ hs₄ hp)

theorem deletePosition (tokenId : ℕ) : Ends E (W ∅) (s.deletePosition b tokenId) := by
  refine ends_guard (w.error trivial) fun _ => ?_
  dsimp only
  rw [uint40_timestamp]
  refine (w.settle _ h).bind fun s₁ hs₁ => (w.delta _ _ hs₁).bind fun s₂ hs₂ => ?_
  refine (ends_ite (fun _ => w.cancel _ _ _ hs₂) hs₂).bind fun s₃ hs₃ => ?_
  refine (popNodeToken_same (w.error trivial) _ _ tokenId).bind fun s₄ hs₄ => ?_
  refine (decreaseNodeStakePositive_same (w.error trivial) _ _ _).bind fun s₅ hs₅ => ends_pure ?_
  exact w.done (w.set (w.frame (w.frame hs₃ hs₄) hs₅)
    (rewardCarries_same _ (Function.update s₅.rewardCarries tokenId [])) w.zero)

end Walk

/-- The credit a call takes off a lock. -/
def Storage.Op.credit : Op → ℕ
  | .createPosition _ _ _ _ _ expiryShortenedBy => expiryShortenedBy
  | _ => 0

/-- Every call keeps such a property. -/
theorem Walk.step {call : Call c} (w : Walk E call.time A W) (h : W ∅ s)
    (hcredit : ∀ e lockTier migrationEpoch, A e →
      Ends E A (s.shortenExpiry call.time e lockTier migrationEpoch call.op.credit)) :
    Ends E (W ∅) (step s call) := by
  obtain ⟨b, op⟩ := call
  cases op with
  | createPosition _ _ _ lockTier migrationEpoch =>
    exact w.createPosition h _ _ _ _ _ _ fun e => hcredit e lockTier migrationEpoch
  | updateOnRedelegate => exact w.updateOnRedelegate h ..
  | createNewPositionFromExisting => exact w.createNewPositionFromExisting h ..
  | increaseRaw => exact w.increaseRaw h ..
  | decreaseRaw => exact w.decreaseRaw h ..
  | deletePosition => exact w.deletePosition h ..
  | addTier => exact w.addTier _ _ _ h
  | deactivateTier => exact w.deactivateTier _ h
  | setConvictionCreditSeconds => exact w.setCredit _ h
  | settleNodeTo i =>
    rw [Storage.step, uint40_timestamp]
    exact (w.settle i h).mono fun s' hs' => w.done hs'

end Dkg.Staking
