import Dkg.Publishing.Booking
import Dkg.Publishing.Lifecycle

/-!
Calls that the registration escrow and the wallet of the caller pay for: what they book, what
they pay to the treasury, and what they leave in the vault.
-/

namespace Dkg.Lifecycle
open Revert Function List
open Merkle (zero32)
open Sampling (World)
open Publishing (Booking STAKER_SHARD_ID bookedTo bookedTo_append bookedTo_bookingsOf bookingsOf
  tenSeconds)

variable {c : Chronos} {vault : ℕ} {env : Env c vault} {s s' t : State} {bs bs' : List Booking}
  {amount fee net epochs cur cg lo hi : ℕ}

section Ledger

/-- What the vault holds beyond the bookings for the stakers and the registration escrows. -/
def surplus (vault : ℕ) (s : State) : ℤ :=
  s.balances vault - bookedTo STAKER_SHARD_ID s.bookings -
    ∑ i ∈ Finset.range (s.latestContextGraphId + 1), (s.registrationEscrow i : ℤ)

/-- The bookings are for the stakers, and stay within the epochs from `lo` to `hi`. -/
def Within (lo hi : ℕ) (bs : List Booking) : Prop :=
  ∀ b ∈ bs, b.shardId = STAKER_SHARD_ID ∧ lo ≤ b.startEpoch ∧ b.startEpoch ≤ b.endEpoch ∧
    b.endEpoch ≤ hi

/-- The part of the fees that comes back to the vault when it is wired as the treasury. -/
def kept (env : Env c vault) (fees : ℕ) : ℤ :=
  if env.publishing.protocolTreasury = vault then fees else 0

/-- A part of a payment: its bookings, its fees, and by how much the surplus grows. -/
structure Moves (env : Env c vault) (lo hi : ℕ) (s t : State) (bs : List Booking) (fees : ℕ)
    (gain : ℤ) : Prop where
  bookings : t.bookings = s.bookings ++ bs
  feesPaid : t.feesPaid = s.feesPaid + fees
  within : Within lo hi bs
  surplus : surplus vault t = surplus vault s + gain + kept env fees
  world : t.world = s.world
  assets : t.assets = s.assets
  viaConviction : t.viaConviction = s.viaConviction

variable {fees fees' : ℕ} {gain gain' : ℤ}

theorem within_nil : Within lo hi [] := by
  intro b hb
  cases hb

@[simp] theorem kept_zero (env : Env c vault) : kept env 0 = 0 := by
  simp [kept]

theorem kept_add (env : Env c vault) (fees fees' : ℕ) :
    kept env (fees + fees') = kept env fees + kept env fees' := by
  unfold kept
  split
  · push_cast
    ring
  · rfl

theorem Moves.refl (s : State) : Moves env lo hi s s [] 0 0 where
  bookings := (append_nil _).symm
  feesPaid := rfl
  within := within_nil
  surplus := by simp
  world := rfl
  assets := rfl
  viaConviction := rfl

theorem Moves.trans (h : Moves env lo hi s s' bs fees gain)
    (h' : Moves env lo hi s' t bs' fees' gain') :
    Moves env lo hi s t (bs ++ bs') (fees + fees') (gain + gain') where
  bookings := by rw [h'.bookings, h.bookings, append_assoc]
  feesPaid := by rw [h'.feesPaid, h.feesPaid, add_assoc]
  within := by
    intro b hb
    rcases mem_append.mp hb with hb | hb
    · exact h.within b hb
    · exact h'.within b hb
  surplus := by
    rw [h'.surplus, h.surplus, kept_add]
    ring
  world := h'.world.trans h.world
  assets := h'.assets.trans h.assets
  viaConviction := h'.viaConviction.trans h.viaConviction

end Ledger

section Parts

theorem transfer_ok {balances balances' : ℕ → ℕ} {sender receiver : ℕ}
    (h : transfer balances sender receiver amount = .ok balances') (x : ℕ) :
    (balances' x : ℤ) = balances x - (if x = sender then amount else 0) +
      if x = receiver then amount else 0 := by
  simp only [transfer, bind_eq_ok, require_eq_ok, pure_eq_ok] at h
  obtain ⟨_, hle, rfl⟩ := h
  by_cases hr : x = receiver
  · subst hr
    rw [update_self, if_pos rfl]
    by_cases hs : x = sender
    · subst hs
      rw [update_self, if_pos rfl]
      omega
    · rw [update_of_ne hs, if_neg hs]
      omega
  · rw [update_of_ne hr, if_neg hr]
    by_cases hs : x = sender
    · subst hs
      rw [update_self, if_pos rfl]
      omega
    · rw [update_of_ne hs, if_neg hs]
      omega

/-- A fee is only due while a treasury is wired. -/
theorem treasury_of_fee (h : treasuryFee env amount > 0) :
    env.publishing.protocolTreasury ≠ 0 := by
  intro hzero
  simp [treasuryFee, Publishing.treasuryBps, hzero, Publishing.feeOf] at h

theorem payTreasury_ok {payer : ℕ} (h : s.payTreasury env payer (treasuryFee env amount) = .ok t) :
    Moves env lo hi s t [] (treasuryFee env amount)
      (if payer = vault then -(treasuryFee env amount : ℤ) else 0) := by
  unfold State.payTreasury at h
  by_cases hfee : treasuryFee env amount > 0
  · rw [if_pos ⟨hfee, treasury_of_fee hfee⟩] at h
    simp only [bind_eq_ok, pure_eq_ok] at h
    obtain ⟨balances, hbalances, rfl⟩ := h
    refine ⟨(append_nil _).symm, rfl, within_nil, ?_, rfl, rfl, rfl⟩
    have hvault := transfer_ok hbalances vault
    simp only [surplus, kept]
    rw [hvault]
    simp only [eq_comm (a := vault)]
    split <;> split <;> push_cast <;> ring
  · rw [if_neg fun hpos => hfee hpos.1, Except.ok.injEq] at h
    have hzero : treasuryFee env amount = 0 := Nat.eq_zero_of_not_pos hfee
    subst h
    rw [hzero]
    simpa using Moves.refl s

theorem addTokens_ok (h : s.addTokens env amount = .ok (t, net)) :
    ∃ fees, Moves env lo hi s t [] fees net ∧ net + fees = amount := by
  simp only [State.addTokens, bind_eq_ok, require_eq_ok, Checked.sub_eq_ok, pure_eq_ok,
    Prod.mk.injEq] at h
  obtain ⟨_, _, _, _, _, ⟨hle, rfl⟩, balances, hbalances, s₁, hpay, rfl, rfl⟩ := h
  refine ⟨treasuryFee env amount, ?_, by omega⟩
  have hfirst : Moves env lo hi s { s with balances } [] 0
      (amount - treasuryFee env amount : ℕ) := by
    refine ⟨(append_nil _).symm, rfl, within_nil, ?_, rfl, rfl, rfl⟩
    have hvault := transfer_ok hbalances vault
    rw [if_neg env.sender_ne.symm, if_pos rfl] at hvault
    rw [kept_zero, surplus, surplus, hvault]
    ring
  have hsecond : Moves env lo hi _ _ _ _ _ := payTreasury_ok hpay
  rw [if_neg env.sender_ne] at hsecond
  simpa using hfirst.trans hsecond

theorem book_ok (hbs : Within lo hi bs) (h : s.book env bs = .ok t) :
    Moves env lo hi s t bs 0 (-(bookedTo STAKER_SHARD_ID bs : ℤ)) := by
  simp only [State.book, bind_eq_ok, mapError_eq_ok, pure_eq_ok] at h
  obtain ⟨epochStorage, _, rfl⟩ := h
  refine ⟨rfl, rfl, hbs, ?_, rfl, rfl, rfl⟩
  rw [kept_zero, surplus, surplus, bookedTo_append]
  push_cast
  ring

/-- A prorated amount is booked in full, from the current epoch to the last one paid for. -/
theorem distributeTokens_ok
    (h : s.distributeTokens env amount epochs cur = .ok t) :
    ∃ bs, Moves env cur (cur + epochs) s t bs 0 (-amount) ∧
      bookedTo STAKER_SHARD_ID bs = amount := by
  simp only [State.distributeTokens, bind_eq_ok] at h
  obtain ⟨ranges, hranges, h⟩ := h
  obtain ⟨hn, first, last, hsum, rfl, -⟩ := Publishing.prorateActiveSink_ok hranges
  have hbooked : bookedTo STAKER_SHARD_ID (bookingsOf STAKER_SHARD_ID
      (.anchored cur epochs first (amount / epochs) last)) = amount := by
    rw [bookedTo_bookingsOf, Publishing.anchored_sum, hsum]
  refine ⟨_, ?_, hbooked⟩
  have hwithin : Within cur (cur + epochs) (bookingsOf STAKER_SHARD_ID
      (.anchored cur epochs first (amount / epochs) last)) := by
    intro b hb
    obtain ⟨hmem, hne⟩ := Publishing.mem_bookingsOf hb
    have hstart := Publishing.anchored_startEpoch hmem hne
    exact ⟨Publishing.bookingsOf_shardId hb, hstart.1, hstart.2,
      Publishing.anchored_endEpoch hmem⟩
  have hbook := book_ok hwithin h
  rwa [hbooked] at hbook

theorem sum_decreased {escrow : ℕ → ℕ} {n i used : ℕ} (hi : i < n) (hle : used ≤ escrow i) :
    ∑ j ∈ Finset.range n, (update escrow i (escrow i - used) j : ℤ) =
      ∑ j ∈ Finset.range n, (escrow j : ℤ) - used := by
  have hmem : i ∈ Finset.range n := Finset.mem_range.mpr hi
  have hrest : ∑ j ∈ (Finset.range n).erase i, (update escrow i (escrow i - used) j : ℤ) =
      ∑ j ∈ (Finset.range n).erase i, (escrow j : ℤ) :=
    Finset.sum_congr rfl fun j hj => by rw [update_of_ne (Finset.ne_of_mem_erase hj)]
  rw [← Finset.add_sum_erase _ _ hmem, ← Finset.add_sum_erase _ _ hmem, hrest, update_self]
  omega

theorem useCgEscrow_ok {used : ℕ} (h : s.useCgEscrow env cg amount = .ok (t, used)) :
    Moves env lo hi s t [] 0 used ∧ used ≤ amount := by
  have hnone : (.ok (s, 0) : Except Err _) = .ok (t, used) →
      Moves env lo hi s t [] 0 used ∧ used ≤ amount := by
    intro h
    cases h
    exact ⟨Moves.refl s, Nat.zero_le _⟩
  unfold State.useCgEscrow at h
  split at h
  · exact hnone h
  dsimp only at h
  split at h
  · exact hnone h
  split at h
  · exact hnone h
  simp only [State.decreaseRegistrationEscrow, bind_eq_ok, require_eq_ok, Checked.sub_eq_ok,
    pure_eq_ok, Prod.mk.injEq] at h
  obtain ⟨_, ⟨_, hexists, _, ⟨hle, rfl⟩, rfl⟩, rfl, rfl⟩ := h
  refine ⟨⟨(append_nil _).symm, rfl, within_nil, ?_, rfl, rfl, rfl⟩, by split <;> omega⟩
  have hlt : cg < s.latestContextGraphId + 1 := by omega
  rw [kept_zero, surplus, surplus, sum_decreased hlt hle]
  ring

theorem consumeEscrowNet_ok {netEscrow walletCost : ℕ}
    (h : s.consumeEscrowNet env cg amount = .ok (t, netEscrow, walletCost)) :
    ∃ fees, Moves env lo hi s t [] fees netEscrow ∧ netEscrow + fees + walletCost = amount := by
  simp only [State.consumeEscrowNet, bind_eq_ok, Checked.sub_eq_ok, pure_eq_ok, Prod.exists,
    Prod.mk.injEq] at h
  obtain ⟨s₁, used, huse, s₂, net, hcharge, _, ⟨hle, rfl⟩, rfl, rfl, rfl⟩ := h
  obtain ⟨hmoves, -⟩ : Moves env lo hi s s₁ [] 0 used ∧ used ≤ amount := useCgEscrow_ok huse
  split at hcharge
  · simp only [State.chargeEscrowTreasuryFee, bind_eq_ok, Checked.sub_eq_ok, pure_eq_ok,
      Prod.mk.injEq] at hcharge
    obtain ⟨_, ⟨hfee, rfl⟩, s₃, hpay, rfl, rfl⟩ := hcharge
    have hpaid : Moves env lo hi _ _ _ _ _ := payTreasury_ok hpay
    rw [if_pos rfl] at hpaid
    refine ⟨treasuryFee env used, ?_, by omega⟩
    have hnet : ((used - treasuryFee env used : ℕ) : ℤ) =
        used + -(treasuryFee env used : ℤ) := by omega
    rw [hnet]
    simpa only [append_nil, zero_add] using hmoves.trans hpaid
  · rw [Except.ok.injEq, Prod.mk.injEq] at hcharge
    obtain ⟨rfl, rfl⟩ := hcharge
    have hzero : used = 0 := by omega
    subst hzero
    exact ⟨0, hmoves, by omega⟩

theorem payTreasury_viaConviction {payer : ℕ} (h : s.payTreasury env payer fee = .ok t) :
    t.viaConviction = s.viaConviction := by
  unfold State.payTreasury at h
  split at h
  · simp only [bind_eq_ok, pure_eq_ok] at h
    obtain ⟨_, _, rfl⟩ := h
    rfl
  · cases h
    rfl

theorem covered_ok {covered : Bool}
    (h : s.coverViaConvictionOrFallThrough env amount epochs = .ok (t, covered)) :
    t.viaConviction = s.viaConviction + 1 ∧ covered = true ∨ t = s ∧ covered = false := by
  unfold State.coverViaConvictionOrFallThrough at h
  split at h
  · simp only [bind_eq_ok, pure_eq_ok, Prod.mk.injEq] at h
    obtain ⟨s₁, hpay, rfl, rfl⟩ := h
    have hsame := payTreasury_viaConviction hpay
    exact .inl ⟨congrArg (· + 1) hsame, rfl⟩
  · cases h
    exact .inr ⟨rfl, rfl⟩
  · cases h
    exact .inr ⟨rfl, rfl⟩
  · cases h

/-- The payment of `publish` and `update`, when no conviction account pays. -/
theorem pay_ok {lockFits : ℕ → Bool}
    (h : s.pay env cg amount epochs cur lockFits = .ok t)
    (hvia : t.viaConviction = s.viaConviction) :
    ∃ bs fees, Moves env cur (cur + epochs) s t bs fees 0 ∧
      bookedTo STAKER_SHARD_ID bs + fees = amount := by
  simp only [State.pay, bind_eq_ok, Prod.exists] at h
  obtain ⟨s₁, netEscrow, walletCost, hconsume, s₂, hescrow, h⟩ := h
  obtain ⟨fees, hmoves, hsum⟩ : ∃ fees, Moves env cur (cur + epochs) s s₁ [] fees netEscrow ∧
    netEscrow + fees + walletCost = amount := consumeEscrowNet_ok hconsume
  obtain ⟨bs, hbook, hbooked⟩ : ∃ bs, Moves env cur (cur + epochs) s₁ s₂ bs 0 (-netEscrow) ∧
      bookedTo STAKER_SHARD_ID bs = netEscrow := by
    split at hescrow
    · exact distributeTokens_ok hescrow
    · have hzero : netEscrow = 0 := by omega
      rw [Except.ok.injEq] at hescrow
      subst hescrow hzero
      exact ⟨[], Moves.refl s₁, rfl⟩
  have hpaid : Moves env cur (cur + epochs) s s₂ bs fees 0 := by
    simpa using hmoves.trans hbook
  split at h
  · rename_i hwallet
    rw [pure_eq_ok] at h
    subst h
    exact ⟨bs, fees, hpaid, by omega⟩
  simp only [bind_eq_ok, Prod.exists] at h
  obtain ⟨s₃, covered, hcover, h⟩ := h
  have hcases : s₃.viaConviction = s₂.viaConviction + 1 ∧ covered = true ∨
      s₃ = s₂ ∧ covered = false := by
    split at hcover
    · exact covered_ok hcover
    · cases hcover
      exact .inr ⟨rfl, rfl⟩
  rcases hcases with ⟨hmore, rfl⟩ | ⟨rfl, rfl⟩
  · rw [if_pos rfl, pure_eq_ok] at h
    subst h
    rw [hpaid.viaConviction] at hmore
    omega
  · rw [if_neg Bool.false_ne_true] at h
    simp only [bind_eq_ok, Prod.exists] at h
    obtain ⟨s₄, net, hadd, hdistribute⟩ := h
    obtain ⟨fees', hwallet, hnet⟩ : ∃ fees', Moves env cur (cur + epochs) s₃ s₄ [] fees' net ∧
      net + fees' = walletCost := addTokens_ok hadd
    obtain ⟨bs', hbook', hbooked'⟩ := distributeTokens_ok hdistribute
    refine ⟨bs ++ bs', fees + fees', ?_, ?_⟩
    · simpa using hpaid.trans (hwallet.trans hbook')
    · rw [bookedTo_append]
      omega

end Parts

section Calls

variable {call : Call c vault} {bs : List Booking} {fees : ℕ}

/-- What a call is to pay: its token amount, or by how much an update raises that of the asset. -/
def Call.gross (call : Call c vault) (s : State) : ℕ :=
  match call.op with
  | .publish p => p.tokenAmount
  | .update p => p.newTokenAmount - (s.assets p.id).tokenAmount
  | .extendKnowledgeAssetLifetime _ _ tokenAmount => tokenAmount

/-- The first epoch a call may book for. -/
def Call.firstEpoch (call : Call c vault) (s : State) : ℕ :=
  match call.op with
  | .publish _ => call.env.currentEpoch
  | .update _ => call.env.currentEpoch
  | .extendKnowledgeAssetLifetime id _ _ => s.world.graphs.endEpoch id + 1

/-- The last epoch a call may book for: the end of the asset in the state after the call. -/
def Call.lastEpoch (call : Call c vault) (t : State) : ℕ :=
  match call.op with
  | .publish p => t.world.graphs.endEpoch p.reservedKaId
  | .update p => t.world.graphs.endEpoch p.id
  | .extendKnowledgeAssetLifetime id _ _ => t.world.graphs.endEpoch id

/-- A call books for the stakers what it does not pay as fees, and leaves the surplus of the
vault as it was, up to fees paid to the vault itself. -/
def Spent (call : Call c vault) (s t : State) (bs : List Booking) (fees : ℕ) : Prop :=
  t.bookings = s.bookings ++ bs ∧ t.feesPaid = s.feesPaid + fees ∧
    bookedTo STAKER_SHARD_ID bs + fees = call.gross s ∧
    Within (call.firstEpoch s) (call.lastEpoch t) bs ∧
    surplus vault t = surplus vault s + kept call.env fees

theorem writeValue_graphs {w w' : World} {start lifetime value : ℕ}
    (h : writeValue env w cg start lifetime value = .ok w') : w'.graphs = w.graphs := by
  simp only [writeValue, World.settle, bind_eq_ok, mapError_eq_ok, pure_eq_ok] at h
  obtain ⟨_, _, _, _, _, _, _, _, rfl⟩ := h
  rfl

/-- A step that touches only what the sampling and the assets are about moves nothing. -/
theorem surplus_world (s : State) (assets : ℕ → Asset) (world : World) :
    surplus vault { s with assets, world } = surplus vault s := rfl

theorem executePublishCore_ok {p : PublishParams}
    (h : s.executePublishCore env p = .ok (t, cur)) :
    (∃ assets world, t = { s with assets, world }) ∧ cur = env.currentEpoch ∧
      t.world.graphs.endEpoch p.reservedKaId = cur + p.epochs := by
  simp only [State.executePublishCore, bind_eq_ok, require_eq_ok, Checked.add_eq_ok, pure_eq_ok,
    Prod.mk.injEq] at h
  obtain ⟨_, _, _, _, _, _, _, _, _, _, _, _, _, _, _, _, _, _, endEpoch, ⟨_, rfl⟩, _, _, _, _, _,
    _, _, _, world, hworld, rfl, rfl⟩ := h
  refine ⟨⟨_, _, rfl⟩, Publishing.uint40_currentEpoch env.publishing, ?_⟩
  show world.graphs.endEpoch p.reservedKaId = _
  rw [writeValue_graphs hworld]
  exact update_self ..

theorem publish_ok {p : PublishParams} (h : s.publish env p = .ok t)
    (hvia : t.viaConviction = s.viaConviction) :
    ∃ bs fees, Spent ⟨env, .publish p⟩ s t bs fees := by
  simp only [State.publish, bind_eq_ok, Prod.exists] at h
  obtain ⟨s₁, cur, hcore, hpay⟩ := h
  obtain ⟨⟨assets, world, rfl⟩, rfl, hend⟩ := executePublishCore_ok hcore
  obtain ⟨bs, fees, hmoves, hsum⟩ := pay_ok hpay hvia
  refine ⟨bs, fees, hmoves.bookings, hmoves.feesPaid, hsum, ?_, ?_⟩
  · show Within env.currentEpoch (t.world.graphs.endEpoch p.reservedKaId) bs
    rw [hmoves.world, hend]
    exact hmoves.within
  · rw [hmoves.surplus, surplus_world, add_zero]

theorem refreshCatalog_endEpoch {p : UpdateParams} {g g' : Sampling.Graphs} {delta : ℕ}
    (h : p.refreshCatalog g cg delta = .ok g') : g'.endEpoch = g.endEpoch := by
  unfold UpdateParams.refreshCatalog at h
  dsimp only at h
  split at h
  · split at h
    · simp only [bind_eq_ok, pure_eq_ok] at h
      obtain ⟨_, _, rfl⟩ := h
      rfl
    · simp only [bind_eq_ok, pure_eq_ok] at h
      obtain ⟨_, _, _, _, rfl⟩ := h
      rfl
  · simp only [bind_eq_ok, pure_eq_ok] at h
    obtain ⟨_, _, _, _, rfl⟩ := h
    rfl

theorem executeUpdateCore_ok {p : UpdateParams} {delta : ℕ}
    (h : s.executeUpdateCore env p = .ok (t, delta, epochs, cur)) :
    (∃ assets world, t = { s with assets, world }) ∧ cur = env.currentEpoch ∧
      delta = p.newTokenAmount - (s.assets p.id).tokenAmount ∧
      t.world.graphs.endEpoch p.id = cur + epochs := by
  simp only [State.executeUpdateCore, bind_eq_ok, require_eq_ok, pure_eq_ok, Prod.mk.injEq] at h
  obtain ⟨_, _, _, hlive, _, _, _, _, _, _, _, _, _, _, _, _, _, _, _, _, _, _, graphs, hgraphs,
    world, hworld, rfl, rfl, rfl, rfl⟩ := h
  refine ⟨⟨_, _, rfl⟩, Publishing.uint40_currentEpoch env.publishing, rfl, ?_⟩
  have hkept : world.graphs = graphs := by
    split at hworld
    · simp only [bind_eq_ok] at hworld
      obtain ⟨_, _, hworld⟩ := hworld
      rw [writeValue_graphs hworld]
    · cases hworld
      rfl
  show world.graphs.endEpoch p.id = _
  rw [hkept, refreshCatalog_endEpoch hgraphs]
  dsimp only
  omega

theorem update_ok {p : UpdateParams} (h : s.update env p = .ok t)
    (hvia : t.viaConviction = s.viaConviction) :
    ∃ bs fees, Spent ⟨env, .update p⟩ s t bs fees := by
  simp only [State.update, bind_eq_ok, Prod.exists] at h
  obtain ⟨s₁, delta, epochs, cur, hcore, hpay⟩ := h
  obtain ⟨⟨assets, world, rfl⟩, rfl, hdelta, hend⟩ := executeUpdateCore_ok hcore
  split_ifs at hpay with hzero
  · rw [pure_eq_ok] at hpay
    subst hpay
    refine ⟨[], 0, (append_nil _).symm, rfl, ?_, within_nil, ?_⟩
    · exact hzero.symm.trans hdelta
    · rw [kept_zero, surplus_world, add_zero]
  · obtain ⟨bs, fees, hmoves, hsum⟩ := pay_ok hpay hvia
    refine ⟨bs, fees, hmoves.bookings, hmoves.feesPaid, hsum.trans hdelta, ?_, ?_⟩
    · show Within env.currentEpoch (t.world.graphs.endEpoch p.id) bs
      rw [hmoves.world, hend]
      exact hmoves.within
    · rw [hmoves.surplus, surplus_world, add_zero]

/-- The two bookings of an extension. -/
theorem bookExtension_ok {first last : ℕ} (hle : first ≤ last)
    (h : s.book env [⟨⟨first, last, amount⟩, STAKER_SHARD_ID⟩] = .ok t) :
    Moves env first last s t [⟨⟨first, last, amount⟩, STAKER_SHARD_ID⟩] 0 (-amount) := by
  have hwithin : Within first last [⟨⟨first, last, amount⟩, STAKER_SHARD_ID⟩] := by
    intro b hb
    rw [mem_singleton] at hb
    subst hb
    exact ⟨rfl, le_refl _, hle, le_refl _⟩
  simpa [bookedTo] using book_ok hwithin h

/-- An optional booking of what the escrow left over. -/
theorem bookEscrow_ok {first last : ℕ} (hle : first ≤ last)
    (h : (if amount > 0 then s.book env [⟨⟨first, last, amount⟩, STAKER_SHARD_ID⟩] else .ok s) =
      .ok t) :
    ∃ bs, Moves env first last s t bs 0 (-amount) ∧ bookedTo STAKER_SHARD_ID bs = amount := by
  split at h
  · exact ⟨_, bookExtension_ok hle h, by simp [bookedTo]⟩
  · cases h
    have hzero : amount = 0 := by omega
    subst hzero
    exact ⟨[], Moves.refl s, rfl⟩

theorem bookWallet_ok {first last : ℕ} (hle : first ≤ last)
    (h : (if amount > 0 then do
        let (s, net) ← s.addTokens env amount
        s.book env [⟨⟨first, last, net⟩, STAKER_SHARD_ID⟩]
      else .ok s) = .ok t) :
    ∃ bs fees, Moves env first last s t bs fees 0 ∧
      bookedTo STAKER_SHARD_ID bs + fees = amount := by
  split at h
  · simp only [bind_eq_ok, Prod.exists] at h
    obtain ⟨s₁, net, hadd, hbook⟩ := h
    obtain ⟨fees, hwallet, hnet⟩ : ∃ fees, Moves env first last s s₁ [] fees net ∧
      net + fees = amount := addTokens_ok hadd
    refine ⟨[⟨⟨first, last, net⟩, STAKER_SHARD_ID⟩], fees, ?_, ?_⟩
    · simpa using hwallet.trans (bookExtension_ok hle hbook)
    · simpa [bookedTo] using hnet
  · cases h
    exact ⟨[], 0, Moves.refl s, by simp [bookedTo]; omega⟩

theorem extendKnowledgeAssetLifetime_ok {id : ℕ}
    (h : s.extendKnowledgeAssetLifetime env id epochs amount = .ok t) :
    ∃ bs fees, Spent ⟨env, .extendKnowledgeAssetLifetime id epochs amount⟩ s t bs fees := by
  simp only [State.extendKnowledgeAssetLifetime, bind_eq_ok, require_eq_ok, Checked.add_eq_ok,
    Prod.exists] at h
  obtain ⟨_, _, _, hepochs, _, ⟨_, rfl⟩, _, ⟨_, rfl⟩, _, _, s₁, netEscrow, walletCost, hconsume,
    s₂, hescrow, s₃, hwallet, h⟩ := h
  have hle : s.world.graphs.endEpoch id + 1 ≤ s.world.graphs.endEpoch id + epochs := by omega
  obtain ⟨fees, hmoves, hsum⟩ : ∃ fees, Moves env (s.world.graphs.endEpoch id + 1)
      (s.world.graphs.endEpoch id + epochs) _ s₁ [] fees netEscrow ∧
    netEscrow + fees + walletCost = amount := consumeEscrowNet_ok hconsume
  obtain ⟨bs, hbook, hbooked⟩ := bookEscrow_ok hle hescrow
  obtain ⟨bs', fees', hbook', hbooked'⟩ := bookWallet_ok hle hwallet
  have hpaid := hmoves.trans (hbook.trans hbook')
  simp only [nil_append, zero_add, add_zero, add_neg_cancel] at hpaid
  have hlast : t = { s₃ with world := t.world } ∧
      t.world.graphs.endEpoch id = s.world.graphs.endEpoch id + epochs := by
    have hend : s₃.world.graphs.endEpoch id = s.world.graphs.endEpoch id + epochs := by
      rw [hpaid.world]
      exact update_self ..
    split at h
    · simp only [bind_eq_ok, pure_eq_ok] at h
      obtain ⟨_, _, world, hworld, rfl⟩ := h
      exact ⟨rfl, by rw [writeValue_graphs hworld, hend]⟩
    · rw [pure_eq_ok] at h
      subst h
      exact ⟨rfl, hend⟩
  obtain ⟨hrest, hend⟩ := hlast
  refine ⟨bs ++ bs', fees + fees', ?_, ?_, ?_, ?_, ?_⟩
  · rw [hrest]
    exact hpaid.bookings
  · rw [hrest]
    exact hpaid.feesPaid
  · rw [bookedTo_append]
    show _ = amount
    omega
  · show Within _ (t.world.graphs.endEpoch id) _
    rw [hend]
    exact hpaid.within
  · rw [hrest, surplus_world, hpaid.surplus, surplus_world, add_zero]

/-- A call that no conviction account pays for. -/
def Direct (s : State) (call : Call c vault) : Prop :=
  (exec step s call).viaConviction = s.viaConviction

instance (s : State) (call : Call c vault) : Decidable (Direct s call) :=
  inferInstanceAs (Decidable (_ = _))

theorem step_spent (hdirect : Direct s call) (h : step s call = .ok t) :
    ∃ bs fees, Spent call s t bs fees := by
  rw [Direct, exec_ok h] at hdirect
  obtain ⟨env, op⟩ := call
  cases op with
  | publish p => exact publish_ok h hdirect
  | update p => exact update_ok h hdirect
  | extendKnowledgeAssetLifetime id epochs tokenAmount => exact extendKnowledgeAssetLifetime_ok h

end Calls

section Runs

variable {calls : List (Call c vault)}

theorem run_surplus (hdirect : Along step Direct s calls)
    (hwired : ∀ call ∈ calls, call.env.publishing.protocolTreasury ≠ vault) :
    surplus vault (run step s calls) = surplus vault s := by
  induction calls generalizing s with
  | nil => rfl
  | cons call calls ih =>
    obtain ⟨hfirst, hrest⟩ := hdirect
    rw [run_cons, ih hrest fun a ha => hwired a (mem_cons_of_mem _ ha)]
    rcases exec_cases step s call with ⟨t, hok, hexec⟩ | ⟨-, hexec⟩
    · obtain ⟨bs, fees, -, -, -, -, hsurplus⟩ := step_spent hfirst hok
      have hkept : kept call.env fees = 0 := if_neg (hwired call mem_cons_self)
      rw [hexec, hsurplus, hkept, add_zero]
    · rw [hexec]

/-- Along calls that the escrow and the wallets pay for, each call books for the stakers what
it does not pay as fees, in the epochs it pays for. Unless the vault is wired as the treasury,
what it holds beyond the bookings and the escrows stays the same. -/
theorem run_direct_spend (hdirect : Along step Direct s calls) :
    (∀ before call after t, calls = before ++ call :: after →
      step (run step s before) call = .ok t →
      ∃ bs fees, Spent call (run step s before) t bs fees) ∧
    ((∀ call ∈ calls, call.env.publishing.protocolTreasury ≠ vault) →
      surplus vault (run step s calls) = surplus vault s) := by
  refine ⟨?_, run_surplus hdirect⟩
  rintro before call after t rfl hok
  exact step_spent (along_append.mp hdirect).2.1 hok

/-- A call by address 5, the owner of every graph, with a fee of a tenth. -/
def envAt (treasury timestamp : ℕ) : Env tenSeconds 8 where
  publishing :=
    { Publishing.envAt timestamp with
      protocolTreasury := treasury
      protocolTreasuryFee := 1000
      protocolTreasuryFee_le := by decide
      agentToAccountId := fun _ => 0 }
  protocolTreasuryFee_le := le_refl 1000
  sender := 5
  sender_ne := by decide
  allowance := 1000
  authorAttested := true
  acknowledged := true
  authorizedPublisher := fun _ => true
  contextGraphOwner := fun _ => 5
  stakeWeightedAverageAsk := 0

/-- One active public graph with an escrow of 40, held by the vault at address 8. -/
def oneGraph : State where
  publishing := Publishing.State.empty
  world := Sampling.World.deployed 2
    { active := fun _ => true
      isCurated := fun _ => false
      samplingKAList := fun _ => []
      endEpoch := fun _ => 0
      merkleLeafCount := fun _ => 0
      catalogLeafCount := fun _ => 0
      latestMerkleRoot := fun _ => zero32
      catalogRoot := fun _ => zero32 }
  assets := fun _ => ⟨0, 0, 0, false, 0⟩
  latestContextGraphId := 1
  registrationEscrow := fun cg => if cg = 1 then 40 else 0
  balances := fun x => if x = 8 then 40 else if x = 5 then 1000 else 0
  bookings := []
  feesPaid := 0
  viaConviction := 0

def firstAsset : PublishParams where
  contextGraphId := 1
  merkleRoot := zero32
  knowledgeAssetsAmount := 1
  byteSize := 10
  epochs := 2
  tokenAmount := 100
  isImmutable := false
  merkleLeafCount := 1
  catalogRoot := zero32
  catalogLeafCount := 0
  authorAddress := 1
  reservedKaId := 2 ^ 96 + 7

/-- The asset is published, raised by 30 and extended by one epoch. -/
def threeCalls (treasury : ℕ) : List (Call tenSeconds 8) :=
  [⟨envAt treasury 5, .publish firstAsset⟩, ⟨envAt treasury 12, .update
      { id := 2 ^ 96 + 7
        newMerkleRoot := zero32
        newByteSize := 10
        newTokenAmount := 130
        newMerkleLeafCount := 1
        mintKnowledgeAssetsAmount := 0
        knowledgeAssetsToBurn := []
        newCatalogRoot := zero32
        newCatalogLeafCount := 0
        authorAddress := 1 }⟩,
    ⟨envAt treasury 15, .extendKnowledgeAssetLifetime (2 ^ 96 + 7) 1 50⟩]

theorem vault_as_treasury_gains :
    Along step Direct oneGraph (threeCalls 8) ∧ surplus 8 oneGraph = 0 ∧
      surplus 8 (run step oneGraph (threeCalls 8)) = 18 := by
  decide +kernel

theorem run_direct_spend_threeCalls :
    surplus 8 (run step oneGraph (threeCalls 9)) = surplus 8 oneGraph ∧
      (run step oneGraph (threeCalls 9)).feesPaid = 18 ∧
      bookedTo STAKER_SHARD_ID (run step oneGraph (threeCalls 9)).bookings = 162 := by
  have hdirect : Along step Direct oneGraph (threeCalls 9) := by decide +kernel
  exact ⟨(run_direct_spend hdirect).2 (by decide +kernel), by decide +kernel, by decide +kernel⟩

end Runs

end Dkg.Lifecycle
