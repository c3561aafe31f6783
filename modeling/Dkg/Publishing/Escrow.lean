import Dkg.Publishing.System

namespace Dkg.Publishing
open Revert Function List

/-- What a list of calls books to a shard. -/
def bookedTo (shardId : ℕ) (bookings : List Booking) : ℕ :=
  ((bookings.filter (·.shardId = shardId)).map (·.tokenAmount)).sum

/-- What a list of calls books to the two shards of the contract. -/
def booked (bookings : List Booking) : ℕ :=
  bookedTo STAKER_SHARD_ID bookings + bookedTo TREASURY_SHARD_ID bookings

/-- The budget not yet booked: the unused part of the open windows and the dust. -/
def Ledger.unbooked (l : Ledger) : ℕ :=
  ∑ w ∈ Finset.Ico l.account.lastSettledWindow l.account.lockDurationEpochs,
    (l.account.baseAllowance - l.windowSpent w) +
  if l.account.lastSettledWindow < l.account.lockDurationEpochs then
    l.account.committedTRAC % l.account.lockDurationEpochs else 0

/-- The ledger with the booking cursor at `w`. -/
def Ledger.settledTo (l : Ledger) (w : ℕ) : Ledger :=
  { l with account := { l.account with lastSettledWindow := w } }

/-- What an operation takes out of the escrow. -/
def Effects.out (e : Effects) : ℕ := booked e.bookings + e.fee + e.serviceCost

variable {c : Chronos} {env : Env c} {l l' : Ledger} {bs bs' : List Booking} {eff : Effects}
  {shardId amount w n cost window id : ℕ}

theorem bookedTo_append : bookedTo shardId (bs ++ bs') = bookedTo shardId bs + bookedTo shardId bs' := by
  simp [bookedTo]

@[simp] theorem booked_nil : booked [] = 0 := rfl

theorem booked_of_nil (h : (.ok [] : Except Err _) = .ok bs) : booked bs = 0 := by
  cases h
  rfl

theorem booked_append : booked (bs ++ bs') = booked bs + booked bs' := by
  simp only [booked, bookedTo_append]
  omega

theorem bookedTo_of_ne (h : ∀ b ∈ bs, b.shardId ≠ shardId) : bookedTo shardId bs = 0 := by
  have hnil : bs.filter (·.shardId = shardId) = [] := by
    rw [filter_eq_nil_iff]
    intro b hb
    simpa using h b hb
  simp [bookedTo, hnil]

theorem sum_filter_ne_zero (rs : List ActiveSinkRange) :
    ((rs.filter (·.tokenAmount ≠ 0)).map (·.tokenAmount)).sum = (rs.map (·.tokenAmount)).sum := by
  induction rs with
  | nil => rfl
  | cons r rs ih =>
    by_cases h : r.tokenAmount = 0
    · simpa [h] using ih
    · simpa [h] using ih

theorem bookedTo_bookingsOf (shardId : ℕ) (r : Ranges) :
    bookedTo shardId (bookingsOf shardId r) = (r.toList.map (·.tokenAmount)).sum := by
  have hall : (bookingsOf shardId r).filter (·.shardId = shardId) = bookingsOf shardId r := by
    rw [filter_eq_self]
    intro b hb
    obtain ⟨x, _, rfl⟩ := mem_map.mp hb
    simp
  rw [bookedTo, hall, bookingsOf, map_map, ← sum_filter_ne_zero]
  rfl

theorem bookingsOf_shardId {r : Ranges} {b : Booking} (hb : b ∈ bookingsOf shardId r) :
    b.shardId = shardId := by
  obtain ⟨x, _, rfl⟩ := mem_map.mp hb
  rfl

/-- A booking to one of the two shards books its ranges' total. -/
theorem booked_bookingsOf (hs : shardId = STAKER_SHARD_ID ∨ shardId = TREASURY_SHARD_ID)
    (r : Ranges) : booked (bookingsOf shardId r) = (r.toList.map (·.tokenAmount)).sum := by
  have hother : ∀ s ≠ shardId, bookedTo s (bookingsOf shardId r) = 0 := by
    intro s hne
    refine bookedTo_of_ne fun b hb => ?_
    rw [bookingsOf_shardId hb]
    exact hne.symm
  rcases hs with rfl | rfl
  · rw [booked, bookedTo_bookingsOf, hother TREASURY_SHARD_ID (by decide), add_zero]
  · rw [booked, bookedTo_bookingsOf, hother STAKER_SHARD_ID (by decide), zero_add]

theorem emitForwardFrom_booked {fromTs lockEpochs cur : ℕ}
    (hs : shardId = STAKER_SHARD_ID ∨ shardId = TREASURY_SHARD_ID)
    (h : emitForwardFrom c shardId fromTs amount lockEpochs cur = .ok bs) : booked bs = amount := by
  simp only [emitForwardFrom, bind_eq_ok, pure_eq_ok] at h
  obtain ⟨r, hr, rfl⟩ := h
  obtain ⟨-, first, last, hsum, rfl, -⟩ := prorateActiveSink_ok hr
  rw [booked_bookingsOf hs, anchored_sum, hsum]

theorem emitSide_booked
    (hs : shardId = STAKER_SHARD_ID ∨ shardId = TREASURY_SHARD_ID)
    (h : emitSide env l shardId w amount = .ok bs) : booked bs = amount := by
  unfold emitSide at h
  split at h
  · exact emitForwardFrom_booked hs h
  · rw [booked_of_nil h]
    omega

/-- A closed window books its whole remainder, fee and net. -/
theorem bookWindow_booked (h : bookWindow env l w = .ok bs) : booked bs = l.remainder w := by
  unfold bookWindow at h
  dsimp only at h
  split at h
  · rw [booked_of_nil h]
    omega
  · simp only [bind_eq_ok, Checked.sub_eq_ok, pure_eq_ok] at h
    obtain ⟨net, ⟨hle, rfl⟩, stakers, hst, treasury, htr, rfl⟩ := h
    rw [booked_append, emitSide_booked (.inl rfl) hst, emitSide_booked (.inr rfl) htr]
    omega

theorem bookLoop_booked (h : bookLoop env l n w = .ok bs) :
    booked bs = ∑ i ∈ Finset.Ico w (w + n), l.remainder i := by
  induction n generalizing w bs with
  | zero =>
    simp only [bookLoop, Except.ok.injEq] at h
    simp [← h]
  | succ n ih =>
    simp only [bookLoop, bind_eq_ok, pure_eq_ok] at h
    obtain ⟨now, hnow, rest, hrest, rfl⟩ := h
    rw [booked_append, bookWindow_booked hnow, ih hrest, show w + 1 + n = w + (n + 1) by omega,
      ← Finset.sum_eq_sum_Ico_succ_bot (show w < w + (n + 1) by omega)]

theorem remainder_eq (l : Ledger) (w : ℕ) :
    l.remainder w = l.account.baseAllowance - l.windowSpent w +
      if w = l.account.lockDurationEpochs - 1 then
        l.account.committedTRAC % l.account.lockDurationEpochs else 0 := by
  have hdust : l.account.dust = l.account.committedTRAC % l.account.lockDurationEpochs := by
    have := Nat.div_add_mod' l.account.committedTRAC l.account.lockDurationEpochs
    unfold Account.dust Account.baseAllowance
    omega
  unfold Ledger.remainder
  dsimp only
  rw [hdust]
  split <;> split <;> omega

theorem unbooked_settledTo (l : Ledger) (b : ℕ) : (l.settledTo b).unbooked =
    ∑ w ∈ Finset.Ico b l.account.lockDurationEpochs, (l.account.baseAllowance - l.windowSpent w) +
    if b < l.account.lockDurationEpochs then
      l.account.committedTRAC % l.account.lockDurationEpochs else 0 := rfl

/-- Booking the windows up to `b` takes their remainders out of the unbooked budget. -/
theorem unbooked_eq {b : ℕ} (hlt : l.account.lastSettledWindow < b)
    (hb : b ≤ l.account.lockDurationEpochs) :
    l.unbooked = ∑ w ∈ Finset.Ico l.account.lastSettledWindow b, l.remainder w +
      (l.settledTo b).unbooked := by
  have hdust : ∑ w ∈ Finset.Ico l.account.lastSettledWindow b,
      (if w = l.account.lockDurationEpochs - 1 then
        l.account.committedTRAC % l.account.lockDurationEpochs else 0) =
      if b = l.account.lockDurationEpochs then
        l.account.committedTRAC % l.account.lockDurationEpochs else 0 := by
    rw [Finset.sum_ite_eq']
    refine if_congr ?_ rfl rfl
    rw [Finset.mem_Ico]
    omega
  rw [unbooked_settledTo, Ledger.unbooked, if_pos (by omega),
    ← Finset.sum_Ico_consecutive _ hlt.le hb]
  simp only [remainder_eq, Finset.sum_add_distrib, hdust]
  by_cases h : b = l.account.lockDurationEpochs
  · rw [if_pos h, if_neg (by omega)]
    omega
  · rw [if_neg h, if_pos (by omega)]
    omega

theorem currentBillingWindow_eq (env : Env c) (a : Account) :
    currentBillingWindow env a =
      (env.block.timestamp - a.createdAtTimestamp) / c.epochLength := by
  unfold currentBillingWindow
  split
  · rw [Nat.sub_eq_zero_of_le ‹_›, Nat.zero_div]
  · have hlt := env.block.timestamp_lt
    apply uint40_of_lt
    exact lt_of_le_of_lt (Nat.div_le_self _ _) (by omega)

theorem sweepClosedWindows_eq (env : Env c) (l : Ledger) : sweepClosedWindows env l =
    bookWindows env l (min (currentBillingWindow env l.account) l.account.lockDurationEpochs) := by
  have hmin : (if currentBillingWindow env l.account < l.account.lockDurationEpochs then
      currentBillingWindow env l.account else l.account.lockDurationEpochs) =
      min (currentBillingWindow env l.account) l.account.lockDurationEpochs := by
    split <;> omega
  rw [sweepClosedWindows, hmin]

/-- The sweep moves the cursor to the current window, at most to the lock, and books
what the cursor passes. -/
theorem sweepClosedWindows_ok (h : sweepClosedWindows env l = .ok (l', bs)) :
    l' = l.settledTo (max l.account.lastSettledWindow
      (min (currentBillingWindow env l.account) l.account.lockDurationEpochs)) ∧
      booked bs + l'.unbooked = l.unbooked := by
  have hlt := l.account.lock_lt
  rw [sweepClosedWindows_eq] at h
  set b := min (currentBillingWindow env l.account) l.account.lockDurationEpochs with hb
  unfold bookWindows at h
  dsimp only at h
  split_ifs at h with hge
  · simp only [Except.ok.injEq, Prod.mk.injEq] at h
    obtain ⟨rfl, rfl⟩ := h
    rw [max_eq_left hge]
    exact ⟨rfl, by simp⟩
  · simp only [bind_eq_ok, pure_eq_ok, Prod.mk.injEq] at h
    obtain ⟨bs', hloop, rfl, rfl⟩ := h
    have hsum := bookLoop_booked hloop
    rw [show l.account.lastSettledWindow + (b - l.account.lastSettledWindow) = b by omega] at hsum
    rw [uint16_of_lt (by omega), max_eq_right (by omega), hsum]
    exact ⟨rfl, (unbooked_eq (by omega) (by omega)).symm⟩

/-- A spend comes out of the current window's budget and the top-up buffer. -/
theorem spend_ok {epoch fromWindow fromTopUp : ℕ}
    (h : spend l id cost window epoch = .ok (l', fromWindow, fromTopUp)) :
    fromWindow ≤ l.account.baseAllowance - l.windowSpent window ∧
      fromWindow + fromTopUp = cost ∧ fromTopUp ≤ l.topUpBalance ∧
      l' = { l with
        windowSpent := update l.windowSpent window (l.windowSpent window + fromWindow)
        topUpBalance := l.topUpBalance - fromTopUp } := by
  unfold spend at h
  dsimp only at h
  have hrem : (if l.windowSpent window < l.account.baseAllowance then
      l.account.baseAllowance - l.windowSpent window else 0) =
      l.account.baseAllowance - l.windowSpent window := by
    split <;> omega
  rw [hrem] at h
  split at h
  · simp only [Except.ok.injEq, Prod.mk.injEq] at h
    obtain ⟨rfl, rfl, rfl⟩ := h
    exact ⟨‹_›, rfl, Nat.zero_le _, rfl⟩
  · split at h
    · cases h
    · simp only [Except.ok.injEq, Prod.mk.injEq] at h
      obtain ⟨rfl, rfl, rfl⟩ := h
      exact ⟨le_rfl, by omega, by omega, rfl⟩

theorem spend_account {epoch : ℕ} {parts : ℕ × ℕ}
    (h : spend l id cost window epoch = .ok (l', parts)) : l'.account = l.account := by
  obtain ⟨_, _, _, rfl⟩ := spend_ok h
  rfl

theorem unbooked_spend {fromWindow : ℕ} (hlo : l.account.lastSettledWindow ≤ window)
    (hhi : window < l.account.lockDurationEpochs)
    (hle : l.windowSpent window + fromWindow ≤ l.account.baseAllowance) (topUpBalance : ℕ) :
    fromWindow + Ledger.unbooked { l with
      windowSpent := update l.windowSpent window (l.windowSpent window + fromWindow)
      topUpBalance } = l.unbooked := by
  have hmem : window ∈ Finset.Ico l.account.lastSettledWindow l.account.lockDurationEpochs :=
    Finset.mem_Ico.mpr ⟨hlo, hhi⟩
  simp only [Ledger.unbooked, ← Finset.add_sum_erase _ _ hmem, update_self]
  rw [Finset.sum_congr rfl fun i hi => by
    rw [update_of_ne (Finset.ne_of_mem_erase hi)]]
  omega

theorem paidFee_feeOf (env : Env c) (x : ℕ) :
    paidFee env (feeOf x (treasuryBps env)) = feeOf x (treasuryBps env) := by
  unfold paidFee
  split_ifs with h
  · rcases h with h | h
    · exact h.symm
    · simp [treasuryBps, feeOf, h]
  · rfl

theorem bookNet_booked {epochs : ℕ} (h : bookNet env amount epochs = .ok bs) :
    booked bs = amount := by
  unfold bookNet at h
  split at h
  · simp only [distributeProrated, bind_eq_ok, pure_eq_ok] at h
    obtain ⟨r, hr, rfl⟩ := h
    obtain ⟨-, first, last, hsum, rfl, -⟩ := prorateActiveSink_ok hr
    rw [booked_bookingsOf (.inl rfl), anchored_sum, hsum]
  · rw [booked_of_nil h]
    omega

theorem bookSpend_out {epochs : ℕ} (h : bookSpend env amount epochs = .ok eff) :
    eff.out = amount := by
  unfold bookSpend at h
  split at h
  · simp only [bind_eq_ok, Checked.sub_eq_ok, pure_eq_ok] at h
    obtain ⟨net, ⟨hle, rfl⟩, bs, hbs, rfl⟩ := h
    simp only [Effects.out, bookNet_booked hbs, paidFee_feeOf]
    omega
  · simp only [Except.ok.injEq] at h
    subst h
    simp only [Effects.out, booked_nil]
    omega

theorem finalSweep_ok (h : finalSweep env l = .ok (l', eff)) :
    l' = l.sweptOut ∧ eff.out = l.topUpBalance := by
  simp only [finalSweep, bind_eq_ok, Checked.sub_eq_ok, pure_eq_ok, Prod.mk.injEq] at h
  obtain ⟨net, ⟨hle, hnet⟩, rfl, rfl⟩ := h
  refine ⟨rfl, ?_⟩
  have hb : booked (if net > 0 then
      [⟨⟨env.block.currentEpoch, env.block.currentEpoch, net⟩, STAKER_SHARD_ID⟩] else []) = net := by
    split
    · simp [booked, bookedTo, STAKER_SHARD_ID, TREASURY_SHARD_ID]
    · rw [booked_nil]
      omega
  simp only [Effects.out, hb, paidFee_feeOf]
  omega

section Calls

/-- What an operation on an account's money does to its ledger, which it tops up by an amount:
unless all is swept, it sweeps the closed windows first. -/
inductive Pays (env : Env c) (l : Ledger) : ℕ → Ledger × Effects → Prop
  | none (hswept : l.account.fullySwept = true) : Pays env l 0 (l, ⟨[], 0, 0⟩)
  | topUp {l₁ swept} (amount : ℕ) (hlive : env.block.timestamp < l.account.expiresAtTimestamp)
      (hsweep : sweepClosedWindows env l = .ok (l₁, swept)) :
      Pays env l amount ({ l₁ with topUpBalance := l₁.topUpBalance + amount }, ⟨swept, 0, 0⟩)
  | publish {l₁ l₂ swept fromWindow fromTopUp eff} (id cost kaEpochs epoch : ℕ)
      (hlive : env.block.timestamp < l.account.expiresAtTimestamp)
      (hsweep : sweepClosedWindows env l = .ok (l₁, swept))
      (hspend : spend l₁ id cost (currentBillingWindow env l.account) epoch =
        .ok (l₂, fromWindow, fromTopUp))
      (hbook : bookSpend env
        (if l.account.lastSettledWindow ≥ l.account.lockDurationEpochs then fromTopUp else cost)
        (if l.account.lastSettledWindow ≥ l.account.lockDurationEpochs then
          l₂.account.lockDurationEpochs else kaEpochs) = .ok eff) :
      Pays env l 0 (l₂, { eff with bookings := swept ++ eff.bookings })
  | service {l₁ l₂ swept parts} (id cost epoch : ℕ)
      (hlive : env.block.timestamp < l.account.expiresAtTimestamp)
      (hsweep : sweepClosedWindows env l = .ok (l₁, swept))
      (hspend : spend l₁ id cost (currentBillingWindow env l.account) epoch = .ok (l₂, parts)) :
      Pays env l 0 (l₂, ⟨swept, 0, cost⟩)
  | settle {l₁ swept} (hopen : env.block.timestamp < l₁.account.expiresAtTimestamp)
      (hsweep : sweepClosedWindows env l = .ok (l₁, swept)) : Pays env l 0 (l₁, ⟨swept, 0, 0⟩)
  | sweep {l₁ l₂ swept eff} (hexpired : l₁.account.expiresAtTimestamp ≤ env.block.timestamp)
      (hsweep : sweepClosedWindows env l = .ok (l₁, swept))
      (hfinal : finalSweep env l₁ = .ok (l₂, eff)) :
      Pays env l 0 (l₂, { eff with bookings := swept ++ eff.bookings })

variable {p : Ledger × Effects}

theorem topUp_pays (h : topUp env l id amount = .ok p) :
    l.account.lockDurationEpochs ≠ 0 ∧ Pays env l amount p := by
  simp only [topUp, requireLive, bind_eq_ok, require_eq_ok, Checked.add_eq_ok, pure_eq_ok] at h
  obtain ⟨_, _, _, hlock, _, hlive, ⟨l₁, swept⟩, hsweep, _, ⟨_, rfl⟩, rfl⟩ := h
  exact ⟨hlock, .topUp amount hlive hsweep⟩

theorem coverPublishingCost_pays {baseCost kaEpochs : ℕ}
    (h : coverPublishingCost env l id baseCost kaEpochs = .ok p) :
    l.account.lockDurationEpochs ≠ 0 ∧ Pays env l 0 p := by
  simp only [coverPublishingCost, requireLive, bind_eq_ok, require_eq_ok, pure_eq_ok] at h
  obtain ⟨_, hlock, _, hlive, _, _, ⟨l₁, swept⟩, hsweep, ⟨l₂, _, fromTopUp⟩, hspend, eff, hbook,
    rfl⟩ := h
  exact ⟨hlock, .publish id _ kaEpochs _ hlive hsweep hspend hbook⟩

theorem coverServiceCost_pays {value : ℕ} {r : ServiceSpend}
    (h : coverServiceCost env l id value = .ok (p, r)) :
    l.account.lockDurationEpochs ≠ 0 ∧ Pays env l 0 p := by
  simp only [coverServiceCost, requireLive, bind_eq_ok, require_eq_ok, pure_eq_ok,
    Prod.mk.injEq] at h
  obtain ⟨_, _, _, _, _, hlock, _, hlive, _, _, ⟨l₁, swept⟩, hsweep, ⟨l₂, _⟩, hspend, rfl, -⟩ := h
  exact ⟨hlock, .service id _ _ hlive hsweep hspend⟩

theorem coverServiceCost_split {value : ℕ} {r : ServiceSpend}
    (h : coverServiceCost env l id value = .ok (p, r)) :
    r.cost = r.spentFromWindow + r.spentFromTopUp := by
  simp only [coverServiceCost, bind_eq_ok, pure_eq_ok, Prod.mk.injEq] at h
  obtain ⟨_, _, _, _, _, _, _, _, _, _, _, _, ⟨_, _, _⟩, hspend, -, rfl⟩ := h
  exact (spend_ok hspend).2.1.symm

theorem settle_pays (h : settle env l id = .ok p) :
    l.account.lockDurationEpochs ≠ 0 ∧ Pays env l 0 p := by
  simp only [settle, bind_eq_ok, require_eq_ok] at h
  obtain ⟨_, hlock, h⟩ := h
  refine ⟨hlock, ?_⟩
  split at h
  · obtain rfl := pure_eq_ok.mp h
    exact .none ‹_›
  · simp only [bind_eq_ok] at h
    obtain ⟨⟨l₁, swept⟩, hsweep, h⟩ := h
    split at h
    · simp only [bind_eq_ok, pure_eq_ok] at h
      obtain ⟨⟨l₂, eff⟩, hfinal, rfl⟩ := h
      exact .sweep ‹_› hsweep hfinal
    · obtain rfl := pure_eq_ok.mp h
      exact .settle (not_le.mp ‹_›) hsweep

/-- What the designations, the operations on money and the pools preserve, every call
preserves. -/
theorem step_induction {call : Call c} {s t : State} (P : State → Prop)
    (hcreate : ∀ s id committed node p t, P s →
      createAccount call.env (s.ledgers id) id committed node = .ok p →
      s.designate id p = .ok t → P t)
    (hchange : ∀ s id newNode p t, P s →
      setPrimaryNode call.env (s.ledgers id) id newNode = .ok p → s.designate id p = .ok t → P t)
    (hcommit : ∀ s id toppedUp p t, P s → (s.ledgers id).account.lockDurationEpochs ≠ 0 →
      Pays call.env (s.ledgers id) toppedUp p → s.commit call.env id toppedUp p = .ok t → P t)
    (hpools : ∀ s es, P s →
      es.nodesEpochPublishingAllocation = s.epochStorage.nodesEpochPublishingAllocation →
      es.epochPublishingAllocation = s.epochStorage.epochPublishingAllocation →
      P { s with epochStorage := es })
    (hs : P s) (h : step s call = .ok t) : P t := by
  have hsettle : ∀ s id t, P s → settleAccount call.env s id = .ok t → P t := by
    intro s id t hs h
    simp only [settleAccount, bind_eq_ok] at h
    obtain ⟨p, hp, h⟩ := h
    obtain ⟨hlock, hpays⟩ := settle_pays hp
    exact hcommit s id 0 p t hs hlock hpays h
  rcases call with ⟨env, op⟩
  cases op with
  | createAccount id committed node =>
    simp only [step, bind_eq_ok] at h
    obtain ⟨p, hp, h⟩ := h
    exact hcreate s id committed node p t hs hp h
  | setPrimaryNode id newNode =>
    simp only [step, bind_eq_ok] at h
    obtain ⟨p, hp, h⟩ := h
    exact hchange s id newNode p t hs hp h
  | topUp id amount =>
    simp only [step, bind_eq_ok] at h
    obtain ⟨p, hp, h⟩ := h
    obtain ⟨hlock, hpays⟩ := topUp_pays hp
    exact hcommit s id amount p t hs hlock hpays h
  | coverPublishingCost agent baseCost kaEpochs =>
    simp only [step, bind_eq_ok] at h
    obtain ⟨_, _, p, hp, h⟩ := h
    obtain ⟨hlock, hpays⟩ := coverPublishingCost_pays hp
    exact hcommit s _ 0 p t hs hlock hpays h
  | coverServiceCost id value =>
    simp only [step, bind_eq_ok] at h
    obtain ⟨⟨p, _⟩, hp, h⟩ := h
    obtain ⟨hlock, hpays⟩ := coverServiceCost_pays hp
    exact hcommit s id 0 p t hs hlock hpays h
  | settle id => exact hsettle s id t hs h
  | settleMany ids => exact foldlM_invariant P (fun x i y hx hy => hsettle x i y hx hy) hs h
  | onTransfer id => exact hsettle s id t hs h
  | addTokensToEpochRange shardId startEpoch endEpoch tokenAmount =>
    simp only [step, mapError_eq_ok, EpochStorage.addTokensToEpochRange, bind_eq_ok,
      pure_eq_ok] at h
    obtain ⟨_, ⟨_, _, rfl⟩, rfl⟩ := h
    exact hpools s _ hs rfl rfl
  | payOutEpochTokens shardId epoch identityId amount =>
    simp only [step, mapError_eq_ok, EpochStorage.payOutEpochTokens, bind_eq_ok, pure_eq_ok] at h
    obtain ⟨_, ⟨_, _, _, _, _, _, rfl⟩, rfl⟩ := h
    exact hpools s _ hs rfl rfl

end Calls

/-- What holds of the ledger of an account in use, at time `now`. -/
structure LedgerInv (c : Chronos) (now : ℕ) (l : Ledger) : Prop where
  lock_pos : 0 < l.account.lockDurationEpochs
  spent_le : ∀ w, l.windowSpent w ≤ l.account.baseAllowance
  settled_le : l.account.lastSettledWindow ≤ l.account.lockDurationEpochs
  settled_time : l.account.createdAtTimestamp + l.account.lastSettledWindow * c.epochLength ≤ now
  expires_eq : l.account.expiresAtTimestamp =
    l.account.createdAtTimestamp + l.account.lockDurationEpochs * c.epochLength
  swept : l.account.fullySwept = true →
    l.account.lastSettledWindow = l.account.lockDurationEpochs ∧ l.topUpBalance = 0

/-- An operation that moves `toppedUp` into the escrow and its effects out of it. -/
structure Moves (c : Chronos) (now toppedUp : ℕ) (l l' : Ledger) (eff : Effects) : Prop where
  inv : LedgerInv c now l'
  committed : l'.account.committedTRAC = l.account.committedTRAC
  lock : l'.account.lockDurationEpochs = l.account.lockDurationEpochs
  expires : l'.account.expiresAtTimestamp = l.account.expiresAtTimestamp
  balance : eff.out + l'.topUpBalance + l'.unbooked = l.topUpBalance + l.unbooked + toppedUp
  settled_mono : l.account.lastSettledWindow ≤ l'.account.lastSettledWindow
  final : ∀ w < l.account.lastSettledWindow, l'.windowSpent w = l.windowSpent w
  swept_mono : l.account.fullySwept = true → l'.account.fullySwept = true

section Operations
variable (hinv : LedgerInv c env.block.timestamp l)
include hinv

theorem settled_le_window :
    l.account.lastSettledWindow ≤ currentBillingWindow env l.account := by
  rw [currentBillingWindow_eq, Nat.le_div_iff_mul_le c.epochLength_pos]
  have := hinv.settled_time
  omega

theorem window_lt_lock (hlive : env.block.timestamp < l.account.expiresAtTimestamp) :
    currentBillingWindow env l.account < l.account.lockDurationEpochs := by
  rw [currentBillingWindow_eq, Nat.div_lt_iff_lt_mul c.epochLength_pos]
  have := hinv.expires_eq
  have := hinv.settled_time
  omega

theorem lock_le_window (hexp : l.account.expiresAtTimestamp ≤ env.block.timestamp) :
    l.account.lockDurationEpochs ≤ currentBillingWindow env l.account := by
  rw [currentBillingWindow_eq, Nat.le_div_iff_mul_le c.epochLength_pos]
  have := hinv.expires_eq
  omega

/-- Where the sweep leaves the ledger. -/
theorem sweepClosedWindows_inv (h : sweepClosedWindows env l = .ok (l', bs)) :
    l' = l.settledTo (min (currentBillingWindow env l.account) l.account.lockDurationEpochs) ∧
      LedgerInv c env.block.timestamp l' ∧ booked bs + l'.unbooked = l.unbooked := by
  obtain ⟨rfl, hsum⟩ := sweepClosedWindows_ok h
  have hle := settled_le_window hinv
  have hmax : max l.account.lastSettledWindow
      (min (currentBillingWindow env l.account) l.account.lockDurationEpochs) =
      min (currentBillingWindow env l.account) l.account.lockDurationEpochs := by
    have := hinv.settled_le
    omega
  rw [hmax] at hsum ⊢
  refine ⟨rfl, ⟨hinv.lock_pos, hinv.spent_le, Nat.min_le_right _ _, ?_, hinv.expires_eq, ?_⟩, hsum⟩
  · have hw : min (currentBillingWindow env l.account) l.account.lockDurationEpochs *
        c.epochLength ≤ currentBillingWindow env l.account * c.epochLength :=
      Nat.mul_le_mul_right _ (Nat.min_le_left _ _)
    have hdiv := Nat.div_mul_le_self
      (env.block.timestamp - l.account.createdAtTimestamp) c.epochLength
    rw [← currentBillingWindow_eq env l.account] at hdiv
    have := hinv.settled_time
    simp only [Ledger.settledTo]
    omega
  · intro hswept
    obtain ⟨hlast, htop⟩ := hinv.swept hswept
    refine ⟨?_, htop⟩
    simp only [Ledger.settledTo]
    omega

theorem sweep_moves (h : sweepClosedWindows env l = .ok (l', bs)) :
    Moves c env.block.timestamp 0 l l' ⟨bs, 0, 0⟩ := by
  obtain ⟨rfl, hinv', hsum⟩ := sweepClosedWindows_inv hinv h
  have hle := settled_le_window hinv
  have hle' := hinv.settled_le
  refine ⟨hinv', rfl, rfl, rfl, ?_, ?_, fun _ _ => rfl, fun h => h⟩
  · have htop : (l.settledTo (min (currentBillingWindow env l.account)
        l.account.lockDurationEpochs)).topUpBalance = l.topUpBalance := rfl
    simp only [Effects.out]
    omega
  · simp only [Ledger.settledTo]
    omega

/-- A spend of a live account: the sweep leaves the cursor at the current window, so the
window spent from is neither booked nor past the lock. -/
theorem sweep_spend_moves {swept : List Booking} {l₁ l₂ : Ledger} {epoch : ℕ} {parts : ℕ × ℕ}
    (hlive : env.block.timestamp < l.account.expiresAtTimestamp)
    (hsweep : sweepClosedWindows env l = .ok (l₁, swept))
    (hspend : spend l₁ id cost (currentBillingWindow env l.account) epoch = .ok (l₂, parts))
    (hout : eff.out = booked swept + cost) :
    Moves c env.block.timestamp 0 l l₂ eff := by
  obtain ⟨hl₁, hinv₁, hsum⟩ := sweepClosedWindows_inv hinv hsweep
  have hwin := window_lt_lock hinv hlive
  have hle := settled_le_window hinv
  rw [min_eq_left hwin.le] at hl₁
  obtain ⟨fromWindow, fromTopUp⟩ := parts
  obtain ⟨hfrom, hcost, htop, rfl⟩ := spend_ok hspend
  have hbase : l₁.windowSpent (currentBillingWindow env l.account) + fromWindow ≤
      l₁.account.baseAllowance := by
    have := hinv₁.spent_le (currentBillingWindow env l.account)
    omega
  have hlo : l₁.account.lastSettledWindow ≤ currentBillingWindow env l.account := by
    rw [hl₁]
    exact le_rfl
  have hhi : currentBillingWindow env l.account < l₁.account.lockDurationEpochs := by
    rw [hl₁]
    exact hwin
  have hunb := unbooked_spend hlo hhi hbase (l₁.topUpBalance - fromTopUp)
  have hacc : l₁.account = { l.account with
    lastSettledWindow := currentBillingWindow env l.account } := by rw [hl₁]; rfl
  have htop₁ : l₁.topUpBalance = l.topUpBalance := by rw [hl₁]; rfl
  have hspent₁ : l₁.windowSpent = l.windowSpent := by rw [hl₁]; rfl
  refine ⟨⟨hinv₁.lock_pos, fun w => ?_, hinv₁.settled_le, hinv₁.settled_time, hinv₁.expires_eq,
    fun h => ?_⟩, by rw [hacc], by rw [hacc], by rw [hacc], ?_, by rw [hacc]; exact hle,
    fun w hw => ?_, fun h => by rw [hacc]; exact h⟩
  · by_cases hw : w = currentBillingWindow env l.account
    · subst hw
      simpa using hbase
    · simpa [hw] using hinv₁.spent_le w
  · have hlast := (hinv₁.swept h).1
    rw [hacc] at hlast
    dsimp only at hlast
    omega
  · dsimp only
    omega
  · dsimp only
    rw [update_of_ne (by omega), hspent₁]

theorem Pays.moves {toppedUp : ℕ} {p : Ledger × Effects} (h : Pays env l toppedUp p) :
    Moves c env.block.timestamp toppedUp l p.1 p.2 := by
  cases h with
  | none hswept =>
    exact ⟨hinv, rfl, rfl, rfl, by simp [Effects.out], le_rfl, fun _ _ => rfl, fun h => h⟩
  | @topUp l₁ swept amount hlive hsweep =>
    have hm := sweep_moves hinv hsweep
    have hbal := hm.balance
    refine ⟨⟨hm.inv.lock_pos, hm.inv.spent_le, hm.inv.settled_le, hm.inv.settled_time,
      hm.inv.expires_eq, fun hs => ?_⟩, hm.committed, hm.lock, hm.expires, ?_, hm.settled_mono,
      hm.final, hm.swept_mono⟩
    · -- a swept account has expired, so it takes no top-up
      have := (hm.inv.swept hs).1
      have := hm.inv.settled_time
      have := hm.inv.expires_eq
      have := hm.expires
      simp_all
      omega
    · have hunb : Ledger.unbooked { l₁ with topUpBalance := l₁.topUpBalance + toppedUp } =
          l₁.unbooked := rfl
      dsimp only
      omega
  | publish id cost kaEpochs epoch hlive hsweep hspend hbook =>
    have hwin := window_lt_lock hinv hlive
    have hle := settled_le_window hinv
    -- the cursor of a live account is below the lock, so the whole spend is booked
    rw [if_neg (by omega), if_neg (by omega)] at hbook
    have hout := bookSpend_out hbook
    refine sweep_spend_moves hinv hlive hsweep hspend ?_
    simp only [Effects.out, booked_append] at hout ⊢
    omega
  | service id cost epoch hlive hsweep hspend =>
    exact sweep_spend_moves hinv hlive hsweep hspend rfl
  | settle hopen hsweep => exact sweep_moves hinv hsweep
  | @sweep l₁ l₂ swept eff hexpired hsweep hfinal =>
    have hm := sweep_moves hinv hsweep
    obtain ⟨rfl, hout⟩ := finalSweep_ok hfinal
    have hbal := hm.balance
    refine ⟨⟨hm.inv.lock_pos, hm.inv.spent_le, hm.inv.settled_le, hm.inv.settled_time,
      hm.inv.expires_eq, fun _ => ⟨?_, rfl⟩⟩, hm.committed, hm.lock, hm.expires, ?_,
      hm.settled_mono, hm.final, fun _ => rfl⟩
    · have hlock := lock_le_window hinv (hm.expires ▸ hexpired)
      obtain ⟨rfl, _⟩ := sweepClosedWindows_inv hinv hsweep
      exact min_eq_right hlock
    · have hunb : l₁.sweptOut.unbooked = l₁.unbooked := rfl
      have htop : l₁.sweptOut.topUpBalance = 0 := rfl
      simp only [Effects.out, booked_append] at hout hbal ⊢
      omega

/-- Any operation on an expired account sweeps it. -/
theorem Pays.swept {toppedUp : ℕ} {p : Ledger × Effects} (h : Pays env l toppedUp p)
    (hexp : l.account.expiresAtTimestamp ≤ env.block.timestamp) :
    p.1.account.fullySwept = true := by
  cases h with
  | none hswept => exact hswept
  | topUp amount hlive | publish id cost kaEpochs epoch hlive | service id cost epoch hlive =>
    exact absurd hlive (not_lt.mpr hexp)
  | settle hopen hsweep =>
    rw [(sweep_moves hinv hsweep).expires] at hopen
    exact absurd hopen (not_lt.mpr hexp)
  | sweep hexpired hsweep hfinal =>
    rw [(finalSweep_ok hfinal).1]
    rfl

end Operations

/-- What left the escrow of an account so far. -/
def Journal.out (j : Journal) : ℕ := booked j.bookings + j.feesPaid + j.serviceCosts

/-- The accounts of a state at time `now`: ids not in use are empty, and an account in
use accounts for its commitment and its top-ups. -/
def StateInv (c : Chronos) (now : ℕ) (s : State) : Prop :=
  ∀ id, let l := s.ledgers id; let j := s.journal id
    if l.account.lockDurationEpochs = 0 then
      l = .empty ∧ j.toppedUp = 0 ∧ j.out = 0
    else LedgerInv c now l ∧
      l.account.committedTRAC + j.toppedUp = j.out + l.topUpBalance + l.unbooked

theorem LedgerInv.mono {now now' : ℕ} (h : LedgerInv c now l) (hn : now ≤ now') :
    LedgerInv c now' l :=
  ⟨h.lock_pos, h.spent_le, h.settled_le, h.settled_time.trans hn, h.expires_eq, h.swept⟩

theorem StateInv.mono {now now' : ℕ} {s : State} (h : StateInv c now s) (hn : now ≤ now') :
    StateInv c now' s := by
  intro id
  have hid := h id
  dsimp only at hid ⊢
  split
  · simpa [*] using hid
  · rw [if_neg ‹_›] at hid
    exact ⟨hid.1.mono hn, hid.2⟩

theorem empty_stateInv : StateInv c 0 State.empty := by
  intro id
  simp [State.empty, Ledger.empty, Journal.out]

/-- How the ledger of an account in use can change over time. -/
structure Extends (l l' : Ledger) : Prop where
  lock : l'.account.lockDurationEpochs = l.account.lockDurationEpochs
  settled_mono : l.account.lastSettledWindow ≤ l'.account.lastSettledWindow
  final : ∀ w < l.account.lastSettledWindow, l'.windowSpent w = l.windowSpent w
  swept_mono : l.account.fullySwept = true → l'.account.fullySwept = true

theorem Extends.refl (l : Ledger) : Extends l l := ⟨rfl, le_rfl, fun _ _ => rfl, fun h => h⟩

theorem Extends.trans {l₁ l₂ l₃ : Ledger} (h : Extends l₁ l₂) (h' : Extends l₂ l₃) :
    Extends l₁ l₃ :=
  ⟨h'.lock.trans h.lock, h.settled_mono.trans h'.settled_mono,
    fun w hw => (h'.final w (by have := h.settled_mono; omega)).trans (h.final w hw),
    fun hs => h'.swept_mono (h.swept_mono hs)⟩

theorem Moves.extends {now toppedUp : ℕ} (h : Moves c now toppedUp l l' eff) : Extends l l' :=
  ⟨h.lock, h.settled_mono, h.final, h.swept_mono⟩

/-- A call takes the accounts from `s` to `s'`. -/
structure Reaches (c : Chronos) (now : ℕ) (s s' : State) : Prop where
  inv : StateInv c now s'
  extends_of : ∀ id, (s.ledgers id).account.lockDurationEpochs ≠ 0 →
    Extends (s.ledgers id) (s'.ledgers id)

variable {s s' s'' : State} {now toppedUp : ℕ}

theorem Reaches.refl (h : StateInv c now s) : Reaches c now s s :=
  ⟨h, fun _ _ => .refl _⟩

theorem Reaches.trans (h : Reaches c now s s') (h' : Reaches c now s' s'') :
    Reaches c now s s'' :=
  ⟨h'.inv, fun id hid =>
    have h₁ := h.extends_of id hid
    h₁.trans (h'.extends_of id (by rw [h₁.lock]; exact hid))⟩

/-- One account changes, and the others stay as they are. -/
theorem reaches_update (hinv : StateInv c now s) (l' : Ledger) (j' : Journal)
    (hl : s'.ledgers = update s.ledgers id l')
    (hj : s'.journal = update s.journal id j')
    (hlock : l'.account.lockDurationEpochs ≠ 0) (hledger : LedgerInv c now l')
    (hbal : l'.account.committedTRAC + j'.toppedUp = j'.out + l'.topUpBalance + l'.unbooked)
    (hext : (s.ledgers id).account.lockDurationEpochs ≠ 0 → Extends (s.ledgers id) l') :
    Reaches c now s s' := by
  constructor
  · intro i
    dsimp only
    rw [hl, hj]
    by_cases hi : i = id
    · subst hi
      rw [update_self, update_self, if_neg hlock]
      exact ⟨hledger, hbal⟩
    · rw [update_of_ne hi, update_of_ne hi]
      exact hinv i
  · intro i hi
    rw [hl]
    by_cases h : i = id
    · subst h
      rw [update_self]
      exact hext hi
    · rw [update_of_ne h]
      exact .refl _

theorem known_ledgerInv (hinv : StateInv c now s)
    (hlock : (s.ledgers id).account.lockDurationEpochs ≠ 0) :
    LedgerInv c now (s.ledgers id) ∧ (s.ledgers id).account.committedTRAC + (s.journal id).toppedUp =
      (s.journal id).out + (s.ledgers id).topUpBalance + (s.ledgers id).unbooked := by
  have h := hinv id
  dsimp only at h
  rwa [if_neg hlock] at h

/-- Committing an operation that moves money keeps the books balanced. -/
theorem commit_reaches {r : Ledger × Effects} (hinv : StateInv c env.block.timestamp s)
    (hlock : (s.ledgers id).account.lockDurationEpochs ≠ 0)
    (hm : Moves c env.block.timestamp toppedUp (s.ledgers id) r.1 r.2)
    (h : s.commit env id toppedUp r = .ok s') : Reaches c env.block.timestamp s s' := by
  simp only [State.commit, bind_eq_ok, pure_eq_ok] at h
  obtain ⟨es, _, _, _, rfl⟩ := h
  obtain ⟨_, hold⟩ := known_ledgerInv hinv hlock
  refine reaches_update hinv r.1 _ rfl rfl (by rw [hm.lock]; exact hlock) hm.inv ?_
    fun _ => hm.extends
  have hbal := hm.balance
  have hcom := hm.committed
  simp only [Journal.out, Effects.out, booked_append] at hold hbal ⊢
  omega

theorem newAccount_ok {committed node : ℕ} {a : Account}
    (h : newAccount env committed node = .ok a) :
    a.committedTRAC = committed ∧ a.primaryNode = node ∧ a.lastSettledWindow = 0 ∧
      a.fullySwept = false ∧ 0 < a.lockDurationEpochs ∧
      a.createdAtTimestamp = env.block.timestamp ∧
      a.expiresAtTimestamp = env.block.timestamp + a.lockDurationEpochs * c.epochLength := by
  simp only [newAccount, bind_eq_ok, require_eq_ok, Checked.sub_eq_ok, pure_eq_ok] at h
  obtain ⟨_, ⟨hpos, hle⟩, _, _, rfl⟩ := h
  have hts := env.block.timestamp_lt
  have hlock : uint16 env.publishingConvictionEpochs = env.publishingConvictionEpochs :=
    uint16_of_lt (by omega)
  have hmul : env.publishingConvictionEpochs * c.epochLength ≤ 65535 * c.epochLength :=
    Nat.mul_le_mul_right _ hle
  have hcreated : uint40 env.block.timestamp = env.block.timestamp := uint40_of_lt (by omega)
  refine ⟨rfl, rfl, rfl, rfl, ?_, hcreated, ?_⟩
  · dsimp only
    omega
  · dsimp only
    rw [hcreated, hlock, uint40_of_lt (by omega)]

/-- A new account holds its commitment as unbooked budget. -/
theorem createAccount_reaches {committed node : ℕ} {r : Ledger × List Allocation}
    (hinv : StateInv c env.block.timestamp s)
    (h : createAccount env (s.ledgers id) id committed node = .ok r)
    (hd : s.designate id r = .ok s') : Reaches c env.block.timestamp s s' := by
  simp only [createAccount, bind_eq_ok, require_eq_ok, pure_eq_ok] at h
  obtain ⟨_, _, _, _, a, ha, _, hfresh, allocations, _, rfl⟩ := h
  simp only [State.designate, bind_eq_ok, pure_eq_ok] at hd
  obtain ⟨es, _, rfl⟩ := hd
  obtain ⟨_, _, hsettled, hswept, hpos, hcreated, hexpires⟩ := newAccount_ok ha
  have hid := hinv id
  dsimp only at hid
  rw [if_pos hfresh] at hid
  obtain ⟨hempty, htop, hout⟩ := hid
  have hspent : (s.ledgers id).windowSpent = fun _ => 0 := by rw [hempty]; rfl
  have hbuffer : (s.ledgers id).topUpBalance = 0 := by rw [hempty]; rfl
  refine reaches_update hinv { s.ledgers id with account := a } _ rfl rfl hpos.ne'
    ⟨hpos, fun w => ?_, ?_, ?_, ?_, fun hs => ?_⟩ ?_ fun hne => absurd hfresh hne
  · simp [hspent]
  · simp [hsettled]
  · simp [hsettled, hcreated]
  · simp [hcreated, hexpires]
  · simp [hswept] at hs
  · have hout' : Journal.out { s.journal id with
        allocations := (s.journal id).allocations ++ allocations } = 0 := hout
    have hdiv := Nat.div_add_mod a.committedTRAC a.lockDurationEpochs
    dsimp only
    rw [hout', hbuffer]
    simp only [Ledger.unbooked, hsettled, hspent, hpos, if_pos, Account.baseAllowance, htop,
      Nat.sub_zero, Finset.sum_const, Nat.card_Ico, smul_eq_mul]
    omega

theorem setPrimaryNode_reaches {node : ℕ} {r : Ledger × List Allocation}
    (hinv : StateInv c env.block.timestamp s)
    (h : setPrimaryNode env (s.ledgers id) id node = .ok r)
    (hd : s.designate id r = .ok s') : Reaches c env.block.timestamp s s' := by
  simp only [setPrimaryNode, bind_eq_ok, require_eq_ok, pure_eq_ok] at h
  obtain ⟨_, hlock, _, _, _, _, _, _, _, _, _, _, rfl⟩ := h
  simp only [State.designate, bind_eq_ok, pure_eq_ok] at hd
  obtain ⟨es, _, rfl⟩ := hd
  obtain ⟨hl, hbal⟩ := known_ledgerInv hinv hlock
  exact reaches_update hinv _ _ rfl rfl hlock
    ⟨hl.lock_pos, hl.spent_le, hl.settled_le, hl.settled_time, hl.expires_eq, hl.swept⟩ hbal
    fun _ => ⟨rfl, le_rfl, fun _ _ => rfl, fun h => h⟩

/-- Every committed call keeps the accounts in order. -/
theorem step_reaches {call : Call c} (hinv : StateInv c call.time s)
    (h : step s call = .ok s') : Reaches c call.time s s' := by
  refine step_induction (Reaches c call.time s) ?_ ?_ ?_ ?_ (.refl hinv) h
  · exact fun _ _ _ _ _ _ hx hp ht => hx.trans (createAccount_reaches hx.inv hp ht)
  · exact fun _ _ _ _ _ hx hp ht => hx.trans (setPrimaryNode_reaches hx.inv hp ht)
  · intro x id toppedUp p t hx hlock hpays ht
    have hl := (known_ledgerInv hx.inv hlock).1
    exact hx.trans (commit_reaches hx.inv hlock (hpays.moves hl) ht)
  · exact fun _ _ hx _ _ => ⟨hx.inv, hx.extends_of⟩

theorem Reaches.mono {now' : ℕ} (h : Reaches c now s s') (hn : now ≤ now') : Reaches c now' s s' :=
  ⟨h.inv.mono hn, h.extends_of⟩

theorem run_reaches {calls : List (Call c)} {n : ℕ} (hinv : StateInv c n s)
    (hn : ∀ call ∈ calls, n ≤ call.time)
    (hsorted : calls.Pairwise fun a b => a.time ≤ b.time) :
    Reaches c (Revert.now Call.time n calls) s (run step s calls) :=
  run_invariant_timed (fun m x => Reaches c m s x) (fun _ _ _ hnm h => h.mono hnm)
    (fun _ _ _ _ hx hy => hx.trans (step_reaches hx.inv hy)) (.refl hinv) hn hsorted

/-- Settling an account that is swept changes nothing. -/
theorem settle_swept (hlock : (s.ledgers id).account.lockDurationEpochs ≠ 0)
    (hs : (s.ledgers id).account.fullySwept = true) (env : Env c) :
    step s ⟨env, .settle id⟩ = .ok s := by
  have hsettle : settle env (s.ledgers id) id = .ok (s.ledgers id, ⟨[], 0, 0⟩) := by
    simp [settle, require_of hlock, hs, pure, Except.pure]
  simp [step, settleAccount, hsettle, State.commit, issue, require, pure, Except.pure]

theorem step_settle_expired {t : State} (hl : LedgerInv c env.block.timestamp (s.ledgers id))
    (hexp : (s.ledgers id).account.expiresAtTimestamp ≤ env.block.timestamp)
    (h : step s ⟨env, .settle id⟩ = .ok t) : (t.ledgers id).account.fullySwept = true := by
  simp only [step, settleAccount, bind_eq_ok, State.commit, pure_eq_ok] at h
  obtain ⟨r, hr, _, _, _, _, rfl⟩ := h
  dsimp only
  rw [update_self]
  exact (settle_pays hr).2.swept hl hexp

/-- A swept account has nothing left in escrow. -/
theorem swept_empty (h : LedgerInv c n l) (hs : l.account.fullySwept = true) :
    l.topUpBalance = 0 ∧
      ∑ w ∈ Finset.Ico l.account.lastSettledWindow l.account.lockDurationEpochs,
        (l.account.committedTRAC / l.account.lockDurationEpochs - l.windowSpent w) = 0 ∧
      (if l.account.lastSettledWindow < l.account.lockDurationEpochs then
        l.account.committedTRAC % l.account.lockDurationEpochs else 0) = 0 := by
  obtain ⟨hlast, htop⟩ := h.swept hs
  rw [hlast]
  simp [htop]

/-- An account accounts for its commitment and its top-ups over its whole life: what was
booked, paid and returned, the top-up buffer, the unused budget of the open windows and the
dust. A booked window is final, and a settle after expiry leaves nothing. -/
theorem run_conserves_escrow {calls : List (Call c)}
    (hsorted : calls.Pairwise fun a b => a.time ≤ b.time) (id : ℕ)
    (hid : ((run step State.empty calls).ledgers id).account.lockDurationEpochs ≠ 0) :
    let s := run step State.empty calls
    let l := s.ledgers id
    let a := l.account
    let j := s.journal id
    (a.committedTRAC + j.toppedUp =
      bookedTo STAKER_SHARD_ID j.bookings + bookedTo TREASURY_SHARD_ID j.bookings + j.feesPaid +
        j.serviceCosts + l.topUpBalance +
        ∑ w ∈ Finset.Ico a.lastSettledWindow a.lockDurationEpochs,
          (a.committedTRAC / a.lockDurationEpochs - l.windowSpent w) +
        if a.lastSettledWindow < a.lockDurationEpochs then
          a.committedTRAC % a.lockDurationEpochs else 0) ∧
    (∀ w, l.windowSpent w ≤ a.committedTRAC / a.lockDurationEpochs) ∧
    (∀ more : List (Call c), (calls ++ more).Pairwise (fun a b => a.time ≤ b.time) →
      ∀ w < a.lastSettledWindow, ((run step s more).ledgers id).windowSpent w = l.windowSpent w) ∧
    ∀ (env : Env c) (more : List (Call c)) (t : State),
      (calls ++ ⟨env, .settle id⟩ :: more).Pairwise (fun a b => a.time ≤ b.time) →
      a.expiresAtTimestamp ≤ env.block.timestamp → step s ⟨env, .settle id⟩ = .ok t →
      let u := run step t more
      let lu := u.ledgers id
      lu.topUpBalance = 0 ∧
      ∑ w ∈ Finset.Ico lu.account.lastSettledWindow lu.account.lockDurationEpochs,
        (lu.account.committedTRAC / lu.account.lockDurationEpochs - lu.windowSpent w) = 0 ∧
      (if lu.account.lastSettledWindow < lu.account.lockDurationEpochs then
        lu.account.committedTRAC % lu.account.lockDurationEpochs else 0) = 0 ∧
      ∀ env' : Env c, step u ⟨env', .settle id⟩ = .ok u := by
  intro s l a j
  have hreach : Reaches c (Revert.now Call.time 0 calls) State.empty s :=
    run_reaches empty_stateInv (fun _ _ => Nat.zero_le _) hsorted
  obtain ⟨hl, hbal⟩ := known_ledgerInv hreach.inv hid
  refine ⟨?_, hl.spent_le, fun more hmore w hw => ?_, fun env more t hmore hexp hstep => ?_⟩
  · simp only [Journal.out, booked, Ledger.unbooked, Account.baseAllowance] at hbal
    rw [← add_assoc] at hbal
    exact hbal
  · have hmore' := (pairwise_append.mp hmore).2.1
    exact ((run_reaches hreach.inv (fun _ hc => now_le hc (Nat.zero_le _) hmore)
      hmore').extends_of id hid).final w hw
  · have hmore' := pairwise_cons.mp (pairwise_append.mp hmore).2.1
    have htime : Revert.now Call.time 0 calls ≤ env.block.timestamp :=
      now_le (b := (⟨env, .settle id⟩ : Call c)) (by simp) (Nat.zero_le _) hmore
    have hinv := hreach.inv.mono htime
    have hl' := (known_ledgerInv hinv hid).1
    have ht : Reaches c env.block.timestamp s t := step_reaches hinv hstep
    have hu := run_reaches ht.inv hmore'.1 hmore'.2
    have hlock : (t.ledgers id).account.lockDurationEpochs ≠ 0 := by
      rw [(ht.extends_of id hid).lock]
      exact hid
    have hswept := step_settle_expired hl' hexp hstep
    have hext := hu.extends_of id hlock
    have hlock' : ((run step t more).ledgers id).account.lockDurationEpochs ≠ 0 := by
      rw [hext.lock]
      exact hlock
    have hend := swept_empty (known_ledgerInv hu.inv hlock').1 (hext.swept_mono hswept)
    exact ⟨hend.1, hend.2.1, hend.2.2, settle_swept hlock' (hext.swept_mono hswept)⟩

section Example

theorem early_lt {c : Chronos} (h : c.epochLength ≤ 1000) (timestamp : ℕ) :
    timestamp % 100 + 65535 * c.epochLength < 2 ^ 40 := by
  omega

theorem epoch_early_lt (c : Chronos) (timestamp : ℕ) :
    c.epochAtTimestamp (timestamp % 100) < 2 ^ 32 := by
  have := Nat.div_le_self (timestamp % 100 - c.startTime) c.epochLength
  unfold Chronos.epochAtTimestamp
  split <;> omega

/-- A block of the first hundred seconds, where epochs are short. -/
def earlyBlock {c : Chronos} (h : c.epochLength ≤ 1000) (timestamp : ℕ) : Block c :=
  ⟨timestamp % 100, early_lt h timestamp, epoch_early_lt c timestamp⟩

/-- Epochs of ten seconds. -/
def tenSeconds : Chronos := ⟨1, 10, Nat.one_pos, by decide⟩

theorem tenSeconds_short : tenSeconds.epochLength ≤ 1000 := by decide

/-- A three-epoch lock and a wired treasury with a 3% fee. -/
def envAt (timestamp : ℕ) : Env tenSeconds where
  block := earlyBlock tenSeconds_short timestamp
  protocolTreasury := 9
  protocolTreasuryFee := 300
  protocolTreasuryFee_le := by decide
  publishingConvictionEpochs := 3
  nodeExists := fun _ => true
  agentToAccountId := fun _ => 7
  transferSucceeds := fun _ => true

/-- An account of 1000 that tops up, publishes in its first window and settles in its
second. -/
def oneAccount : List (Call tenSeconds) :=
  [⟨envAt 5, .createAccount 7 1000 0⟩,
    ⟨envAt 8, .topUp 7 50⟩,
    ⟨envAt 12, .coverPublishingCost 3 350 2⟩,
    ⟨envAt 17, .settle 7⟩]

/-- Account 7 starts on node 4 and moves to node 5 an epoch later. -/
def movedAccount : List (Call tenSeconds) :=
  [⟨envAt 5, .createAccount 7 1000 4⟩,
    ⟨envAt 12, .setPrimaryNode 7 5⟩]

theorem run_conserves_escrow_oneAccount :
    let s := run step State.empty oneAccount
    (s.ledgers 7).topUpBalance = 33 ∧ (s.ledgers 7).account.lastSettledWindow = 1 ∧
    ∀ w, (s.ledgers 7).windowSpent w ≤
      (s.ledgers 7).account.committedTRAC / (s.ledgers 7).account.lockDurationEpochs :=
  have hsorted : oneAccount.Pairwise fun a b => a.time ≤ b.time := by decide
  ⟨by decide, by decide, (run_conserves_escrow hsorted 7 (by decide)).2.1⟩

end Example

end Dkg.Publishing
