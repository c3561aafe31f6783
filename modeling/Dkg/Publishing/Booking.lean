import Dkg.Publishing.Escrow

namespace Dkg.Publishing
open Revert List

/-- An operation that books closed windows, with what it does outside the account. -/
inductive Issues {c : Chronos} (env : Env c) (l : Ledger) (id : ℕ) : Effects → Prop
  | settle {l' eff} (h : settle env l id = .ok (l', eff)) : Issues env l id eff
  | topUp {l' eff} (amount : ℕ) (h : topUp env l id amount = .ok (l', eff)) : Issues env l id eff
  | coverPublishingCost {l' eff} (baseCost kaEpochs : ℕ)
      (h : coverPublishingCost env l id baseCost kaEpochs = .ok (l', eff)) : Issues env l id eff
  | coverServiceCost {l' eff r} (value : ℕ)
      (h : coverServiceCost env l id value = .ok ((l', eff), r)) : Issues env l id eff

/-- What a list of bookings assigns to an epoch of a shard. -/
def assignedTo (shardId : ℕ) (bs : List Booking) (e : ℕ) : ℕ :=
  ((bs.filter (·.shardId = shardId)).map fun b => b.share e).sum

/-- The second at which window `w` closes. -/
def Account.closeTimestamp (c : Chronos) (a : Account) (w : ℕ) : ℕ :=
  a.createdAtTimestamp + (w + 1) * c.epochLength

/-- No booking starts before epoch `cur`, and each splits evenly over its epochs. -/
def Forward (cur : ℕ) (bs : List Booking) : Prop :=
  ∀ b ∈ bs, cur ≤ b.startEpoch ∧ b.endEpoch + 1 - b.startEpoch ∣ b.tokenAmount

variable {c : Chronos} {env : Env c} {l l' : Ledger} {bs bs' : List Booking} {eff : Effects}
  {shardId amount w n cur e id : ℕ} {r : Ranges}

theorem Forward.append (h : Forward cur bs) (h' : Forward cur bs') :
    Forward cur (bs ++ bs') := by
  intro b hb
  rcases mem_append.mp hb with hb | hb
  · exact h b hb
  · exact h' b hb

theorem forward_nil : Forward cur [] := by
  intro b hb
  simp at hb

theorem mem_bookingsOf {b : Booking} (hb : b ∈ bookingsOf shardId r) :
    b.toActiveSinkRange ∈ r.toList ∧ b.tokenAmount ≠ 0 := by
  obtain ⟨x, hx, rfl⟩ := mem_map.mp hb
  simpa using mem_filter.mp hx

theorem bookingsOf_forward {anchor epochs first base last : ℕ} (h : cur ≤ anchor) :
    Forward cur (bookingsOf shardId (.anchored anchor epochs first base last)) := by
  intro b hb
  obtain ⟨hx, hne⟩ := mem_bookingsOf hb
  exact ⟨le_trans h (anchored_startEpoch hx hne).1, anchored_dvd hx⟩

theorem assignedTo_append : assignedTo shardId (bs ++ bs') e =
    assignedTo shardId bs e + assignedTo shardId bs' e := by
  simp [assignedTo]

/-- The empty ranges that are not booked assign nothing. -/
theorem assignedTo_bookingsOf (s shardId : ℕ) (r : Ranges) (e : ℕ) :
    assignedTo s (bookingsOf shardId r) e = if s = shardId then shareAt r.toList e else 0 := by
  have hz : ∀ x : ActiveSinkRange, x.tokenAmount = 0 → x.share e = 0 := by
    intro x hx
    simp [ActiveSinkRange.share, hx]
  rw [assignedTo, bookingsOf, shareAt]
  generalize r.toList = rs
  induction rs with
  | nil => simp
  | cons x rs ih =>
    by_cases hx : x.tokenAmount = 0
    · simpa [hx, hz x hx] using ih
    · rw [filter_cons_of_pos (by simpa using hx), map_cons, filter_cons]
      by_cases hs : s = shardId
      · subst hs
        simpa using ih
      · simpa [hs, Ne.symm hs] using ih

/-- A block's epoch survives the cast to `uint40`. -/
theorem uint40_currentEpoch (env : Env c) : uint40 env.block.currentEpoch = env.block.currentEpoch :=
  uint40_of_lt (lt_trans env.block.epoch_lt (by norm_num))

/-- A booking made in an epoch that is not before the close is anchored there, with parts
that do not depend on it. -/
theorem emitForwardFrom_ok {fromTs lock : ℕ}
    (hle : c.epochAtTimestamp fromTs ≤ cur) (hcur : cur < 2 ^ 40)
    (h : emitForwardFrom c shardId fromTs amount lock cur = .ok bs) :
    0 < lock ∧ ∃ first last, first + amount / lock * (lock - 1) + last = amount ∧
      ∀ cur', c.epochAtTimestamp fromTs ≤ cur' → cur' < 2 ^ 40 →
        emitForwardFrom c shardId fromTs amount lock cur' =
          .ok (bookingsOf shardId (.anchored cur' lock first (amount / lock) last)) := by
  have hanchor : ∀ cur', c.epochAtTimestamp fromTs ≤ cur' → cur' < 2 ^ 40 →
      uint40 (if c.epochAtTimestamp fromTs < cur' then cur' else c.epochAtTimestamp fromTs) =
        cur' := by
    intro cur' hle hlt
    rw [uint40_of_lt (by split <;> omega)]
    split <;> omega
  simp only [emitForwardFrom, bind_eq_ok, pure_eq_ok, hanchor cur hle hcur] at h
  obtain ⟨r, hr, -⟩ := h
  obtain ⟨hlock, first, last, hsum, -, hany⟩ := prorateActiveSink_ok hr
  refine ⟨hlock, first, last, hsum, fun cur' hle' hlt' => ?_⟩
  simp only [emitForwardFrom, bind_eq_ok, pure_eq_ok, hanchor cur' hle' hlt']
  exact ⟨_, hany cur', rfl⟩

/-- One side of a closed window: all of it goes to its shard, from the booking epoch on,
and the epochs' parts do not depend on when it is booked. -/
structure Side (cur close shardId amount : ℕ) (bs onTime : List Booking) : Prop where
  forward : Forward cur bs
  bookedTo_eq : bookedTo shardId bs = amount
  bookedTo_ne : ∀ s ≠ shardId, bookedTo s bs = 0
  shifted : ∀ s k, assignedTo s bs (cur + k) = assignedTo s onTime (close + k)

theorem epochAtTimestamp_closeTimestamp_le
    (hclosed : l.account.closeTimestamp c w ≤ env.block.timestamp) :
    c.epochAtTimestamp (l.account.closeTimestamp c w) ≤ env.block.currentEpoch :=
  Chronos.epochAtTimestamp_mono hclosed

theorem currentEpoch_lt (env : Env c) : env.block.currentEpoch < 2 ^ 40 :=
  lt_trans env.block.epoch_lt (by norm_num)

theorem emitSide_side
    (hclosed : l.account.closeTimestamp c w ≤ env.block.timestamp) {onTime : Env c}
    (hon : onTime.block.currentEpoch = c.epochAtTimestamp (l.account.closeTimestamp c w))
    (h : emitSide env l shardId w amount = .ok bs) :
    ∃ bs', emitSide onTime l shardId w amount = .ok bs' ∧
      Side env.block.currentEpoch onTime.block.currentEpoch shardId amount bs bs' := by
  unfold emitSide at h ⊢
  split_ifs at h with hpos
  · have hle := epochAtTimestamp_closeTimestamp_le hclosed
    obtain ⟨hlock, first, last, hsum, hany⟩ := emitForwardFrom_ok hle (currentEpoch_lt env) h
    have hbs := hany _ hle (currentEpoch_lt env)
    rw [Account.closeTimestamp, h, Except.ok.injEq] at hbs
    rw [if_pos hpos]
    refine ⟨_, hany _ hon.ge (currentEpoch_lt onTime), ?_⟩
    subst hbs
    refine ⟨bookingsOf_forward le_rfl, ?_, fun s hs => bookedTo_of_ne fun b hb => ?_,
      fun s k => ?_⟩
    · rw [bookedTo_bookingsOf, anchored_sum, hsum]
    · rw [bookingsOf_shardId hb]
      exact hs.symm
    · rw [assignedTo_bookingsOf, assignedTo_bookingsOf, anchored_shareAt hlock,
        anchored_shareAt hlock]
  · simp only [Except.ok.injEq] at h
    subst h
    rw [if_neg hpos]
    exact ⟨[], rfl, forward_nil, by simp [bookedTo]; omega, fun _ _ => rfl, fun _ _ => rfl⟩

/-- What the booking of a closed window amounts to. -/
structure WindowBooked (env onTime : Env c) (l : Ledger) (w : ℕ) (bs bs' : List Booking) :
    Prop where
  forward : Forward env.block.currentEpoch bs
  net : bookedTo STAKER_SHARD_ID bs =
    l.remainder w - feeOf (l.remainder w) (treasuryBps env)
  fee : bookedTo TREASURY_SHARD_ID bs = feeOf (l.remainder w) (treasuryBps env)
  shifted : ∀ s k, assignedTo s bs (env.block.currentEpoch + k) =
    assignedTo s bs' (onTime.block.currentEpoch + k)

theorem bookWindow_booked_at
    (hclosed : l.account.closeTimestamp c w ≤ env.block.timestamp) {onTime : Env c}
    (hbps : treasuryBps onTime = treasuryBps env)
    (hon : onTime.block.currentEpoch = c.epochAtTimestamp (l.account.closeTimestamp c w))
    (h : bookWindow env l w = .ok bs) :
    ∃ bs', bookWindow onTime l w = .ok bs' ∧ WindowBooked env onTime l w bs bs' := by
  unfold bookWindow at h ⊢
  dsimp only at h ⊢
  split_ifs at h with hz
  · simp only [Except.ok.injEq] at h
    subst h
    rw [if_pos hz]
    refine ⟨[], rfl, forward_nil, ?_, ?_, fun _ _ => rfl⟩
    · simp [bookedTo, hz]
    · simp [bookedTo, hz, feeOf]
  · simp only [bind_eq_ok, Checked.sub_eq_ok, pure_eq_ok] at h
    obtain ⟨net, ⟨hle, rfl⟩, stakers, hst, treasury, htr, rfl⟩ := h
    obtain ⟨stakers', hst', sst⟩ := emitSide_side hclosed hon hst
    obtain ⟨treasury', htr', str⟩ := emitSide_side hclosed hon htr
    rw [if_neg hz, hbps]
    simp only [bind_eq_ok, Checked.sub_eq_ok, pure_eq_ok]
    refine ⟨_, ⟨_, ⟨hle, rfl⟩, _, hst', _, htr', rfl⟩, sst.forward.append str.forward, ?_, ?_,
      fun s k => ?_⟩
    · rw [bookedTo_append, sst.bookedTo_eq, str.bookedTo_ne _ (by decide), add_zero]
    · rw [bookedTo_append, str.bookedTo_eq, sst.bookedTo_ne _ (by decide), zero_add]
    · rw [assignedTo_append, assignedTo_append, sst.shifted, str.shifted]

/-- The block of `env`, had it been mined when window `w` closed. -/
def Env.atClose (env : Env c) (a : Account) (w : ℕ)
    (hclosed : a.closeTimestamp c w ≤ env.block.timestamp) : Env c :=
  { env with
    block := {
      timestamp := a.closeTimestamp c w
      timestamp_lt := lt_of_le_of_lt (Nat.add_le_add_right hclosed _) env.block.timestamp_lt
      epoch_lt := lt_of_le_of_lt (Chronos.epochAtTimestamp_mono hclosed) env.block.epoch_lt } }

/-- The windows before the current one have closed. -/
theorem closeTimestamp_le (h : w < currentBillingWindow env l.account) :
    l.account.closeTimestamp c w ≤ env.block.timestamp := by
  rw [currentBillingWindow_eq] at h
  have hmul : (w + 1) * c.epochLength ≤ env.block.timestamp - l.account.createdAtTimestamp :=
    (Nat.le_div_iff_mul_le c.epochLength_pos).mp h
  have hpos : 0 < (w + 1) * c.epochLength := Nat.mul_pos (by omega) c.epochLength_pos
  unfold Account.closeTimestamp
  omega

/-- The windows that a sweep books. -/
def closedWindows (env : Env c) (l : Ledger) : List ℕ :=
  range' l.account.lastSettledWindow
    (min (currentBillingWindow env l.account) l.account.lockDurationEpochs -
      l.account.lastSettledWindow)

/-- What the booking of a window gives. -/
def windowBookings (env : Env c) (l : Ledger) (w : ℕ) : List Booking :=
  match bookWindow env l w with
  | .ok bs => bs
  | .error _ => []

theorem bookLoop_windows (h : bookLoop env l n w = .ok bs) :
    (∀ i ∈ range' w n, bookWindow env l i = .ok (windowBookings env l i)) ∧
      bs = (range' w n).flatMap (windowBookings env l) := by
  induction n generalizing w bs with
  | zero =>
    cases h
    exact ⟨by simp, rfl⟩
  | succ n ih =>
    simp only [bookLoop, bind_eq_ok, pure_eq_ok] at h
    obtain ⟨now, hnow, rest, hrest, rfl⟩ := h
    obtain ⟨hall, rfl⟩ := ih hrest
    have hfirst : windowBookings env l w = now := by rw [windowBookings, hnow]
    rw [range'_succ, flatMap_cons, hfirst]
    exact ⟨forall_mem_cons.mpr ⟨hfirst ▸ hnow, hall⟩, rfl⟩

/-- A sweep books the closed windows in their order. -/
theorem sweepClosedWindows_windows (h : sweepClosedWindows env l = .ok (l', bs)) :
    (∀ w ∈ closedWindows env l, bookWindow env l w = .ok (windowBookings env l w)) ∧
      bs = (closedWindows env l).flatMap (windowBookings env l) := by
  rw [sweepClosedWindows_eq] at h
  unfold bookWindows at h
  dsimp only at h
  unfold closedWindows
  split at h
  · rw [Nat.sub_eq_zero_of_le ‹_›]
    cases h
    exact ⟨by simp, rfl⟩
  · simp only [bind_eq_ok, pure_eq_ok, Prod.mk.injEq] at h
    obtain ⟨bs', hloop, -, rfl⟩ := h
    exact bookLoop_windows hloop

theorem lt_of_mem_closedWindows (hw : w ∈ closedWindows env l) :
    w < currentBillingWindow env l.account := by
  have := mem_range'_1.mp hw
  omega

theorem sweepClosedWindows_forward (h : sweepClosedWindows env l = .ok (l', bs)) :
    Forward env.block.currentEpoch bs := by
  obtain ⟨hall, rfl⟩ := sweepClosedWindows_windows h
  intro b hb
  obtain ⟨w, hw, hb⟩ := mem_flatMap.mp hb
  have hclosed := closeTimestamp_le (lt_of_mem_closedWindows hw)
  let onTime := env.atClose l.account w hclosed
  have hbps : treasuryBps onTime = treasuryBps env := rfl
  obtain ⟨_, _, hbooked⟩ := bookWindow_booked_at hclosed hbps rfl (hall w hw)
  exact hbooked.forward b hb

theorem bookSpend_forward {epochs : ℕ} (h : bookSpend env amount epochs = .ok eff) :
    Forward env.block.currentEpoch eff.bookings := by
  unfold bookSpend at h
  split at h
  · simp only [bind_eq_ok, pure_eq_ok] at h
    obtain ⟨net, _, bs, hbs, rfl⟩ := h
    unfold bookNet at hbs
    split at hbs
    · simp only [distributeProrated, bind_eq_ok, pure_eq_ok] at hbs
      obtain ⟨r, hr, rfl⟩ := hbs
      obtain ⟨-, first, last, -, rfl, -⟩ := prorateActiveSink_ok hr
      rw [uint40_of_lt (currentEpoch_lt env)]
      exact bookingsOf_forward le_rfl
    · simp only [Except.ok.injEq] at hbs
      exact hbs ▸ forward_nil
  · simp only [Except.ok.injEq] at h
    exact h ▸ forward_nil

theorem finalSweep_forward (h : finalSweep env l = .ok (l', eff)) :
    Forward env.block.currentEpoch eff.bookings := by
  simp only [finalSweep, bind_eq_ok, pure_eq_ok, Prod.mk.injEq] at h
  obtain ⟨net, _, _, rfl⟩ := h
  intro b hb
  dsimp only at hb
  split at hb
  · simp only [mem_singleton] at hb
    subst hb
    simp
  · simp at hb

/-- An operation books what a sweep of the closed windows books and then its own. -/
theorem Pays.swept_windows {toppedUp : ℕ} {p : Ledger × Effects} (h : Pays env l toppedUp p) :
    l.account.fullySwept = true ∧ p.2.bookings = [] ∨
      ∃ l' swept rest, sweepClosedWindows env l = .ok (l', swept) ∧
        p.2.bookings = swept ++ rest ∧ Forward env.block.currentEpoch rest := by
  cases h with
  | none hswept => exact .inl ⟨hswept, rfl⟩
  | topUp amount hlive hsweep | service id cost epoch hlive hsweep | settle hopen hsweep =>
    exact .inr ⟨_, _, [], hsweep, (append_nil _).symm, forward_nil⟩
  | publish id cost kaEpochs epoch hlive hsweep hspend hbook =>
    exact .inr ⟨_, _, _, hsweep, rfl, bookSpend_forward hbook⟩
  | sweep hexpired hsweep hfinal => exact .inr ⟨_, _, _, hsweep, rfl, finalSweep_forward hfinal⟩

theorem Issues.pays (h : Issues env l id eff) : ∃ toppedUp l', Pays env l toppedUp (l', eff) := by
  cases h with
  | settle h => exact ⟨_, _, (settle_pays h).2⟩
  | topUp amount h => exact ⟨_, _, (topUp_pays h).2⟩
  | coverPublishingCost baseCost kaEpochs h => exact ⟨_, _, (coverPublishingCost_pays h).2⟩
  | coverServiceCost value h => exact ⟨_, _, (coverServiceCost_pays h).2⟩

/-- Every operation books from the current epoch on. -/
theorem Issues.forward (h : Issues env l id eff) : Forward env.block.currentEpoch eff.bookings := by
  obtain ⟨_, _, hpays⟩ := h.pays
  obtain ⟨-, hnil⟩ | ⟨_, _, _, hsweep, hsplit, hrest⟩ := hpays.swept_windows
  · exact hnil ▸ forward_nil
  · exact hsplit ▸ (sweepClosedWindows_forward hsweep).append hrest

section Issue
variable {es es' : EpochStorage.Storage}

theorem clamp_eq {sh : EpochStorage.Shard} {a b : ℕ} (h : sh.lastFinalizedEpoch < a) :
    sh.clamp a b = (a, b) := by
  unfold EpochStorage.Shard.clamp
  rw [if_neg (by omega)]

/-- A booking freezes no epoch that has not ended. -/
theorem addTokensToEpochRange_lastFinalizedEpoch {a b : ℕ}
    (hes : ∀ s, (es.shards s).lastFinalizedEpoch < cur)
    (h : EpochStorage.addTokensToEpochRange es cur shardId a b amount = .ok es') (s : ℕ) :
    (es'.shards s).lastFinalizedEpoch < cur := by
  simp only [EpochStorage.addTokensToEpochRange, EpochStorage.Shard.addTokensToEpochRange,
    bind_eq_ok, pure_eq_ok] at h
  obtain ⟨sh, ⟨_, _, _, _, _, _, _, _, _, _, _, _, hfin⟩, rfl⟩ := h
  by_cases hs : s = shardId
  · subst hs
    have hpos := hes s
    simp only [Function.update_self]
    unfold EpochStorage.Shard.finalizePast at hfin
    split at hfin
    · simp only [EpochStorage.Shard.finalizeEpochsUpTo, bind_eq_ok, pure_eq_ok] at hfin
      obtain ⟨_, _, rfl⟩ := hfin
      dsimp only
      omega
    · simp only [Except.ok.injEq] at hfin
      subst hfin
      exact hpos
  · simp only [Function.update_of_ne hs]
    exact hes s

theorem issue_lastFinalizedEpoch (hes : ∀ s, (es.shards s).lastFinalizedEpoch < cur)
    (h : issue cur es bs = .ok es') (s : ℕ) : (es'.shards s).lastFinalizedEpoch < cur := by
  refine foldlM_invariant (fun es : EpochStorage.Storage =>
    ∀ s, (es.shards s).lastFinalizedEpoch < cur) ?_ hes h s
  intro es b es' hes hb
  exact addTokensToEpochRange_lastFinalizedEpoch hes (mapError_eq_ok.mp hb)

end Issue

/-- No operation books to an epoch that has ended, so the clamp of `EpochStorage` moves
none of its bookings. An operation books the closed windows first, in their order, unless all is
swept. A closed window books its net and its fee in full, and however late it is booked, the
`k`-th epoch from there gets what the `k`-th epoch after the close would have got. -/
theorem bookings_forward_and_shifted (env : Env c) (l : Ledger) (id : ℕ)
    (es : EpochStorage.Storage)
    (hes : ∀ s, (es.shards s).lastFinalizedEpoch < env.block.currentEpoch) :
    (∀ eff, Issues env l id eff → ∀ before b after, eff.bookings = before ++ b :: after →
      env.block.currentEpoch ≤ b.startEpoch ∧ b.endEpoch + 1 - b.startEpoch ∣ b.tokenAmount ∧
      ∀ es', issue env.block.currentEpoch es before = .ok es' →
        (es'.shards b.shardId).clamp b.startEpoch b.endEpoch = (b.startEpoch, b.endEpoch)) ∧
    (∀ eff, Issues env l id eff → l.account.fullySwept = true ∧ eff.bookings = [] ∨
      (∀ w ∈ closedWindows env l, bookWindow env l w = .ok (windowBookings env l w)) ∧
        (closedWindows env l).flatMap (windowBookings env l) <+: eff.bookings) ∧
    ∀ w bs, w < currentBillingWindow env l.account → bookWindow env l w = .ok bs →
      bookedTo STAKER_SHARD_ID bs = l.remainder w - feeOf (l.remainder w) (treasuryBps env) ∧
      bookedTo TREASURY_SHARD_ID bs = feeOf (l.remainder w) (treasuryBps env) ∧
      ∀ onTime : Env c, treasuryBps onTime = treasuryBps env →
        onTime.block.currentEpoch = c.epochAtTimestamp (l.account.closeTimestamp c w) →
        ∃ bs', bookWindow onTime l w = .ok bs' ∧
          ∀ s k, assignedTo s bs (env.block.currentEpoch + k) =
            assignedTo s bs' (onTime.block.currentEpoch + k) := by
  refine ⟨fun eff heff before b after hsplit => ?_, fun eff heff => ?_, fun w bs hw h => ?_⟩
  · obtain ⟨hstart, hdvd⟩ := heff.forward b (by simp [hsplit])
    refine ⟨hstart, hdvd, fun es' hes' => clamp_eq ?_⟩
    exact lt_of_lt_of_le (issue_lastFinalizedEpoch hes hes' _) hstart
  · obtain ⟨_, _, hpays⟩ := heff.pays
    obtain hnone | ⟨_, _, rest, hsweep, hsplit, -⟩ := hpays.swept_windows
    · exact .inl hnone
    · obtain ⟨hall, rfl⟩ := sweepClosedWindows_windows hsweep
      exact .inr ⟨hall, rest, hsplit.symm⟩
  · have hclosed := closeTimestamp_le hw
    let atClose := env.atClose l.account w hclosed
    have hbps : treasuryBps atClose = treasuryBps env := rfl
    obtain ⟨_, _, hb⟩ := bookWindow_booked_at hclosed hbps rfl h
    refine ⟨hb.net, hb.fee, fun onTime hbps hon => ?_⟩
    obtain ⟨bs', hbs', hb'⟩ := bookWindow_booked_at hclosed hbps hon h
    exact ⟨bs', hbs', hb'.shifted⟩

/-- An account of 1000 created at second 5. -/
def unsettled : Ledger := (run step State.empty (oneAccount.take 1)).ledgers 7

/-- The bookings of its first window at second 27, an epoch late. -/
def lateBookings : List Booking :=
  [⟨⟨3, 3, 64⟩, 1⟩, ⟨⟨4, 5, 216⟩, 1⟩, ⟨⟨6, 6, 44⟩, 1⟩,
    ⟨⟨3, 3, 1⟩, 2⟩, ⟨⟨4, 5, 6⟩, 2⟩, ⟨⟨6, 6, 2⟩, 2⟩]

def lateEnv : Env tenSeconds := envAt 27

def onTimeEnv : Env tenSeconds := envAt 16

theorem bookings_forward_and_shifted_late :
    bookWindow lateEnv unsettled 0 = .ok lateBookings ∧
      bookedTo STAKER_SHARD_ID lateBookings = unsettled.remainder 0 - 9 ∧
      ∃ bs', bookWindow onTimeEnv unsettled 0 = .ok bs' ∧
        ∀ s k, assignedTo s lateBookings (lateEnv.block.currentEpoch + k) =
          assignedTo s bs' (onTimeEnv.block.currentEpoch + k) := by
  have hbooked : bookWindow lateEnv unsettled 0 = .ok lateBookings := by rfl
  obtain ⟨_, _, hwindow⟩ := bookings_forward_and_shifted lateEnv unsettled 7 EpochStorage.empty
    fun s => show 0 < lateEnv.block.currentEpoch by decide
  obtain ⟨hnet, _, hshift⟩ := hwindow 0 lateBookings (by decide) hbooked
  exact ⟨hbooked, hnet, hshift onTimeEnv rfl rfl⟩

end Dkg.Publishing
