import Dkg.Subscriptions.Budgets

/-!
The ends of the grants over a run: once a grant has ended nothing moves its end again, a
grant that is replaced keeps the end it had, and no two grants of an account share a
nonce.
-/

namespace Dkg.Subscriptions
open Revert Function

variable {c : Chronos} {idOf : ℕ → ℕ → ℕ} {env : Env c} {s s' : System} {call : Call c}
  {a b n x : ℕ}

section Inversion

theorem Funded.sameGrants {sub : Subscription} {budgets : List ServiceBudget} {paid : ℕ}
    (h : Funded idOf sub budgets paid s s') : SameGrants s.subs s'.subs := by
  rw [h.subs]
  exact ⟨rfl, rfl, rfl⟩

theorem ToppedUp.sameGrants {t : TopUp} {amounts : TopUpAmounts} {additions : List ServiceBudget}
    (h : ToppedUp n t amounts additions s s') : SameGrants s.subs s'.subs := by
  obtain ⟨_, happly⟩ := h.applied
  obtain ⟨_, _, _, _, _, hs'⟩ := applyTopUp_ok happly
  rw [hs']
  exact ⟨rfl, rfl, rfl⟩

/-- The terms of the grant a call makes. -/
def Op.granted : Op → Option BuyerTerms
  | .addBuyer t _ _ => some t
  | _ => none

/-- What a call can do to the grants at a time, with the terms of the grant it makes. -/
inductive GrantStep (now : ℕ) : Option BuyerTerms → Storage → Storage → Prop
  | same {s s' : Storage} (h : SameGrants s s') : GrantStep now none s s'
  | add {s : Storage} (t : BuyerTerms) (owner : ℕ)
      (hnonce : t.nonce = s.grantNonce t.accountId) :
      GrantStep now (some t) s
        { s with
          grantNonce := update s.grantNonce t.accountId (t.nonce + 1)
          replacedGrantEnd := s.archive t.accountId t.buyer
          grants := update s.grants (t.accountId, t.buyer) (grantOf t now owner)
          usage := update s.usage (t.accountId, t.buyer) 0 }
  | remove {s : Storage} (a b : ℕ) (hlive : (s.grants (a, b)).revokedAt = 0) :
      GrantStep now none s
        { s.setGrantRevokedAt a b now with
          grantNonce := update s.grantNonce a (s.grantNonce a + 1) }
  | limit {s : Storage} (a b : ℕ) (limits : BuyerLimits)
      (hlive : (s.grants (a, b)).revokedAt = 0) (hexpires : now < (s.grants (a, b)).expiresAt) :
      GrantStep now none s (s.setBuyerLimits a b limits)
  | advance {s : Storage} (a : ℕ) :
      GrantStep now none s { s with grantNonce := update s.grantNonce a (s.grantNonce a + 1) }

theorem step_sameGrants (hop : call.op.changesGrants = false) (h : step idOf s call = .ok s') :
    SameGrants s.subs s'.subs := by
  cases hwrites : call.op.writesRecord with
  | false => exact (step_quiet hwrites h).2 hop
  | true =>
    obtain ⟨env, op⟩ := call
    cases op with
    | fundFromAccount r =>
      obtain ⟨_, _, h⟩ := fundFromAccount_ok h
      exact h.sameGrants
    | topUpFromAccount id additions digest =>
      obtain ⟨_, _, h⟩ := topUpFromAccount_ok h
      exact h.sameGrants
    | fundFromWallet r =>
      obtain ⟨_, _, h⟩ := fundFromWallet_ok h
      exact h.sameGrants
    | topUpFromWallet id additions digest =>
      obtain ⟨_, _, h⟩ := topUpFromWallet_ok h
      exact h.sameGrants
    | _ => cases hwrites

theorem step_grants (h : step idOf s call = .ok s') :
    GrantStep call.time call.op.granted s.subs s'.subs := by
  cases hop : call.op.changesGrants with
  | false =>
    have hnone : call.op.granted = none := by
      obtain ⟨env, op⟩ := call
      cases op <;> first | rfl | cases hop
    rw [hnone]
    exact .same (step_sameGrants hop h)
  | true =>
    obtain ⟨env, op⟩ := call
    cases op with
    | addBuyer t os bs =>
      obtain ⟨hnonce, owner, rfl⟩ := addBuyer_ok h
      exact .add t owner hnonce
    | removeBuyer a b =>
      obtain ⟨hlive, rfl⟩ := removeBuyer_ok h
      exact .remove a b hlive
    | setBuyerLimits a b limits =>
      obtain ⟨hlive, hexpires, rfl⟩ := setBuyerLimits_ok h
      exact .limit a b limits hlive hexpires
    | advanceGrantNonce a => exact advanceGrantNonce_ok h ▸ .advance a
    | _ => cases hop

end Inversion

section Ends
variable {s s' : Storage} {now : ℕ} {granted : Option BuyerTerms}

/-- The nonce was used before. -/
def Consumed (s : Storage) (a n : ℕ) : Prop := n < s.grantNonce a

/-- The grant with this nonce is not the buyer's current one. -/
def Replaced (s : Storage) (a b n : ℕ) : Prop :=
  ¬((s.grants (a, b)).grantedAt ≠ 0 ∧ (s.grants (a, b)).nonce = n)

theorem grantEnd_of_replaced (h : Replaced s a b n) :
    s.grantEnd a b n = s.replacedGrantEnd (a, b, n) := if_neg h

theorem grantEnd_of_current (h : ¬Replaced s a b n) :
    s.grantEnd a b n = (s.grants (a, b)).endOf := if_pos (not_not.mp h)

theorem SameGrants.grantEnd (h : SameGrants s s') : s'.grantEnd a b n = s.grantEnd a b n := by
  simp only [Storage.grantEnd, h.grants, h.replaced]

theorem step_consumed (h : GrantStep now granted s s') (hn : Consumed s a n) :
    Consumed s' a n := by
  have hupdate : ∀ a', n < update s.grantNonce a' (s.grantNonce a' + 1) a := by
    intro a'
    by_cases ha : a = a'
    · subst ha
      rw [update_self]
      exact Nat.lt_succ_of_lt hn
    · rw [update_of_ne ha]
      exact hn
  cases h with
  | same h => simpa only [Consumed, h.grantNonce] using hn
  | add t owner hnonce => simpa only [Consumed, hnonce] using hupdate t.accountId
  | remove a' b' hlive => exact hupdate a'
  | limit a' b' limits hlive hexpires => exact hn
  | advance a' => exact hupdate a'

/-- Archiving another grant leaves a kept end as it is. -/
theorem archive_eq {a' b' : ℕ} (h : (a, b) = (a', b') → Replaced s a b n) :
    s.archive a' b' (a, b, n) = s.replacedGrantEnd (a, b, n) := by
  unfold Storage.archive
  split
  case isFalse => rfl
  case isTrue hgranted =>
    rw [update_of_ne]
    intro heq
    simp only [Prod.mk.injEq] at heq
    obtain ⟨rfl, rfl, rfl⟩ := heq
    exact h rfl ⟨hgranted, rfl⟩

theorem archive_current (h : (s.grants (a, b)).grantedAt ≠ 0) :
    s.archive a b (a, b, (s.grants (a, b)).nonce) = (s.grants (a, b)).endOf := by
  unfold Storage.archive
  rw [if_pos h, update_self]

/-- A new grant takes the next nonce, so no earlier grant to the buyer is current any
more, and each keeps its end. -/
theorem addBuyer_keeps_end {t : BuyerTerms} {owner : ℕ}
    (hnonce : t.nonce = s.grantNonce t.accountId) (hn : Consumed s t.accountId n)
    (hgrants : s'.grants = update s.grants (t.accountId, t.buyer) (grantOf t now owner))
    (hreplaced : s'.replacedGrantEnd = s.archive t.accountId t.buyer) :
    Replaced s' t.accountId t.buyer n ∧
      s'.grantEnd t.accountId t.buyer n = s.grantEnd t.accountId t.buyer n := by
  have hne : t.nonce ≠ n := hnonce ▸ Nat.ne_of_gt hn
  have hnew : Replaced s' t.accountId t.buyer n := by
    simp [Replaced, hgrants, grantOf, hne]
  refine ⟨hnew, ?_⟩
  rw [grantEnd_of_replaced hnew, hreplaced]
  by_cases hr : Replaced s t.accountId t.buyer n
  · rw [archive_eq fun _ => hr, grantEnd_of_replaced hr]
  · obtain ⟨hgranted, rfl⟩ := not_not.mp hr
    rw [archive_current hgranted, grantEnd_of_current hr]

theorem Replaced.congr (hgrant : s'.grants (a, b) = s.grants (a, b)) (h : Replaced s a b n) :
    Replaced s' a b n := by
  rw [Replaced, hgrant]
  exact h

theorem grantEnd_congr (hgrant : s'.grants (a, b) = s.grants (a, b))
    (hreplaced : s'.replacedGrantEnd (a, b, n) = s.replacedGrantEnd (a, b, n)) :
    s'.grantEnd a b n = s.grantEnd a b n := by
  rw [Storage.grantEnd, Storage.grantEnd, hgrant, hreplaced]

/-- A grant that is no longer the buyer's current one keeps its end, and never comes
back: its nonce is used. -/
theorem step_replaced (h : GrantStep now granted s s') (hn : Consumed s a n)
    (hr : Replaced s a b n) :
    Replaced s' a b n ∧ s'.grantEnd a b n = s.grantEnd a b n := by
  cases h with
  | same h =>
    rw [Replaced, h.grants, h.grantEnd]
    exact ⟨hr, rfl⟩
  | add t owner hnonce =>
    by_cases hab : (a, b) = (t.accountId, t.buyer)
    · obtain ⟨rfl, rfl⟩ := Prod.mk.injEq .. ▸ hab
      exact addBuyer_keeps_end hnonce hn rfl rfl
    · have hgrant := update_of_ne hab (grantOf t now owner) s.grants
      exact ⟨hr.congr hgrant, grantEnd_congr hgrant (archive_eq fun h => absurd h hab)⟩
  | remove a' b' | limit a' b' =>
    suffices hs : Replaced _ a b n by
      exact ⟨hs, (grantEnd_of_replaced hs).trans (grantEnd_of_replaced hr).symm⟩
    by_cases hab : (a, b) = (a', b')
    · obtain ⟨rfl, rfl⟩ := Prod.mk.injEq .. ▸ hab
      simpa [Replaced, Storage.setGrantRevokedAt, Storage.setBuyerLimits] using hr
    · exact hr.congr (update_of_ne hab _ _)
  | advance a' => exact ⟨hr, rfl⟩

theorem endOf_of_live {g : BuyerGrant} (h : g.revokedAt = 0) : g.endOf = g.expiresAt := by
  simp [BuyerGrant.endOf, h]

/-- The revocation of a grant that has expired comes too late to bring its end forward. -/
theorem endOf_revoked_late {g : BuyerGrant} (h : g.expiresAt ≤ now) :
    { g with revokedAt := now }.endOf = g.expiresAt := by
  refine if_neg fun hsooner => ?_
  exact absurd hsooner.2 (Nat.not_lt.mpr h)

/-- Nothing moves the end of a grant that has ended. -/
theorem step_ended (h : GrantStep now granted s s') (hn : Consumed s a n)
    (hended : s.grantEnd a b n ≤ now) : s'.grantEnd a b n = s.grantEnd a b n := by
  by_cases hr : Replaced s a b n
  · exact (step_replaced h hn hr).2
  have hcurrent := grantEnd_of_current hr
  cases h with
  | same h => exact h.grantEnd
  | add t owner hnonce =>
    by_cases hab : (a, b) = (t.accountId, t.buyer)
    · obtain ⟨rfl, rfl⟩ := Prod.mk.injEq .. ▸ hab
      exact (addBuyer_keeps_end hnonce hn rfl rfl).2
    · exact grantEnd_congr (update_of_ne hab _ _) (archive_eq fun h => absurd h hab)
  | remove a' b' hlive =>
    by_cases hab : (a, b) = (a', b')
    · obtain ⟨rfl, rfl⟩ := Prod.mk.injEq .. ▸ hab
      rw [hcurrent, endOf_of_live hlive] at hended ⊢
      rw [← endOf_revoked_late hended, grantEnd_of_current]
      · simp [Storage.setGrantRevokedAt]
      · simpa [Replaced, Storage.setGrantRevokedAt] using hr
    · exact grantEnd_congr (update_of_ne hab _ _) rfl
  | limit a' b' limits hlive hexpires =>
    by_cases hab : (a, b) = (a', b')
    · obtain ⟨rfl, rfl⟩ := Prod.mk.injEq .. ▸ hab
      rw [hcurrent, endOf_of_live hlive] at hended
      exact absurd hexpires (Nat.not_lt.mpr hended)
    · exact grantEnd_congr (update_of_ne hab _ _) rfl
  | advance a' => rfl

end Ends

section Runs
variable {calls later past : List (Call c)}

/-- The terms of the grants made by these calls. -/
def grantedTerms (calls : List (Call c)) : List BuyerTerms := calls.filterMap (·.op.granted)

/-- The nonces of grants were used, each by one grant of its account. -/
structure Inv (past : List (Call c)) (s : Storage) : Prop where
  granted : ∀ t ∈ grantedTerms past, Consumed s t.accountId t.nonce
  current : ∀ a b, (s.grants (a, b)).grantedAt ≠ 0 → Consumed s a (s.grants (a, b)).nonce
  distinct : (grantedTerms past).Pairwise fun t u =>
    ¬(t.accountId = u.accountId ∧ t.nonce = u.nonce)

theorem initial_inv : Inv ([] : List (Call c)) .initial where
  granted := by simp [grantedTerms]
  current := by simp [Storage.initial, BuyerGrant.none]
  distinct := .nil

/-- The current grants after a step are those before it, or the new one. -/
theorem step_current {s s' : Storage} {now : ℕ} {granted : Option BuyerTerms}
    (h : GrantStep now granted s s') (a b : ℕ) :
    ((s'.grants (a, b)).nonce = (s.grants (a, b)).nonce ∧
      (s'.grants (a, b)).grantedAt = (s.grants (a, b)).grantedAt) ∨
    ∃ t, granted = some t ∧ t.accountId = a ∧ (s'.grants (a, b)).nonce = t.nonce := by
  cases h with
  | same h => exact .inl (by rw [h.grants]; exact ⟨rfl, rfl⟩)
  | add t owner hnonce =>
    by_cases hab : (a, b) = (t.accountId, t.buyer)
    · obtain ⟨rfl, rfl⟩ := Prod.mk.injEq .. ▸ hab
      exact .inr ⟨t, rfl, rfl, by simp [grantOf]⟩
    · exact .inl (by simp [hab])
  | remove a' b' | limit a' b' =>
    left
    by_cases hab : (a, b) = (a', b') <;>
      simp [Storage.setGrantRevokedAt, Storage.setBuyerLimits, hab]
  | advance a' => exact .inl ⟨rfl, rfl⟩

theorem granted_nonce {s s' : Storage} {now : ℕ} {t : BuyerTerms}
    (h : GrantStep now (some t) s s') :
    t.nonce = s.grantNonce t.accountId ∧ Consumed s' t.accountId t.nonce := by
  cases h with
  | add _ owner hnonce => exact ⟨hnonce, by simp [Consumed]⟩

theorem Inv.step {s s' : Storage} (hinv : Inv past s)
    (h : GrantStep call.time call.op.granted s s') : Inv (past ++ [call]) s' := by
  have hterms : grantedTerms (past ++ [call]) = grantedTerms past ++ call.op.granted.toList := by
    rw [grantedTerms, List.filterMap_append]
    cases hg : call.op.granted <;> simp [grantedTerms, hg]
  have hnew : ∀ t ∈ call.op.granted.toList,
      t.nonce = s.grantNonce t.accountId ∧ Consumed s' t.accountId t.nonce := by
    intro t ht
    rw [Option.mem_toList] at ht
    exact granted_nonce (ht ▸ h)
  refine ⟨?_, ?_, ?_⟩
  · intro t ht
    rw [hterms, List.mem_append] at ht
    rcases ht with ht | ht
    · exact step_consumed h (hinv.granted t ht)
    · exact (hnew t ht).2
  · intro a b hgranted
    rcases step_current h a b with ⟨hnonce, hat⟩ | ⟨t, ht, rfl, hnonce⟩
    · rw [hnonce]
      exact step_consumed h (hinv.current a b (hat ▸ hgranted))
    · rw [hnonce]
      exact (hnew t (by simp [ht])).2
  · rw [hterms, List.pairwise_append]
    refine ⟨hinv.distinct, ?_, ?_⟩
    · cases call.op.granted <;> simp
    · rintro t ht u hu ⟨ha, hn⟩
      -- a nonce that was used is not the account's next one
      have hlt := hinv.granted t ht
      rw [Consumed, ha, hn, (hnew u hu).1] at hlt
      exact lt_irrefl _ hlt

theorem run_inv (s : System) (hs : Inv ([] : List (Call c)) s.subs) (calls : List (Call c)) :
    Inv (accepted (step idOf) s calls) (run (step idOf) s calls).subs := by
  -- time plays no part here
  have hsorted : calls.Pairwise fun _ _ => 0 ≤ 0 := List.pairwise_of_forall fun _ _ => le_rfl
  refine run_invariant_accepted (fun _ past (s : System) => Inv past s.subs) ?_ ?_ hs
    (fun _ _ => le_rfl) hsorted
  · exact fun _ _ _ _ _ h => h
  · exact fun _ _ _ _ _ h ht => h.step (step_grants ht)

/-- The end of a grant stays while every call comes at or after it. -/
theorem run_ended (s : System) (hn : Consumed s.subs a n)
    (hlater : ∀ call ∈ later, s.subs.grantEnd a b n ≤ call.time) :
    (run (step idOf) s later).subs.grantEnd a b n = s.subs.grantEnd a b n := by
  induction later generalizing s with
  | nil => rfl
  | cons call later ih =>
    rw [run_cons]
    obtain ⟨s', hs', he⟩ | ⟨_, he⟩ := exec_cases (step idOf) s call
    · have hg := step_grants hs'
      have hend := step_ended hg hn (hlater call (by simp))
      rw [he, ← hend]
      exact ih s' (step_consumed hg hn) fun x hx => hend ▸ hlater x (by simp [hx])
    · rw [he]
      exact ih s hn fun x hx => hlater x (by simp [hx])

theorem run_replaced (s : System) (hn : Consumed s.subs a n) (hr : Replaced s.subs a b n) :
    (run (step idOf) s later).subs.grantEnd a b n = s.subs.grantEnd a b n := by
  refine (run_invariant (fun x : System => Consumed x.subs a n ∧ Replaced x.subs a b n ∧
    x.subs.grantEnd a b n = s.subs.grantEnd a b n) ?_ ⟨hn, hr, rfl⟩).2.2
  rintro x call y ⟨hn, hr, hend⟩ hy
  have hg := step_grants hy
  obtain ⟨hr', hend'⟩ := step_replaced hg hn hr
  exact ⟨step_consumed hg hn, hr', hend'.trans hend⟩

/-- A top-up is refused once the grant its subscription was funded under has ended. -/
theorem topUpFromAccount_reverts {digest : ℕ} {additions : List ServiceBudget}
    (hended : s.subs.grantEnd (s.subs.subscriptions n).accountId (s.subs.subscriptions n).buyer
      (s.subs.subscriptions n).grantNonce ≤ env.block.timestamp) :
    ∃ e, topUpFromAccount env s n additions digest = .error e := by
  cases h : topUpFromAccount env s n additions digest with
  | error e => exact ⟨e, rfl⟩
  | ok s' =>
    simp only [topUpFromAccount, requireTopUpOpen, requireFundedUnderLive, bind_eq_ok,
      require_eq_ok] at h
    obtain ⟨_, _, _, ⟨_, _, _, hbuyer, _⟩, _, _, _, _, _, _, _, ⟨_, hlive, _⟩, _⟩ := h
    rw [← hbuyer] at hlive
    exact absurd hlive (Nat.not_lt.mpr hended)

/-- Over any run from no grants: the end of a grant that has ended never changes again, a
grant that a new one replaces keeps the end it has at that moment, no two grants of an
account share a nonce, and no subscription is topped up once its grant has ended. -/
theorem run_ended_grants_stay_ended (idOf : ℕ → ℕ → ℕ) (publishing : Publishing.State)
    (qis : Staking.QueryInference) (holder : ℕ → Option ℕ) (calls : List (Call c)) :
    let s₀ := System.fresh publishing qis holder
    let s := run (step idOf) s₀ calls
    let granted := grantedTerms (accepted (step idOf) s₀ calls)
    (∀ t ∈ granted, ∀ later : List (Call c),
      (∀ call ∈ later, s.subs.grantEnd t.accountId t.buyer t.nonce ≤ call.time) →
      (run (step idOf) s later).subs.grantEnd t.accountId t.buyer t.nonce =
        s.subs.grantEnd t.accountId t.buyer t.nonce) ∧
    (∀ (call : Call c) (t : BuyerTerms) (s' : System), call.op.granted = some t →
      step idOf s call = .ok s' →
      let grant := s.subs.grants (t.accountId, t.buyer)
      grant.grantedAt ≠ 0 → ∀ later : List (Call c),
      (run (step idOf) s' later).subs.grantEnd t.accountId t.buyer grant.nonce =
        s.subs.grantEnd t.accountId t.buyer grant.nonce) ∧
    (granted.Pairwise fun t u => ¬(t.accountId = u.accountId ∧ t.nonce = u.nonce)) ∧
    ∀ (call : Call c) (id : ℕ) (additions : List ServiceBudget) (digest : ℕ),
      call.op = .topUpFromAccount id additions digest →
      let sub := s.subs.subscriptions id
      s.subs.grantEnd sub.accountId sub.buyer sub.grantNonce ≤ call.time →
      ∃ e, step idOf s call = .error e := by
  intro s₀ s granted
  have hinv : Inv (accepted (step idOf) s₀ calls) s.subs := run_inv s₀ initial_inv calls
  refine ⟨?_, ?_, hinv.distinct, ?_⟩
  · intro t ht later hlater
    exact run_ended s (hinv.granted t ht) hlater
  · intro call t s' ht hs' grant hgranted later
    have hg := step_grants hs'
    have hn : Consumed s.subs t.accountId grant.nonce := hinv.current _ _ hgranted
    rw [ht] at hg
    have hkept : Replaced s'.subs t.accountId t.buyer grant.nonce ∧
        s'.subs.grantEnd t.accountId t.buyer grant.nonce =
          s.subs.grantEnd t.accountId t.buyer grant.nonce := by
      generalize s'.subs = subs at hg
      cases hg with
      | add _ owner hnonce => exact addBuyer_keeps_end hnonce hn rfl rfl
    rw [← hkept.2]
    exact run_replaced s' (step_consumed hg hn) hkept.1
  · rintro ⟨env, op⟩ id additions digest rfl sub hended
    exact topUpFromAccount_reverts hended

end Runs

section Example

/-- Epochs of a thousand seconds. -/
def thousandSeconds : Chronos := ⟨1, 1000, Nat.one_pos, by decide⟩

theorem thousandSeconds_short : thousandSeconds.epochLength ≤ 1000 := le_rfl

/-- Every signature is good, and no treasury is wired. -/
def envAt (sender timestamp : ℕ) : Env thousandSeconds where
  block := Publishing.earlyBlock thousandSeconds_short timestamp
  protocolTreasury := 0
  protocolTreasuryFee := 0
  protocolTreasuryFee_le := Nat.zero_le _
  publishingConvictionEpochs := 3
  nodeExists := fun _ => true
  agentToAccountId := fun _ => 0
  transferSucceeds := fun _ => true
  sender
  validSignature := fun _ _ _ => true
  transferFrom := fun _ _ => true

/-- Owner 11 grants buyer 22, who funds a subscription, and revokes the grant at 40. -/
def revoked : List (Call thousandSeconds) :=
  [⟨envAt 11 5, .createAccount 1 3000 0⟩, ⟨envAt 0 6, .setActivationEpoch 1⟩,
    ⟨envAt 11 7, .setServiceSpending 1 true⟩,
    ⟨envAt 11 8, .addBuyer ⟨1, 22, 100, 500, 0⟩ [] [1]⟩,
    ⟨envAt 22 9, .fundFromAccount ⟨1, 1, 7, 0, [⟨3, 1, 10, 2⟩]⟩⟩,
    ⟨envAt 11 40, .removeBuyer 1 22⟩]

/-- The owner grants the buyer again, the buyer tries to top the subscription up, and the
account is sold. -/
def grantedAgain : List (Call thousandSeconds) :=
  [⟨envAt 11 50, .addBuyer ⟨1, 22, 100, 600, 2⟩ [] [1]⟩,
    ⟨envAt 22 60, .topUpFromAccount 1022 [⟨3, 1, 5, 2⟩] 0⟩,
    ⟨envAt 11 70, .transfer 1 33⟩]

/-- An id for a buyer and an epoch. -/
def pairId (buyer epoch : ℕ) : ℕ := 1000 * epoch + buyer

theorem run_ended_grants_stay_ended_revoked :
    let s := run (step pairId) (.fresh .empty .initial fun _ => none) revoked
    (s.subs.subscriptions 1022).cost = 10 ∧ s.subs.grantEnd 1 22 0 = 40 ∧
    (run (step pairId) s grantedAgain).subs.grantEnd 1 22 0 = 40 ∧
    (run (step pairId) s grantedAgain).subs.grantEnd 1 22 2 = 600 ∧
    (run (step pairId) s grantedAgain).holder 1 = some 33 := by
  intro s
  have hend : s.subs.grantEnd 1 22 0 = 40 := by decide +kernel
  have hgranted : (⟨1, 22, 100, 500, 0⟩ : BuyerTerms) ∈
      grantedTerms (accepted (step pairId) (.fresh .empty .initial fun _ => none) revoked) := by
    decide +kernel
  obtain ⟨hkept, _⟩ := run_ended_grants_stay_ended pairId .empty .initial (fun _ => none) revoked
  refine ⟨by decide +kernel, hend, ?_, by decide +kernel, by decide +kernel⟩
  exact (hkept _ hgranted grantedAgain (hend ▸ by decide)).trans hend

end Example

end Dkg.Subscriptions
