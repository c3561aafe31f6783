import Dkg.Subscriptions.Grants

/-!
What a stored subscription says about its budgets and its money, and that the funding booked
for an epoch is what the subscriptions of that epoch cost the accounts.
-/

namespace Dkg.Subscriptions
open Revert List Function

variable {c : Chronos} {idOf : ℕ → ℕ → ℕ} {env : Env c} {s s' : System} {call : Call c}
  {op : Op} {value maxBudgets : ℕ} {budgets stored additions appended : List ServiceBudget}
  {before : Option ServiceBudget}

theorem totalValue_append (budgets appended : List ServiceBudget) :
    totalValue (budgets ++ appended) = totalValue budgets + totalValue appended := by
  simp [totalValue]

/-- The budgets are for pairwise distinct services. -/
def Distinct (budgets : List ServiceBudget) : Prop := (budgets.map (·.serviceId)).Nodup

section Merge

/-- A budget comes after the last one that was read. -/
def After (before : Option ServiceBudget) (b : ServiceBudget) : Prop :=
  ∀ p, before = some p → p.serviceId < b.serviceId

theorem requireOrder_ok {b : ServiceBudget} {u : Unit} (h : requireOrder before b = .ok u) :
    After before b := by
  rintro p rfl
  exact require_eq_ok.mp h

theorem sumBudgets_ordered (h : sumBudgets before budgets = .ok value) :
    budgets.Pairwise (·.serviceId < ·.serviceId) ∧ ∀ b ∈ budgets, After before b := by
  induction budgets generalizing before value with
  | nil => exact ⟨.nil, by simp⟩
  | cons b budgets ih =>
    simp only [sumBudgets, bind_eq_ok] at h
    obtain ⟨_, horder, _, _, rest, hrest, _⟩ := h
    obtain ⟨hsorted, hafter⟩ := ih hrest
    have hfirst := requireOrder_ok horder
    refine ⟨.cons (fun b' hb' => hafter b' hb' b rfl) hsorted, ?_⟩
    rintro b' hb' p rfl
    rcases mem_cons.mp hb' with rfl | hb'
    · exact hfirst p rfl
    · exact (hfirst p rfl).trans (hafter b' hb' b rfl)

theorem distinct_of_ordered (h : budgets.Pairwise (·.serviceId < ·.serviceId)) :
    Distinct budgets :=
  (pairwise_map.mpr h).imp fun hlt => Nat.ne_of_lt hlt

theorem sum_set_zero {added : List ℕ} {i x : ℕ} (h : added[i]? = some 0) :
    (added.set i x).sum = added.sum + x := by
  induction added generalizing i with
  | nil => simp at h
  | cons y added ih =>
    cases i with
    | zero =>
      simp only [getElem?_cons_zero, Option.some.injEq] at h
      simp [h, add_comm]
    | succ i =>
      rw [set_cons_succ, sum_cons, sum_cons, ih h, add_assoc]

/-- The additions read so far, up to `before`: each was either added to a stored budget or
appended, and the stored budgets of later services are untouched. -/
structure Merged (stored : List ServiceBudget) (before : Option ServiceBudget) (t : TopUp) :
    Prop where
  value : t.value = t.added.sum + totalValue t.appended
  untouched : ∀ (i : ℕ) b, stored[i]? = some b → After before b → t.added[i]? = some 0
  new : ∀ b ∈ t.appended, ∀ old ∈ stored, old.serviceId ≠ b.serviceId
  ordered : t.appended.Pairwise (·.serviceId < ·.serviceId)
  upTo : ∀ b ∈ t.appended, ∃ p, before = some p ∧ b.serviceId ≤ p.serviceId

theorem Merged.initial (stored : List ServiceBudget) :
    Merged stored none ⟨0, List.replicate stored.length 0, []⟩ where
  value := by simp [totalValue]
  untouched i b hb _ := by
    have hi := (List.getElem?_eq_some_iff.mp hb).1
    simp [hi]
  new := by simp
  ordered := .nil
  upTo := by simp

variable {t t' : TopUp} {b old : ServiceBudget} {i : ℕ}

theorem Merged.raise (h : Merged stored before t) (hb : After before b)
    (hold : stored[i]? = some old) (hid : old.serviceId = b.serviceId) :
    Merged stored (some b)
      { t with value := t.value + b.value, added := t.added.set i b.value } where
  value := by
    have hzero := h.untouched i old hold fun p hp => hid ▸ hb p hp
    show t.value + b.value = (t.added.set i b.value).sum + totalValue t.appended
    rw [sum_set_zero hzero, h.value]
    omega
  untouched j b' hb' hafter := by
    have hlt : b.serviceId < b'.serviceId := hafter b rfl
    have hne : i ≠ j := by
      rintro rfl
      rw [hold, Option.some.injEq] at hb'
      subst hb'
      omega
    show (t.added.set i b.value)[j]? = some 0
    rw [getElem?_set_ne hne]
    exact h.untouched j b' hb' fun p hp => (hb p hp).trans hlt
  new := h.new
  ordered := h.ordered
  upTo b' hb' := by
    obtain ⟨p, hp, hle⟩ := h.upTo b' hb'
    exact ⟨b, rfl, hle.trans (hb p hp).le⟩

theorem Merged.append (h : Merged stored before t) (hb : After before b)
    (hnew : ∀ old ∈ stored, old.serviceId ≠ b.serviceId) :
    Merged stored (some b)
      { t with value := t.value + b.value, appended := t.appended ++ [b] } where
  value := by
    show t.value + b.value = t.added.sum + totalValue (t.appended ++ [b])
    rw [totalValue_append, h.value]
    simp [totalValue, add_assoc]
  untouched j b' hb' hafter := h.untouched j b' hb' fun p hp => (hb p hp).trans (hafter b rfl)
  new b' hb' := by
    rcases mem_append.mp hb' with hb' | hb'
    · exact h.new b' hb'
    · rw [mem_singleton.mp hb']
      exact hnew
  ordered := by
    refine pairwise_append.mpr ⟨h.ordered, pairwise_singleton _ _, ?_⟩
    intro b' hb' b'' hb''
    obtain ⟨p, hp, hle⟩ := h.upTo b' hb'
    rw [mem_singleton.mp hb'']
    exact hle.trans_lt (hb p hp)
  upTo b' hb' := by
    refine ⟨b, rfl, ?_⟩
    rcases mem_append.mp hb' with hb' | hb'
    · obtain ⟨p, hp, hle⟩ := h.upTo b' hb'
      exact hle.trans (hb p hp).le
    · rw [mem_singleton.mp hb']

theorem mergeAdditions_merged (ht : Merged stored before t)
    (h : mergeAdditions stored before additions t = .ok t') : ∃ last, Merged stored last t' := by
  induction additions generalizing before t with
  | nil =>
    obtain rfl := Except.ok.inj h
    exact ⟨before, ht⟩
  | cons b additions ih =>
    simp only [mergeAdditions, bind_eq_ok] at h
    obtain ⟨_, horder, h⟩ := h
    have hb := requireOrder_ok horder
    split at h
    · rename_i old i hfind
      simp only [bind_eq_ok] at h
      obtain ⟨_, _, _, _, h⟩ := h
      have hold := mem_zipIdx_iff_getElem?.mp (mem_of_find?_eq_some hfind)
      have hid := find?_some hfind
      exact ih (ht.raise hb hold (of_decide_eq_true hid)) h
    · rename_i hfind
      simp only [bind_eq_ok] at h
      obtain ⟨_, _, h⟩ := h
      refine ih (ht.append hb fun old hold => ?_) h
      obtain ⟨i, hi⟩ := mem_iff_getElem?.mp hold
      have hmem : (old, i) ∈ stored.zipIdx := mem_zipIdx_iff_getElem?.mpr hi
      have hother := find?_eq_none.mp hfind _ hmem
      exact of_decide_eq_false (Bool.eq_false_iff.mpr hother)

/-- What a top-up adds is exactly its value, and the budgets stay distinct. -/
theorem mergeTopUp_ok (h : mergeTopUp stored additions maxBudgets value = .ok t)
    (hstored : Distinct stored) :
    t.value = t.added.sum + totalValue t.appended ∧ Distinct (stored ++ t.appended) := by
  simp only [mergeTopUp, bind_eq_ok, pure_eq_ok] at h
  obtain ⟨_, _, t', ht', _, _, _, _, _, _, rfl⟩ := h
  obtain ⟨last, hmerged⟩ := mergeAdditions_merged (.initial stored) ht'
  refine ⟨hmerged.value, ?_⟩
  rw [Distinct, map_append]
  refine nodup_append.mpr ⟨hstored, distinct_of_ordered hmerged.ordered, ?_⟩
  rintro _ hx _ hy rfl
  obtain ⟨old, hold, rfl⟩ := mem_map.mp hx
  obtain ⟨b, hb, hid⟩ := mem_map.mp hy
  exact hmerged.new b hb old hold hid.symm

theorem addValue_value {added : ℕ} (h : Storage.addValue old added = .ok b) :
    b.value = old.value + added := by
  unfold Storage.addValue at h
  split_ifs at h with hzero
  · simp only [bind_eq_ok, Checked.add_eq_ok, pure_eq_ok] at h
    obtain ⟨_, ⟨_, rfl⟩, rfl⟩ := h
    rfl
  · obtain rfl := Except.ok.inj h
    omega

theorem addValues_total {added : List ℕ} {raised : List ServiceBudget}
    (h : Storage.addValues stored added = .ok raised) :
    totalValue raised = totalValue stored + added.sum := by
  induction stored generalizing added raised with
  | nil =>
    cases added with
    | nil =>
      obtain rfl := Except.ok.inj h
      rfl
    | cons x added => cases h
  | cons b stored ih =>
    cases added with
    | nil =>
      obtain rfl := Except.ok.inj h
      rfl
    | cons x added =>
      simp only [Storage.addValues, bind_eq_ok, pure_eq_ok] at h
      obtain ⟨b', hb', rest, hrest, rfl⟩ := h
      have hrest := ih hrest
      have hfirst := addValue_value hb'
      simp only [totalValue, map_cons, sum_cons] at hrest ⊢
      omega

theorem raised_ids {raised : List ServiceBudget} (h : List.Forall₂ Raised stored raised) :
    raised.map (·.serviceId) = stored.map (·.serviceId) := by
  induction h with
  | nil => rfl
  | cons hb _ ih => rw [map_cons, map_cons, hb.serviceId, ih]

theorem distinct_raised {raised : List ServiceBudget} (h : List.Forall₂ Raised stored raised)
    (hd : Distinct (stored ++ appended)) : Distinct (raised ++ appended) := by
  rw [Distinct, map_append] at hd ⊢
  rwa [raised_ids h]

end Merge

theorem raise_apply (funding : ℕ → ℕ) (epoch amount e : ℕ) :
    raise funding epoch amount e = (if epoch = e then amount else 0) + funding e := by
  by_cases he : epoch = e
  · rw [raise, he, update_self, if_pos rfl, add_comm]
  · rw [raise, update_of_ne (Ne.symm he), if_neg he, zero_add]

/-- The bound on the budgets of a subscription and the holders of the accounts stay. -/
def Keeps (s s' : System) : Prop :=
  s'.subs.maxBudgetsPerSubscription = s.subs.maxBudgetsPerSubscription ∧ s'.holder = s.holder

section Steps

/-- A record agrees with its budgets, and an account paid its cost out of two pots. -/
structure Agrees (sub : Subscription) (budgets : List ServiceBudget) : Prop where
  value : sub.value = totalValue budgets
  budgetCount : sub.budgetCount = budgets.length
  distinct : Distinct budgets
  split : sub.accountId ≠ 0 → sub.cost = sub.spentFromWindow + sub.spentFromTopUp

/-- Only such a call creates a wallet subscription. -/
def Op.fundsFromWallet : Op → Bool
  | .fundFromWallet _ => true
  | _ => false

/-- What a call can do to the records, their budgets and the booked funding. -/
inductive RecordStep (idOf : ℕ → ℕ → ℕ) (op : Op) : System → System → Prop
  | same {s s' : System} (hsubs : s'.subs.subscriptions = s.subs.subscriptions)
      (hbudgets : s'.subs.budgets = s.subs.budgets)
      (hfunding : s'.qis.accountFunding = s.qis.accountFunding) : RecordStep idOf op s s'
  | create {s s' : System} (sub : Subscription) (budgets : List ServiceBudget)
      (hnew : (s.subs.subscriptions (idOf sub.buyer sub.epoch)).startsAt = 0)
      (hempty : s.subs.budgets (idOf sub.buyer sub.epoch) = [])
      (hstart : sub.startsAt ≠ 0) (hagrees : Agrees sub budgets)
      (hwallet : sub.accountId = 0 → op.fundsFromWallet = true)
      (hsubs : s'.subs.subscriptions = update s.subs.subscriptions (idOf sub.buyer sub.epoch) sub)
      (hbudgets : s'.subs.budgets = update s.subs.budgets (idOf sub.buyer sub.epoch) budgets)
      (hfunding : s'.qis.accountFunding =
        raise s.qis.accountFunding sub.epoch (charged sub.accountId sub.cost)) :
      RecordStep idOf op s s'
  | topUp {s s' : System} (id cost : ℕ) (sub : Subscription) (raised appended : List ServiceBudget)
      (hold : (s.subs.subscriptions id).startsAt ≠ 0)
      (hstart : sub.startsAt = (s.subs.subscriptions id).startsAt)
      (hbuyer : sub.buyer = (s.subs.subscriptions id).buyer)
      (hepoch : sub.epoch = (s.subs.subscriptions id).epoch)
      (haccount : sub.accountId = (s.subs.subscriptions id).accountId)
      (hcost : sub.cost = (s.subs.subscriptions id).cost + cost)
      (hagrees : Agrees (s.subs.subscriptions id) (s.subs.budgets id) →
        Agrees sub (raised ++ appended))
      (hraised : List.Forall₂ Raised (s.subs.budgets id) raised)
      (hsubs : s'.subs.subscriptions = update s.subs.subscriptions id sub)
      (hbudgets : s'.subs.budgets = update s.subs.budgets id (raised ++ appended))
      (hfunding : s'.qis.accountFunding =
        raise s.qis.accountFunding sub.epoch (charged sub.accountId cost)) : RecordStep idOf op s s'

theorem fundingValue_agrees (h : fundingValue budgets maxBudgets = .ok value)
    (hmax : maxBudgets ≤ 32) :
    value = totalValue budgets ∧ budgets.length % 2 ^ 8 = budgets.length ∧ Distinct budgets := by
  have hvalue := (fundingValue_ok h).1
  simp only [fundingValue, bind_eq_ok, require_eq_ok] at h
  obtain ⟨_, hcount, total, htotal, -⟩ := h
  exact ⟨hvalue, Nat.mod_eq_of_lt (by omega), distinct_of_ordered (sumBudgets_ordered htotal).1⟩

theorem Funded.records {op : Op} {sub : Subscription} {paid : ℕ}
    (h : Funded idOf sub budgets paid s s') (hmax : s.subs.maxBudgetsPerSubscription ≤ 32)
    (hpaid : paid = charged sub.accountId sub.cost)
    (hwallet : sub.accountId = 0 → op.fundsFromWallet = true) :
    RecordStep idOf op s s' ∧ Keeps s s' := by
  obtain ⟨hvalue, hcount, hdistinct⟩ := fundingValue_agrees h.value hmax
  refine ⟨.create sub budgets h.new h.empty h.start
    ⟨hvalue, h.budgetCount.trans hcount, hdistinct, h.split⟩ hwallet ?_ ?_ (hpaid ▸ h.funding), ?_,
    h.holder⟩
  all_goals rw [h.subs]

theorem countWith_ok {sub : Subscription} {n : ℕ}
    (h : Storage.countWith sub (budgets ++ appended) appended = .ok n)
    (hold : sub.budgetCount = budgets.length) : n = (budgets ++ appended).length := by
  unfold Storage.countWith at h
  split_ifs at h with hnone
  · simp only [bind_eq_ok, pure_eq_ok] at h
    obtain ⟨_, _, rfl⟩ := h
    rfl
  · obtain rfl := Except.ok.inj h
    rw [length_append, hold]
    omega

theorem ToppedUp.records {id : ℕ} {t : TopUp} {a : TopUpAmounts}
    (h : ToppedUp id t a additions s s') : RecordStep idOf op s s' ∧ Keeps s s' := by
  obtain ⟨digest, happly⟩ := h.applied
  obtain ⟨hold, raised, count, hraised, hcount, hs'⟩ := applyTopUp_ok happly
  have hforall := addValues_raised hraised
  refine ⟨.topUp id a.cost ((s.subs.subscriptions id).topUp a count digest) raised t.appended hold
    rfl rfl rfl rfl rfl ?_ hforall (by rw [hs']) (by rw [hs']) h.funding, by rw [hs'], h.holder⟩
  intro hagrees
  obtain ⟨hvalue, hdistinct⟩ := mergeTopUp_ok h.merged hagrees.distinct
  refine ⟨?_, ?_, distinct_raised hforall hdistinct, fun haccount => ?_⟩
  · rw [totalValue_append, addValues_total hraised, ← hagrees.value, add_assoc, ← hvalue, ← h.value]
    rfl
  · exact countWith_ok hcount (hagrees.budgetCount.trans hforall.length_eq)
  · have hcost := hagrees.split haccount
    have hmore := h.split haccount
    dsimp only [Subscription.topUp]
    omega

/-- The bound on the budgets of a subscription stays small, and no one holds account 0. -/
structure Bounded (s : System) : Prop where
  maxBudgets : s.subs.maxBudgetsPerSubscription ≤ 32
  holder : s.holder 0 = none

theorem step_records (hs : Bounded s) (hmint : call.op.MintsFromOne)
    (h : step idOf s call = .ok s') : RecordStep idOf call.op s s' ∧ Bounded s' := by
  have hkeep : RecordStep idOf call.op s s' ∧ Keeps s s' →
      RecordStep idOf call.op s s' ∧ Bounded s' := fun ⟨hstep, hmax, hholder⟩ =>
    ⟨hstep, hmax.trans_le hs.maxBudgets, by rw [hholder, hs.holder]⟩
  cases hop : call.op.writesRecord with
  | false =>
    have hquiet := (step_quiet hop h).1
    exact ⟨.same hquiet.subscriptions hquiet.budgets hquiet.accountFunding,
      hquiet.maxBudgets hs.maxBudgets, hquiet.holder hmint hs.holder⟩
  | true =>
    obtain ⟨env, op⟩ := call
    cases op with
    | fundFromAccount r =>
      obtain ⟨sub, hheld, h⟩ := fundFromAccount_ok h
      have haccount : sub.accountId ≠ 0 := fun hzero => hheld (hzero ▸ hs.holder)
      exact hkeep (h.records hs.maxBudgets (if_neg haccount).symm fun hzero => absurd hzero haccount)
    | topUpFromAccount id additions digest =>
      obtain ⟨_, _, h⟩ := topUpFromAccount_ok h
      exact hkeep h.records
    | fundFromWallet r =>
      obtain ⟨sub, hzero, h⟩ := fundFromWallet_ok h
      exact hkeep (h.records hs.maxBudgets (if_pos hzero).symm fun _ => rfl)
    | topUpFromWallet id additions digest =>
      obtain ⟨_, _, h⟩ := topUpFromWallet_ok h
      exact hkeep h.records
    | _ => cases hop

end Steps

section Invariant

/-- The cost of an epoch to the accounts, over the subscriptions in `ids`. -/
def accountCost (subscriptions : ℕ → Subscription) (ids : Finset ℕ) (epoch : ℕ) : ℕ :=
  ∑ id ∈ ids with (subscriptions id).accountId ≠ 0 ∧ (subscriptions id).epoch = epoch,
    (subscriptions id).cost

/-- The records agree with their budgets and sit under the id of their buyer and epoch; the
booked funding is the cost of the subscriptions in `ids`, which are all there are. -/
structure Kept (idOf : ℕ → ℕ → ℕ) (ids : Finset ℕ) (s : System) : Prop where
  bounded : Bounded s
  stored : ∀ id, id ∈ ids ↔ (s.subs.subscriptions id).startsAt ≠ 0
  agrees : ∀ id ∈ ids, Agrees (s.subs.subscriptions id) (s.subs.budgets id)
  named : ∀ id ∈ ids, id = idOf (s.subs.subscriptions id).buyer (s.subs.subscriptions id).epoch
  funding : ∀ e, s.qis.accountFunding e = accountCost s.subs.subscriptions ids e

variable {ids : Finset ℕ}

theorem accountCost_congr {f g : ℕ → Subscription} (h : ∀ id ∈ ids, f id = g id) (e : ℕ) :
    accountCost f ids e = accountCost g ids e := by
  simp only [accountCost, Finset.sum_filter]
  refine Finset.sum_congr rfl fun id hid => ?_
  rw [h id hid]

/-- What one subscription adds to the cost of an epoch. -/
theorem accountCost_insert {f : ℕ → Subscription} (id e : ℕ) :
    accountCost f (insert id ids) e =
      (if (f id).epoch = e then charged (f id).accountId (f id).cost else 0) +
        accountCost f (ids.erase id) e := by
  simp only [accountCost, Finset.sum_filter]
  rw [← Finset.insert_erase (Finset.mem_insert_self id ids), Finset.erase_insert_eq_erase,
    Finset.sum_insert (Finset.notMem_erase id ids)]
  congr 1
  unfold charged
  split_ifs <;> first | rfl | omega

theorem Kept.same (hk : Kept idOf ids s) (hb : Bounded s')
    (hsubs : s'.subs.subscriptions = s.subs.subscriptions)
    (hbudgets : s'.subs.budgets = s.subs.budgets)
    (hfunding : s'.qis.accountFunding = s.qis.accountFunding) : Kept idOf ids s' := by
  refine ⟨hb, ?_, ?_, ?_, ?_⟩
  · rw [hsubs]
    exact hk.stored
  · rw [hsubs, hbudgets]
    exact hk.agrees
  · rw [hsubs]
    exact hk.named
  · rw [hsubs, hfunding]
    exact hk.funding

/-- One record is written, with the cost it adds to its epoch. -/
theorem Kept.write {id : ℕ} {sub : Subscription} (hk : Kept idOf ids s) (hb : Bounded s')
    (hstart : sub.startsAt ≠ 0) (hagrees : Agrees sub budgets)
    (hnamed : id = idOf sub.buyer sub.epoch)
    (hsubs : s'.subs.subscriptions = update s.subs.subscriptions id sub)
    (hbudgets : s'.subs.budgets = update s.subs.budgets id budgets)
    (hfunding : ∀ e, s'.qis.accountFunding e =
      (if sub.epoch = e then charged sub.accountId sub.cost else 0) +
        accountCost s.subs.subscriptions (ids.erase id) e) : Kept idOf (insert id ids) s' := by
  have hself : s'.subs.subscriptions id = sub := by rw [hsubs, update_self]
  have hother : ∀ x, x ≠ id → s'.subs.subscriptions x = s.subs.subscriptions x := fun x hx => by
    rw [hsubs, update_of_ne hx]
  refine ⟨hb, fun x => ?_, fun x hx => ?_, fun x hx => ?_, fun e => ?_⟩
  · by_cases hx : x = id
    · subst hx
      simp [hself, hstart]
    · rw [Finset.mem_insert, hother x hx, hk.stored x]
      simp [hx]
  · by_cases hne : x = id
    · rw [hne, hself, hbudgets, update_self]
      exact hagrees
    · rw [hother x hne, hbudgets, update_of_ne hne]
      exact hk.agrees x (Finset.mem_of_mem_insert_of_ne hx hne)
  · by_cases hne : x = id
    · rw [hne, hself]
      exact hnamed
    · rw [hother x hne]
      exact hk.named x (Finset.mem_of_mem_insert_of_ne hx hne)
  · have hrest : accountCost s'.subs.subscriptions (ids.erase id) e =
        accountCost s.subs.subscriptions (ids.erase id) e :=
      accountCost_congr (fun x hx => hother x (Finset.ne_of_mem_erase hx)) e
    rw [accountCost_insert, hself, hrest]
    exact hfunding e

variable {calls : List (Call c)}

/-- The same, where wallet subscriptions come from calls of the run. -/
def KeptBy (idOf : ℕ → ℕ → ℕ) (calls : List (Call c)) (s : System) : Prop :=
  ∃ ids, Kept idOf ids s ∧ ∀ id ∈ ids, (s.subs.subscriptions id).accountId = 0 →
    ∃ call ∈ calls, call.op.fundsFromWallet = true

theorem KeptBy.step (hk : KeptBy idOf calls s) (hcall : call ∈ calls)
    (hmint : call.op.MintsFromOne) (h : Subscriptions.step idOf s call = .ok s') :
    KeptBy idOf calls s' := by
  obtain ⟨ids, hk, hwallets⟩ := hk
  obtain ⟨hrecord, hb⟩ := step_records hk.bounded hmint h
  have hwrite : ∀ {id sub}, s'.subs.subscriptions = update s.subs.subscriptions id sub →
      (sub.accountId = 0 → ∃ call ∈ calls, call.op.fundsFromWallet = true) →
      ∀ x ∈ insert id ids, (s'.subs.subscriptions x).accountId = 0 →
        ∃ call ∈ calls, call.op.fundsFromWallet = true := by
    intro id sub hsubs hsub x hx
    by_cases hself : x = id
    · rw [hsubs, hself, update_self]
      exact hsub
    · rw [hsubs, update_of_ne hself]
      exact hwallets x (Finset.mem_of_mem_insert_of_ne hx hself)
  cases hrecord with
  | same hsubs hbudgets hfunding =>
    exact ⟨ids, hk.same hb hsubs hbudgets hfunding, by rwa [hsubs]⟩
  | create sub budgets hnew _ hstart hagrees hwallet hsubs hbudgets hfunding =>
    have hout : idOf sub.buyer sub.epoch ∉ ids := fun hmem => (hk.stored _).mp hmem hnew
    refine ⟨_, hk.write hb hstart hagrees rfl hsubs hbudgets fun e => ?_,
      hwrite hsubs fun hzero => ⟨call, hcall, hwallet hzero⟩⟩
    rw [hfunding, raise_apply, hk.funding, Finset.erase_eq_of_notMem hout]
  | topUp id cost sub raised appended hold hstart hbuyer hepoch haccount hcost hagrees _ hsubs
      hbudgets hfunding =>
    have hin : id ∈ ids := (hk.stored id).mpr hold
    have hnamed : id = idOf sub.buyer sub.epoch := by
      rw [hbuyer, hepoch]
      exact hk.named id hin
    refine ⟨_, hk.write hb (hstart.trans_ne hold) (hagrees (hk.agrees id hin)) hnamed hsubs hbudgets
      fun e => ?_, hwrite hsubs (haccount ▸ hwallets id hin)⟩
    have hbefore := hk.funding e
    rw [← Finset.insert_eq_self.mpr hin, accountCost_insert] at hbefore
    rw [hfunding, raise_apply, hbefore, hcost, haccount, hepoch]
    unfold charged
    split_ifs <;> omega

/-- A stored budget stays at its index, for the same service and terms. -/
theorem run_budget_raised (idOf : ℕ → ℕ → ℕ) (calls : List (Call c)) {id i : ℕ}
    {b : ServiceBudget} (hb : (s.subs.budgets id)[i]? = some b) :
    ∃ b', ((run (step idOf) s calls).subs.budgets id)[i]? = some b' ∧ Raised b b' := by
  refine run_invariant (fun t : System => ∃ b', (t.subs.budgets id)[i]? = some b' ∧ Raised b b')
    ?_ ⟨b, hb, .refl b⟩
  rintro s call t ⟨b', hb', hraised⟩ hstep
  obtain ⟨b'', hb'', hmore⟩ := (step_budgets hstep).raised hb'
  exact ⟨b'', hb'', hraised.trans hmore⟩

/-- Along any calls, the records agree with their budgets, with one record for a buyer and an
epoch; stored budgets keep their place and their terms, and the booked funding of an epoch is
what its subscriptions cost the accounts. -/
theorem run_records_agree (idOf : ℕ → ℕ → ℕ) (publishing : Publishing.State)
    (qis : Staking.QueryInference) (holder : ℕ → Option ℕ) (calls : List (Call c))
    (hfunding : ∀ e, qis.accountFunding e = 0) (hholder : holder 0 = none)
    (hmint : ∀ call ∈ calls, call.op.MintsFromOne) :
    let s := run (step idOf) (.fresh publishing qis holder) calls
    (∀ id, (s.subs.subscriptions id).startsAt ≠ 0 → let sub := s.subs.subscriptions id
      sub.value = totalValue (s.subs.budgets id) ∧ sub.budgetCount = (s.subs.budgets id).length ∧
        ((s.subs.budgets id).map (·.serviceId)).Nodup ∧
        (sub.accountId ≠ 0 → sub.cost = sub.spentFromWindow + sub.spentFromTopUp) ∧
        (sub.accountId = 0 → ∃ call ∈ calls, call.op.fundsFromWallet = true) ∧
        ∀ id', (s.subs.subscriptions id').startsAt ≠ 0 →
          (s.subs.subscriptions id').buyer = sub.buyer →
          (s.subs.subscriptions id').epoch = sub.epoch → id' = id) ∧
    (∀ id (i : ℕ) (b : ServiceBudget), (s.subs.budgets id)[i]? = some b → ∀ later : List (Call c),
      ∃ b' : ServiceBudget, ((run (step idOf) s later).subs.budgets id)[i]? = some b' ∧
        b'.serviceId = b.serviceId ∧ b'.serviceClass = b.serviceClass ∧
        b'.maxPricePerUnit = b.maxPricePerUnit ∧ b.value ≤ b'.value) ∧
    ∃ ids : Finset ℕ, (∀ id, id ∈ ids ↔ (s.subs.subscriptions id).startsAt ≠ 0) ∧
      ∀ e, s.qis.accountFunding e = ∑ id ∈ ids with (s.subs.subscriptions id).accountId ≠ 0 ∧
          (s.subs.subscriptions id).epoch = e, (s.subs.subscriptions id).cost := by
  intro s
  have hstart : Kept idOf ∅ (.fresh publishing qis holder) := by
    have hmax : Storage.initial.maxBudgetsPerSubscription ≤ 32 := by decide
    refine ⟨⟨hmax, hholder⟩, ?_, by simp, by simp, fun e => ?_⟩
    · simp [System.fresh, Storage.initial, Subscription.none]
    · rw [accountCost, Finset.filter_empty, Finset.sum_empty]
      exact hfunding e
  obtain ⟨ids, hk, hwallets⟩ : KeptBy idOf calls s :=
    run_invariant_of_mem (KeptBy idOf calls)
      (fun call hcall _ _ hs hstep => hs.step hcall (hmint call hcall) hstep)
      ⟨∅, hstart, by simp⟩
  refine ⟨fun id hid => ?_, fun id i b hb later => ?_, ids, hk.stored, hk.funding⟩
  · have hmem := (hk.stored id).mpr hid
    obtain ⟨hvalue, hcount, hdistinct, hsplit⟩ := hk.agrees id hmem
    refine ⟨hvalue, hcount, hdistinct, hsplit, hwallets id hmem, fun id' hid' hbuyer hepoch => ?_⟩
    rw [hk.named id' ((hk.stored id').mpr hid'), hbuyer, hepoch, ← hk.named id hmem]
  · obtain ⟨b', hb', hraised⟩ := run_budget_raised idOf later hb
    exact ⟨b', hb', hraised.serviceId, hraised.serviceClass, hraised.maxPricePerUnit,
      hraised.value_le⟩

/-- Buyer 22 funds two services and tops up one of them and a third. -/
def toppedUpTwice : List (Call thousandSeconds) :=
  [⟨envAt 11 5, .createAccount 1 3000 0⟩, ⟨envAt 0 6, .setActivationEpoch 1⟩,
    ⟨envAt 11 7, .setServiceSpending 1 true⟩,
    ⟨envAt 11 8, .addBuyer ⟨1, 22, 100, 5000, 0⟩ [] [1]⟩,
    ⟨envAt 22 9, .fundFromAccount ⟨1, 1, 7, 0, [⟨3, 1, 10, 2⟩, ⟨8, 2, 6, 1⟩]⟩⟩,
    ⟨envAt 22 10, .topUpFromAccount 1022 [⟨3, 1, 5, 2⟩, ⟨4, 1, 7, 2⟩] 0⟩,
    ⟨envAt 22 11, .topUpFromAccount 1022 [⟨4, 1, 2, 2⟩] 0⟩]

theorem run_records_agree_toppedUpTwice :
    let s := run (step pairId) (.fresh .empty .initial fun _ => none) toppedUpTwice
    (s.subs.subscriptions 1022).value = totalValue (s.subs.budgets 1022) ∧
      s.subs.budgets 1022 = [⟨3, 1, 15, 2⟩, ⟨8, 2, 6, 1⟩, ⟨4, 1, 9, 2⟩] ∧
      s.qis.accountFunding 1 = 30 ∧ s.qis.accountFunding 2 = 0 := by
  intro s
  have hmint : ∀ call ∈ toppedUpTwice, call.op.MintsFromOne := by
    simp [toppedUpTwice, Op.MintsFromOne]
  obtain ⟨hagree, -⟩ := run_records_agree pairId .empty .initial (fun _ => none) toppedUpTwice
    (fun _ => rfl) rfl hmint
  exact ⟨(hagree 1022 (by decide +kernel)).1, by decide +kernel, by decide +kernel,
    by decide +kernel⟩

end Invariant

end Dkg.Subscriptions
