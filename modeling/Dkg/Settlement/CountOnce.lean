import Dkg.Settlement.Receipts
import Dkg.Subscriptions.Grants

/-!
A receipt nonce counts at most once and a budget is never over-counted, over any run of
batches between fundings and top-ups.
-/

namespace Dkg.Settlement
open Revert Subscriptions List Function

variable {c : Chronos} {idOf : ℕ → ℕ → ℕ} {signedBy : ServiceRequest → ℕ → ℕ → ℕ → Bool}
  {env : Env c} {b : Batch} {ctx : GroupContext} {s s' : State} {call : Call c}
  {calls past later : List (Call c)} {g j sub seller x : ℕ} {k : ℕ × ℕ}

section Items

/-- The nonce is marked for the seller in the subscription. -/
def Used (m : ℕ × ℕ × ℕ → ℕ) (sub seller x : ℕ) : Prop :=
  BitWords.Mem 8 (nonceKey sub seller) m x

theorem nonceKey_injective : Injective (nonceKey sub seller) := by
  intro w w' h
  simpa [nonceKey] using h

theorem nonce_word_ne (it : ReceiptItem) : it.nonce >>> 8 ≠ NONE := by
  have hlt := it.nonce_lt
  rw [Nat.shiftRight_eq_div_pow, NONE]
  omega

/-- The bitmap once the cached word is written back. -/
def Scan.marks (sub seller : ℕ) (scan : Scan) : ℕ × ℕ × ℕ → ℕ :=
  BitWords.flush (nonceKey sub seller) scan.nonceBitmap scan.cache

/-- The cached word is the stored one. -/
def Scan.Ok (sub seller : ℕ) (scan : Scan) : Prop :=
  BitWords.Valid NONE (nonceKey sub seller) scan.nonceBitmap scan.cache

variable {scan scan' : Scan} {it : ReceiptItem} {items : List ReceiptItem}

theorem acceptItem_ok (h : acceptItem signedBy env b ctx g sub j scan it = .ok scan') :
    let r := BitWords.seek (nonceKey sub b.seller) scan.nonceBitmap scan.cache (it.nonce >>> 8)
    (r.2.stored ||| r.2.used) &&& BitWords.bit 8 it.nonce = 0 ∧
      scan' = ⟨r.1, BitWords.mark 8 r.2 it.nonce, scan.value + it.valueWei⟩ := by
  simp only [acceptItem, bind_eq_ok, require_eq_ok, pure_eq_ok] at h
  obtain ⟨_, _, _, _, _, hcheck, _, _, _, _, _, _, _, _, rfl⟩ := h
  exact ⟨hcheck, rfl⟩

/-- One item marks its nonce, which was not marked before. -/
theorem acceptItem_spec (hok : scan.Ok sub b.seller)
    (h : acceptItem signedBy env b ctx g sub j scan it = .ok scan') :
    scan'.Ok sub b.seller ∧ ¬Used (scan.marks sub b.seller) sub b.seller it.nonce ∧
      (∀ x, Used (scan'.marks sub b.seller) sub b.seller x ↔
        Used (scan.marks sub b.seller) sub b.seller x ∨ x = it.nonce) ∧
      (∀ i, (∀ w, i ≠ nonceKey sub b.seller w) → scan'.nonceBitmap i = scan.nonceBitmap i) ∧
      scan'.value = scan.value + it.valueWei := by
  obtain ⟨hcheck, rfl⟩ := acceptItem_ok h
  have hvalid := BitWords.seek_valid hok (nonce_word_ne it)
  have hword : (BitWords.seek (nonceKey sub b.seller) scan.nonceBitmap scan.cache
      (it.nonce >>> 8)).2.word = it.nonce >>> 8 := BitWords.seek_word
  refine ⟨?_, ?_, ?_, ?_, rfl⟩
  · exact BitWords.mark_valid hvalid (by rw [hword]; exact nonce_word_ne it)
  · rw [BitWords.mark_check hvalid hword (nonce_word_ne it), BitWords.flush_seek] at hcheck
    exact hcheck
  · intro x
    rw [Used, Scan.marks, BitWords.mem_flush_mark nonceKey_injective hword, BitWords.flush_seek]
    rfl
  · intro i hi
    exact BitWords.seek_of_ne hi

/-- The items of a group are new and distinct, and they are what the group marks. -/
theorem acceptItems_spec (hok : scan.Ok sub b.seller)
    (h : acceptItems signedBy env b ctx g sub j scan items = .ok scan') :
    (items.map (·.nonce)).Nodup ∧
      (∀ it ∈ items, ¬Used (scan.marks sub b.seller) sub b.seller it.nonce) ∧
      (∀ x, Used (scan'.marks sub b.seller) sub b.seller x ↔
        Used (scan.marks sub b.seller) sub b.seller x ∨ x ∈ items.map (·.nonce)) ∧
      (∀ i, (∀ w, i ≠ nonceKey sub b.seller w) → scan'.nonceBitmap i = scan.nonceBitmap i) ∧
      scan'.value = scan.value + (items.map (·.valueWei)).sum := by
  induction items generalizing scan j with
  | nil =>
    obtain rfl := Except.ok.inj h
    simp
  | cons it items ih =>
    simp only [acceptItems, bind_eq_ok] at h
    obtain ⟨mid, hmid, h⟩ := h
    obtain ⟨hok', hnew, hmarks, hother, hvalue⟩ := acceptItem_spec hok hmid
    obtain ⟨hnodup, hfresh, hmarks', hother', hvalue'⟩ := ih hok' h
    refine ⟨?_, ?_, ?_, ?_, ?_⟩
    · rw [map_cons, nodup_cons]
      refine ⟨fun hmem => ?_, hnodup⟩
      -- a repeated nonce is marked by the time its second item comes
      obtain ⟨it', hit', heq⟩ := mem_map.mp hmem
      exact hfresh it' hit' ((hmarks _).mpr (.inr heq))
    · intro it' hit'
      rcases mem_cons.mp hit' with rfl | hit'
      · exact hnew
      · exact fun hused => hfresh it' hit' ((hmarks _).mpr (.inl hused))
    · intro x
      rw [hmarks', hmarks, map_cons, mem_cons, or_assoc]
    · intro i hi
      rw [hother' i hi, hother i hi]
    · rw [hvalue', hvalue, map_cons, sum_cons, add_assoc]

end Items

section Groups

/-- What a budget was funded with; nothing for no budget. -/
def budgetValue (subs : Storage) (k : ℕ × ℕ) : ℕ :=
  match (subs.budgets k.1)[k.2]? with
  | some budget => budget.value
  | none => 0

/-- A group of items as it was submitted, with its seller. -/
structure Origin where
  subscriptionId : ℕ
  budgetIndex : ℕ
  seller : ℕ
  items : List ReceiptItem

def Landed.origin (l : Landed) : Origin := ⟨l.subscriptionId, l.budgetIndex, l.seller, l.items⟩

def ReceiptGroup.origin (seller : ℕ) (group : ReceiptGroup) : Origin :=
  ⟨group.subscriptionId, group.budgetIndex, seller, group.items⟩

def Origin.nonces (o : Origin) : List (ℕ × ℕ × ℕ) :=
  o.items.map fun it => (o.subscriptionId, o.seller, it.nonce)

/-- What an accepted group does. -/
structure GroupStep (seller : ℕ) (group : ReceiptGroup) (s s' : State) : Prop where
  subs : s'.system.subs = s.system.subs
  recorded : (s.system.subs.subscriptions group.subscriptionId).startsAt ≠ 0
  nodup : (group.items.map (·.nonce)).Nodup
  fresh : ∀ it ∈ group.items, ¬Used s.nonceBitmap group.subscriptionId seller it.nonce
  used : ∀ sub seller' x, Used s'.nonceBitmap sub seller' x ↔ Used s.nonceBitmap sub seller' x ∨
      (sub = group.subscriptionId ∧ seller' = seller ∧ x ∈ group.items.map (·.nonce))
  landed : ∃ counted factor, let k := (group.subscriptionId, group.budgetIndex)
    let value := (group.items.map (·.valueWei)).sum
    counted = min value (budgetValue s.system.subs k - s.budgetUsed k) ∧
    s'.landed = s.landed ++
      [⟨group.subscriptionId, group.budgetIndex, seller, group.items, value, counted, factor⟩] ∧
    s'.budgetUsed = update s.budgetUsed k (s.budgetUsed k + uint96 counted)

theorem contextOf_ok {i : ℕ} {subs : Storage} (h : contextOf b subs g sub i = .ok ctx) :
    (subs.subscriptions sub).startsAt ≠ 0 ∧ ctx.budgetValue = budgetValue subs (sub, i) := by
  simp only [contextOf, bind_eq_ok, require_eq_ok] at h
  obtain ⟨_, hstart, _, _, _, _, h⟩ := h
  refine ⟨hstart, ?_⟩
  unfold budgetValue
  split at h
  · cases h
  · rename_i budget hbudget
    rw [pure_eq_ok] at h
    subst h
    simp only [hbudget]

theorem countReceipts_ok {i epoch counted served weighted : ℕ}
    (h : countReceipts env s sub i seller epoch counted served weighted = .ok s') :
    s'.system.subs = s.system.subs ∧ s'.landed = s.landed ∧
      s'.budgetUsed = update s.budgetUsed (sub, i) (s.budgetUsed (sub, i) + counted) := by
  simp only [countReceipts, bind_eq_ok, Checked.add_eq_ok, pure_eq_ok] at h
  obtain ⟨_, _, _, ⟨_, rfl⟩, rfl⟩ := h
  exact ⟨rfl, rfl, rfl⟩

theorem acceptGroup_step {group : ReceiptGroup} (h : acceptGroup signedBy env b g s group = .ok s') :
    GroupStep b.seller group s s' := by
  simp only [acceptGroup, bind_eq_ok, require_eq_ok, Checked.sub_eq_ok, pure_eq_ok] at h
  obtain ⟨_, _, ctx, hctx, scan, hscan, left, ⟨hle, rfl⟩, _, _, _, _, t, ht, rfl⟩ := h
  obtain ⟨hrecorded, hvalue⟩ := contextOf_ok hctx
  obtain ⟨hsubs, hlanded, hused⟩ := countReceipts_ok ht
  have hok : Scan.Ok group.subscriptionId b.seller ⟨s.nonceBitmap, ⟨NONE, 0, 0⟩, 0⟩ :=
    ⟨fun _ => rfl, fun h => absurd rfl h⟩
  obtain ⟨hnodup, hfresh, hmarks, hother, hsum⟩ := acceptItems_spec hok hscan
  refine ⟨hsubs, hrecorded, hnodup, hfresh, ?_, ?_⟩
  · intro sub seller' x
    by_cases hkey : sub = group.subscriptionId ∧ seller' = b.seller
    · obtain ⟨rfl, rfl⟩ := hkey
      exact (hmarks x).trans (or_congr_right (by simp))
    · -- another seller's words, or another subscription's, are not written
      have hne : ∀ w w', nonceKey sub seller' w ≠ nonceKey group.subscriptionId b.seller w' := by
        intro w w' heq
        simp only [nonceKey, Prod.mk.injEq] at heq
        exact hkey ⟨heq.1, heq.2.1⟩
      simp only [Used, BitWords.Mem]
      rw [BitWords.flush_of_ne (hne _), hother _ (hne _)]
      exact ⟨.inl, fun h => h.resolve_right fun h => hkey ⟨h.1, h.2.1⟩⟩
  · rw [zero_add] at hsum
    refine ⟨_, b.stakeFactor18, ?_, by rw [hlanded, hsum], hused⟩
    rw [hvalue, hsum]
    split <;> omega

end Groups

section Invariant

/-- The landed groups of a budget. -/
def landedOf (s : State) (k : ℕ × ℕ) : List Landed :=
  s.landed.filter fun l => (l.subscriptionId, l.budgetIndex) = k

def landedValue (s : State) (k : ℕ × ℕ) : ℕ := ((landedOf s k).map (·.value)).sum

def landedCounted (s : State) (k : ℕ × ℕ) : ℕ := ((landedOf s k).map (·.counted)).sum

def nonces (os : List Origin) : List (ℕ × ℕ × ℕ) := os.flatMap Origin.nonces

/-- The nonces that landed are those marked, each landed once; what a budget counted is
what it has used, within its value. -/
structure Inv (s : State) : Prop where
  marked : ∀ sub seller x,
    (sub, seller, x) ∈ nonces (s.landed.map Landed.origin) ↔ Used s.nonceBitmap sub seller x
  nodup : (nonces (s.landed.map Landed.origin)).Nodup
  counted : ∀ k, landedCounted s k = s.budgetUsed k
  used_le : ∀ k, s.budgetUsed k ≤ budgetValue s.system.subs k
  value_lt : ∀ k, budgetValue s.system.subs k < 2 ^ 96
  recorded : ∀ l ∈ s.landed, (s.system.subs.subscriptions l.subscriptionId).startsAt ≠ 0

theorem fresh_inv (publishing : Publishing.State) (qis : Staking.QueryInference)
    (holder : ℕ → Option ℕ) : Inv (.fresh publishing qis holder) where
  marked := by simp [State.fresh, nonces, Used, BitWords.Mem]
  nodup := .nil
  counted := by simp [State.fresh, landedCounted, landedOf]
  used_le := by simp [State.fresh]
  value_lt := by simp [State.fresh, System.fresh, Storage.initial, budgetValue]
  recorded := by simp [State.fresh]

variable {group : ReceiptGroup}

/-- What a group adds to the sums of its own budget; the others' stay. -/
theorem GroupStep.sums (h : GroupStep seller group s s') (hs : Inv s) (k : ℕ × ℕ) :
    (k ≠ (group.subscriptionId, group.budgetIndex) ∧ landedValue s' k = landedValue s k ∧
      landedCounted s' k = landedCounted s k ∧ s'.budgetUsed k = s.budgetUsed k) ∨
    ∃ value, landedValue s' k = landedValue s k + value ∧ landedCounted s' k =
        landedCounted s k + min value (budgetValue s.system.subs k - s.budgetUsed k) ∧
      s'.budgetUsed k =
        s.budgetUsed k + min value (budgetValue s.system.subs k - s.budgetUsed k) := by
  obtain ⟨counted, factor, hcounted, hlanded, hused⟩ := h.landed
  by_cases hk : k = (group.subscriptionId, group.budgetIndex)
  · right
    rw [← hk] at hcounted hused
    have hlt : counted < 2 ^ 96 := by
      have := hs.value_lt k
      omega
    refine ⟨(group.items.map (·.valueWei)).sum, ?_, ?_, ?_⟩
    · simp [landedValue, landedOf, hlanded, ← hk]
    · simp [landedCounted, landedOf, hlanded, ← hk, hcounted]
    · rw [hused, update_self, uint96, Nat.mod_eq_of_lt hlt, hcounted]
  · left
    refine ⟨hk, ?_, ?_, ?_⟩
    · simp [landedValue, landedOf, hlanded, Ne.symm hk]
    · simp [landedCounted, landedOf, hlanded, Ne.symm hk]
    · rw [hused, update_of_ne hk]

theorem GroupStep.origins (h : GroupStep seller group s s') :
    s'.landed.map Landed.origin = s.landed.map Landed.origin ++ [group.origin seller] := by
  obtain ⟨_, _, _, hlanded, _⟩ := h.landed
  rw [hlanded, map_append]
  rfl

theorem nonces_append_singleton (os : List Origin) (o : Origin) :
    nonces (os ++ [o]) = nonces os ++ o.nonces := by
  simp [nonces]

theorem GroupStep.inv (h : GroupStep seller group s s') (hs : Inv s) : Inv s' := by
  refine ⟨?_, ?_, ?_, ?_, ?_, ?_⟩
  · intro sub seller' x
    rw [h.origins, nonces_append_singleton, mem_append, hs.marked, h.used]
    refine or_congr_right ?_
    simp only [Origin.nonces, ReceiptGroup.origin, mem_map, Prod.mk.injEq]
    constructor
    · rintro ⟨it, hit, rfl, rfl, rfl⟩
      exact ⟨rfl, rfl, it, hit, rfl⟩
    · rintro ⟨rfl, rfl, it, hit, rfl⟩
      exact ⟨it, hit, rfl, rfl, rfl⟩
  · rw [h.origins, nonces_append_singleton, nodup_append]
    refine ⟨hs.nodup, ?_, ?_⟩
    · have hmap : (group.origin seller).nonces =
          (group.items.map (·.nonce)).map fun x => (group.subscriptionId, seller, x) := by
        simp [Origin.nonces, ReceiptGroup.origin]
      rw [hmap]
      exact h.nodup.map fun x y hxy => by simpa using hxy
    · rintro ⟨sub, seller', x⟩ hold p hp rfl
      obtain ⟨it, hit, heq⟩ := mem_map.mp hp
      simp only [ReceiptGroup.origin, Prod.mk.injEq] at heq
      obtain ⟨rfl, rfl, rfl⟩ := heq
      exact h.fresh it hit ((hs.marked _ _ _).mp hold)
  · intro k
    rcases h.sums hs k with ⟨_, _, hc, hu⟩ | ⟨value, _, hc, hu⟩
    · rw [hc, hu, hs.counted]
    · rw [hc, hu, hs.counted]
  · intro k
    have hle := hs.used_le k
    rw [h.subs]
    rcases h.sums hs k with ⟨_, _, _, hu⟩ | ⟨value, _, _, hu⟩ <;> omega
  · rw [h.subs]
    exact hs.value_lt
  · intro l hl
    obtain ⟨_, _, _, hlanded, _⟩ := h.landed
    rw [h.subs]
    rw [hlanded, mem_append, mem_singleton] at hl
    rcases hl with hl | rfl
    · exact hs.recorded l hl
    · exact h.recorded

end Invariant

section Subscriptions
variable {subs subs' : Storage} {topped : Option ℕ}

/-- A budget keeps its value or grows, stays in `uint96`, and only a top-up of its
subscription changes one that is recorded. -/
theorem budgetStep_value (h : BudgetStep topped subs subs') (k : ℕ × ℕ) :
    budgetValue subs k ≤ budgetValue subs' k ∧
      (budgetValue subs k < 2 ^ 96 → budgetValue subs' k < 2 ^ 96) ∧
      ((subs.subscriptions k.1).startsAt ≠ 0 → topped ≠ some k.1 →
        budgetValue subs' k = budgetValue subs k) := by
  obtain ⟨id, i⟩ := k
  cases h with
  | same hsubs hbudgets => simp [budgetValue, hbudgets]
  | create id' sub budgets hnew hempty hstart hvalue hsubs hbudgets =>
    by_cases hid : id = id'
    · subst hid
      refine ⟨by simp [budgetValue, hempty], fun _ => ?_, fun hrec => absurd hnew hrec⟩
      simp only [budgetValue, hbudgets, update_self]
      split
      · exact (le_totalValue (mem_of_getElem? ‹_›)).trans_lt hvalue
      · exact Nat.two_pow_pos 96
    · simp [budgetValue, hbudgets, hid]
  | topUp id' sub raised appended hold hstart hraised hvalue hsubs hbudgets =>
    by_cases hid : id = id'
    · subst hid
      have hnew : subs'.budgets id = raised ++ appended := by rw [hbudgets, update_self]
      simp only [budgetValue, hnew]
      rcases raised_getElem? appended hraised i with
        ⟨b, b', hb, hb', hrb⟩ | ⟨hnone, happended⟩
      · simp only [hb, hb']
        exact ⟨hrb.value_le, hrb.value_lt, fun _ hne => absurd rfl hne⟩
      · simp only [hnone]
        refine ⟨Nat.zero_le _, fun _ => ?_, fun _ hne => absurd rfl hne⟩
        split
        · exact (le_totalValue (happended _ ‹_›)).trans_lt hvalue
        · exact Nat.two_pow_pos 96
    · simp [budgetValue, hbudgets, hid]

theorem budgetStep_recorded (h : BudgetStep topped subs subs') {id : ℕ}
    (hrec : (subs.subscriptions id).startsAt ≠ 0) : (subs'.subscriptions id).startsAt ≠ 0 := by
  cases h with
  | same hsubs hbudgets => rwa [hsubs]
  | create id' sub budgets hnew hempty hstart hvalue hsubs hbudgets =>
    rw [hsubs]
    by_cases hid : id = id'
    · simpa [hid] using hstart
    · simpa [hid] using hrec
  | topUp id' sub raised appended hold hstart hraised hvalue hsubs hbudgets =>
    rw [hsubs]
    by_cases hid : id = id'
    · subst hid
      simpa [hstart] using hrec
    · simpa [hid] using hrec

end Subscriptions

section Runs

/-- The groups a call submits. -/
def Call.submitted (call : Call c) : List Origin :=
  match call.op with
  | .submitReceiptBatch groups =>
    groups.map (ReceiptGroup.origin (call.env.getIdentityId call.env.sender))
  | _ => []

def submitted (calls : List (Call c)) : List Origin := calls.flatMap Call.submitted

/-- The subscription a call tops up. -/
def Call.toppedUp (call : Call c) : Option ℕ :=
  match call.op with
  | .subscriptions op => op.toppedUp
  | _ => none

/-- What a call does: it lands its groups one by one, or leaves the receipts alone. -/
inductive Change : List Origin → Option ℕ → State → State → Prop
  | done (s : State) : Change [] none s s
  | group {s t u : State} {os : List Origin} {seller : ℕ} {group : ReceiptGroup}
      (h : GroupStep seller group s t) (hrest : Change os none t u) :
      Change (group.origin seller :: os) none s u
  | other {s t : State} {topped : Option ℕ} (hlanded : t.landed = s.landed)
      (hbitmap : t.nonceBitmap = s.nonceBitmap) (hused : t.budgetUsed = s.budgetUsed)
      (hbudgets : BudgetStep topped s.system.subs t.system.subs) : Change [] topped s t

theorem acceptGroups_change {groups : List ReceiptGroup}
    (h : acceptGroups signedBy env b g s groups = .ok s') :
    Change (groups.map (ReceiptGroup.origin b.seller)) none s s' := by
  induction groups generalizing s g with
  | nil =>
    obtain rfl := Except.ok.inj h
    exact .done s
  | cons group groups ih =>
    simp only [acceptGroups, bind_eq_ok] at h
    obtain ⟨t, ht, h⟩ := h
    exact .group (acceptGroup_step ht) (ih h)

theorem submitReceiptBatch_change {groups : List ReceiptGroup}
    (h : submitReceiptBatch signedBy env s groups = .ok s') :
    Change (groups.map (ReceiptGroup.origin (env.getIdentityId env.sender))) none s s' := by
  simp only [submitReceiptBatch, coreNodeOf, bind_eq_ok, pure_eq_ok] at h
  obtain ⟨_, _, _, ⟨_, _, _, _, rfl⟩, _, _, _, _, _, _, h⟩ := h
  exact acceptGroups_change h

theorem step_change (h : step idOf signedBy s call = .ok s') :
    Change call.submitted call.toppedUp s s' := by
  obtain ⟨env, op⟩ := call
  cases op with
  | submitReceiptBatch groups => exact submitReceiptBatch_change h
  | setMaxItemsPerBatch value | setMaxGroupsPerBatch value | setLambdaBps value =>
    simp only [step, bind_eq_ok, pure_eq_ok] at h
    obtain ⟨_, _, rfl⟩ := h
    exact .other rfl rfl rfl (.same rfl rfl)
  | subscriptions op =>
    simp only [step, bind_eq_ok, mapError_eq_ok, pure_eq_ok] at h
    obtain ⟨system, hsystem, rfl⟩ := h
    exact .other rfl rfl rfl (step_budgets hsystem)

theorem Change.inv {os : List Origin} {topped : Option ℕ} (h : Change os topped s s')
    (hs : Inv s) : Inv s' := by
  induction h with
  | done s => exact hs
  | group h hrest ih => exact ih (h.inv hs)
  | other hlanded hbitmap hused hbudgets =>
    refine ⟨?_, ?_, ?_, ?_, ?_, ?_⟩
    · rw [hlanded, hbitmap]
      exact hs.marked
    · rw [hlanded]
      exact hs.nodup
    · intro k
      rw [hused, ← hs.counted k, landedCounted, landedCounted, landedOf, landedOf, hlanded]
    · intro k
      rw [hused]
      exact (hs.used_le k).trans (budgetStep_value hbudgets k).1
    · exact fun k => (budgetStep_value hbudgets k).2.1 (hs.value_lt k)
    · intro l hl
      rw [hlanded] at hl
      exact budgetStep_recorded hbudgets (hs.recorded l hl)

theorem Change.origins {os : List Origin} {topped : Option ℕ} (h : Change os topped s s') :
    s'.landed.map Landed.origin = s.landed.map Landed.origin ++ os := by
  induction h with
  | done s => simp
  | group h hrest ih => rw [ih, h.origins, append_assoc, singleton_append]
  | other hlanded hbitmap hused hbudgets => rw [hlanded, append_nil]

theorem Change.value_le {os : List Origin} {topped : Option ℕ} (h : Change os topped s s') :
    budgetValue s.system.subs k ≤ budgetValue s'.system.subs k := by
  induction h with
  | done s => exact le_rfl
  | group h hrest ih => rwa [h.subs] at ih
  | other hlanded hbitmap hused hbudgets => exact (budgetStep_value hbudgets k).1

/-- The budget counted all of what landed on it, up to its value. -/
def Exact (k : ℕ × ℕ) (s : State) : Prop :=
  landedCounted s k = min (landedValue s k) (budgetValue s.system.subs k)

theorem GroupStep.exact {group : ReceiptGroup} (h : GroupStep seller group s s') (hs : Inv s)
    (he : Exact k s) : Exact k s' := by
  rw [Exact, h.subs]
  rw [Exact] at he
  have hused := hs.counted k
  rcases h.sums hs k with ⟨_, hv, hc, _⟩ | ⟨value, hv, hc, _⟩ <;> omega

theorem exact_of_empty (h : landedOf s k = []) : Exact k s := by
  simp [Exact, landedCounted, landedValue, h]

theorem recorded_of_landedOf (hs : Inv s) (h : landedOf s k ≠ []) :
    (s.system.subs.subscriptions k.1).startsAt ≠ 0 := by
  obtain ⟨l, hl⟩ := exists_mem_of_ne_nil _ h
  obtain ⟨hmem, hk⟩ := mem_filter.mp hl
  rw [decide_eq_true_iff] at hk
  rw [← hk]
  exact hs.recorded l hmem

/-- Without a top-up of its subscription a budget goes on counting all of what lands on it,
up to its value. -/
theorem Change.exact {os : List Origin} {topped : Option ℕ} (h : Change os topped s s')
    (hs : Inv s) (htop : topped ≠ some k.1) (he : Exact k s) : Exact k s' := by
  induction h with
  | done s => exact he
  | group h hrest ih => exact ih (h.inv hs) htop (h.exact hs he)
  | @other s t topped hlanded hbitmap hused hbudgets =>
    have hof : landedOf t k = landedOf s k := by rw [landedOf, landedOf, hlanded]
    by_cases hempty : landedOf s k = []
    · exact exact_of_empty (hof.trans hempty)
    · rw [Exact, landedCounted, landedValue, hof,
        (budgetStep_value hbudgets k).2.2 (recorded_of_landedOf hs hempty) htop]
      exact he

theorem run_inv (hs : Inv s) (calls : List (Call c)) : Inv (run (step idOf signedBy) s calls) :=
  run_invariant Inv (fun _ _ _ hs h => (step_change h).inv hs) hs

theorem run_origins (s : State) (calls : List (Call c)) :
    (run (step idOf signedBy) s calls).landed.map Landed.origin =
      s.landed.map Landed.origin ++ submitted (accepted (step idOf signedBy) s calls) := by
  induction calls generalizing s with
  | nil => simp [submitted, accepted]
  | cons call calls ih =>
    cases h : step idOf signedBy s call with
    | ok t =>
      rw [run_cons, exec_ok h, ih, (step_change h).origins, accepted_cons_ok h, append_assoc]
      rfl
    | error e =>
      have he : exec (step idOf signedBy) s call = s := by simp [exec, h]
      rw [run_cons, he, ih, accepted_cons_error h]

theorem run_exact (hs : Inv s) (he : Exact k s)
    (htop : ∀ call ∈ accepted (step idOf signedBy) s calls, call.toppedUp ≠ some k.1) :
    Exact k (run (step idOf signedBy) s calls) := by
  induction calls generalizing s with
  | nil => exact he
  | cons call calls ih =>
    cases h : step idOf signedBy s call with
    | ok t =>
      rw [accepted_cons_ok h] at htop
      rw [run_cons, exec_ok h]
      have hchange := step_change h
      exact ih (hchange.inv hs) (hchange.exact hs (htop call (by simp)) he)
        fun x hx => htop x (by simp [hx])
    | error e =>
      have hexec : exec (step idOf signedBy) s call = s := by simp [exec, h]
      rw [accepted_cons_error h] at htop
      rw [run_cons, hexec]
      exact ih hs he htop

/-- Over any run of batches, fundings and top-ups from no receipts: no two accepted items
share subscription, seller and nonce, and a batch with a repeated or an earlier nonce
reverts; what a budget has used is what its landed groups counted, within its value, which
only grows; and as long as no top-up of its subscription comes in, the groups counted all
of the value landed on it, up to its value. -/
theorem run_receipts_count_once (idOf : ℕ → ℕ → ℕ)
    (signedBy : ServiceRequest → ℕ → ℕ → ℕ → Bool) (publishing : Publishing.State)
    (qis : Staking.QueryInference) (holder : ℕ → Option ℕ) (calls : List (Call c)) :
    let s₀ := State.fresh publishing qis holder
    let s := run (step idOf signedBy) s₀ calls
    let groups := submitted (accepted (step idOf signedBy) s₀ calls)
    (nonces groups).Nodup ∧ s.landed.map Landed.origin = groups ∧
    (∀ call : Call c, ¬(nonces (groups ++ call.submitted)).Nodup →
      ∃ e, step idOf signedBy s call = .error e) ∧
    (∀ k, s.budgetUsed k ≤ budgetValue s.system.subs k ∧ landedCounted s k = s.budgetUsed k ∧
      ∀ later : List (Call c), budgetValue s.system.subs k ≤
        budgetValue (run (step idOf signedBy) s later).system.subs k) ∧
    ∀ (k : ℕ × ℕ) (pre post : List (Call c)), calls = pre ++ post →
      landedOf (run (step idOf signedBy) s₀ pre) k = [] →
      (∀ call ∈ accepted (step idOf signedBy) (run (step idOf signedBy) s₀ pre) post,
        call.toppedUp ≠ some k.1) →
      landedCounted s k = min (landedValue s k) (budgetValue s.system.subs k) := by
  intro s₀ s groups
  have hinv : Inv s := run_inv (fresh_inv publishing qis holder) calls
  have horigins : s.landed.map Landed.origin = groups := by
    rw [run_origins]
    rfl
  refine ⟨horigins ▸ hinv.nodup, horigins, ?_, ?_, ?_⟩
  · intro call hrepeat
    cases h : step idOf signedBy s call with
    | error e => exact ⟨e, rfl⟩
    | ok t =>
      have hnodup := ((step_change h).inv hinv).nodup
      rw [(step_change h).origins, horigins] at hnodup
      exact absurd hnodup hrepeat
  · intro k
    refine ⟨hinv.used_le k, hinv.counted k, fun later => ?_⟩
    refine run_invariant (fun t => budgetValue s.system.subs k ≤ budgetValue t.system.subs k)
      (fun _ _ _ hle h => hle.trans (step_change h).value_le) le_rfl
  · intro k pre post hcalls hempty htop
    have hpre : Inv (run (step idOf signedBy) (.fresh publishing qis holder) pre) :=
      run_inv (fresh_inv publishing qis holder) pre
    have hexact := run_exact hpre (exact_of_empty hempty) htop
    rw [← run_append, ← hcalls] at hexact
    exact hexact

end Runs

section Example

/-- Address 50 is the operational key of node 5, with all of the stake that counts. -/
def envAt (sender timestamp : ℕ) : Env thousandSeconds where
  toSubscriptionsEnv := Subscriptions.envAt sender timestamp
  getIdentityId := fun address => address / 10
  profileExists := fun _ => true
  nodeEpochScore := fun _ => 1
  nodeEffectiveStake := fun _ => 100
  nodeChallengeStakeSnapshot := fun _ => none
  maximumStake := 100

/-- A receipt for three units at price two. -/
def receipt (nonce : ℕ) (h : nonce < 2 ^ 64) : ReceiptItem :=
  ⟨nonce, 2, 3, 6, 20, 90, 3, 6, 1, 25, 0, 0, h⟩

/-- Nonces of three words in one group, then a second group of the same budget. -/
def twoGroups : List ReceiptGroup :=
  [⟨1022, 0, 0, [receipt 7 (by decide), receipt 300 (by decide), receipt 8 (by decide)]⟩,
    ⟨1022, 0, 0, [receipt 700 (by decide)]⟩]

/-- Buyer 22 funds a budget of 20 and node 5 lands four receipts of 6 on it. -/
def landedTwice : List (Call thousandSeconds) :=
  [⟨envAt 0 6, .subscriptions (.setActivationEpoch 1)⟩, ⟨envAt 22 9,
      .subscriptions (.fundFromWallet ⟨1, 7, 0, [⟨3, 1, 20, 2⟩]⟩)⟩,
    ⟨envAt 50 30, .submitReceiptBatch twoGroups⟩]

/-- Nonce 7 again, behind a nonce of another word. -/
def replay : Call thousandSeconds :=
  ⟨envAt 50 31,
    .submitReceiptBatch [⟨1022, 0, 0, [receipt 900 (by decide), receipt 7 (by decide)]⟩]⟩

theorem run_receipts_count_once_landedTwice :
    let s := run (step pairId fun _ _ _ _ => true) (.fresh .empty .initial fun _ => none) landedTwice
    landedValue s (1022, 0) = 24 ∧ s.budgetUsed (1022, 0) = 20 ∧
    landedCounted s (1022, 0) = min (landedValue s (1022, 0)) 20 ∧
    ∃ e, step pairId (fun _ _ _ _ => true) s replay = .error e := by
  intro s
  obtain ⟨_, _, hreplay, _, hexact⟩ := run_receipts_count_once pairId (fun _ _ _ _ => true) .empty
    .initial (fun _ => none) landedTwice
  have hvalue : budgetValue s.system.subs (1022, 0) = 20 := by decide +kernel
  refine ⟨by decide +kernel, by decide +kernel, ?_, hreplay replay (by decide +kernel)⟩
  exact (hexact (1022, 0) [] landedTwice rfl rfl (by decide +kernel)).trans (by rw [hvalue])

end Example

end Dkg.Settlement
