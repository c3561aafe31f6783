import Dkg.Lib.IndexedList
import Dkg.Staking.EffectiveStake

/-!
The raw stake figures and the token lists of the nodes, against the positions they are about.
-/

namespace Dkg.Staking
open Revert List Function Finset

/-- The position exists and is delegated to the node. -/
def Position.On (p : Position) (id : ℕ) : Prop := p.identityId ≠ 0 ∧ p.identityId = id

instance (p : Position) (id : ℕ) : Decidable (p.On id) :=
  inferInstanceAs (Decidable (_ ∧ _))

def Position.rawOn (p : Position) (id : ℕ) : ℕ := if p.On id then p.raw else 0

def Position.held (p : Position) : ℕ := if p.identityId ≠ 0 then p.raw else 0

/-- The raw stake of the positions on a node. -/
noncomputable def nodeRaw (P : ℕ → Position) (id : ℕ) : ℕ := ∑ᶠ t, (P t).rawOn id

noncomputable def allRaw (P : ℕ → Position) : ℕ := ∑ᶠ t, (P t).held

/-- Only finitely many tokens were ever given a position. -/
def FinitelyMany (P : ℕ → Position) : Prop := {t | (P t).identityId ≠ 0}.Finite

section Raw
variable {P : ℕ → Position} {p : Position} {id t : ℕ}

theorem on_iff_of_ne_zero (h : p.identityId ≠ 0) : p.On id ↔ p.identityId = id :=
  ⟨fun hon => hon.2, fun he => ⟨h, he⟩⟩

theorem not_on_of_zero (h : p.identityId = 0) : ¬p.On id := fun hon => hon.1 h

theorem rawOn_of_zero (h : p.identityId = 0) : p.rawOn id = 0 := if_neg (not_on_of_zero h)

theorem rawOn_of_ne_zero (h : p.identityId ≠ 0) :
    p.rawOn id = if p.identityId = id then p.raw else 0 :=
  if_congr (on_iff_of_ne_zero h) rfl rfl

theorem held_of_zero (h : p.identityId = 0) : p.held = 0 := if_neg (not_not.mpr h)

theorem held_of_ne_zero (h : p.identityId ≠ 0) : p.held = p.raw := if_pos h

theorem FinitelyMany.set (h : FinitelyMany P) (t : ℕ) (p : Position) :
    FinitelyMany (update P t p) := by
  refine (h.union (Set.finite_singleton t)).subset fun u hu => ?_
  by_cases hut : u = t
  · exact .inr hut
  · rw [Set.mem_ofPred_eq, update_of_ne hut] at hu
    exact .inl hu

/-- A sum over the positions when one of them changes. -/
theorem FinitelyMany.finsum_update {f : Position → ℕ} (h : FinitelyMany P)
    (hf : ∀ {p : Position}, p.identityId = 0 → f p = 0) (t : ℕ) (p : Position) :
    ∑ᶠ u, f (update P t p u) + f (P t) = ∑ᶠ u, f (P u) + f p := by
  rw [← Sums.finsum_update (h.subset fun _ ht hz => ht (hf hz)) t]
  refine congrArg (· + _) (finsum_congr fun u => ?_)
  by_cases hut : u = t
  · subst hut
    simp
  · simp [hut]

theorem nodeRaw_update (h : FinitelyMany P) (t : ℕ) (p : Position) (id : ℕ) :
    nodeRaw (update P t p) id + (P t).rawOn id = nodeRaw P id + p.rawOn id :=
  h.finsum_update rawOn_of_zero t p

theorem allRaw_update (h : FinitelyMany P) (t : ℕ) (p : Position) :
    allRaw (update P t p) + (P t).held = allRaw P + p.held :=
  h.finsum_update held_of_zero t p

/-- Each position counts at one node. -/
theorem finsum_nodeRaw (h : FinitelyMany P) : ∑ᶠ id, nodeRaw P id = allRaw P := by
  set T := h.toFinset
  have hT : ∀ t, t ∈ T ↔ (P t).identityId ≠ 0 := fun t => h.mem_toFinset
  have hnode : ∀ id, nodeRaw P id = ∑ t ∈ T, (P t).rawOn id := fun id => by
    refine finsum_eq_sum_of_support_subset _ fun t ht => ?_
    exact (hT t).mpr fun hz => ht (rawOn_of_zero hz)
  have hall : allRaw P = ∑ t ∈ T, (P t).held := by
    refine finsum_eq_sum_of_support_subset _ fun t ht => ?_
    exact (hT t).mpr fun hz => ht (held_of_zero hz)
  have hsupport : (support fun id => nodeRaw P id) ⊆ T.image fun t => (P t).identityId := by
    intro id hid
    rw [mem_support, hnode] at hid
    obtain ⟨t, ht, hne⟩ := exists_ne_zero_of_sum_ne_zero hid
    refine mem_coe.mpr (mem_image.mpr ⟨t, ht, ?_⟩)
    by_contra hother
    exact hne (if_neg fun hon => hother hon.2)
  rw [finsum_eq_sum_of_support_subset _ hsupport, hall, sum_congr rfl fun id _ => hnode id,
    sum_comm]
  refine sum_congr rfl fun t ht => ?_
  have hne := (hT t).mp ht
  simp only [rawOn_of_ne_zero hne, held_of_ne_zero hne]
  rw [sum_ite_eq, if_pos (mem_image_of_mem _ ht)]

end Raw

/-- The token lists of the nodes, with the places of the tokens in them, list the positions. -/
structure Enumerates (P : ℕ → Position) (tokens : ℕ → List ℕ) (index : ℕ → ℕ → ℕ) : Prop where
  indexed : ∀ id, IndexedList.Ok (tokens id) (index id)
  mem_iff : ∀ id t, t ∈ tokens id ↔ (P t).On id

namespace Enumerates
variable {P : ℕ → Position} {tokens : ℕ → List ℕ} {index : ℕ → ℕ → ℕ} {p : Position} {id t : ℕ}

theorem push (h : Enumerates P tokens index) (hfree : (P t).identityId = 0) (hp : p.On id) :
    Enumerates (update P t p) (update tokens id (tokens id ++ [t]))
      (update index id (update (index id) t (tokens id).length)) := by
  have hnew : ∀ i, t ∉ tokens i := fun i ht => not_on_of_zero hfree ((h.mem_iff i t).mp ht)
  refine ⟨fun i => ?_, fun i u => ?_⟩
  · by_cases hi : i = id
    · subst hi
      rw [update_self, update_self]
      exact (h.indexed i).push (hnew i)
    · rw [update_of_ne hi, update_of_ne hi]
      exact h.indexed i
  · by_cases hu : u = t
    · subst hu
      rw [update_self]
      by_cases hi : i = id
      · subst hi
        simp [hp]
      · rw [update_of_ne hi]
        exact ⟨fun hmem => absurd hmem (hnew i), fun hon => absurd (hon.2.symm.trans hp.2) hi⟩
    · rw [update_of_ne hu, ← h.mem_iff]
      by_cases hi : i = id
      · subst hi
        simp [hu]
      · rw [update_of_ne hi]

theorem pop (h : Enumerates P tokens index) (ht : (P t).On id) {l : List ℕ} {ix : ℕ → ℕ}
    (hl : IndexedList.Ok l ix) (hmem : ∀ u, u ∈ l ↔ u ∈ tokens id ∧ u ≠ t) :
    Enumerates (update P t .empty) (update tokens id l) (update index id ix) := by
  refine ⟨fun i => ?_, fun i u => ?_⟩
  · by_cases hi : i = id
    · subst hi
      rwa [update_self, update_self]
    · rw [update_of_ne hi, update_of_ne hi]
      exact h.indexed i
  · by_cases hi : i = id
    · subst hi
      rw [update_self, hmem, h.mem_iff]
      by_cases hu : u = t
      · subst hu
        simp [Position.On, Position.empty]
      · simp [hu]
    · rw [update_of_ne hi, h.mem_iff]
      by_cases hu : u = t
      · subst hu
        rw [update_self]
        exact ⟨fun hon => absurd (hon.2.symm.trans ht.2) hi, fun hon => absurd rfl hon.1⟩
      · rw [update_of_ne hu]

/-- Only the nodes of the positions matter. -/
theorem congr {P' : ℕ → Position} (h : Enumerates P tokens index)
    (hP : ∀ t, (P' t).identityId = (P t).identityId) : Enumerates P' tokens index :=
  ⟨h.indexed, fun id t => by rw [h.mem_iff, Position.On, Position.On, hP]⟩

end Enumerates

/-- The part of the storage that the raw figures and the token lists make up. -/
structure Ledger where
  positions : ℕ → Position
  nodeTokens : ℕ → List ℕ
  nodeTokenIndex : ℕ → ℕ → ℕ
  nodeStakeV10 : ℕ → ℕ
  totalStakeV10 : ℕ

def Storage.ledger (s : Storage) : Ledger :=
  ⟨s.positions, s.nodeTokens, s.nodeTokenIndex, s.nodeStakeV10, s.totalStakeV10⟩

structure Ledger.Exact (L : Ledger) : Prop where
  finite : FinitelyMany L.positions
  enumerates : Enumerates L.positions L.nodeTokens L.nodeTokenIndex
  stake : ∀ id, L.nodeStakeV10 id = nodeRaw L.positions id
  total : L.totalStakeV10 = allRaw L.positions

namespace Ledger
variable {P : ℕ → Position} {T : ℕ → List ℕ} {I : ℕ → ℕ → ℕ} {S S' : ℕ → ℕ} {n n' t id : ℕ}
  {p : Position}

/-- The figures follow a changed position when they differ by what it held before and after. -/
theorem Exact.set {T' : ℕ → List ℕ} {I' : ℕ → ℕ → ℕ} (h : Exact ⟨P, T, I, S, n⟩)
    (henum : Enumerates (update P t p) T' I')
    (hS : ∀ i, S' i + (P t).rawOn i = S i + p.rawOn i) (hn : n' + (P t).held = n + p.held) :
    Exact ⟨update P t p, T', I', S', n'⟩ := by
  refine ⟨h.finite.set t p, henum, fun i => ?_, ?_⟩
  · have hraw := nodeRaw_update h.finite t p i
    have hSi := hS i
    have hstake := h.stake i
    dsimp only at hraw hstake ⊢
    omega
  · have hraw := allRaw_update h.finite t p
    have htotal := h.total
    dsimp only at hraw htotal ⊢
    omega

theorem Exact.push (h : Exact ⟨P, T, I, S, n⟩) (hfree : (P t).identityId = 0) (hp : p.On id) :
    Exact ⟨update P t p, update T id (T id ++ [t]), update I id (update (I id) t (T id).length),
      update S id (S id + p.raw), n + p.raw⟩ := by
  obtain ⟨hne, rfl⟩ := hp
  refine h.set (h.enumerates.push hfree ⟨hne, rfl⟩) (fun i => ?_) ?_
  · rw [rawOn_of_zero hfree, rawOn_of_ne_zero hne]
    by_cases hi : i = p.identityId
    · subst hi
      simp
    · simp [hi, Ne.symm hi]
  · rw [held_of_zero hfree, held_of_ne_zero hne, Nat.add_zero]

theorem Exact.raw_le (h : Exact ⟨P, T, I, S, n⟩) (ht : (P t).On id) :
    (P t).raw ≤ S id ∧ (P t).raw ≤ n := by
  have hnode := nodeRaw_update h.finite t .empty id
  have hall := allRaw_update h.finite t .empty
  have hstake := h.stake id
  have htotal := h.total
  obtain ⟨hne, rfl⟩ := ht
  dsimp only at hnode hall hstake htotal
  rw [rawOn_of_ne_zero hne, if_pos rfl, rawOn_of_zero rfl] at hnode
  rw [held_of_ne_zero hne, held_of_zero rfl] at hall
  omega

theorem Exact.pop (h : Exact ⟨P, T, I, S, n⟩) (ht : (P t).On id) {l : List ℕ} {ix : ℕ → ℕ}
    (hl : IndexedList.Ok l ix) (hmem : ∀ u, u ∈ l ↔ u ∈ T id ∧ u ≠ t) :
    Exact ⟨update P t .empty, update T id l, update I id ix,
      update S id (S id - (P t).raw), n - (P t).raw⟩ := by
  obtain ⟨hleS, hlen⟩ := h.raw_le ht
  refine h.set (h.enumerates.pop ht hl hmem) (fun i => ?_) ?_
  · obtain ⟨hne, rfl⟩ := ht
    rw [rawOn_of_ne_zero hne, rawOn_of_zero rfl]
    by_cases hi : i = (P t).identityId
    · subst hi
      simp [hleS]
    · simp [hi, Ne.symm hi]
  · rw [held_of_ne_zero ht.1, held_of_zero rfl]
    omega

/-- A position under a new token, on the same node and with the same raw stake. -/
theorem Exact.replace (h : Exact ⟨P, T, I, S, n⟩) (ht : (P t).On id) {l : List ℕ} {ix : ℕ → ℕ}
    (hl : IndexedList.Ok l ix) (hmem : ∀ u, u ∈ l ↔ u ∈ T id ∧ u ≠ t) {u : ℕ} (hne : t ≠ u)
    (hfree : (P u).identityId = 0) (hp : p.On id) (hraw : p.raw = (P t).raw) :
    Exact ⟨update (update P u p) t .empty, update (update T id l) id (l ++ [u]),
      update (update I id ix) id (update ix u l.length), S, n⟩ := by
  obtain ⟨hnode, htotal⟩ := h.raw_le ht
  have hpush := (h.pop ht hl hmem).push (t := u) (by rwa [update_of_ne (Ne.symm hne)]) hp
  rw [hraw, Nat.sub_add_cancel htotal] at hpush
  simp only [update_self, Nat.sub_add_cancel hnode] at hpush
  rw [update_idem (f := S), update_eq_self, update_comm hne] at hpush
  exact hpush

/-- The raw stake of a position changes, and the figures by as much. -/
theorem Exact.withRaw (h : Exact ⟨P, T, I, S, n⟩) (hne : (P t).identityId ≠ 0) {r x : ℕ}
    (hS : x + (P t).raw = S (P t).identityId + r) (hn : n' + (P t).raw = n + r) :
    Exact ⟨update P t ((P t).withRaw r), T, I, update S (P t).identityId x, n'⟩ := by
  refine h.set (h.enumerates.congr fun u => ?_) (fun i => ?_) ?_
  · by_cases hu : u = t
    · subst hu
      rw [update_self]
      rfl
    · rw [update_of_ne hu]
  · rw [rawOn_of_ne_zero hne, rawOn_of_ne_zero (p := (P t).withRaw r) hne]
    by_cases hi : i = (P t).identityId
    · subst hi
      simpa [Position.withRaw] using hS
    · simp [Position.withRaw, hi, Ne.symm hi]
  · rw [held_of_ne_zero hne, held_of_ne_zero (p := (P t).withRaw r) hne]
    exact hn

end Ledger

namespace Storage
variable {c : Chronos} {b : Block c} {s s' : Storage} {L : Ledger}
  {i tokenId amount identityId : ℕ}

section Frame
variable (h : s.ledger = L)
include h

theorem onNode_ledger (i : ℕ) (f : NodeStake → Except Err NodeStake) :
    Ends (fun _ => True) (fun s' => s'.ledger = L) (s.onNode i f) := by
  unfold Storage.onNode
  cases f (s.nodes i) with
  | ok n => exact h
  | error e => trivial

/-- A drop that is scheduled or cancelled, or not. -/
theorem boost_ledger {boosted : Prop} [Decidable boosted] (i : ℕ)
    (f : NodeStake → Except Err NodeStake) : Ends (fun _ => True) (fun s' => s'.ledger = L)
      (if boosted then s.onNode i f else .ok s) :=
  ends_ite (fun _ => onNode_ledger h i f) h

end Frame

/-- The steps of a call before it writes to the ledger. -/
theorem unwind_ledger {boosted : Prop} [Decidable boosted] {ts : ℕ} {δ : ℤ}
    {f : NodeStake → Except Err NodeStake} {k : Storage → Except Err Storage}
    (hok : (s.settleNodeTo i ts >>= fun s => s.applyNodeStakeDelta i δ >>= fun s =>
      (if boosted then s.onNode i f else .ok s) >>= k) = .ok s') :
    ∃ s₃, s₃.ledger = s.ledger ∧ s₃.positions = s.positions ∧ k s₃ = .ok s' := by
  obtain ⟨s₁, h₁, hok⟩ := bind_eq_ok.mp hok
  obtain ⟨s₂, h₂, hok⟩ := bind_eq_ok.mp hok
  obtain ⟨s₃, h₃, hk⟩ := bind_eq_ok.mp hok
  have h₁ := (onNode_ledger rfl _ _).of_ok h₁
  have h₂ := (onNode_ledger h₁ _ _).of_ok h₂
  have h₃ := (boost_ledger h₂ _ _).of_ok h₃
  exact ⟨s₃, h₃, congrArg Ledger.positions h₃, hk⟩

theorem increaseNodeStakeV10_ok (hok : s.increaseNodeStakeV10 i amount = .ok s') :
    s' = { s with
      nodeStakeV10 := update s.nodeStakeV10 i (s.nodeStakeV10 i + amount)
      totalStakeV10 := s.totalStakeV10 + amount } := by
  simp only [increaseNodeStakeV10, bind_eq_ok, Checked.add_eq_ok, pure_eq_ok] at hok
  obtain ⟨_, ⟨_, rfl⟩, _, ⟨_, rfl⟩, rfl⟩ := hok
  rfl

theorem decreaseNodeStakeV10_ok (hok : s.decreaseNodeStakeV10 i amount = .ok s') :
    amount ≤ s.nodeStakeV10 i ∧ amount ≤ s.totalStakeV10 ∧
    s' = { s with
      nodeStakeV10 := update s.nodeStakeV10 i (s.nodeStakeV10 i - amount)
      totalStakeV10 := s.totalStakeV10 - amount } := by
  simp only [decreaseNodeStakeV10, bind_eq_ok, Checked.sub_eq_ok, pure_eq_ok] at hok
  obtain ⟨_, ⟨hnode, rfl⟩, _, ⟨htotal, rfl⟩, rfl⟩ := hok
  exact ⟨hnode, htotal, rfl⟩

/-- A position without raw stake takes nothing off the figures. -/
theorem decreaseNodeStakePositive_ok (hok : s.decreaseNodeStakePositive i amount = .ok s') :
    amount ≤ s.nodeStakeV10 i ∧ amount ≤ s.totalStakeV10 ∧
    s' = { s with
      nodeStakeV10 := update s.nodeStakeV10 i (s.nodeStakeV10 i - amount)
      totalStakeV10 := s.totalStakeV10 - amount } := by
  unfold decreaseNodeStakePositive at hok
  split_ifs at hok with hz
  · exact decreaseNodeStakeV10_ok hok
  · obtain rfl : amount = 0 := by omega
    cases hok
    simp

theorem moveNodeStakeV10_ok {j : ℕ} (hij : i ≠ j) (hok : s.moveNodeStakeV10 i j amount = .ok s') :
    amount ≤ s.nodeStakeV10 i ∧
    s' = { s with
      nodeStakeV10 := update (update s.nodeStakeV10 i (s.nodeStakeV10 i - amount)) j
        (s.nodeStakeV10 j + amount) } := by
  simp only [moveNodeStakeV10, bind_eq_ok, Checked.sub_eq_ok, Checked.add_eq_ok, pure_eq_ok] at hok
  obtain ⟨_, ⟨hnode, rfl⟩, _, ⟨_, rfl⟩, rfl⟩ := hok
  rw [update_of_ne hij.symm]
  exact ⟨hnode, rfl⟩

/-- Popping a listed token leaves the list of the others. -/
theorem popNodeToken_ok (hok : s.popNodeToken i tokenId = .ok s')
    (hl : IndexedList.Ok (s.nodeTokens i) (s.nodeTokenIndex i)) (ht : tokenId ∈ s.nodeTokens i) :
    ∃ l ix, IndexedList.Ok l ix ∧ (∀ u, u ∈ l ↔ u ∈ s.nodeTokens i ∧ u ≠ tokenId) ∧
      s' = { s with
        nodeTokens := update s.nodeTokens i l
        nodeTokenIndex := update s.nodeTokenIndex i ix } := by
  simp only [popNodeToken, bind_eq_ok, Checked.sub_eq_ok, pure_eq_ok] at hok
  obtain ⟨_, ⟨_, rfl⟩, s₁, h₁, rfl⟩ := hok
  obtain ⟨u, y, hy⟩ := SwapPop.exists_concat (hl.at_index tokenId ht)
  have hlast : (s.nodeTokens i).getD ((s.nodeTokens i).length - 1) 0 = y := by simp [hy]
  have hpop : SwapPop.swapPop (s.nodeTokens i) (s.nodeTokenIndex i tokenId) =
      ((s.nodeTokens i).set (s.nodeTokenIndex i tokenId) y).dropLast := by
    simp [SwapPop.swapPop, hy]
  have hget : (s.nodeTokens i).getLast? = some y := by rw [hy, List.getLast?_concat]
  obtain ⟨hok', hmem⟩ := hl.swapPop ht hget 0
  refine ⟨_, _, hok', hmem, ?_⟩
  unfold swapLast at h₁
  dsimp only at h₁
  split at h₁
  · simp only [bind_eq_ok, require_eq_ok, pure_eq_ok] at h₁
    obtain ⟨_, _, rfl⟩ := h₁
    simp only [hlast, hpop, update_self, update_idem]
  · -- the token is the last one
    cases h₁
    obtain rfl : tokenId = y := by
      by_contra hne
      have := hl.index_succ_lt ht hget hne
      omega
    have hidx : s.nodeTokenIndex i tokenId = u.length := by simp_all
    simp [hy, hidx, SwapPop.swapPop_concat]

theorem createPosition_exact (hs : s.ledger.Exact) {raw lockTier migrationEpoch shorter : ℕ}
    (hok : s.createPosition b tokenId identityId raw lockTier migrationEpoch shorter = .ok s') :
    s'.ledger.Exact := by
  simp only [createPosition, bind_eq_ok, require_eq_ok] at hok
  obtain ⟨_, hid, _, hfree, _, _, _, _, m, _, _, _, _, _, expiry, _, s₁, h₁, s₂, h₂, s₃, h₃,
    h₄⟩ := hok
  cases increaseNodeStakeV10_ok h₁
  have h₂ := (onNode_ledger rfl _ _).of_ok h₂
  have h₃ := (onNode_ledger h₂ _ _).of_ok h₃
  rw [(boost_ledger h₃ _ _).of_ok h₄]
  exact Ledger.Exact.push hs hfree ⟨hid, rfl⟩

/-- The token leaves the list of the old node and joins that of the new one. -/
theorem updateOnRedelegate_exact (hs : s.ledger.Exact) {newIdentityId : ℕ}
    (hok : s.updateOnRedelegate b tokenId newIdentityId = .ok s') : s'.ledger.Exact := by
  simp only [updateOnRedelegate, bind_eq_ok, require_eq_ok] at hok
  obtain ⟨_, hnew, _, hold, _, hne, s₁, h₁, s₂, h₂, s₃, h₃, s₄, h₄, s₅, h₅, s₆, h₆, s₇, h₇,
    h₈⟩ := hok
  have h₁ := (onNode_ledger (s := s) rfl _ _).of_ok h₁
  have h₂ := (onNode_ledger h₁ _ _).of_ok h₂
  have h₃ := (onNode_ledger h₂ _ _).of_ok h₃
  have h₄ := (boost_ledger h₃ _ _).of_ok h₄
  have h₅ := (onNode_ledger h₄ _ _).of_ok h₅
  have h₆ := (boost_ledger h₅ _ _).of_ok h₆
  have hpos : s₆.positions = s.positions := congrArg Ledger.positions h₆
  rw [← h₆] at hs
  rw [← hpos] at hold hne h₇ h₈
  have hon : (s₆.positions tokenId).On (s₆.positions tokenId).identityId := ⟨hold, rfl⟩
  obtain ⟨l, ix, hl, hmem, rfl⟩ := popNodeToken_ok h₇ (hs.enumerates.indexed _)
    ((hs.enumerates.mem_iff _ _).mpr hon)
  obtain ⟨-, rfl⟩ := moveNodeStakeV10_ok hne h₈
  have hpush := (Ledger.Exact.pop hs hon hl hmem).push (t := tokenId)
    (p := { s₆.positions tokenId with identityId := newIdentityId })
    (by rw [update_self]; rfl) ⟨hnew, rfl⟩
  rw [update_idem, Nat.sub_add_cancel (Ledger.Exact.raw_le hs hon).2,
    update_of_ne (Ne.symm hne) _ s₆.nodeStakeV10] at hpush
  exact hpush

/-- The new token takes the place of the old one, with the same raw stake. -/
theorem createNewPositionFromExisting_exact (hs : s.ledger.Exact)
    {oldTokenId newTokenId newLockTier : ℕ}
    (hok : s.createNewPositionFromExisting b oldTokenId newTokenId identityId newLockTier =
      .ok s') : s'.ledger.Exact := by
  simp only [createNewPositionFromExisting, bind_eq_ok, require_eq_ok, pure_eq_ok] at hok
  obtain ⟨_, _, _, hfree, _, hne, _, hold, _, rfl, _, _, m, _, s₁, h₁, s₂, h₂, s₃, h₃, expiry, _,
    s₄, h₄, s₅, h₅, s₆, h₆, rfl⟩ := hok
  have h₁ := (onNode_ledger (s := s) rfl _ _).of_ok h₁
  have h₂ := (onNode_ledger h₁ _ _).of_ok h₂
  have h₃ := (boost_ledger h₂ _ _).of_ok h₃
  have h₄ := (onNode_ledger h₃ _ _).of_ok h₄
  have h₅ := (boost_ledger h₄ _ _).of_ok h₅
  have hpos : s₅.positions = s.positions := congrArg Ledger.positions h₅
  rw [← h₅] at hs
  rw [← hpos] at hfree hold h₆ ⊢
  have hon : (s₅.positions oldTokenId).On (s₅.positions oldTokenId).identityId := ⟨hold, rfl⟩
  obtain ⟨l, ix, hl, hmem, rfl⟩ := popNodeToken_ok h₆ (hs.enumerates.indexed _)
    ((hs.enumerates.mem_iff _ _).mpr hon)
  have hexact := Ledger.Exact.replace (p := { s₅.positions oldTokenId with
    lockTier := newLockTier, expiryTimestamp := expiry, multiplier18 := m })
    hs hon hl hmem hne hfree ⟨hold, rfl⟩ rfl
  simpa only [ledger, moveRewardCarries, pushNodeToken, setPosition, update_self] using hexact

theorem deletePosition_exact (hs : s.ledger.Exact)
    (hok : s.deletePosition b tokenId = .ok s') : s'.ledger.Exact := by
  obtain ⟨_, hold, hok⟩ := bind_eq_ok.mp hok
  rw [require_eq_ok] at hold
  obtain ⟨s₃, h₃, hpos, hok⟩ := unwind_ledger hok
  simp only [bind_eq_ok, pure_eq_ok] at hok
  obtain ⟨s₄, h₄, s₅, h₅, rfl⟩ := hok
  rw [← h₃] at hs
  rw [← hpos] at hold h₄ h₅
  have hon : (s₃.positions tokenId).On (s₃.positions tokenId).identityId := ⟨hold, rfl⟩
  obtain ⟨l, ix, hl, hmem, rfl⟩ := popNodeToken_ok h₄ (hs.enumerates.indexed _)
    ((hs.enumerates.mem_iff _ _).mpr hon)
  obtain ⟨-, -, rfl⟩ := decreaseNodeStakePositive_ok h₅
  exact Ledger.Exact.pop hs hon hl hmem

theorem increaseRaw_exact (hs : s.ledger.Exact)
    (hok : s.increaseRaw b tokenId amount = .ok s') : s'.ledger.Exact := by
  obtain ⟨_, hold, hok⟩ := bind_eq_ok.mp hok
  rw [require_eq_ok] at hold
  split at hok
  · cases hok
    exact hs
  · obtain ⟨_, _, hok⟩ := bind_eq_ok.mp hok
    obtain ⟨s₃, h₃, hpos, h₄⟩ := unwind_ledger hok
    rw [← h₃] at hs
    rw [← hpos] at hold h₄
    cases increaseNodeStakeV10_ok h₄
    exact Ledger.Exact.withRaw hs hold (by simp only [setPosition]; omega)
      (by simp only [setPosition]; omega)

theorem decreaseRaw_exact (hs : s.ledger.Exact)
    (hok : s.decreaseRaw b tokenId amount = .ok s') : s'.ledger.Exact := by
  obtain ⟨_, hold, hok⟩ := bind_eq_ok.mp hok
  obtain ⟨_, hle, hok⟩ := bind_eq_ok.mp hok
  rw [require_eq_ok] at hold hle
  split at hok
  · cases hok
    exact hs
  · obtain ⟨s₃, h₃, hpos, h₄⟩ := unwind_ledger hok
    rw [← h₃] at hs
    rw [← hpos] at hold hle h₄
    obtain ⟨hnode, htotal, rfl⟩ := decreaseNodeStakeV10_ok h₄
    simp only [setPosition] at hnode htotal
    exact Ledger.Exact.withRaw hs hold (by simp only [setPosition]; omega)
      (by simp only [setPosition]; omega)

theorem step_exact (hs : s.ledger.Exact) (call : Storage.Call c)
    (hok : Storage.step s call = .ok s') : s'.ledger.Exact := by
  obtain ⟨b, op⟩ := call
  cases op with
  | createPosition => exact createPosition_exact hs hok
  | updateOnRedelegate => exact updateOnRedelegate_exact hs hok
  | createNewPositionFromExisting => exact createNewPositionFromExisting_exact hs hok
  | increaseRaw => exact increaseRaw_exact hs hok
  | decreaseRaw => exact decreaseRaw_exact hs hok
  | deletePosition => exact deletePosition_exact hs hok
  | addTier | deactivateTier | setConvictionCreditSeconds =>
    simp only [Storage.step, addTier, deactivateTier, setConvictionCreditSeconds, bind_eq_ok,
      pure_eq_ok] at hok
    obtain ⟨_, _, _, _, rfl⟩ := hok
    exact hs
  | settleNodeTo =>
    simp only [Storage.step, settleNodeTo] at hok
    rw [(onNode_ledger rfl _ _).of_ok hok]
    exact hs

theorem initial_exact : initial.ledger.Exact := by
  have hraw : ∀ id, nodeRaw initial.positions id = 0 := fun id =>
    (finsum_congr fun t => rawOn_of_zero rfl).trans finsum_zero
  have hall : allRaw initial.positions = 0 :=
    (finsum_congr fun t => held_of_zero rfl).trans finsum_zero
  refine ⟨?_, ⟨fun id => ⟨nodup_nil, fun t ht => absurd ht not_mem_nil⟩,
    fun id t => ?_⟩, fun id => (hraw id).symm, hall.symm⟩
  · exact Set.finite_empty.subset fun t ht => ht rfl
  · exact ⟨fun ht => absurd ht not_mem_nil, fun hon => absurd rfl hon.1⟩

theorem run_exact (calls : List (Storage.Call c)) :
    (run Storage.step initial calls).ledger.Exact :=
  run_invariant (fun s => s.ledger.Exact) (fun _ call _ hs hok => step_exact hs call hok)
    initial_exact

/-- After every run of calls, the stake of a node is the raw stake of the positions on it, the
total is that of all nodes, and the token list of a node has each of its positions once, at the
place recorded for it. -/
theorem run_enumeration (calls : List (Storage.Call c)) :
    let s := run Storage.step initial calls
    s.totalStakeV10 = ∑ᶠ id, s.nodeStakeV10 id ∧
    ∀ id, s.nodeStakeV10 id = (∑ᶠ t, if (s.positions t).On id then (s.positions t).raw else 0) ∧
      (∀ t, t ∈ s.nodeTokens id ↔ (s.positions t).On id) ∧ (s.nodeTokens id).Nodup ∧
      ∀ t, (s.positions t).On id → (s.nodeTokens id)[s.nodeTokenIndex id t]? = some t := by
  intro s
  obtain ⟨hfin, henum, hstake, htotal⟩ := run_exact calls
  refine ⟨?_, fun id => ⟨hstake id, henum.mem_iff id, (henum.indexed id).nodup, fun t ht => ?_⟩⟩
  · exact (htotal.trans (finsum_nodeRaw hfin).symm).trans (finsum_congr fun id => (hstake id).symm)
  · exact (henum.indexed id).at_index t ((henum.mem_iff id t).mpr ht)

theorem run_enumeration_movedLock :
    let s := run Storage.step initial movedLock
    (s.nodeTokens 8)[s.nodeTokenIndex 8 1]? = some 1 := by
  intro s
  obtain ⟨-, hnode⟩ := run_enumeration movedLock
  obtain ⟨-, -, -, hindex⟩ := hnode 8
  exact hindex 1 (by decide +kernel)

end Storage
end Dkg.Staking
