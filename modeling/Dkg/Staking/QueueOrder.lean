import Dkg.Staking.CallWalk

/-!
The expiry queue of a node on its own: whatever the calls and their times, the pending entries
are an ordered set, the side maps agree with them, and settling in two steps is settling once.
-/

namespace Dkg.Staking
open Revert NodeStake Function

namespace NodeStake
variable {n n' : NodeStake} {q : List ℕ} {ts t t₁ t₂ m d x : ℕ}

section Twice

/-- The loop does not look at the moment of the last settlement. -/
theorem settleLoop_lastSettledAt (ts : ℕ) (q : List ℕ) (n : NodeStake) (x : ℕ) :
    settleLoop ts q { n with lastSettledAt := x } =
      settleLoop ts q n >>= fun n' => .ok { n' with lastSettledAt := x } := by
  induction q generalizing n with
  | nil => rfl
  | cons t rest ih =>
    simp only [settleLoop]
    split_ifs with hgt
    · rfl
    · cases takeDrop n.runningEffectiveStake (n.expiryDrop t) with
      | error e => rfl
      | ok stake =>
        rw [ok_bind, ok_bind]
        exact ih { n with
          runningEffectiveStake := stake
          expiryDrop := update n.expiryDrop t 0
          expiryPresent := update n.expiryPresent t false
          expiryHead := n.expiryHead + 1 }

/-- A later moment goes on from where an earlier one stopped. -/
theorem settleLoop_settleLoop (h : t₁ ≤ t₂) (hq : n.pending = q) :
    (settleLoop t₁ q n >>= fun n' => settleLoop t₂ n'.pending n') = settleLoop t₂ q n := by
  induction q generalizing n with
  | nil =>
    rw [settleLoop, ok_bind, hq]
  | cons t rest ih =>
    rw [settleLoop]
    split_ifs with hgt
    · rw [ok_bind, hq]
    · rw [settleLoop, if_neg (by omega)]
      cases takeDrop n.runningEffectiveStake (n.expiryDrop t) with
      | error e => rfl
      | ok stake => exact ih (pending_cons hq).2

theorem settleNodeTo_settleNodeTo (n : NodeStake) (h : t₁ ≤ t₂) :
    (settleNodeTo n t₁ >>= fun n' => settleNodeTo n' t₂) = settleNodeTo n t₂ := by
  by_cases hfirst : t₁ ≤ n.lastSettledAt
  · rw [settleNodeTo, if_pos hfirst, ok_bind]
  · have hsecond : ¬t₂ ≤ n.lastSettledAt := by omega
    rw [settleNodeTo, if_neg hfirst, settleNodeTo, if_neg hsecond]
    rcases h.eq_or_lt with rfl | hlt
    · cases settleLoop t₁ n.pending n with
      | error e => rfl
      | ok n' =>
        change settleNodeTo { n' with lastSettledAt := t₁ } t₁ = _
        rw [settleNodeTo, if_pos le_rfl]
        rfl
    · rw [← settleLoop_settleLoop h rfl]
      cases settleLoop t₁ n.pending n with
      | error e => rfl
      | ok n' =>
        change settleNodeTo { n' with lastSettledAt := t₁ } t₂ = _
        have hloop := settleLoop_lastSettledAt t₂ n'.pending n' t₁
        rw [settleNodeTo, if_neg (by dsimp only; omega), ok_bind]
        change (settleLoop t₂ n'.pending { n' with lastSettledAt := t₁ } >>= _) = _
        rw [hloop]
        cases settleLoop t₂ n'.pending n' with
        | error e => rfl
        | ok n'' => rfl

end Twice

section View

/-- What settling leaves is what the simulation reads, failures included. -/
theorem settleLoop_running (hq : q.Nodup) (n : NodeStake) :
    (settleLoop ts q n >>= fun n' => .ok n'.runningEffectiveStake) =
      simulateLoop n.expiryDrop ts q n.runningEffectiveStake := by
  induction q generalizing n with
  | nil => rfl
  | cons t rest ih =>
    rw [List.nodup_cons] at hq
    rw [settleLoop, simulateLoop, takeDrop_eq_sub]
    split_ifs with hgt
    · rfl
    · cases Checked.sub n.runningEffectiveStake (n.expiryDrop t) Err.dropUnderflow with
      | error e => rfl
      | ok stake =>
        rw [ok_bind, ok_bind, ih hq.2]
        exact simulateLoop_update hq.1 stake

theorem settleNodeTo_running (hn : Ordered n) (hts : n.lastSettledAt ≤ ts) :
    (settleNodeTo n ts >>= fun n' => .ok n'.runningEffectiveStake) =
      simulateNodeEffectiveStakeAt n ts := by
  rw [simulateNodeEffectiveStakeAt, if_neg (not_lt.mpr hts), ← settleLoop_running hn.sorted.nodup]
  unfold settleNodeTo
  split_ifs with hle
  · -- settled at `ts` already: the first pending entry is later
    have hstop : settleLoop ts n.pending n = .ok n := by
      cases hq : n.pending with
      | nil => rfl
      | cons t rest =>
        have hlt := hn.future t (by simp [hq])
        rw [settleLoop, if_pos (by omega)]
    rw [hstop]
  · cases settleLoop ts n.pending n with
    | error e => rfl
    | ok n' => rfl

end View

end NodeStake

section Storage
variable {c : Chronos} {b : Block c} {s s' : Storage} {i t d raw m tokenId lockTier : ℕ}
  {p : Position}

/-- The queues of all nodes are in order. -/
def QueuesOrdered (s : Storage) : Prop := ∀ i, Ordered (s.nodes i)

/-- A call that ends leaves the queues in order. -/
abbrev KeepsOrder (x : Except Err Storage) : Prop := Ends (fun _ => True) QueuesOrdered x

theorem onNode_order {f : NodeStake → Except Err NodeStake}
    (hf : ∀ n n', Ordered n → f n = .ok n' → Ordered n') (hs : QueuesOrdered s) :
    KeepsOrder (s.onNode i f) := by
  unfold Storage.onNode
  cases hn : f (s.nodes i) with
  | error e => trivial
  | ok n =>
    intro j
    by_cases hj : j = i
    · subst hj
      simpa using hf _ _ (hs j) hn
    · simpa [hj] using hs j

/-- The steps of the calls keep the queues in order at any time. -/
theorem order_walk (now : ℕ) :
    Walk (fun _ => True) now (fun _ => True) fun _ s => QueuesOrdered s where
  error _ := trivial
  zero := trivial
  expiry _ _ := trivial
  frame hs h i := h.nodes ▸ hs i
  setPosition _ hs _ := hs
  done hs := hs
  settle _ := onNode_order fun _ _ hn hok => ((settleNodeTo_ends hn now).of_ok hok).1
  delta _ δ := onNode_order fun _ _ hn hok => ((applyNodeStakeDelta_ends hn δ).of_ok hok).1
  cancel _ t d := onNode_order fun _ _ hn hok => ((cancelNodeExpiry_ends hn t d).of_ok hok).1
  schedule _ hs _ _ := onNode_order (fun _ _ hn hok => (scheduleNodeExpiry_ordered hn hok).1) hs
  compute _ _ := (ends_true _).mono fun _ _ => trivial
  addTier _ _ _ hs := (ends_true _).bind fun _ _ => (ends_true _).bind fun _ _ => ends_pure hs
  deactivateTier _ hs := (ends_true _).bind fun _ _ => (ends_true _).bind fun _ _ => ends_pure hs
  setCredit _ hs := (ends_true _).bind fun _ _ => (ends_true _).bind fun _ _ => ends_pure hs

theorem run_order (calls : List (Storage.Call c)) :
    QueuesOrdered (run Storage.step Storage.initial calls) :=
  run_invariant QueuesOrdered (fun _ call _ hs hok => ((order_walk call.time).step hs
    fun _ _ _ _ => (ends_true _).mono fun _ _ => trivial).of_ok hok) fun _ => empty_wf

/-- Two operations on one node are one. -/
theorem onNode_onNode (s : Storage) (i : ℕ) (f g : NodeStake → Except Err NodeStake) :
    (s.onNode i f >>= fun s' => s'.onNode i g) = s.onNode i fun n => f n >>= g := by
  simp only [Storage.onNode]
  cases f (s.nodes i) with
  | error e => rfl
  | ok n =>
    simp only [ok_bind, pure_bind, update_self]
    cases g n with
    | error e => rfl
    | ok n' => simp

/-- The view reads what a settlement would leave. -/
theorem settleNodeTo_view {id ts : ℕ} (hn : Ordered (s.nodes id))
    (hts : (s.nodes id).lastSettledAt ≤ ts) :
    (s.settleNodeTo id ts >>= fun s' => .ok (s'.nodes id).runningEffectiveStake) =
      s.getNodeEffectiveStakeAtTimestamp id ts := by
  rw [Storage.getNodeEffectiveStakeAtTimestamp, ← settleNodeTo_running hn hts]
  simp only [Storage.settleNodeTo, Storage.onNode]
  cases (s.nodes id).settleNodeTo ts with
  | error e => rfl
  | ok n => simp only [ok_bind, pure_bind, update_self]

/-- After every run of calls at any times, the pending entries of a node are an ordered set
after its last settlement and the side maps are about them; settling at a moment on the way
changes nothing, and settling leaves the stake that the view read before. -/
theorem run_queue_exact (calls : List (Storage.Call c)) (id : ℕ) :
    let s := run Storage.step Storage.initial calls
    let n := s.nodes id
    let pending := n.expiryTimes.drop n.expiryHead
    pending.Pairwise (· < ·) ∧ (∀ t ∈ pending, n.lastSettledAt < t) ∧
    (∀ t, n.expiryPresent t = true ↔ t ∈ pending) ∧
    (∀ t, n.expiryDrop t ≠ 0 → t ∈ pending) ∧
    (∀ t₁ t₂, t₁ ≤ t₂ →
      (s.settleNodeTo id t₁ >>= fun s' => s'.settleNodeTo id t₂) = s.settleNodeTo id t₂) ∧
    ∀ ts, n.lastSettledAt ≤ ts →
      (s.settleNodeTo id ts >>= fun s' => .ok (s'.nodes id).runningEffectiveStake) =
        s.getNodeEffectiveStakeAtTimestamp id ts := by
  intro s n pending
  have hn : Ordered n := run_order calls id
  refine ⟨hn.sorted, hn.future, hn.present_iff, hn.drop_pending, fun t₁ t₂ h => ?_,
    fun ts hts => ?_⟩
  · refine (onNode_onNode s id _ _).trans ?_
    simp only [settleNodeTo_settleNodeTo _ h]
    rfl
  · exact settleNodeTo_view hn hts

theorem run_queue_exact_movedLock :
    let s := run Storage.step Storage.initial movedLock
    (s.settleNodeTo 8 2635200 >>= fun s' => .ok (s'.nodes 8).runningEffectiveStake) =
      .ok 1013 := by
  intro s
  obtain ⟨-, -, -, -, -, hview⟩ := run_queue_exact movedLock 8
  have hlast : (s.nodes 8).lastSettledAt ≤ 2635200 := by decide +kernel
  rw [hview 2635200 hlast]
  decide +kernel

end Storage

end Dkg.Staking
