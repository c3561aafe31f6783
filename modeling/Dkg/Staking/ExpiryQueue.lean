import Dkg.Staking.NodeStake

namespace Dkg.Staking.NodeStake
open Revert StepProfile List Function

variable {n n' : NodeStake} {arr u v q : List ℕ} {ts t m d T : ℕ} {F : ℕ → ℤ}

/-- The errors an operation may fail with: none of the strict checks of the queue. -/
def Benign (e : Err) : Prop :=
  e ≠ .cancelGtScheduled ∧ e ≠ .negRunningStake ∧ e ≠ .dropUnderflow

instance : DecidablePred Benign := fun _ => inferInstanceAs (Decidable (_ ∧ _))

/-- The queue as seen from moment `m`: the pending entries are in order and after `m`, and
exactly they hold drops. -/
structure Wf (m : ℕ) (n : NodeStake) : Prop where
  head_le : n.expiryHead ≤ n.expiryTimes.length
  sorted : n.pending.Pairwise (· < ·)
  future : ∀ t ∈ n.pending, m < t
  present_iff : ∀ t, n.expiryPresent t = true ↔ t ∈ n.pending
  drop_pending : ∀ t, n.expiryDrop t ≠ 0 → t ∈ n.pending

/-- The effective stake at `T`, as seen from moment `m`. -/
def valueFrom (m : ℕ) (n : NodeStake) (T : ℕ) : ℤ :=
  value n.runningEffectiveStake n.expiryDrop m T

theorem empty_wf : Wf 0 empty := by
  constructor <;> simp [empty, pending]

section Settle

theorem pending_cons (h : n.pending = t :: q) :
    n.expiryHead < n.expiryTimes.length ∧ n.expiryTimes.drop (n.expiryHead + 1) = q := by
  have hlt : n.expiryHead < n.expiryTimes.length := by
    by_contra hge
    rw [pending, drop_eq_nil_of_le (by omega)] at h
    cases h
  rw [pending, drop_eq_getElem_cons hlt] at h
  exact ⟨hlt, (cons.inj h).2⟩

/-- Nothing drops before the first pending entry. -/
theorem Wf.quiet (hw : Wf m n) (h : n.pending = t :: q) (ht : T < t) :
    ∀ i, m < i → i ≤ T → n.expiryDrop i = 0 := by
  intro i _ hi
  by_contra hne
  have hmem := hw.drop_pending i hne
  have hsorted := hw.sorted
  rw [h] at hmem hsorted
  rcases mem_cons.mp hmem with rfl | hmem
  · omega
  · have := (pairwise_cons.mp hsorted).1 i hmem
    omega

/-- The stake after the entry at `t` is the value at `t`. -/
theorem Wf.valueFrom_head (hw : Wf m n) (h : n.pending = t :: q) :
    n.valueFrom m t = n.runningEffectiveStake - n.expiryDrop t := by
  have hlt : m < t := hw.future t (by simp [h])
  have hbefore : value (n.runningEffectiveStake : ℤ) n.expiryDrop m (t - 1) =
      n.runningEffectiveStake := value_of_quiet (hw.quiet h (by omega))
  have hdrop : (n.expiryDrop t : ℤ) = value (n.runningEffectiveStake : ℤ) n.expiryDrop m (t - 1) -
      value (n.runningEffectiveStake : ℤ) n.expiryDrop m t := drop_eq hlt
  unfold valueFrom
  omega

theorem Wf.later (hw : Wf m n) (h : ∀ t ∈ n.pending, ts < t) : Wf ts n :=
  ⟨hw.head_le, hw.sorted, h, hw.present_iff, hw.drop_pending⟩

/-- The queue is the same from any moment that its first entry is after. -/
theorem Wf.later_of_head (hw : Wf m n) (hq : n.pending = t :: q) (hgt : ts < t) : Wf ts n := by
  have hsorted := hw.sorted
  refine hw.later fun i hi => ?_
  rw [hq] at hi hsorted
  rcases mem_cons.mp hi with rfl | hi
  · exact hgt
  · exact lt_trans hgt ((pairwise_cons.mp hsorted).1 i hi)

/-- Seen from `t` the entry at `t` is drained. -/
def drained (n : NodeStake) (t : ℕ) : NodeStake where
  runningEffectiveStake := n.runningEffectiveStake - n.expiryDrop t
  lastSettledAt := n.lastSettledAt
  expiryTimes := n.expiryTimes
  expiryDrop := update n.expiryDrop t 0
  expiryHead := n.expiryHead + 1
  expiryPresent := update n.expiryPresent t false

theorem Wf.drained (hw : Wf m n) (h : n.pending = t :: q) : Wf t (n.drained t) := by
  obtain ⟨hlt, hq⟩ := pending_cons h
  have hpend : (n.drained t).pending = q := hq
  have hsorted := hw.sorted
  rw [h, pairwise_cons] at hsorted
  have hnot : t ∉ q := fun hmem => lt_irrefl t (hsorted.1 t hmem)
  refine ⟨hlt, by rw [hpend]; exact hsorted.2, ?_, fun i => ?_, fun i hi => ?_⟩
  · rw [hpend]
    exact hsorted.1
  · have hi := hw.present_iff i
    rw [h, mem_cons] at hi
    rw [hpend]
    by_cases hit : i = t
    · subst hit
      simpa [NodeStake.drained] using hnot
    · simpa [NodeStake.drained, hit] using hi
  · rw [hpend]
    by_cases hit : i = t
    · subst hit
      simp [NodeStake.drained] at hi
    · have hmem := hw.drop_pending i (by simpa [NodeStake.drained, hit] using hi)
      rw [h, mem_cons] at hmem
      exact hmem.resolve_left hit

theorem Wf.valueFrom_drained (hw : Wf m n) (h : n.pending = t :: q)
    (hle : n.expiryDrop t ≤ n.runningEffectiveStake) (hT : t ≤ T) :
    (n.drained t).valueFrom t T = n.valueFrom m T := by
  have hlt : m < t := hw.future t (by simp [h])
  have hhead := hw.valueFrom_head h
  have hrun : ((n.runningEffectiveStake - n.expiryDrop t : ℕ) : ℤ) = n.valueFrom m t := by
    rw [hhead]
    omega
  unfold valueFrom at hrun ⊢
  rw [← value_advance hlt.le hT, ← hrun]
  refine value_congr fun i hi => ?_
  exact update_of_ne (by omega) _ _

/-- A node that stands at moment `ts` with the effective stake `F` from then on. -/
structure Stands (ts : ℕ) (F : ℕ → ℤ) (n : NodeStake) : Prop where
  wf : Wf ts n
  value : ∀ T, ts ≤ T → n.valueFrom ts T = F T

theorem takeDrop_eq_sub (stake drop : ℕ) :
    takeDrop stake drop = Checked.sub stake drop .dropUnderflow := by
  unfold takeDrop
  split_ifs with hdrop
  · rfl
  · rw [not_not.mp hdrop]
    simp [Checked.sub]

/-- The loop drains exactly the entries up to `ts`. -/
theorem settleLoop_ends (hw : Wf m n) (hm : m ≤ ts) :
    Ends (· = .dropUnderflow) (fun n' => Wf ts n' ∧ ∀ t ∈ n'.pending, t ∈ n.pending)
      (settleLoop ts n.pending n) := by
  generalize hq : n.pending = q
  induction q generalizing n m with
  | nil => exact ⟨hw.later (by simp [hq]), fun t ht => hq ▸ ht⟩
  | cons t rest ih =>
    rw [settleLoop, takeDrop_eq_sub]
    split
    case isTrue hgt => exact ⟨hw.later_of_head hq hgt, fun t ht => hq ▸ ht⟩
    case isFalse hle =>
      unfold Checked.sub
      split
      · refine (ih (hw.drained hq) (by omega) (pending_cons hq).2).mono fun n' hn' => ?_
        exact ⟨hn'.1, fun i hi => mem_cons_of_mem _ (hn'.2 i hi)⟩
      · exact rfl

theorem settleLoop_stands (hw : Wf m n) (hm : m ≤ ts)
    (hnn : ∀ T, m ≤ T → 0 ≤ n.valueFrom m T) :
    ∃ n', settleLoop ts n.pending n = .ok n' ∧ Stands ts (n.valueFrom m) n' := by
  -- induction on the pending entries, the moment of view moving with the drain cursor
  generalize hq : n.pending = q
  induction q generalizing n m with
  | nil =>
    refine ⟨n, rfl, hw.later (by simp [hq]), fun T hT => ?_⟩
    have hquiet : ∀ i, m < i → n.expiryDrop i = 0 := by
      intro i _
      by_contra hne
      simpa [hq] using hw.drop_pending i hne
    unfold valueFrom
    rw [value_of_quiet fun i hi _ => hquiet i (by omega), value_of_quiet fun i hi _ => hquiet i hi]
  | cons t rest ih =>
    rw [settleLoop]
    split_ifs with hgt
    · have hquiet : ∀ i, m < i → i ≤ ts → n.expiryDrop i = 0 := hw.quiet hq hgt
      refine ⟨n, rfl, hw.later_of_head hq hgt, fun T hT => ?_⟩
      have hnow : value (n.runningEffectiveStake : ℤ) n.expiryDrop m ts =
          n.runningEffectiveStake := value_of_quiet hquiet
      unfold valueFrom
      rw [← value_advance hm hT, hnow]
    · have hlt : m < t := hw.future t (by simp [hq])
      have hdrop : n.expiryDrop t ≤ n.runningEffectiveStake := by
        have := hnn t hlt.le
        rw [hw.valueFrom_head hq] at this
        omega
      have htake : takeDrop n.runningEffectiveStake (n.expiryDrop t) =
          .ok (n.runningEffectiveStake - n.expiryDrop t) := by
        simp [takeDrop_eq_sub, hdrop]
      have hval := fun T (hT : t ≤ T) => hw.valueFrom_drained hq hdrop hT
      obtain ⟨n', hn', hst⟩ := ih (hw.drained hq) (by omega)
        (fun T hT => by rw [hval T hT]; exact hnn T (by omega)) (pending_cons hq).2
      refine ⟨n', by rw [htake, ok_bind]; exact hn', hst.wf, fun T hT => ?_⟩
      rw [hst.value T hT, hval T (by omega)]

end Settle

section Operations

/-- The node's effective stake is `F` from its last settlement on. -/
def Keeps (F : ℕ → ℤ) (n : NodeStake) : Prop := Stands n.lastSettledAt F n

theorem settleNodeTo_keeps (hk : Keeps F n) (hts : n.lastSettledAt ≤ ts)
    (hnn : ∀ T, n.lastSettledAt ≤ T → 0 ≤ F T) :
    ∃ n', settleNodeTo n ts = .ok n' ∧ Keeps F n' ∧ n'.lastSettledAt = ts := by
  unfold settleNodeTo
  split
  · exact ⟨n, rfl, hk, by omega⟩
  · obtain ⟨n', hn', hst⟩ := settleLoop_stands hk.wf hts
      fun T hT => by rw [hk.value T hT]; exact hnn T hT
    refine ⟨{ n' with lastSettledAt := ts }, by rw [hn', ok_bind]; rfl, ⟨?_, ?_⟩, rfl⟩
    · exact ⟨hst.wf.head_le, hst.wf.sorted, hst.wf.future, hst.wf.present_iff, hst.wf.drop_pending⟩
    · intro T hT
      exact (hst.value T hT).trans (hk.value T (hts.trans hT))

/-- The simulation does not read drops of other moments. -/
theorem simulateLoop_update {drop : ℕ → ℕ} {x : ℕ} (h : t ∉ q) (stake : ℕ) :
    simulateLoop (update drop t x) ts q stake = simulateLoop drop ts q stake := by
  induction q generalizing stake with
  | nil => rfl
  | cons i q ih =>
    obtain ⟨hne, h⟩ := ne_and_not_mem_of_not_mem_cons h
    simp only [simulateLoop, update_of_ne hne.symm]
    split_ifs with hgt
    · rfl
    · cases Checked.sub stake (drop i) Err.dropUnderflow with
      | error e => rfl
      | ok stake' => exact ih h stake'

theorem simulateLoop_eq (hw : Wf m n) (hT : m ≤ T)
    (hnn : ∀ i, m ≤ i → 0 ≤ n.valueFrom m i) :
    ∃ x : ℕ, simulateLoop n.expiryDrop T n.pending n.runningEffectiveStake = .ok x ∧
      (x : ℤ) = n.valueFrom m T := by
  generalize hq : n.pending = q
  induction q generalizing n m with
  | nil =>
    refine ⟨n.runningEffectiveStake, rfl, (value_of_quiet fun i _ _ => ?_).symm⟩
    by_contra hne
    simpa [hq] using hw.drop_pending i hne
  | cons t rest ih =>
    rw [simulateLoop]
    split_ifs with hgt
    · exact ⟨_, rfl, (value_of_quiet (hw.quiet hq hgt)).symm⟩
    · have hlt : m < t := hw.future t (by simp [hq])
      have hdrop : n.expiryDrop t ≤ n.runningEffectiveStake := by
        have := hnn t hlt.le
        rw [hw.valueFrom_head hq] at this
        omega
      have hval := fun T (hT : t ≤ T) => hw.valueFrom_drained hq hdrop hT
      obtain ⟨x, hx, heq⟩ := ih (hw.drained hq) (by omega)
        (fun i hi => by rw [hval i hi]; exact hnn i (by omega)) (pending_cons hq).2
      refine ⟨x, ?_, heq.trans (hval T (by omega))⟩
      have hnot : t ∉ rest := by
        have hsorted := hw.sorted
        rw [hq, pairwise_cons] at hsorted
        exact fun hmem => lt_irrefl t (hsorted.1 t hmem)
      rw [show Checked.sub n.runningEffectiveStake (n.expiryDrop t) Err.dropUnderflow =
        .ok (n.runningEffectiveStake - n.expiryDrop t) by simp [hdrop], ok_bind]
      exact (simulateLoop_update hnot _).symm.trans hx

/-- The simulated settlement reads the effective stake. -/
theorem simulateNodeEffectiveStakeAt_keeps (hk : Keeps F n) (hT : n.lastSettledAt ≤ T)
    (hnn : ∀ i, n.lastSettledAt ≤ i → 0 ≤ F i) :
    ∃ x : ℕ, simulateNodeEffectiveStakeAt n T = .ok x ∧ (x : ℤ) = F T := by
  obtain ⟨x, hx, heq⟩ := simulateLoop_eq hk.wf hT
    fun i hi => by rw [hk.value i hi]; exact hnn i hi
  refine ⟨x, ?_, heq.trans (hk.value T hT)⟩
  unfold simulateNodeEffectiveStakeAt
  rw [if_neg (by omega)]
  exact hx

theorem applyNodeStakeDelta_keeps (hk : Keeps F n) (δ : ℤ) (hδ : 0 ≤ F n.lastSettledAt + δ) :
    Ends Benign (fun n' => Keeps (fun T => F T + δ) n' ∧ n'.lastSettledAt = n.lastSettledAt)
      (applyNodeStakeDelta n δ) := by
  have hrun : (n.runningEffectiveStake : ℤ) = F n.lastSettledAt := by
    rw [← hk.value _ le_rfl, valueFrom, value_self]
  have hset : ∀ x : ℕ, (x : ℤ) = n.runningEffectiveStake + δ →
      Keeps (fun T => F T + δ) { n with runningEffectiveStake := x } := by
    intro x hx
    refine ⟨⟨hk.wf.head_le, hk.wf.sorted, hk.wf.future, hk.wf.present_iff, hk.wf.drop_pending⟩,
      fun T hT => ?_⟩
    rw [← hk.value T hT]
    simp only [valueFrom, hx, value_add]
  unfold applyNodeStakeDelta
  split
  · rename_i hz
    subst hz
    exact ⟨by simpa using hk, rfl⟩
  · split
    · unfold Checked.add
      split
      · exact ⟨hset _ (by push_cast; omega), rfl⟩
      · exact show Benign _ by decide
    · refine (ends_require fun hlt => absurd ?_ hlt).bind fun _ hle => ?_
      · omega
      · exact ⟨hset _ (by omega), rfl⟩

/-- A change of drops that adds none keeps the queue in order. -/
theorem Wf.cancel (hw : Wf m n) :
    Wf m { n with expiryDrop := update n.expiryDrop t (n.expiryDrop t - d) } := by
  refine ⟨hw.head_le, hw.sorted, hw.future, hw.present_iff, fun i hi => ?_⟩
  refine hw.drop_pending i fun hz => hi ?_
  by_cases hit : i = t
  · subst hit
    simp [hz]
  · simp [hit, hz]

theorem cancelNodeExpiry_keeps (hk : Keeps F n) (ht : n.lastSettledAt < t)
    (hd : (d : ℤ) ≤ F (t - 1) - F t) :
    ∃ n', cancelNodeExpiry n t d = .ok n' ∧
      Keeps (fun T => F T + if t ≤ T then (d : ℤ) else 0) n' ∧
      n'.lastSettledAt = n.lastSettledAt := by
  have hdrop : (n.expiryDrop t : ℤ) = F (t - 1) - F t := by
    rw [← hk.value t (by omega), ← hk.value (t - 1) (by omega)]
    exact drop_eq ht
  unfold cancelNodeExpiry
  split
  · rename_i hz
    subst hz
    exact ⟨n, rfl, by simpa using hk, rfl⟩
  · rw [if_neg (by omega), require_of (by omega), ok_bind]
    refine ⟨_, rfl, ⟨hk.wf.cancel, fun T hT => ?_⟩, rfl⟩
    have hupd : ((n.expiryDrop t - d : ℕ) : ℤ) = n.expiryDrop t + -(d : ℤ) := by omega
    rw [← hk.value T hT]
    simp only [valueFrom, value_update hupd]
    split <;> split <;> omega

end Operations

section Schedule

theorem set_append_length (u : List ℕ) (y x : ℕ) (v : List ℕ) :
    (u ++ y :: v).set u.length x = u ++ x :: v := by
  induction u with
  | nil => rfl
  | cons a u ih => simp [ih]

theorem getD_append_length (u : List ℕ) (y : ℕ) (v : List ℕ) :
    (u ++ y :: v).getD u.length 0 = y := by
  induction u with
  | nil => rfl
  | cons a u ih => simp

/-- The bubble loop over entries `a` after `done` drained ones: it finds a split of `a`
with the new moment after entries that are not larger and before entries that are. -/
theorem bubble_split (ts : ℕ) (done a : List ℕ) (y : ℕ) (rest : List ℕ) :
    ∃ u v, a = u ++ v ∧ (∀ x ∈ v, ts < x) ∧ (∀ x ∈ u.getLast?, x ≤ ts) ∧
      bubble ts done.length (done.length + a.length) (done ++ (a ++ y :: rest)) =
        done ++ (u ++ ts :: v ++ rest) := by
  induction a using reverseRecOn generalizing y rest with
  | nil =>
    refine ⟨[], [], rfl, by simp, by simp, ?_⟩
    have hset := set_append_length done y ts rest
    cases done with
    | nil => rfl
    | cons x done =>
      simp only [length_cons, length_nil, add_zero, bubble, nil_append]
      rw [if_neg (by omega)]
      exact hset
  | append_singleton a z ih =>
    have hlen : done.length + (a ++ [z]).length = done.length + a.length + 1 := by
      simp
      omega
    have hget := getD_append_length (done ++ a) z (y :: rest)
    have hshape : done ++ (a ++ [z] ++ y :: rest) = done ++ a ++ z :: (y :: rest) := by simp
    rw [hlen, bubble, hshape]
    rw [length_append] at hget
    rw [hget]
    split
    · rename_i hgt
      have hset := set_append_length (done ++ a ++ [z]) y z rest
      simp only [length_append, length_singleton] at hset
      have hshift : (done ++ a ++ z :: (y :: rest)).set (done.length + a.length + 1) z =
          done ++ (a ++ z :: (z :: rest)) := by
        simpa using hset
      obtain ⟨u, v, ha, hv, hu, heq⟩ := ih z (z :: rest)
      refine ⟨u, v ++ [z], by rw [ha, append_assoc], ?_, hu, ?_⟩
      · intro x hx
        rcases mem_append.mp hx with hx | hx
        · exact hv x hx
        · rw [mem_singleton.mp hx]
          exact hgt.2
      · rw [hshift, heq]
        simp
    · rename_i hle
      have hset := set_append_length (done ++ a ++ [z]) y ts rest
      simp only [length_append, length_singleton] at hset
      refine ⟨a ++ [z], [], by simp, by simp, ?_, by simpa using hset⟩
      simp only [getLast?_append, getLast?_singleton, Option.some_or, Option.mem_def, Option.some.injEq]
      rintro x rfl
      by_contra hgt
      exact hle ⟨by omega, by omega⟩

/-- In an ordered queue a new moment ends up in order. -/
theorem bubble_pending (hw : Wf m n) (hnew : ts ∉ n.pending) :
    let q := (bubble ts n.expiryHead n.expiryTimes.length (n.expiryTimes ++ [ts])).drop n.expiryHead
    q.Pairwise (· < ·) ∧ (∀ t, t ∈ q ↔ t = ts ∨ t ∈ n.pending) ∧
      n.expiryHead ≤ (bubble ts n.expiryHead n.expiryTimes.length
        (n.expiryTimes ++ [ts])).length := by
  have hsplit : n.expiryTimes = n.expiryTimes.take n.expiryHead ++ n.pending :=
    (take_append_drop _ _).symm
  have hhead : (n.expiryTimes.take n.expiryHead).length = n.expiryHead := by
    rw [length_take, min_eq_left hw.head_le]
  obtain ⟨u, v, ha, hv, hu, heq⟩ :=
    bubble_split ts (n.expiryTimes.take n.expiryHead) n.pending ts []
  have harr : n.expiryTimes ++ [ts] =
      n.expiryTimes.take n.expiryHead ++ (n.pending ++ ts :: []) := by
    rw [← append_assoc, ← hsplit]
  have hlen : n.expiryTimes.length = n.expiryHead + n.pending.length := by
    rw [hsplit, length_append, hhead]
  rw [hhead, ← hlen, ← harr, append_nil] at heq
  have hdrop : (n.expiryTimes.take n.expiryHead ++ (u ++ ts :: v)).drop n.expiryHead =
      u ++ ts :: v := by
    rw [drop_append_of_le_length (by omega), drop_eq_nil_of_le (by omega), nil_append]
  have hsorted := hw.sorted
  rw [ha, pairwise_append] at hsorted
  intro q
  have hq : q = u ++ ts :: v := by
    rw [← hdrop, ← heq]
  rw [hq, heq, ha]
  refine ⟨?_, fun t => ?_, by rw [length_append]; omega⟩
  · -- everything in `u` is at most its last element, which is below the new moment
    have hbelow : ∀ x ∈ u, x < ts := by
      intro x hx
      have hle : x ≤ ts := by
        rcases eq_nil_or_concat u with rfl | ⟨u', z, rfl⟩
        · simp at hx
        · have hz : z ≤ ts := hu z (by simp)
          rw [concat_eq_append] at hx hsorted
          rcases mem_append.mp hx with hx | hx
          · have := (pairwise_append.mp hsorted.1).2.2 x hx z (by simp)
            omega
          · rw [mem_singleton.mp hx]
            exact hz
      rcases Nat.lt_or_ge x ts with h | h
      · exact h
      · exact absurd (by rw [ha]; simp [show ts = x by omega, hx]) hnew
    rw [pairwise_append]
    refine ⟨hsorted.1, pairwise_cons.mpr ⟨hv, hsorted.2.1⟩, fun x hx y hy => ?_⟩
    rcases mem_cons.mp hy with rfl | hy
    · exact hbelow x hx
    · exact lt_trans (hbelow x hx) (hv y hy)
  · simp only [mem_append, mem_cons]
    tauto

theorem scheduleNodeExpiry_keeps (hk : Keeps F n) :
    Ends Benign (fun n' => Keeps (fun T => F T - if t ≤ T then (d : ℤ) else 0) n' ∧
      n'.lastSettledAt = n.lastSettledAt) (scheduleNodeExpiry n t d) := by
  refine ends_guard (by decide) fun hd => ?_
  refine ends_guard (by decide) fun ht => ?_
  unfold Checked.add
  split
  swap
  · exact show Benign _ by decide
  rw [ok_bind]
  have hvalue : ∀ T, n.lastSettledAt ≤ T →
      value (n.runningEffectiveStake : ℤ) (update n.expiryDrop t (n.expiryDrop t + d))
        n.lastSettledAt T = F T - if t ≤ T then (d : ℤ) else 0 := by
    intro T hT
    have hupd : ((n.expiryDrop t + d : ℕ) : ℤ) = n.expiryDrop t + (d : ℤ) := by push_cast; rfl
    rw [value_update hupd, ← hk.value T hT]
    simp [valueFrom, show n.lastSettledAt < t from ht]
  have hdrop : ∀ i, update n.expiryDrop t (n.expiryDrop t + d) i ≠ 0 → i = t ∨ i ∈ n.pending := by
    intro i hi
    by_cases hit : i = t
    · exact .inl hit
    · exact .inr (hk.wf.drop_pending i (by simpa [hit] using hi))
  unfold reserve
  dsimp only
  split
  · rename_i hpresent
    have hmem : t ∈ n.pending := (hk.wf.present_iff t).mp hpresent
    refine ⟨⟨⟨hk.wf.head_le, hk.wf.sorted, hk.wf.future, hk.wf.present_iff, fun i hi => ?_⟩,
      hvalue⟩, rfl⟩
    rcases hdrop i hi with rfl | hi
    · exact hmem
    · exact hi
  · rename_i hpresent
    have hnew : t ∉ n.pending := fun hmem => hpresent ((hk.wf.present_iff t).mpr hmem)
    obtain ⟨hsorted, hmem, hhead⟩ := bubble_pending hk.wf hnew
    split
    · exact ⟨by simp, by simp, by simp⟩
    · refine ⟨⟨⟨hhead, hsorted, fun i hi => ?_, fun i => ?_, fun i hi => ?_⟩, hvalue⟩, rfl⟩
      · rcases (hmem i).mp hi with rfl | hi
        · exact ht
        · exact hk.wf.future i hi
      · refine Iff.trans ?_ (hmem i).symm
        by_cases hit : i = t
        · simp [hit]
        · simpa [hit] using hk.wf.present_iff i
      · exact (hmem i).mpr (hdrop i hi)

end Schedule

section Ordered

/-- The queue is in order as seen from the last settlement. -/
def Ordered (n : NodeStake) : Prop := Wf n.lastSettledAt n

/-- Not the revert of a full queue. -/
def NotFull : Err → Prop
  | .nodeExpiryQueueFull _ => False
  | _ => True

theorem settleNodeTo_ends (hn : Ordered n) (ts : ℕ) :
    Ends NotFull (fun n' => Ordered n' ∧ n'.lastSettledAt = max n.lastSettledAt ts ∧
      ∀ t ∈ n'.pending, t ∈ n.pending) (n.settleNodeTo ts) := by
  unfold settleNodeTo
  split
  case isTrue hle => exact ⟨hn, (max_eq_left hle).symm, fun _ => id⟩
  case isFalse hlt =>
    have hle := (not_le.mp hlt).le
    refine ((settleLoop_ends hn hle).imp fun e he => he ▸ trivial).bind fun n' hn' => ?_
    have hw := hn'.1
    exact ⟨⟨hw.head_le, hw.sorted, hw.future, hw.present_iff, hw.drop_pending⟩,
      (max_eq_right hle).symm, hn'.2⟩

theorem applyNodeStakeDelta_ends (hn : Ordered n) (δ : ℤ) :
    Ends NotFull (fun n' => Ordered n' ∧ n'.lastSettledAt = n.lastSettledAt ∧
      n'.pending = n.pending) (n.applyNodeStakeDelta δ) := by
  have hset : ∀ x, Ordered { n with runningEffectiveStake := x } := fun x =>
    ⟨hn.head_le, hn.sorted, hn.future, hn.present_iff, hn.drop_pending⟩
  unfold applyNodeStakeDelta Checked.add
  split
  · exact ⟨hn, rfl, rfl⟩
  split
  · split
    · exact ⟨hset _, rfl, rfl⟩
    · exact trivial
  · exact ends_guard trivial fun _ => ends_pure ⟨hset _, rfl, rfl⟩

theorem cancelNodeExpiry_ends (hn : Ordered n) (t d : ℕ) :
    Ends NotFull (fun n' => Ordered n' ∧ n'.lastSettledAt = n.lastSettledAt ∧
      n'.pending = n.pending) (n.cancelNodeExpiry t d) := by
  unfold cancelNodeExpiry
  split
  · exact ⟨hn, rfl, rfl⟩
  split
  · exact ⟨hn, rfl, rfl⟩
  · exact ends_guard trivial fun _ => ends_pure ⟨hn.cancel, rfl, rfl⟩

theorem scheduleNodeExpiry_ordered (hn : Ordered n) (h : scheduleNodeExpiry n t d = .ok n') :
    Ordered n' ∧ n'.lastSettledAt = n.lastSettledAt := by
  have hk : Keeps (n.valueFrom n.lastSettledAt) n := ⟨hn, fun _ _ => rfl⟩
  obtain ⟨hk', hlast⟩ := (scheduleNodeExpiry_keeps hk).of_ok h
  exact ⟨hk'.wf, hlast⟩

end Ordered

end Dkg.Staking.NodeStake
