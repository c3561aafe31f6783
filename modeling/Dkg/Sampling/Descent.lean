import Dkg.Sampling.WeightTree

namespace Dkg.WeightTree
open Revert List

/-- The loop of `findStrictGt`. A 256-bit step is zero after 256 halvings, so that
many rounds are enough. -/
def findLoop (t : Tree) (r : ℕ) : ℕ → ℕ → ℕ → ℕ → Except Err ℕ
  | 0, _, idx, _ => .ok idx
  | fuel + 1, step, idx, cum =>
    if step = 0 then .ok idx
    else if idx + step ≤ t.bitCapacity then do
      let sum ← Checked.add 256 cum (t.bit (idx + step)) .panic
      if sum ≤ r then findLoop t r fuel (step / 2) (idx + step) sum
      else findLoop t r fuel (step / 2) idx cum
    else findLoop t r fuel (step / 2) idx cum

def findStrictGt (t : Tree) (r : ℕ) : Except Err ℕ := do
  let idx ← findLoop t r 256 t.bitCapacity 0 0
  return idx + 1

/-- `s += cgWeight[e]` over the entries of `excluded` that satisfy `p`. -/
def excludedWeight (t : Tree) (p : ℕ → Bool) (excluded : List ℕ) : Except Err ℕ :=
  excluded.foldlM (fun s e => if p e then Checked.add 256 s (t.cgWeight e) .panic else .ok s) 0

def excludedInRange (t : Tree) (lo hi : ℕ) (excluded : List ℕ) : Except Err ℕ :=
  excludedWeight t (fun e => lo ≤ e && e ≤ hi) excluded

def excludedSum (t : Tree) (excluded : List ℕ) : Except Err ℕ :=
  excludedWeight t (fun _ => true) excluded

/-- The loop of `findStrictGtExcluding`. -/
def findExcludingLoop (t : Tree) (r : ℕ) (excluded : List ℕ) :
    ℕ → ℕ → ℕ → ℕ → Except Err ℕ
  | 0, _, idx, _ => .ok idx
  | fuel + 1, step, idx, cum =>
    if step = 0 then .ok idx
    else if idx + step > t.bitCapacity then findExcludingLoop t r excluded fuel (step / 2) idx cum
    else do
      let out ← excludedInRange t (idx + 1) (idx + step) excluded
      let nodeSum ← Checked.sub (t.bit (idx + step)) out .panic
      let sum ← Checked.add 256 cum nodeSum .panic
      if sum ≤ r then findExcludingLoop t r excluded fuel (step / 2) (idx + step) sum
      else findExcludingLoop t r excluded fuel (step / 2) idx cum

def findStrictGtExcluding (t : Tree) (r : ℕ) (excluded : List ℕ) : Except Err ℕ := do
  let idx ← findExcludingLoop t r excluded 256 t.bitCapacity 0 0
  return idx + 1

def workingTotal (t : Tree) (excluded : List ℕ) : Except Err ℕ := do
  let out ← excludedSum t excluded
  Checked.sub t.bitTotal out .panic

/-- The weight of the graphs up to `n` that are not excluded. -/
def weightUpTo (t : Tree) (excluded : List ℕ) (n : ℕ) : ℕ :=
  ∑ i ∈ (Finset.Iic n).filter (· ∉ excluded), t.cgWeight i

/-- The linear scan the descent stands for: the first id whose running weight
exceeds `r`. -/
def linearScan (weight : ℕ → ℕ) (r : ℕ) : ℕ → ℕ → ℕ → Option ℕ
  | 0, _, _ => none
  | n + 1, i, running =>
    if r < running + weight i then some i else linearScan weight r n (i + 1) (running + weight i)

variable {t : Tree} {excluded : List ℕ} {r i j k n idx fuel acc : ℕ} {p : ℕ → Bool}

theorem excludedWeight_fold
    (h : acc + ((excluded.filter p).map t.cgWeight).sum < 2 ^ 256) :
    excluded.foldlM (fun s e => if p e then Checked.add 256 s (t.cgWeight e) .panic else .ok s) acc
      = (.ok (acc + ((excluded.filter p).map t.cgWeight).sum) : Except Err ℕ) := by
  induction excluded generalizing acc with
  | nil => rfl
  | cons e es ih =>
    rw [foldlM_cons]
    by_cases hp : p e = true
    · simp only [filter_cons, if_pos hp, map_cons, sum_cons] at h ⊢
      have hadd : Checked.add 256 acc (t.cgWeight e) Err.panic = .ok (acc + t.cgWeight e) :=
        Checked.add_eq_ok.mpr ⟨by omega, rfl⟩
      rw [hadd, ok_bind, ih (by omega), add_assoc]
    · simp only [filter_cons, if_neg hp] at h ⊢
      rw [ok_bind, ih h]

/-- Distinct entries weigh what the set of them weighs. -/
theorem excludedWeight_eq (hw : Wf k t) (hd : (excluded.filter p).Nodup) :
    excludedWeight t p excluded = .ok (∑ e ∈ (excluded.filter p).toFinset, t.cgWeight e) := by
  have hsum : ((excluded.filter p).map t.cgWeight).sum =
      ∑ e ∈ (excluded.filter p).toFinset, t.cgWeight e :=
    (sum_toFinset _ hd).symm
  have hlt := lt_of_le_of_lt (hw.sum_le_bitTotal (excluded.filter p).toFinset) hw.total_lt
  rw [excludedWeight, excludedWeight_fold (by rw [hsum]; omega), hsum, zero_add]

section Weights

theorem weightUpTo_mono (t : Tree) (excluded : List ℕ) : Monotone (weightUpTo t excluded) := by
  intro a b hab
  apply Finset.sum_le_sum_of_subset
  exact Finset.filter_subset_filter _ (Finset.Iic_subset_Iic.mpr hab)

/-- Weights of excluded graphs do not count. -/
theorem weightUpTo_congr {t' : Tree} (h : ∀ i, i ∉ excluded → t'.cgWeight i = t.cgWeight i) :
    weightUpTo t' excluded = weightUpTo t excluded := by
  funext n
  exact Finset.sum_congr rfl fun i hi => h i (Finset.mem_filter.mp hi).2

theorem weightUpTo_add (t : Tree) (excluded : List ℕ) (n m : ℕ) :
    weightUpTo t excluded (n + m) = weightUpTo t excluded n +
      ∑ i ∈ (Finset.Ioc n (n + m)).filter (· ∉ excluded), t.cgWeight i := by
  have hdisj : Disjoint ((Finset.Iic n).filter (· ∉ excluded))
      ((Finset.Ioc n (n + m)).filter (· ∉ excluded)) := by
    apply Finset.disjoint_filter_filter
    rw [Finset.disjoint_left]
    intro i hi hi'
    rw [Finset.mem_Iic] at hi
    rw [Finset.mem_Ioc] at hi'
    omega
  rw [weightUpTo, weightUpTo, ← Finset.sum_union hdisj, ← Finset.filter_union]
  congr 2
  ext i
  simp only [Finset.mem_Iic, Finset.mem_union, Finset.mem_Ioc]
  omega

theorem weightUpTo_succ (hi : n + 1 ∉ excluded) :
    weightUpTo t excluded (n + 1) = weightUpTo t excluded n + t.cgWeight (n + 1) := by
  have hioc : (Finset.Ioc n (n + 1)).filter (· ∉ excluded) = {n + 1} := by
    ext i
    simp only [Finset.mem_filter, Finset.mem_Ioc, Finset.mem_singleton]
    constructor
    · omega
    · rintro rfl
      exact ⟨by omega, hi⟩
  rw [weightUpTo_add, hioc, Finset.sum_singleton]

theorem weightUpTo_succ_of_mem (hi : n + 1 ∈ excluded) :
    weightUpTo t excluded (n + 1) = weightUpTo t excluded n := by
  have hioc : (Finset.Ioc n (n + 1)).filter (· ∉ excluded) = ∅ := by
    ext i
    simp only [Finset.mem_filter, Finset.mem_Ioc, Finset.notMem_empty, iff_false, not_and]
    intro hi' hne
    have : i = n + 1 := by omega
    exact hne (this ▸ hi)
  rw [weightUpTo_add, hioc, Finset.sum_empty, add_zero]

theorem weightUpTo_zero (hw : Wf k t) : weightUpTo t excluded 0 = 0 := by
  apply Finset.sum_eq_zero
  intro i hi
  have : i = 0 := by simpa using (Finset.mem_filter.mp hi).1
  exact hw.outside i (.inl this)

theorem weightUpTo_le_capacity (hw : Wf k t) (n : ℕ) :
    weightUpTo t excluded n ≤ weightUpTo t excluded (2 ^ k) := by
  apply Finset.sum_le_sum_of_ne_zero
  intro i hi hne
  refine Finset.mem_filter.mpr ⟨Finset.mem_Iic.mpr ?_, (Finset.mem_filter.mp hi).2⟩
  by_contra hlt
  exact hne (hw.outside i (.inr (by rw [hw.capacity]; omega)))

theorem filter_nodup (hd : (excluded.filter (· ≠ 0)).Nodup) (hp : ∀ e, p e = true → e ≠ 0) :
    (excluded.filter p).Nodup := by
  have heq : excluded.filter p = (excluded.filter (· ≠ 0)).filter p := by
    rw [filter_filter]
    apply filter_congr
    intro e _
    cases hpe : p e with
    | false => simp
    | true => simp [hp e hpe]
  rw [heq]
  exact hd.filter _

theorem excludedInRange_eq (hw : Wf k t) (hd : (excluded.filter (· ≠ 0)).Nodup) (n m : ℕ) :
    excludedInRange t (n + 1) (n + m) excluded =
      .ok (∑ i ∈ (Finset.Ioc n (n + m)).filter (· ∈ excluded), t.cgWeight i) := by
  have hnodup : (excluded.filter fun e => n + 1 ≤ e && e ≤ n + m).Nodup := by
    apply filter_nodup hd
    intro e he
    simp only [Bool.and_eq_true, decide_eq_true_eq] at he
    omega
  rw [excludedInRange, excludedWeight_eq hw hnodup]
  congr 2
  ext i
  simp only [mem_toFinset, mem_filter, Bool.and_eq_true, decide_eq_true_eq,
    Finset.mem_filter, Finset.mem_Ioc]
  constructor
  · rintro ⟨he, _, _⟩
    exact ⟨by omega, he⟩
  · rintro ⟨_, he⟩
    exact ⟨he, by omega, by omega⟩

theorem excludedSum_eq (hw : Wf k t) (hd : (excluded.filter (· ≠ 0)).Nodup) :
    excludedSum t excluded = .ok (∑ e ∈ (excluded.filter (· ≠ 0)).toFinset, t.cgWeight e) := by
  -- padding zeros weigh nothing, so only the distinct entries count
  have hzero : ((excluded.filter fun _ => true).map t.cgWeight).sum =
      ((excluded.filter (· ≠ 0)).map t.cgWeight).sum := by
    rw [filter_true]
    clear hd
    induction excluded with
    | nil => rfl
    | cons e es ih =>
      by_cases he : e = 0
      · simp [he, hw.outside 0 (.inl rfl), ih]
      · simp [he, ih]
  have hsum : ((excluded.filter (· ≠ 0)).map t.cgWeight).sum =
      ∑ e ∈ (excluded.filter (· ≠ 0)).toFinset, t.cgWeight e :=
    (sum_toFinset _ hd).symm
  have hlt := lt_of_le_of_lt (hw.sum_le_bitTotal (excluded.filter (· ≠ 0)).toFinset) hw.total_lt
  rw [excludedSum, excludedWeight, excludedWeight_fold (by rw [hzero, hsum]; omega), hzero, hsum,
    zero_add]

/-- The working total is the weight of all graphs that are not excluded. -/
theorem workingTotal_eq (hw : Wf k t) (hd : (excluded.filter (· ≠ 0)).Nodup)
    (hlt : ∀ e ∈ excluded, e < 2 ^ k) :
    workingTotal t excluded = .ok (weightUpTo t excluded (2 ^ k)) := by
  have htotal : t.bitTotal = ∑ i ∈ Finset.Iic (2 ^ k), t.cgWeight i := by
    rw [hw.bitTotal_eq, hw.capacity]
    apply Finset.sum_subset
    · intro i hi
      exact Finset.mem_Iic.mpr (Finset.mem_range.mp hi).le
    · intro i _ hi
      rw [Finset.mem_range] at hi
      exact hw.outside i (.inr (by rw [hw.capacity]; omega))
  have hout : ∑ e ∈ (excluded.filter (· ≠ 0)).toFinset, t.cgWeight e =
      ∑ i ∈ (Finset.Iic (2 ^ k)).filter (· ∈ excluded), t.cgWeight i := by
    apply Finset.sum_subset
    · intro e he
      simp only [mem_toFinset, mem_filter] at he
      exact Finset.mem_filter.mpr ⟨Finset.mem_Iic.mpr (hlt e he.1).le, he.1⟩
    · intro e he hne
      simp only [mem_toFinset, mem_filter, decide_eq_true_eq] at hne
      have hzero : e = 0 := by
        by_contra h
        exact hne ⟨(Finset.mem_filter.mp he).2, h⟩
      exact hw.outside e (.inl hzero)
  rw [← Finset.sum_filter_add_sum_filter_not _ (· ∈ excluded), ← hout] at htotal
  simp only [workingTotal, excludedSum_eq hw hd, ok_bind, Checked.sub_eq_ok, weightUpTo]
  omega

end Weights

section Search
variable (hw : Wf k t) (hd : (excluded.filter (· ≠ 0)).Nodup)
include hw hd

/-- One round of the descent over an aligned index moves by the library's step. -/
theorem findExcludingLoop_round (hdvd : 2 ^ (j + 1) ∣ idx) (hcap : idx + 2 ^ j ≤ 2 ^ k) :
    findExcludingLoop t r excluded (fuel + 1) (2 ^ j) idx (weightUpTo t excluded idx) =
      if weightUpTo t excluded (idx + 2 ^ j) ≤ r then
        findExcludingLoop t r excluded fuel (2 ^ j / 2) (idx + 2 ^ j)
          (weightUpTo t excluded (idx + 2 ^ j))
      else findExcludingLoop t r excluded fuel (2 ^ j / 2) idx (weightUpTo t excluded idx) := by
  have hpos : 2 ^ j ≠ 0 := (Nat.two_pow_pos j).ne'
  have hbit : t.bit (idx + 2 ^ j) = ∑ i ∈ Finset.Ioc idx (idx + 2 ^ j), t.cgWeight i := by
    exact_mod_cast hw.cells.step_sum hdvd (by rwa [hw.capacity])
  rw [← Finset.sum_filter_add_sum_filter_not _ (· ∈ excluded)] at hbit
  have hstep := weightUpTo_add t excluded idx (2 ^ j)
  have hlt := lt_of_le_of_lt
    (hw.sum_le_bitTotal ((Finset.Iic (idx + 2 ^ j)).filter (· ∉ excluded))) hw.total_lt
  rw [← weightUpTo] at hlt
  rw [findExcludingLoop, if_neg hpos, if_neg (by rw [hw.capacity]; omega),
    excludedInRange_eq hw hd, ok_bind, hbit, Checked.sub, if_pos (by omega), ok_bind,
    Nat.add_sub_cancel_left, Checked.add, ← hstep, if_pos (by omega), ok_bind]

theorem findExcludingLoop_eq_descend (hdvd : 2 ^ (j + 1) ∣ idx) (hcap : idx + 2 ^ (j + 1) ≤ 2 ^ k)
    (hfuel : j < fuel) :
    findExcludingLoop t r excluded fuel (2 ^ j) idx (weightUpTo t excluded idx) =
      .ok (Fenwick.descend (weightUpTo t excluded) r (j + 1) idx) := by
  induction j generalizing fuel idx with
  | zero =>
    obtain ⟨fuel, rfl⟩ : ∃ f, fuel = f + 1 := ⟨fuel - 1, by omega⟩
    rw [findExcludingLoop_round hw hd hdvd (by omega), Fenwick.descend]
    have hstop : ∀ i c, findExcludingLoop t r excluded fuel (2 ^ 0 / 2) i c = .ok i := by
      intro i c
      cases fuel <;> simp [findExcludingLoop]
    simp only [hstop, Fenwick.descend]
    split <;> rfl
  | succ j ih =>
    obtain ⟨fuel, rfl⟩ : ∃ f, fuel = f + 1 := ⟨fuel - 1, by omega⟩
    have hhalf : 2 ^ (j + 1) / 2 = 2 ^ j := by rw [pow_succ]; omega
    have hdouble : 2 ^ (j + 1 + 1) = 2 ^ (j + 1) + 2 ^ (j + 1) := by rw [pow_succ]; omega
    have hdvd' : 2 ^ (j + 1) ∣ idx := (pow_dvd_pow 2 (by omega)).trans hdvd
    rw [findExcludingLoop_round hw hd hdvd (by omega), Fenwick.descend, hhalf,
      ih ((Nat.dvd_add_left dvd_rfl).mpr hdvd') (by omega) (by omega),
      ih hdvd' (by omega) (by omega)]
    split <;> rfl

/-- The search is the library's descent: its first round, over the whole capacity,
never goes right. -/
theorem findStrictGtExcluding_eq (hr : r < weightUpTo t excluded (2 ^ k)) :
    findStrictGtExcluding t r excluded =
      .ok (Fenwick.descend (weightUpTo t excluded) r k 0 + 1) := by
  have hzero : weightUpTo t excluded 0 = 0 := weightUpTo_zero hw
  have hround : findExcludingLoop t r excluded (255 + 1) (2 ^ k) 0 (weightUpTo t excluded 0) = _ :=
    findExcludingLoop_round hw hd (by simp) (by omega)
  rw [zero_add, if_neg (by omega), hzero] at hround
  rw [findStrictGtExcluding, hw.capacity, hround]
  cases k with
  | zero => rfl
  | succ j =>
    have hhalf : 2 ^ (j + 1) / 2 = 2 ^ j := by rw [pow_succ]; omega
    have hloop : findExcludingLoop t r excluded 255 (2 ^ j) 0 (weightUpTo t excluded 0) = _ :=
      findExcludingLoop_eq_descend hw hd (by simp) (by omega) (by have := hw.width; omega)
    rw [hzero] at hloop
    rw [hhalf, hloop]
    rfl

theorem findStrictGtExcluding_crosses (hr : r < weightUpTo t excluded (2 ^ k)) :
    ∃ n, findStrictGtExcluding t r excluded = .ok (n + 1) ∧
      weightUpTo t excluded n ≤ r ∧ r < weightUpTo t excluded (n + 1) := by
  refine ⟨_, findStrictGtExcluding_eq hw hd hr, Fenwick.descend_crosses ?_ ?_⟩
  · rw [weightUpTo_zero hw]
    exact Nat.zero_le r
  · rwa [zero_add]

/-- A graph that is not excluded is selected by as many targets as it weighs. -/
theorem card_selects (hi : i ∉ excluded) :
    ((Finset.range (weightUpTo t excluded (2 ^ k))).filter
      fun r => findStrictGtExcluding t r excluded = .ok i).card = t.cgWeight i := by
  have hsel : ∀ r < weightUpTo t excluded (2 ^ k), ∀ n,
      findStrictGtExcluding t r excluded = .ok (n + 1) ↔
        weightUpTo t excluded n ≤ r ∧ r < weightUpTo t excluded (n + 1) := by
    intro r hr n
    obtain ⟨m, hm, hcross⟩ := findStrictGtExcluding_crosses hw hd hr
    rw [hm]
    constructor
    · intro h
      have : m = n := by simpa using h
      exact this ▸ hcross
    · intro h
      rw [Fenwick.crosses_unique (weightUpTo_mono t excluded) hcross h]
  cases i with
  | zero =>
    rw [hw.outside 0 (.inl rfl), Finset.card_eq_zero, Finset.filter_eq_empty_iff]
    intro r hr h
    obtain ⟨m, hm, _⟩ := findStrictGtExcluding_crosses hw hd (Finset.mem_range.mp hr)
    rw [hm] at h
    simp at h
  | succ n =>
    rw [Finset.filter_congr fun r hr => hsel r (Finset.mem_range.mp hr) n,
      Fenwick.card_crosses (weightUpTo_le_capacity hw _), weightUpTo_succ hi,
      Nat.add_sub_cancel_left]

end Search

theorem findExcludingLoop_nil (t : Tree) (r fuel step idx cum : ℕ) :
    findExcludingLoop t r [] fuel step idx cum = findLoop t r fuel step idx cum := by
  induction fuel generalizing step idx cum with
  | zero => rfl
  | succ fuel ih =>
    rw [findExcludingLoop, findLoop]
    simp only [ih]
    split
    · rfl
    · by_cases hle : idx + step ≤ t.bitCapacity
      · rw [if_neg (by omega), if_pos hle]
        rfl
      · rw [if_pos (by omega), if_neg hle]

theorem findStrictGtExcluding_nil (t : Tree) (r : ℕ) :
    findStrictGtExcluding t r [] = findStrictGt t r := by
  rw [findStrictGtExcluding, findStrictGt, findExcludingLoop_nil]

/-- The scan stops at the first index where the running weight passes `r`. -/
theorem linearScan_crosses (m : ℕ) (hm : m ≤ n) (hlo : weightUpTo t [] n ≤ r)
    (hhi : r < weightUpTo t [] (n + 1)) (hfuel : n - m < fuel) :
    linearScan t.cgWeight r fuel (m + 1) (weightUpTo t [] m) = some (n + 1) := by
  induction fuel generalizing m with
  | zero => omega
  | succ fuel ih =>
    rw [linearScan, ← weightUpTo_succ (by simp)]
    by_cases hmn : m = n
    · subst hmn
      rw [if_pos hhi]
    · have hle : weightUpTo t [] (m + 1) ≤ weightUpTo t [] n := weightUpTo_mono t [] (by omega)
      rw [if_neg (by omega)]
      exact ih (m + 1) (by omega) (by omega)

/-- In every reachable tree the search over the graphs that are not excluded returns
the first one at which their running weight passes the target, so each is selected by
as many targets as it weighs. -/
theorem run_findStrictGtExcluding (hk : k < 256) (calls : List Call)
    (hd : (excluded.filter (· ≠ 0)).Nodup) (hlt : ∀ e ∈ excluded, e < 2 ^ k) :
    let t := run step (empty (2 ^ k)) calls
    ∃ total, workingTotal t excluded = .ok total ∧
      (∀ r < total, ∃ i, findStrictGtExcluding t r excluded = .ok i ∧
        IsLeast {i | r < weightUpTo t excluded i} i ∧ i ∉ excluded ∧ 0 < t.cgWeight i) ∧
      (∀ i, i ∉ excluded → ((Finset.range total).filter
        fun r => findStrictGtExcluding t r excluded = .ok i).card = t.cgWeight i) ∧
      (excluded = [] → ∀ r < total, ∃ i, findStrictGtExcluding t r excluded = .ok i ∧
        findStrictGt t r = .ok i ∧ linearScan t.cgWeight r (2 ^ k) 1 0 = some i) := by
  intro t
  have hw : Wf k t := run_wf hk calls
  refine ⟨_, workingTotal_eq hw hd hlt, fun r hr => ?_, fun i hi => card_selects hw hd hi, ?_⟩
  · obtain ⟨n, hn, hlo, hhi⟩ := findStrictGtExcluding_crosses hw hd hr
    have hout : n + 1 ∉ excluded := by
      intro hmem
      rw [weightUpTo_succ_of_mem hmem] at hhi
      omega
    rw [weightUpTo_succ hout] at hhi
    exact ⟨n + 1, hn, Fenwick.isLeast_of_crosses (weightUpTo_mono t excluded) hlo
      (by rwa [weightUpTo_succ hout]), hout, by omega⟩
  · rintro rfl r hr
    obtain ⟨n, hn, hlo, hhi⟩ := findStrictGtExcluding_crosses hw hd hr
    have hzero : weightUpTo t [] 0 = 0 := weightUpTo_zero hw
    have hbound : n < 2 ^ k := by
      by_contra hge
      have : weightUpTo t [] (n + 1) ≤ weightUpTo t [] (2 ^ k) := weightUpTo_le_capacity hw (n + 1)
      have := weightUpTo_mono t [] (show 2 ^ k ≤ n by omega)
      omega
    have hscan : linearScan t.cgWeight r (2 ^ k) (0 + 1) (weightUpTo t [] 0) = some (n + 1) :=
      linearScan_crosses 0 (Nat.zero_le n) hlo hhi (by omega)
    rw [hzero] at hscan
    exact ⟨n + 1, hn, by rw [← findStrictGtExcluding_nil, hn], hscan⟩

theorem run_findStrictGtExcluding_four :
    let t := run step (empty (2 ^ 2)) [.seedMany [1, 2, 3] [5, 2, 7]]
    workingTotal t [2, 0, 0] = .ok 12 ∧ findStrictGtExcluding t 5 [2, 0, 0] = .ok 3 ∧
      ∃ total, workingTotal t [2, 0, 0] = .ok total ∧
        ∀ r < total, ∃ i, findStrictGtExcluding t r [2, 0, 0] = .ok i ∧
          IsLeast {i | r < weightUpTo t [2, 0, 0] i} i ∧ i ∉ [2, 0, 0] ∧ 0 < t.cgWeight i := by
  have hd : ([2, 0, 0].filter (· ≠ 0)).Nodup := by decide
  have hlt : ∀ e ∈ [2, 0, 0], e < 2 ^ 2 := by decide
  obtain ⟨total, htotal, hfind, _⟩ := run_findStrictGtExcluding (by decide)
    [.seedMany [1, 2, 3] [5, 2, 7]] hd hlt
  exact ⟨by decide, by decide, total, htotal, hfind⟩

end Dkg.WeightTree
