import Dkg.Lib.Checked
import Dkg.Lib.Fenwick

/-!
`CGWeightTreeStorage`: the weighted index over context graph ids. A leaf is the
cached weight of a graph; the cells hold partial range sums over a capacity fixed
at deployment.
-/

namespace Dkg.WeightTree
open Revert Function Finset

inductive Err where
  | capacityNotPowerOfTwo (capacity : ℕ)
  | cgIdOutOfBitCapacity (cg capacity : ℕ)
  | notBackfilling
  | lenMismatch
  /-- `SafeCast` of a weight in `_setWeight`. -/
  | weightCast
  /-- `SafeCast` of a cell or of the total in `_bitUpdate`. -/
  | bitCast
  /-- Checked arithmetic. -/
  | panic
  /-- A revert inside `ContextGraphValueStorage`. -/
  | ledger
  deriving DecidableEq, Repr

structure Tree where
  bitCapacity : ℕ
  bit : ℕ → ℕ
  cgWeight : ℕ → ℕ
  bitTotal : ℕ
  cgSettledEpoch : ℕ → ℕ
  backfillLocked : Bool

/-- What `settle` reads outside the contract: the epoch, and for each graph the
current value in the ledger (`none` where the ledger reverts). -/
structure Ledger where
  currentEpoch : ℕ
  valueOf : ℕ → Option ℕ

inductive Call where
  | seed (cg weight : ℕ)
  | seedMany (cgs weights : List ℕ)
  | finishBackfill
  | settle (ledger : Ledger) (cg : ℕ)
  | settleMany (ledger : Ledger) (cgs : List ℕ)

def empty (bitCapacity : ℕ) : Tree where
  bitCapacity
  bit := fun _ => 0
  cgWeight := fun _ => 0
  bitTotal := 0
  cgSettledEpoch := fun _ => 0
  backfillLocked := true

/-- The constructor. -/
def deploy (bitCapacity : ℕ) : Except Err Tree := do
  require (bitCapacity ≠ 0 ∧ bitCapacity &&& (bitCapacity - 1) = 0)
    (.capacityNotPowerOfTwo bitCapacity)
  return empty bitCapacity

/-- `x & (~x + 1)` on 256-bit words. -/
def lowbit (x : ℕ) : ℕ := x &&& (2 ^ 256 - x)

def toInt256 (n : ℕ) (e : Err) : Except Err ℤ :=
  if n < 2 ^ 255 then .ok n else .error e

def toUint256 (z : ℤ) (e : Err) : Except Err ℕ :=
  if 0 ≤ z then .ok z.toNat else .error e

/-- `(v.toInt256() + delta).toUint256()`. -/
def addDelta (v : ℕ) (delta : ℤ) : Except Err ℕ := do
  let n ← toInt256 v .bitCast
  let sum ← Checked.addInt 256 n delta .panic
  toUint256 sum .bitCast

/-- The update walk of `_bitUpdate`. The index grows in every round, so
`capacity + 1 - x` rounds are enough from `x`. -/
def bitLoop (capacity : ℕ) (delta : ℤ) : ℕ → ℕ → (ℕ → ℕ) → Except Err (ℕ → ℕ)
  | 0, _, bit => .ok bit
  | fuel + 1, x, bit =>
    if x ≤ capacity then do
      let v ← addDelta (bit x) delta
      let next ← Checked.add 256 x (lowbit x) .panic
      bitLoop capacity delta fuel next (update bit x v)
    else .ok bit

def bitUpdate (t : Tree) (i : ℕ) (delta : ℤ) : Except Err Tree := do
  require (i ≠ 0 ∧ i < t.bitCapacity) (.cgIdOutOfBitCapacity i t.bitCapacity)
  if delta = 0 then return t
  else do
    let bit ← bitLoop t.bitCapacity delta (t.bitCapacity + 1 - i) i t.bit
    let bitTotal ← addDelta t.bitTotal delta
    return { t with bit, bitTotal }

def setWeight (t : Tree) (cg weight : ℕ) : Except Err Tree :=
  if weight ≠ t.cgWeight cg then do
    let new ← toInt256 weight .weightCast
    let cached ← toInt256 (t.cgWeight cg) .weightCast
    let t ← bitUpdate t cg (new - cached)
    return { t with cgWeight := update t.cgWeight cg weight }
  else .ok t

def seed (t : Tree) (cg weight : ℕ) : Except Err Tree := do
  require (t.backfillLocked = true) .notBackfilling
  setWeight t cg weight

def seedMany (t : Tree) (cgs weights : List ℕ) : Except Err Tree := do
  require (t.backfillLocked = true) .notBackfilling
  require (cgs.length = weights.length) .lenMismatch
  (cgs.zip weights).foldlM (fun t p => setWeight t p.1 p.2) t

def finishBackfill (t : Tree) : Except Err Tree := do
  require (t.backfillLocked = true) .notBackfilling
  return { t with backfillLocked := false }

def settle (l : Ledger) (t : Tree) (cg : ℕ) : Except Err Tree :=
  match l.valueOf cg with
  | none => .error .ledger
  | some truth => do
    let t ← setWeight t cg truth
    return { t with cgSettledEpoch := update t.cgSettledEpoch cg l.currentEpoch }

def settleMany (l : Ledger) (t : Tree) (cgs : List ℕ) : Except Err Tree :=
  cgs.foldlM (settle l) t

def step (t : Tree) : Call → Except Err Tree
  | .seed cg weight => seed t cg weight
  | .seedMany cgs weights => seedMany t cgs weights
  | .finishBackfill => finishBackfill t
  | .settle l cg => settle l t cg
  | .settleMany l cgs => settleMany l t cgs

variable {t t' : Tree} {c : Call} {calls : List Call} {i x fuel cg weight capacity k v v' : ℕ}
  {δ : ℤ} {bit bit' : ℕ → ℕ} {e : Err}

theorem lowbit_eq (hx : 0 < x) (hlt : x < 2 ^ 256) : lowbit x = Fenwick.lowbit x :=
  Fenwick.and_neg_eq_lowbit hx hlt

theorem toInt256_eq_ok {n : ℕ} {z : ℤ} : toInt256 n e = .ok z ↔ n < 2 ^ 255 ∧ (n : ℤ) = z := by
  unfold toInt256
  split <;> simp_all

theorem toInt256_eq_error {n : ℕ} {e' : Err} :
    toInt256 n e = .error e' ↔ 2 ^ 255 ≤ n ∧ e = e' := by
  unfold toInt256
  split <;> simp_all

theorem toUint256_eq_ok {n : ℕ} {z : ℤ} : toUint256 z e = .ok n ↔ 0 ≤ z ∧ z.toNat = n := by
  unfold toUint256
  split <;> simp_all

theorem addDelta_ok (h : addDelta v δ = .ok v') : (v' : ℤ) = v + δ ∧ v' < 2 ^ 255 := by
  simp only [addDelta, bind_eq_ok, toInt256_eq_ok, Checked.addInt_eq_ok, toUint256_eq_ok] at h
  obtain ⟨_, ⟨_, rfl⟩, sum, ⟨⟨_, hlt⟩, rfl⟩, hnn, rfl⟩ := h
  have hv : (((v : ℤ) + δ).toNat : ℤ) = v + δ := Int.toNat_of_nonneg hnn
  refine ⟨hv, ?_⟩
  zify
  rw [hv]
  exact hlt

/-- A cell below `2 ^ 255` that stays non-negative passes both casts. -/
theorem addDelta_error (hv : v < 2 ^ 255) (hnn : 0 ≤ (v : ℤ) + δ) (h : addDelta v δ = .error e) :
    e = .panic := by
  simp only [addDelta, toInt256, if_pos hv, ok_bind, bind_eq_error, Checked.addInt_eq_error,
    Checked.addInt_eq_ok, toUint256] at h
  obtain ⟨_, rfl⟩ | ⟨sum, ⟨_, rfl⟩, h⟩ := h
  · rfl
  · simp [if_pos hnn] at h

/-- The walk adds `δ` to exactly the cells from `x` on that cover the leaf. -/
theorem bitLoop_ok (hcap : capacity < 2 ^ 256) (hc : Fenwick.Covers x i)
    (hfuel : capacity + 1 - x ≤ fuel) (h : bitLoop capacity δ fuel x bit = .ok bit') (y : ℕ) :
    (bit' y : ℤ) = bit y + if Fenwick.Covers y i ∧ x ≤ y ∧ y ≤ capacity then δ else 0 := by
  induction fuel generalizing x bit with
  | zero =>
    have hlt : ¬(x ≤ y ∧ y ≤ capacity) := by omega
    simp only [bitLoop, Except.ok.injEq] at h
    simp [← h, hlt]
  | succ fuel ih =>
    rw [bitLoop] at h
    split at h
    case isFalse hgt =>
      have hlt : ¬(x ≤ y ∧ y ≤ capacity) := by omega
      simp only [Except.ok.injEq] at h
      simp [← h, hlt]
    case isTrue hle =>
      simp only [bind_eq_ok, Checked.add_eq_ok] at h
      obtain ⟨v, hv, next, ⟨_, rfl⟩, h⟩ := h
      rw [lowbit_eq hc.pos (by omega)] at h
      have hpos := Fenwick.lowbit_pos x
      have hy := ih hc.next (by omega) h
      rcases lt_trichotomy y x with hyx | rfl | hyx
      · rw [hy, update_of_ne hyx.ne, if_neg (by omega), if_neg (by omega)]
      · rw [hy, update_self, if_neg (by omega), if_pos ⟨hc, le_rfl, hle⟩,
          (addDelta_ok hv).1, add_zero]
      · rw [hy, update_of_ne hyx.ne']
        by_cases hlo : y < x + Fenwick.lowbit x
        · have hno := hc.not_between hyx hlo
          simp [hno]
        · have hiff : (x + Fenwick.lowbit x ≤ y ∧ y ≤ capacity) ↔ (x ≤ y ∧ y ≤ capacity) := by
            omega
          simp only [hiff]

theorem bitLoop_error (hcap : capacity < 2 ^ 256) (hc : Fenwick.Covers x i)
    (hcells : ∀ y, x ≤ y → y ≤ capacity → Fenwick.Covers y i →
      bit y < 2 ^ 255 ∧ 0 ≤ (bit y : ℤ) + δ)
    (h : bitLoop capacity δ fuel x bit = .error e) : e = .panic := by
  induction fuel generalizing x bit with
  | zero => simp [bitLoop] at h
  | succ fuel ih =>
    rw [bitLoop] at h
    split at h
    case isFalse => simp at h
    case isTrue hle =>
      simp only [bind_eq_error, Checked.add_eq_ok, Checked.add_eq_error] at h
      obtain h | ⟨v, _, ⟨_, rfl⟩ | ⟨next, ⟨_, rfl⟩, h⟩⟩ := h
      · obtain ⟨hlt, hnn⟩ := hcells x le_rfl hle hc
        exact addDelta_error hlt hnn h
      · rfl
      · rw [lowbit_eq hc.pos (by omega)] at h
        have hpos := Fenwick.lowbit_pos x
        refine ih hc.next (fun y hxy hy hcy => ?_) h
        rw [update_of_ne (by omega)]
        exact hcells y (by omega) hy hcy

/-- A tree of capacity `2 ^ k` indexes its leaves. -/
structure Wf (k : ℕ) (t : Tree) : Prop where
  width : k < 256
  capacity : t.bitCapacity = 2 ^ k
  cells : Fenwick.Represents t.bitCapacity (fun i => (t.cgWeight i : ℤ)) (fun x => (t.bit x : ℤ))
  total : (t.bitTotal : ℤ) = ∑ i ∈ range t.bitCapacity, (t.cgWeight i : ℤ)
  outside : ∀ i, i = 0 ∨ t.bitCapacity ≤ i → t.cgWeight i = 0
  total_lt : t.bitTotal < 2 ^ 255

namespace Wf

theorem capacity_lt (h : Wf k t) : t.bitCapacity < 2 ^ 256 := by
  rw [h.capacity]
  exact Nat.pow_lt_pow_right (by omega) h.width

theorem bit_eq (h : Wf k t) (hx : 0 < x) (hle : x ≤ t.bitCapacity) :
    t.bit x = ∑ i ∈ Finset.Ioc (x - Fenwick.lowbit x) x, t.cgWeight i := by
  have hx := h.cells x hx hle
  dsimp only at hx
  exact_mod_cast hx

theorem bitTotal_eq (h : Wf k t) : t.bitTotal = ∑ i ∈ range t.bitCapacity, t.cgWeight i := by
  exact_mod_cast h.total

/-- No range of leaves outweighs the total. -/
theorem sum_le_bitTotal (h : Wf k t) (s : Finset ℕ) : ∑ i ∈ s, t.cgWeight i ≤ t.bitTotal := by
  rw [h.bitTotal_eq]
  apply sum_le_sum_of_ne_zero
  intro i _ hi
  rw [mem_range]
  by_contra hge
  exact hi (h.outside i (.inr (by omega)))

theorem bit_lt (h : Wf k t) (hx : 0 < x) (hle : x ≤ t.bitCapacity) : t.bit x < 2 ^ 255 := by
  rw [h.bit_eq hx hle]
  exact lt_of_le_of_lt (h.sum_le_bitTotal _) h.total_lt

theorem cgWeight_le_bit (h : Wf k t) (hle : x ≤ t.bitCapacity) (hc : Fenwick.Covers x i) :
    t.cgWeight i ≤ t.bit x := by
  rw [h.bit_eq hc.pos hle]
  exact single_le_sum (fun _ _ => Nat.zero_le _) (mem_Ioc.mpr hc)

end Wf

theorem empty_wf (hk : k < 256) : Wf k (empty (2 ^ k)) where
  width := hk
  capacity := rfl
  cells := fun x _ _ => by simp [empty]
  total := by simp [empty]
  outside := fun _ _ => rfl
  total_lt := by simp [empty]

/-- A changed weight goes through the update walk, and only for ids in range. -/
theorem setWeight_cases (h : setWeight t cg weight = .ok t') :
    (t' = t ∧ weight = t.cgWeight cg) ∨ (cg ≠ 0 ∧ cg < t.bitCapacity ∧ ∃ bit total,
      bitLoop t.bitCapacity (weight - t.cgWeight cg) (t.bitCapacity + 1 - cg) cg t.bit = .ok bit ∧
      addDelta t.bitTotal (weight - t.cgWeight cg) = .ok total ∧
      t' = { t with
        bit, bitTotal := total, cgWeight := update t.cgWeight cg weight }) := by
  unfold setWeight at h
  split_ifs at h with hne
  · simp only [bind_eq_ok, toInt256_eq_ok, bitUpdate, require_eq_ok, pure_eq_ok] at h
    obtain ⟨_, ⟨_, rfl⟩, _, ⟨_, rfl⟩, t₁, ⟨_, ⟨h0, hlt⟩, h⟩, rfl⟩ := h
    rw [if_neg (by omega)] at h
    simp only [bind_eq_ok, pure_eq_ok] at h
    obtain ⟨bit, hbit, total, htotal, rfl⟩ := h
    exact .inr ⟨h0, hlt, bit, total, hbit, htotal, rfl⟩
  · simp only [Except.ok.injEq] at h
    exact .inl ⟨h.symm, not_not.mp hne⟩

theorem setWeight_cgWeight (h : setWeight t cg weight = .ok t') :
    t'.cgWeight = update t.cgWeight cg weight := by
  rcases setWeight_cases h with ⟨rfl, rfl⟩ | ⟨-, -, bit, total, -, -, rfl⟩
  · rw [update_eq_self]
  · rfl

theorem setWeight_wf (hw : Wf k t) (h : setWeight t cg weight = .ok t') : Wf k t' := by
  obtain ⟨rfl, -⟩ | ⟨h0, hlt, bit, total, hbit, htotal, rfl⟩ := setWeight_cases h
  · exact hw
  have hleaf : (fun i => ((update t.cgWeight cg weight i : ℕ) : ℤ)) =
      update (fun i => (t.cgWeight i : ℤ)) cg
        ((t.cgWeight cg : ℤ) + (weight - t.cgWeight cg)) := by
    funext i
    by_cases hi : i = cg
    · subst hi; simp
    · simp [hi]
  obtain ⟨htot, hbound⟩ := addDelta_ok htotal
  refine ⟨hw.width, hw.capacity, ?_, ?_, fun i hi => ?_, hbound⟩
  · simp only [hleaf]
    refine hw.cells.update fun x hx hcap => ?_
    have hcell := bitLoop_ok hw.capacity_lt (Fenwick.covers_self (by omega)) le_rfl hbit x
    have hiff : (Fenwick.Covers x cg ∧ cg ≤ x ∧ x ≤ t.bitCapacity) ↔ Fenwick.Covers x cg :=
      ⟨fun h => h.1, fun h => ⟨h, h.2, hcap⟩⟩
    simp only [hiff] at hcell
    exact hcell
  · simp only [hleaf]
    rw [Sums.sum_update, if_pos (mem_range.mpr hlt), ← hw.total, htot]
  · have hi : i = 0 ∨ t.bitCapacity ≤ i := hi
    have hne : i ≠ cg := by rintro rfl; omega
    simp only [update_of_ne hne]
    exact hw.outside i hi

/-- In a well-formed tree the casts of the update walk never fail. -/
theorem setWeight_ne_bitCast (hw : Wf k t) : setWeight t cg weight ≠ .error .bitCast := by
  intro h
  unfold setWeight at h
  split at h
  case isFalse => simp at h
  case isTrue hne =>
    simp only [bind_eq_error, toInt256_eq_ok, toInt256_eq_error, bitUpdate, require_eq_error,
      require_eq_ok, pure_ne_error, reduceCtorEq, and_false, exists_false, or_false,
      false_or] at h
    obtain ⟨_, ⟨_, rfl⟩, _, ⟨_, rfl⟩, _, ⟨h0, hlt⟩, h⟩ := h
    rw [if_neg (by omega)] at h
    simp only [bind_eq_error, pure_ne_error, and_false, exists_false, or_false] at h
    obtain h | ⟨_, _, h⟩ := h
    · refine absurd (bitLoop_error hw.capacity_lt (Fenwick.covers_self (by omega)) ?_ h) (by simp)
      intro y _ hy hc
      have := hw.cgWeight_le_bit hy hc
      exact ⟨hw.bit_lt hc.pos hy, by omega⟩
    · have hle : t.cgWeight cg ≤ t.bitTotal := by
        simpa using hw.sum_le_bitTotal {cg}
      exact absurd (addDelta_error hw.total_lt (by omega) h) (by simp)

section Room

theorem addDelta_eq (hv : v < 2 ^ 255) (hnn : 0 ≤ (v : ℤ) + δ) (hlt : (v : ℤ) + δ < 2 ^ 255) :
    addDelta v δ = .ok ((v : ℤ) + δ).toNat := by
  have hfits : Checked.FitsInt 256 ((v : ℤ) + δ) :=
    ⟨(by norm_num : (-2 : ℤ) ^ 255 ≤ 0).trans hnn, hlt⟩
  rw [addDelta, toInt256, if_pos hv, ok_bind, Checked.addInt, if_pos hfits, ok_bind, toUint256,
    if_pos hnn]

/-- The walk goes through while every cell over the leaf keeps within its type. -/
theorem bitLoop_succeeds (hcap : capacity < 2 ^ 255) (hc : Fenwick.Covers x i)
    (hcells : ∀ y, x ≤ y → y ≤ capacity → Fenwick.Covers y i →
      bit y < 2 ^ 255 ∧ 0 ≤ (bit y : ℤ) + δ ∧ (bit y : ℤ) + δ < 2 ^ 255) :
    ∃ bit', bitLoop capacity δ fuel x bit = .ok bit' := by
  induction fuel generalizing x bit with
  | zero => exact ⟨bit, rfl⟩
  | succ fuel ih =>
    rw [bitLoop]
    split
    case isFalse => exact ⟨bit, rfl⟩
    case isTrue hle =>
      obtain ⟨hlt, hnn, hroom⟩ := hcells x le_rfl hle hc
      have hlow := Fenwick.lowbit_le hc.pos
      have hpos := Fenwick.lowbit_pos x
      have hnext : Checked.add 256 x (lowbit x) Err.panic = .ok (x + Fenwick.lowbit x) := by
        rw [lowbit_eq hc.pos (by omega), Checked.add_eq_ok]
        exact ⟨by omega, rfl⟩
      rw [addDelta_eq hlt hnn hroom, ok_bind, hnext, ok_bind]
      refine ih hc.next fun y hxy hy hcy => ?_
      rw [update_of_ne (by omega)]
      exact hcells y (by omega) hy hcy

/-- A changed weight is written while the total keeps within its type. -/
theorem setWeight_succeeds (hw : Wf k t) (hk : k < 255) (h0 : cg ≠ 0) (hlt : cg < t.bitCapacity)
    (hroom : t.bitTotal + weight < 2 ^ 255 + t.cgWeight cg) :
    ∃ t', setWeight t cg weight = .ok t' := by
  have hcached : t.cgWeight cg ≤ t.bitTotal := by simpa using hw.sum_le_bitTotal {cg}
  have htotal := hw.total_lt
  have hcap : t.bitCapacity < 2 ^ 255 := by
    rw [hw.capacity]
    exact Nat.pow_lt_pow_right one_lt_two hk
  unfold setWeight
  split
  case isFalse => exact ⟨t, rfl⟩
  case isTrue hne =>
    obtain ⟨bit, hbit⟩ : ∃ bit, bitLoop t.bitCapacity ((weight : ℤ) - t.cgWeight cg)
        (t.bitCapacity + 1 - cg) cg t.bit = .ok bit := by
      refine bitLoop_succeeds hcap (Fenwick.covers_self (by omega)) fun y _ hy hc => ?_
      have hle := hw.cgWeight_le_bit hy hc
      have hbit : t.bit y ≤ t.bitTotal := by
        rw [hw.bit_eq hc.pos hy]
        exact hw.sum_le_bitTotal _
      exact ⟨hw.bit_lt hc.pos hy, by omega, by omega⟩
    rw [toInt256, if_pos (by omega), ok_bind, toInt256, if_pos (by omega), ok_bind, bitUpdate,
      require_of ⟨h0, hlt⟩, ok_bind, if_neg (by omega), hbit, ok_bind,
      addDelta_eq htotal (by omega) (by omega), ok_bind]
    exact ⟨_, rfl⟩

/-- Over the largest capacity the walk runs past the word. -/
theorem bitLoop_top (hc : Fenwick.Covers x i) (hx : x ≤ 2 ^ 255) (hfuel : 2 ^ 255 + 1 - x ≤ fuel) :
    bitLoop (2 ^ 255) δ fuel x bit ≠ .ok bit' := by
  induction fuel generalizing x bit with
  | zero => omega
  | succ fuel ih =>
    intro h
    rw [bitLoop, if_pos hx] at h
    simp only [bind_eq_ok, Checked.add_eq_ok] at h
    obtain ⟨v, _, next, ⟨hnext, rfl⟩, h⟩ := h
    rw [lowbit_eq hc.pos (by omega)] at hnext h
    have hpos := Fenwick.lowbit_pos x
    rcases hx.lt_or_eq with hlt | rfl
    · exact ih hc.next (Fenwick.add_lowbit_le hc.pos hlt) (by omega) h
    · rw [Fenwick.lowbit_pow] at hnext
      omega

theorem setWeight_top (hw : Wf 255 t) (h : setWeight t cg weight = .ok t') : t' = t := by
  rcases setWeight_cases h with ⟨rfl, -⟩ | ⟨h0, hlt, bit, total, hbit, -, -⟩
  · rfl
  · rw [hw.capacity] at hbit hlt
    exact absurd hbit (bitLoop_top (Fenwick.covers_self (by omega)) hlt.le le_rfl)

end Room

theorem settle_wf {l : Ledger} (hw : Wf k t) (h : settle l t cg = .ok t') : Wf k t' := by
  unfold settle at h
  split at h
  · cases h
  · simp only [bind_eq_ok, pure_eq_ok] at h
    obtain ⟨t₁, h₁, rfl⟩ := h
    have hw₁ := setWeight_wf hw h₁
    exact ⟨hw₁.width, hw₁.capacity, hw₁.cells, hw₁.total, hw₁.outside, hw₁.total_lt⟩

theorem settle_ne_bitCast {l : Ledger} (hw : Wf k t) : settle l t cg ≠ .error .bitCast := by
  intro h
  unfold settle at h
  split at h
  · simp at h
  · simp only [bind_eq_error, pure_ne_error, and_false, exists_false, or_false] at h
    exact setWeight_ne_bitCast hw h

theorem step_wf (hw : Wf k t) (h : step t c = .ok t') : Wf k t' := by
  cases c with
  | seed cg weight =>
    simp only [step, seed, bind_eq_ok] at h
    obtain ⟨_, _, h⟩ := h
    exact setWeight_wf hw h
  | seedMany cgs weights =>
    simp only [step, seedMany, bind_eq_ok] at h
    obtain ⟨_, _, _, _, h⟩ := h
    exact foldlM_invariant (Wf k) (fun _ _ _ => setWeight_wf) hw h
  | finishBackfill =>
    simp only [step, finishBackfill, bind_eq_ok, pure_eq_ok] at h
    obtain ⟨_, _, rfl⟩ := h
    exact ⟨hw.width, hw.capacity, hw.cells, hw.total, hw.outside, hw.total_lt⟩
  | settle l cg => exact settle_wf hw h
  | settleMany l cgs => exact foldlM_invariant (Wf k) (fun _ _ _ => settle_wf) hw h

theorem settle_top {l : Ledger} (hw : Wf 255 t) (h : settle l t cg = .ok t') :
    t'.cgWeight = t.cgWeight := by
  unfold settle at h
  split at h
  · cases h
  · simp only [bind_eq_ok, pure_eq_ok] at h
    obtain ⟨t₁, h₁, rfl⟩ := h
    obtain rfl := setWeight_top hw h₁
    rfl

/-- Over the largest capacity no weight is ever written. -/
theorem step_top (hw : Wf 255 t) (hzero : ∀ i, t.cgWeight i = 0) (h : step t c = .ok t') :
    ∀ i, t'.cgWeight i = 0 := by
  cases c with
  | seed cg weight =>
    simp only [step, seed, bind_eq_ok] at h
    obtain ⟨_, _, h⟩ := h
    rw [setWeight_top hw h]
    exact hzero
  | seedMany cgs weights =>
    simp only [step, seedMany, bind_eq_ok] at h
    obtain ⟨_, _, _, _, h⟩ := h
    refine (foldlM_invariant (fun t => Wf 255 t ∧ ∀ i, t.cgWeight i = 0) ?_ ⟨hw, hzero⟩ h).2
    rintro t p t' ⟨hw, hzero⟩ h
    rw [setWeight_top hw h]
    exact ⟨hw, hzero⟩
  | finishBackfill =>
    simp only [step, finishBackfill, bind_eq_ok, pure_eq_ok] at h
    obtain ⟨_, _, rfl⟩ := h
    exact hzero
  | settle l cg =>
    rw [settle_top hw h]
    exact hzero
  | settleMany l cgs =>
    refine (foldlM_invariant (fun t => Wf 255 t ∧ ∀ i, t.cgWeight i = 0) ?_ ⟨hw, hzero⟩ h).2
    rintro t cg t' ⟨hw, hzero⟩ h
    refine ⟨settle_wf hw h, ?_⟩
    rw [settle_top hw h]
    exact hzero

theorem step_ne_bitCast (hw : Wf k t) : step t c ≠ .error .bitCast := by
  intro h
  cases c with
  | seed cg weight =>
    simp only [step, seed, bind_eq_error, require_eq_error, reduceCtorEq, and_false,
      false_or] at h
    obtain ⟨_, _, h⟩ := h
    exact setWeight_ne_bitCast hw h
  | seedMany cgs weights =>
    simp only [step, seedMany, bind_eq_error, require_eq_error, reduceCtorEq, and_false,
      false_or] at h
    obtain ⟨_, _, _, _, h⟩ := h
    obtain ⟨z, p, hz, _, he⟩ := foldlM_error (Wf k) (fun _ _ _ => setWeight_wf) hw h
    exact setWeight_ne_bitCast hz he
  | finishBackfill =>
    simp only [step, finishBackfill, bind_eq_error, require_eq_error, pure_ne_error, reduceCtorEq,
      and_false, exists_false, or_false] at h
  | settle l cg => exact settle_ne_bitCast hw h
  | settleMany l cgs =>
    obtain ⟨z, cg, hz, _, he⟩ := foldlM_error (Wf k) (fun _ _ _ => settle_wf) hw h
    exact settle_ne_bitCast hz he

/-- Every tree reached from a deployment is well formed. -/
theorem run_wf (hk : k < 256) (calls : List Call) : Wf k (run step (empty (2 ^ k)) calls) :=
  run_invariant (Wf k) (fun _ _ _ => step_wf) (empty_wf hk)

theorem setWeight_outside (hcg : cg = 0 ∨ t.bitCapacity ≤ cg) (hne : weight ≠ t.cgWeight cg) :
    ∃ e, setWeight t cg weight = .error e := by
  cases h : setWeight t cg weight with
  | error e => exact ⟨e, rfl⟩
  | ok t' =>
    exfalso
    simp only [setWeight, if_pos hne, bind_eq_ok, bitUpdate, require_eq_ok] at h
    obtain ⟨_, _, _, _, _, ⟨_, ⟨h0, hlt⟩, _⟩, _⟩ := h
    omega

theorem deploy_pow (k : ℕ) : deploy (2 ^ k) = .ok (empty (2 ^ k)) := by
  have hand : 2 ^ k &&& (2 ^ k - 1) = 0 := by simp
  simp [deploy, hand, require, pure, Except.pure]

/-- Whatever calls are made after deployment, each cell is the sum of the weights in
its span, the cached total is the sum of all weights, and the casts of the update
walk never fail. -/
theorem run_cells_and_total (hk : k < 256) (calls : List Call) :
    deploy (2 ^ k) = .ok (empty (2 ^ k)) ∧
    let t := run step (empty (2 ^ k)) calls
    (∀ x, 1 ≤ x → x ≤ 2 ^ k → t.bit x = ∑ i ∈ Finset.Ioc (x - lowbit x) x, t.cgWeight i) ∧
    (∀ i, 2 ^ k ≤ i → t.cgWeight i = 0) ∧
    t.bitTotal = ∑ i ∈ range (2 ^ k), t.cgWeight i ∧
    (∀ c, step t c ≠ .error .bitCast) ∧
    ∀ cg weight, cg = 0 ∨ 2 ^ k ≤ cg → weight ≠ t.cgWeight cg →
      ∃ e, setWeight t cg weight = .error e := by
  have hw := run_wf hk calls
  have hcap := hw.capacity
  refine ⟨deploy_pow k, fun x hx hle => ?_, fun i hi => ?_, ?_, fun c => step_ne_bitCast hw,
    fun cg weight hcg hne => setWeight_outside (by rwa [hcap]) hne⟩
  · have hlt : x < 2 ^ 256 := lt_of_le_of_lt hle (Nat.pow_lt_pow_right (by omega) hk)
    rw [lowbit_eq hx hlt]
    exact hw.bit_eq hx (by rwa [hcap])
  · exact hw.outside i (.inr (by rwa [hcap]))
  · rw [hw.bitTotal_eq, hcap]

theorem run_cells_and_total_four :
    let t := run step (empty (2 ^ 2)) [.seedMany [1, 3] [5, 7], .seed 4 9]
    t.bitTotal = 12 ∧ t.bitTotal = ∑ i ∈ range (2 ^ 2), t.cgWeight i :=
  ⟨by decide, (run_cells_and_total (by decide) _).2.2.2.1⟩

end Dkg.WeightTree
