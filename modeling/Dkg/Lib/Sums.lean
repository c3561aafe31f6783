import Mathlib

/-!
Finite sums over maps that are updated at a point, and sums of floored shares.
-/

namespace Sums

open Function Finset

variable {ι M : Type*} [DecidableEq ι]

theorem sum_update [AddCommGroup M] (s : Finset ι) (f : ι → M) (i : ι) (δ : M) :
    ∑ x ∈ s, update f i (f i + δ) x = ∑ x ∈ s, f x + if i ∈ s then δ else 0 := by
  split_ifs with hi
  · rw [sum_update_of_mem hi, ← add_sum_erase s f hi, sdiff_singleton_eq_erase]
    abel
  · rw [sum_update_of_notMem hi, add_zero]

section Finsum
variable [AddCommMonoid M]

theorem support_add_single_finite {f : ι → M} (hf : f.support.Finite) (i : ι) (δ : M) :
    (f + Pi.single i δ).support.Finite :=
  (hf.union (Set.finite_singleton i)).subset fun x hx => by
    by_contra h
    simp only [Set.mem_union, mem_support, not_or, not_not, Set.mem_singleton_iff] at h
    exact hx (by simp [h.1, h.2])

theorem finsum_add_single {f : ι → M} (hf : f.support.Finite) (i : ι) (δ : M) :
    ∑ᶠ x, (f + Pi.single i δ : ι → M) x = ∑ᶠ x, f x + δ := by
  have hsingle : (Pi.single i δ : ι → M).support.Finite :=
    (Set.finite_singleton i).subset Pi.support_single_subset
  have hvalue : ∑ᶠ x, (Pi.single i δ : ι → M) x = δ := by
    rw [finsum_eq_single _ i, Pi.single_eq_same]
    intro x hx
    simp [hx]
  simp only [Pi.add_apply]
  rw [finsum_add_distrib hf hsingle, hvalue]

theorem support_update_finite {f : ι → M} (hf : f.support.Finite) (i : ι) (x : M) :
    (update f i x).support.Finite := by
  refine (hf.union (Set.finite_singleton i)).subset fun j hj => ?_
  by_cases hji : j = i
  · exact .inr hji
  · rw [mem_support, update_of_ne hji] at hj
    exact .inl hj

/-- The old value at the point and the new one change places. -/
theorem finsum_update {f : ι → M} (hf : f.support.Finite) (i : ι) (x : M) :
    ∑ᶠ j, update f i x j + f i = ∑ᶠ j, f j + x := by
  rw [← finsum_add_single hf i, ← finsum_add_single (support_update_finite hf i x) i]
  refine finsum_congr fun j => ?_
  by_cases hji : j = i
  · subst hji
    simp [add_comm]
  · simp [hji]

/-- Any finite part of a sum of naturals is within the sum. -/
theorem sum_le_finsum {f : ι → ℕ} (hf : f.support.Finite) (s : Finset ι) :
    ∑ x ∈ s, f x ≤ ∑ᶠ x, f x := by
  rw [finsum_eq_sum_of_support_subset f (s := s ∪ hf.toFinset) (by simp)]
  exact sum_le_sum_of_subset subset_union_left

end Finsum

section Shares
variable {s : Finset ι} {a : ι → ℕ} {d : ℕ}

theorem sum_div_le (s : Finset ι) (f : ι → ℕ) (d : ℕ) :
    ∑ i ∈ s, f i / d ≤ (∑ i ∈ s, f i) / d := by
  induction s using Finset.induction_on with
  | empty => simp
  | insert i s hi ih =>
    rw [sum_insert hi, sum_insert hi]
    exact (Nat.add_le_add_left ih _).trans (Nat.div_add_div_le_add_div)

/-- Floored shares of `x / m`, in proportion to parts of `d`, stay within it. -/
theorem sum_share_le (hle : ∑ i ∈ s, a i ≤ d) (x m : ℕ) : ∑ i ∈ s, x * a i / (m * d) ≤ x / m := by
  rcases Nat.eq_zero_or_pos d with rfl | hd
  · simp
  · calc ∑ i ∈ s, x * a i / (m * d) ≤ (∑ i ∈ s, x * a i) / (m * d) := sum_div_le s _ _
      _ ≤ x * d / (m * d) := by
        rw [← mul_sum]
        exact Nat.div_le_div_right (Nat.mul_le_mul_left x hle)
      _ = x / m := Nat.mul_div_mul_right x m hd

omit [DecidableEq ι] in
/-- Flooring costs less than one unit a part. -/
theorem lt_sum_share {m : ℕ} (hm : 0 < m) (hd : 0 < d) (hsum : ∑ i ∈ s, a i = d) (x : ℕ) :
    x < m * (∑ i ∈ s, x * a i / (m * d) + s.card) := by
  have hne : s.Nonempty := by
    rw [nonempty_iff_ne_empty]
    rintro rfl
    simp at hsum
    omega
  have hpart : ∀ i ∈ s, x * a i < m * d * (x * a i / (m * d) + 1) :=
    fun i _ => Nat.lt_mul_div_succ _ (Nat.mul_pos hm hd)
  have hlt : d * x < d * (m * (∑ i ∈ s, x * a i / (m * d) + s.card)) :=
    calc d * x = ∑ i ∈ s, x * a i := by rw [← mul_sum, hsum, mul_comm]
      _ < ∑ i ∈ s, m * d * (x * a i / (m * d) + 1) := sum_lt_sum_of_nonempty hne hpart
      _ = d * (m * (∑ i ∈ s, x * a i / (m * d) + s.card)) := by
        rw [← mul_sum, sum_add_distrib, sum_const, smul_eq_mul, mul_one]
        ring
  exact Nat.lt_of_mul_lt_mul_left hlt

end Shares

end Sums
