import Dkg.Lib.Sums

/-!
A quantity over time that falls by scheduled drops, kept as its value at one moment and the
drops after it.
-/

namespace StepProfile

open Function Finset

variable {x d : ℤ} {drop drop' : ℕ → ℕ} {last m t n T : ℕ}

/-- The value at `T` of a quantity that is `x` at `last` and falls by `drop t` at each
later `t`. -/
def value (x : ℤ) (drop : ℕ → ℕ) (last T : ℕ) : ℤ := x - ∑ t ∈ Finset.Ioc last T, (drop t : ℤ)

@[simp] theorem value_self : value x drop last last = x := by simp [value]

theorem value_add (x d : ℤ) (drop : ℕ → ℕ) (last T : ℕ) :
    value (x + d) drop last T = value x drop last T + d := by
  unfold value
  ring

theorem value_congr (h : ∀ t, last < t → drop t = drop' t) :
    value x drop last T = value x drop' last T := by
  unfold value
  rw [sum_congr rfl fun t ht => by rw [h t (mem_Ioc.mp ht).1]]

/-- The value at a moment can replace the earlier one. -/
theorem value_advance (hm : last ≤ m) (hT : m ≤ T) :
    value (value x drop last m) drop m T = value x drop last T := by
  unfold value
  have hsplit := sum_Ioc_consecutive (fun t => (drop t : ℤ)) hm hT
  linarith

/-- Over a stretch without drops the value stays. -/
theorem value_of_quiet (h : ∀ t, last < t → t ≤ T → drop t = 0) : value x drop last T = x := by
  unfold value
  rw [sum_eq_zero fun t ht => ?_, sub_zero]
  rw [mem_Ioc] at ht
  rw [h t ht.1 ht.2, Nat.cast_zero]

/-- A drop is the difference it makes. -/
theorem drop_eq (h : last < t) :
    (drop t : ℤ) = value x drop last (t - 1) - value x drop last t := by
  obtain ⟨n, rfl⟩ : ∃ n, t = n + 1 := ⟨t - 1, by omega⟩
  unfold value
  rw [Nat.add_sub_cancel, sum_Ioc_succ_top (by omega)]
  ring

theorem value_update (h : (n : ℤ) = drop t + d) :
    value x (update drop t n) last T =
      value x drop last T - if last < t ∧ t ≤ T then d else 0 := by
  unfold value
  have hcast : ∀ i, ((update drop t n i : ℕ) : ℤ) =
      update (fun i => (drop i : ℤ)) t (drop t + d) i := by
    intro i
    by_cases hi : i = t
    · subst hi
      simpa using h
    · simp [hi]
  simp only [hcast]
  rw [Sums.sum_update (Finset.Ioc last T) (fun i => (drop i : ℤ))]
  simp only [mem_Ioc]
  ring

end StepProfile
