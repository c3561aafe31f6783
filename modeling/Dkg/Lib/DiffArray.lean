import Dkg.Lib.Sums

/-!
Difference arrays: the level at `e` is the sum of the entries in `(0, e]`, so a
constant is added over a range by changing two entries.
-/

namespace DiffArray

open Function Finset

variable {M : Type*} [AddCommGroup M] {d : ℕ → M} {p : M} {a b e n : ℕ}

def level (d : ℕ → M) (e : ℕ) : M := ∑ i ∈ Finset.Ioc 0 e, d i

/-- Add `p` over `[a, b]`. -/
def addRange (d : ℕ → M) (a b : ℕ) (p : M) : ℕ → M :=
  update (update d a (d a + p)) (b + 1) (update d a (d a + p) (b + 1) - p)

@[simp] theorem level_zero : level d 0 = 0 := by simp [level]

theorem level_succ (d : ℕ → M) (e : ℕ) : level d (e + 1) = level d e + d (e + 1) := by
  rw [level, level, sum_Ioc_succ_top (Nat.zero_le e)]

theorem level_addRange (ha : 0 < a) (hab : a ≤ b) (e : ℕ) :
    level (addRange d a b p) e = level d e + if a ≤ e ∧ e ≤ b then p else 0 := by
  rw [level, addRange, sub_eq_add_neg, Sums.sum_update, Sums.sum_update, ← level]
  simp only [mem_Ioc]
  by_cases h1 : a ≤ e
  · by_cases h2 : e ≤ b
    · rw [if_pos (by omega), if_neg (by omega), if_pos (by omega), add_zero]
    · rw [if_pos (by omega), if_pos (by omega), if_neg (by omega)]
      abel
  · rw [if_neg (by omega), if_neg (by omega), if_neg (by omega)]
    abel

/-- Below the range nothing moves, so a frozen prefix stays valid. -/
theorem level_addRange_of_lt (ha : 0 < a) (hab : a ≤ b) (he : e < a) :
    level (addRange d a b p) e = level d e := by
  rw [level_addRange ha hab, if_neg (by omega), add_zero]

theorem sum_level_addRange (ha : 0 < a) (hab : a ≤ b) (hn : b < n) :
    ∑ e ∈ range n, level (addRange d a b p) e = ∑ e ∈ range n, level d e + (b + 1 - a) • p := by
  have hrange : (range n).filter (fun e => a ≤ e ∧ e ≤ b) = Finset.Icc a b := by
    ext e
    simp only [mem_filter, mem_range, mem_Icc]
    omega
  simp only [level_addRange ha hab, sum_add_distrib, ← sum_filter]
  rw [hrange, sum_const, Nat.card_Icc]

end DiffArray
