import Mathlib

/-!
Binary search for the end of the initial segment on which a decidable property holds.
-/

namespace Bisect

/-- The search loop over the half-open interval from `lo` to `hi`. -/
def loop (p : ℕ → Bool) : ℕ → ℕ → ℕ → ℕ
  | 0, lo, _ => lo
  | fuel + 1, lo, hi =>
    if lo < hi then
      let mid := (lo + hi) / 2
      if p mid then loop p fuel (mid + 1) hi else loop p fuel lo mid
    else lo

end Bisect
