import Dkg.Lib.Revert

/-!
Fixed-width arithmetic that reverts instead of wrapping, and the explicit
casts that wrap.
-/

namespace Checked
variable {ε : Type*} {a b c w : ℕ} {x y z : ℤ} {e e' : ε}

/-- Unsigned `w`-bit addition. -/
def add (w a b : ℕ) (e : ε) : Except ε ℕ :=
  if a + b < 2 ^ w then .ok (a + b) else .error e

/-- Unsigned subtraction. -/
def sub (a b : ℕ) (e : ε) : Except ε ℕ :=
  if b ≤ a then .ok (a - b) else .error e

/-- `x` is a value of the signed `w`-bit type. -/
def FitsInt (w : ℕ) (x : ℤ) : Prop := -2 ^ (w - 1) ≤ x ∧ x < 2 ^ (w - 1)

instance : Decidable (FitsInt w x) := inferInstanceAs (Decidable (_ ∧ _))

/-- Signed `w`-bit addition. -/
def addInt (w : ℕ) (x y : ℤ) (e : ε) : Except ε ℤ :=
  if FitsInt w (x + y) then .ok (x + y) else .error e

/-- The cast of an unsigned `w`-bit value to the signed type of the same width. -/
def toInt (w n : ℕ) : ℤ := (n : ℤ).bmod (2 ^ w)

/-- The cast of a signed `w`-bit value to the unsigned type of the same width. -/
def toUint (w : ℕ) (x : ℤ) : ℕ := (x % 2 ^ w).toNat

@[simp] theorem add_eq_ok : add w a b e = .ok c ↔ a + b < 2 ^ w ∧ a + b = c := by
  unfold add
  split <;> simp_all

@[simp] theorem add_eq_error : add w a b e = .error e' ↔ 2 ^ w ≤ a + b ∧ e = e' := by
  unfold add
  split <;> simp_all

@[simp] theorem sub_eq_ok : sub a b e = .ok c ↔ b ≤ a ∧ a - b = c := by
  unfold sub
  split <;> simp_all

@[simp] theorem addInt_eq_ok : addInt w x y e = .ok z ↔ FitsInt w (x + y) ∧ x + y = z := by
  unfold addInt
  split <;> simp_all

@[simp] theorem addInt_eq_error : addInt w x y e = .error e' ↔ ¬FitsInt w (x + y) ∧ e = e' := by
  unfold addInt
  split <;> simp_all

theorem toInt_of_lt (hw : 0 < w) (h : a < 2 ^ (w - 1)) : toInt w a = a := by
  obtain ⟨v, rfl⟩ : ∃ v, w = v + 1 := ⟨w - 1, by omega⟩
  simp only [Nat.add_sub_cancel] at h
  have h2 : (2 : ℤ) ^ (v + 1) = 2 * 2 ^ v := by ring
  have hz : (a : ℤ) < 2 ^ v := by exact_mod_cast h
  rw [toInt, Int.bmod_eq_of_le]
  · push_cast; omega
  · push_cast; omega

theorem toUint_of_nonneg (hx : 0 ≤ x) (h : x < 2 ^ w) : (toUint w x : ℤ) = x := by
  rw [toUint, Int.emod_eq_of_lt hx h, Int.toNat_of_nonneg hx]

end Checked
