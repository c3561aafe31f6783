import Dkg.Lib.Sums

/-!
Binary indexed trees: cell `x` holds the sum of the leaves in `(x - lowbit x, x]`.
A point update walks `x, x + lowbit x, ...`; a search for the first prefix sum
above a target descends over halving powers of two.
-/

namespace Fenwick

/-- The largest power of two that divides `x`. -/
def lowbit (x : ℕ) : ℕ := 2 ^ padicValNat 2 x

/-- Cell `x` includes leaf `i`. -/
def Covers (x i : ℕ) : Prop := x - lowbit x < i ∧ i ≤ x

variable {x y i j d w : ℕ}

theorem lowbit_pos (x : ℕ) : 0 < lowbit x := Nat.two_pow_pos _

theorem lowbit_dvd (x : ℕ) : lowbit x ∣ x := pow_padicValNat_dvd

theorem lowbit_le (hx : 0 < x) : lowbit x ≤ x := Nat.le_of_dvd hx (lowbit_dvd x)

theorem pow_dvd_lowbit (hx : 0 < x) (h : 2 ^ j ∣ x) : 2 ^ j ∣ lowbit x :=
  pow_dvd_pow 2 ((padicValNat_dvd_iff_le hx.ne').mp h)

theorem lowbit_eq_pow (hx : 0 < x) (h : 2 ^ j ∣ x) (hn : ¬2 ^ (j + 1) ∣ x) :
    lowbit x = 2 ^ j := by
  have hle : j ≤ padicValNat 2 x := (padicValNat_dvd_iff_le hx.ne').mp h
  have hlt : ¬j + 1 ≤ padicValNat 2 x := fun hj => hn ((padicValNat_dvd_iff_le hx.ne').mpr hj)
  have heq : padicValNat 2 x = j := by omega
  rw [lowbit, heq]

theorem lowbit_add_pow (h : 2 ^ (j + 1) ∣ x) : lowbit (x + 2 ^ j) = 2 ^ j := by
  have hpos : 0 < 2 ^ j := Nat.two_pow_pos j
  apply lowbit_eq_pow (by omega)
  · exact (Nat.dvd_add_left dvd_rfl).mpr ((pow_dvd_pow 2 j.le_succ).trans h)
  · intro hn
    have hself : 2 ^ (j + 1) ∣ 2 ^ j := (Nat.dvd_add_right h).mp hn
    have hle := Nat.le_of_dvd hpos hself
    rw [pow_succ] at hle
    omega

/-- The next cell of an update walk spans at least twice as many leaves. -/
theorem two_mul_lowbit_le (hx : 0 < x) : 2 * lowbit x ≤ lowbit (x + lowbit x) := by
  obtain ⟨c, hc⟩ := lowbit_dvd x
  have hodd : ¬2 ∣ c := by
    rintro ⟨b, rfl⟩
    have hdvd : 2 ^ (padicValNat 2 x + 1) ∣ x := ⟨b, by rw [pow_succ, mul_assoc]; exact hc⟩
    have := (padicValNat_dvd_iff_le hx.ne').mp hdvd
    omega
  have hdvd : 2 ^ (padicValNat 2 x + 1) ∣ x + lowbit x := by
    refine ⟨(c + 1) / 2, ?_⟩
    have hc2 : 2 * ((c + 1) / 2) = c + 1 := by omega
    calc x + lowbit x = lowbit x * (c + 1) := by rw [mul_add, ← hc, mul_one]
      _ = 2 ^ (padicValNat 2 x + 1) * ((c + 1) / 2) := by
        rw [← hc2, pow_succ, mul_assoc, lowbit]
        simp [hc2]
  have hpos : 0 < x + lowbit x := by omega
  have := Nat.le_of_dvd (lowbit_pos _) (pow_dvd_lowbit hpos hdvd)
  rwa [pow_succ, mul_comm, ← lowbit] at this

/-- Between a cell and the next one of its walk, cells start at or after it. -/
theorem lowbit_add_le (hd : 0 < d) (hlt : d < lowbit x) : lowbit (x + d) ≤ d := by
  have hdvd : lowbit (x + d) ∣ x + d := lowbit_dvd _
  rcases Nat.lt_or_ge (padicValNat 2 (x + d)) (padicValNat 2 x) with h | h
  · have hx : lowbit (x + d) ∣ x := (pow_dvd_pow 2 h.le).trans (lowbit_dvd x)
    exact Nat.le_of_dvd hd ((Nat.dvd_add_right hx).mp hdvd)
  · have hx : lowbit x ∣ x + d := (pow_dvd_pow 2 h).trans hdvd
    have := Nat.le_of_dvd hd ((Nat.dvd_add_right (lowbit_dvd x)).mp hx)
    omega

theorem lowbit_pow (w : ℕ) : lowbit (2 ^ w) = 2 ^ w := by
  rw [lowbit, padicValNat.prime_pow]

/-- Below a power of two an update walk does not pass it. -/
theorem add_lowbit_le (hx : 0 < x) (hlt : x < 2 ^ w) : x + lowbit x ≤ 2 ^ w := by
  have hw : padicValNat 2 x ≤ w :=
    (Nat.pow_le_pow_iff_right one_lt_two).mp ((lowbit_le hx).trans hlt.le)
  obtain ⟨a, ha⟩ := lowbit_dvd x
  obtain ⟨b, hb⟩ : lowbit x ∣ 2 ^ w := pow_dvd_pow 2 hw
  have hab : a < b := by
    rw [hb] at hlt
    nth_rewrite 1 [ha] at hlt
    exact Nat.lt_of_mul_lt_mul_left hlt
  calc x + lowbit x = lowbit x * (a + 1) := by rw [mul_add, ← ha, mul_one]
    _ ≤ lowbit x * b := Nat.mul_le_mul_left _ hab
    _ = 2 ^ w := hb.symm

theorem covers_self (hi : 0 < i) : Covers i i :=
  ⟨by have := lowbit_pos i; omega, le_rfl⟩

theorem Covers.pos (h : Covers x i) : 0 < x := by
  obtain ⟨h1, h2⟩ := h
  omega

/-- The next cell of the walk covers what this one covers. -/
theorem Covers.next (h : Covers x i) : Covers (x + lowbit x) i := by
  have h2 := two_mul_lowbit_le h.pos
  obtain ⟨h1, hle⟩ := h
  exact ⟨by omega, by omega⟩

/-- No cell strictly between two consecutive ones of the walk covers the leaf. -/
theorem Covers.not_between (h : Covers x i) (hlo : x < y) (hhi : y < x + lowbit x) :
    ¬Covers y i := by
  rintro ⟨hy, _⟩
  have hle := lowbit_add_le (x := x) (d := y - x) (by omega) (by omega)
  rw [show x + (y - x) = y by omega] at hle
  have := h.2
  omega

theorem and_complement_eq_zero (hx : x < 2 ^ w) : x &&& (2 ^ w - (x + 1)) = 0 := by
  apply Nat.eq_of_testBit_eq
  intro b
  rw [Nat.testBit_and, Nat.testBit_two_pow_sub_succ hx]
  cases x.testBit b <;> simp

/-- On `w`-bit words `x & (-x)` isolates the lowest set bit. -/
theorem and_neg_eq_lowbit (hx : 0 < x) (hlt : x < 2 ^ w) : x &&& (2 ^ w - x) = lowbit x := by
  induction w generalizing x with
  | zero => omega
  | succ w ih =>
    rw [pow_succ] at hlt
    rcases Nat.even_or_odd' x with ⟨y, rfl | rfl⟩
    · have hy := ih (x := y) (by omega) (by omega)
      have hsub : 2 ^ (w + 1) - 2 * y = 2 * (2 ^ w - y) := by rw [pow_succ]; omega
      have hval : padicValNat 2 (2 * y) = padicValNat 2 y + 1 := by
        rw [padicValNat.mul (by omega) (by omega), padicValNat_self, add_comm]
      rw [hsub, lowbit, hval, pow_succ, ← lowbit, ← hy]
      apply Nat.eq_of_testBit_eq
      intro b
      rw [Nat.testBit_and]
      cases b with
      | zero => simp
      | succ b => simp [Nat.testBit_succ]
    · have hodd : lowbit (2 * y + 1) = 2 ^ 0 := lowbit_eq_pow (by omega) (by simp) (by omega)
      have hz := and_complement_eq_zero (w := w) (x := y) (by omega)
      have hhalf : (2 ^ (w + 1) - (2 * y + 1)) / 2 = 2 ^ w - (y + 1) := by rw [pow_succ]; omega
      have hbit : (2 ^ (w + 1) - (2 * y + 1)) % 2 = 1 := by rw [pow_succ]; omega
      rw [hodd]
      apply Nat.eq_of_testBit_eq
      intro b
      rw [Nat.testBit_and]
      cases b with
      | zero => simp [hbit]
      | succ b =>
        have hb := congrArg (fun n => n.testBit b) hz
        simp only [Nat.testBit_and, Nat.zero_testBit] at hb
        rw [Nat.testBit_succ, Nat.testBit_succ, hhalf, show (2 * y + 1) / 2 = y by omega, hb]
        simp [Nat.testBit_succ]

section Cells
variable {M : Type*} [AddCommGroup M] {cap : ℕ} {leaf cell cell' : ℕ → M} {δ : M}

instance : Decidable (Covers x i) := inferInstanceAs (Decidable (_ ∧ _))

/-- Every cell up to `cap` holds the sum of the leaves it covers. -/
def Represents (cap : ℕ) (leaf cell : ℕ → M) : Prop :=
  ∀ x, 0 < x → x ≤ cap → cell x = ∑ i ∈ Finset.Ioc (x - lowbit x) x, leaf i

/-- A point update: adding `δ` to the cells that cover `i` adds it to leaf `i`. -/
theorem Represents.update (h : Represents cap leaf cell)
    (hcell : ∀ x, 0 < x → x ≤ cap → cell' x = cell x + if Covers x i then δ else 0) :
    Represents cap (Function.update leaf i (leaf i + δ)) cell' := by
  intro x hx hcap
  have hmem : i ∈ Finset.Ioc (x - lowbit x) x ↔ Covers x i := Finset.mem_Ioc
  rw [hcell x hx hcap, h x hx hcap, Sums.sum_update]
  simp [hmem]

/-- A cell reached in a descent by steps of `2 ^ j` holds the sum of its last step. -/
theorem Represents.step_sum (h : Represents cap leaf cell) (hx : 2 ^ (j + 1) ∣ x)
    (hcap : x + 2 ^ j ≤ cap) : cell (x + 2 ^ j) = ∑ i ∈ Finset.Ioc x (x + 2 ^ j), leaf i := by
  have hpos : 0 < 2 ^ j := Nat.two_pow_pos j
  rw [h _ (by omega) hcap, lowbit_add_pow hx, Nat.add_sub_cancel]

end Cells

section Descent
variable {P : ℕ → ℕ} {r n : ℕ}

/-- Binary descent: go right by `2 ^ j` while the running sum stays at most `r`. -/
def descend (P : ℕ → ℕ) (r : ℕ) : ℕ → ℕ → ℕ
  | 0, idx => idx
  | j + 1, idx => if P (idx + 2 ^ j) ≤ r then descend P r j (idx + 2 ^ j) else descend P r j idx

/-- The descent ends at the index where the running sum crosses `r`. -/
theorem descend_crosses (hlo : P n ≤ r) (hhi : r < P (n + 2 ^ j)) :
    P (descend P r j n) ≤ r ∧ r < P (descend P r j n + 1) := by
  induction j generalizing n with
  | zero => exact ⟨hlo, hhi⟩
  | succ j ih =>
    rw [descend]
    split_ifs with hle
    · exact ih hle (by rwa [add_assoc, ← two_mul, ← pow_succ'])
    · exact ih hlo (by omega)

theorem isLeast_of_crosses (hP : Monotone P) (hlo : P n ≤ r) (hhi : r < P (n + 1)) :
    IsLeast {i | r < P i} (n + 1) := by
  refine ⟨hhi, fun i hi => ?_⟩
  by_contra hlt
  have hle : P i ≤ P n := hP (by omega)
  have : r < P i := hi
  omega

theorem crosses_unique (hP : Monotone P) {m : ℕ} (hn : P n ≤ r ∧ r < P (n + 1))
    (hm : P m ≤ r ∧ r < P (m + 1)) : n = m := by
  have h1 := isLeast_of_crosses hP hn.1 hn.2
  have h2 := isLeast_of_crosses hP hm.1 hm.2
  have := h1.unique h2
  omega

/-- As many targets cross at `n` as the running sum grows there. -/
theorem card_crosses {total : ℕ} (htotal : P (n + 1) ≤ total) :
    ((Finset.range total).filter fun r => P n ≤ r ∧ r < P (n + 1)).card = P (n + 1) - P n := by
  rw [← Nat.card_Ico]
  congr 1
  ext r
  simp only [Finset.mem_filter, Finset.mem_range, Finset.mem_Ico]
  omega

end Descent

end Fenwick
