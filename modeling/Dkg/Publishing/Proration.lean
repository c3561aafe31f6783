import Dkg.Chronos

/-!
`PublishingMathLib`: the discount ladder and the three-range proration shared by the
bookings and the allocation schedule.
-/

namespace Dkg.Publishing
open Revert List

/-- One TRAC in wei. -/
def ether : ℕ := 10 ^ 18

def discountBps (committedTRAC : ℕ) : ℕ :=
  if committedTRAC ≥ 1000000 * ether then 7500
  else if committedTRAC ≥ 500000 * ether then 5000
  else if committedTRAC ≥ 250000 * ether then 4000
  else if committedTRAC ≥ 100000 * ether then 3000
  else if committedTRAC ≥ 50000 * ether then 2000
  else if committedTRAC ≥ 25000 * ether then 1000
  else 0

structure ActiveSinkRange where
  startEpoch : ℕ
  endEpoch : ℕ
  tokenAmount : ℕ
  deriving DecidableEq, Repr

/-- A slot of the result array that was not written. -/
def ActiveSinkRange.zero : ActiveSinkRange := ⟨0, 0, 0⟩

/-- The array of three: partial first epoch, full epochs, last epoch with the dust. -/
structure Ranges where
  first : ActiveSinkRange
  full : ActiveSinkRange
  last : ActiveSinkRange
  deriving DecidableEq, Repr

def Ranges.toList (r : Ranges) : List ActiveSinkRange := [r.first, r.full, r.last]

/-- Every part is at most `tokenAmount`, so the casts to `uint96` are exact, and the
epochs stay far below `2 ^ 40`. The one subtraction that can fail is the last epoch's,
when more time remains than an epoch has; no epochs are a division by zero. -/
def prorateActiveSink {ε : Type} (panic : ε)
    (tokenAmount currentEpoch epochs epochLength timeRemaining : ℕ) : Except ε Ranges := do
  require (epochs ≠ 0) panic
  let base := tokenAmount / epochs
  let current := base * timeRemaining / epochLength
  let final ← Checked.sub base current panic
  let fullEpochs := epochs - 1
  let full := base * fullEpochs
  let totalAllocated := current + full + final
  let final := if totalAllocated < tokenAmount then final + (tokenAmount - totalAllocated) else final
  return {
    first := if current > 0 then ⟨currentEpoch, currentEpoch, current⟩ else .zero
    full :=
      if fullEpochs > 0 ∧ full > 0 then ⟨currentEpoch + 1, currentEpoch + fullEpochs, full⟩
      else .zero
    last :=
      if final > 0 then ⟨currentEpoch + epochs, currentEpoch + epochs, final⟩ else .zero }

/-- A slot that is written only for a positive amount. -/
def slot (startEpoch endEpoch tokenAmount : ℕ) : ActiveSinkRange :=
  if tokenAmount > 0 then ⟨startEpoch, endEpoch, tokenAmount⟩ else .zero

/-- The three ranges of a proration over `epochs` epochs from `anchor`, by their parts. -/
def Ranges.anchored (anchor epochs first base last : ℕ) : Ranges where
  first := slot anchor anchor first
  full := slot (anchor + 1) (anchor + (epochs - 1)) (base * (epochs - 1))
  last := slot (anchor + epochs) (anchor + epochs) last

/-- What a range gives to an epoch: its amount split evenly. -/
def ActiveSinkRange.share (r : ActiveSinkRange) (e : ℕ) : ℕ :=
  if r.startEpoch ≤ e ∧ e ≤ r.endEpoch then r.tokenAmount / (r.endEpoch + 1 - r.startEpoch) else 0

/-- What a list of ranges gives to an epoch. -/
def shareAt (rs : List ActiveSinkRange) (e : ℕ) : ℕ := (rs.map fun r => r.share e).sum

/-- The `k`-th epoch's part of a proration. -/
def part (epochs first base last k : ℕ) : ℕ :=
  if k = 0 then first else if k < epochs then base else if k = epochs then last else 0

variable {ε : Type} {panic : ε} {r : Ranges} {x : ActiveSinkRange}
  {amount anchor epochs len rem first base last k e : ℕ}

theorem parts_le (amount : ℕ) (hn : 0 < epochs) :
    amount / epochs * (epochs - 1) + amount / epochs ≤ amount := by
  obtain ⟨n, rfl⟩ : ∃ n, epochs = n + 1 := ⟨epochs - 1, by omega⟩
  exact Nat.div_mul_le_self amount (n + 1)

theorem prorateActiveSink_eq (hn : 0 < epochs)
    (hle : amount / epochs * rem / len ≤ amount / epochs) :
    prorateActiveSink panic amount anchor epochs len rem =
      .ok (.anchored anchor epochs (amount / epochs * rem / len) (amount / epochs)
        (amount - (amount / epochs * rem / len + amount / epochs * (epochs - 1)))) := by
  set first := amount / epochs * rem / len with hfirst
  have hparts := parts_le amount hn
  have hlast : (if first + amount / epochs * (epochs - 1) + (amount / epochs - first) < amount then
      amount / epochs - first +
        (amount - (first + amount / epochs * (epochs - 1) + (amount / epochs - first)))
      else amount / epochs - first) = amount - (first + amount / epochs * (epochs - 1)) := by
    split <;> omega
  have hfull : (epochs - 1 > 0 ∧ amount / epochs * (epochs - 1) > 0) ↔
      amount / epochs * (epochs - 1) > 0 :=
    ⟨fun h => h.2, fun h => ⟨Nat.pos_of_mul_pos_left h, h⟩⟩
  simp only [prorateActiveSink, bind_eq_ok, require_eq_ok, Checked.sub_eq_ok, pure_eq_ok]
  refine ⟨(), hn.ne', amount / epochs - first, ⟨hle, rfl⟩, ?_⟩
  simp only [← hfirst, hlast, hfull, Ranges.anchored, slot]

/-- A proration that does not fail: the parts make up the amount, and the same parts come
out for every anchor. -/
theorem prorateActiveSink_ok (h : prorateActiveSink panic amount anchor epochs len rem = .ok r) :
    0 < epochs ∧ ∃ first last, first + amount / epochs * (epochs - 1) + last = amount ∧
      r = .anchored anchor epochs first (amount / epochs) last ∧
      ∀ anchor', prorateActiveSink panic amount anchor' epochs len rem =
        .ok (.anchored anchor' epochs first (amount / epochs) last) := by
  have hok := h
  simp only [prorateActiveSink, bind_eq_ok, require_eq_ok, Checked.sub_eq_ok] at hok
  obtain ⟨-, hn, -, ⟨hle, -⟩, -⟩ := hok
  have hn := Nat.pos_of_ne_zero hn
  have hparts := parts_le amount hn
  rw [prorateActiveSink_eq hn hle] at h
  simp only [Except.ok.injEq] at h
  exact ⟨hn, _, _, by omega, h.symm, fun anchor' => prorateActiveSink_eq hn hle⟩

@[simp] theorem slot_tokenAmount (a b n : ℕ) : (slot a b n).tokenAmount = n := by
  unfold slot
  split
  · rfl
  · simp only [ActiveSinkRange.zero]
    omega

theorem slot_share (a b n e : ℕ) :
    (slot a b n).share e = if a ≤ e ∧ e ≤ b then n / (b + 1 - a) else 0 := by
  unfold slot
  split
  · rfl
  · have hz : n = 0 := by omega
    subst hz
    simp [ActiveSinkRange.share, ActiveSinkRange.zero]

/-- The ranges hold the parts. -/
theorem anchored_sum (anchor epochs first base last : ℕ) :
    ((Ranges.anchored anchor epochs first base last).toList.map (·.tokenAmount)).sum =
      first + base * (epochs - 1) + last := by
  simp [Ranges.toList, Ranges.anchored, add_assoc]

/-- No range that holds something starts before the anchor or ends before it starts. -/
theorem anchored_startEpoch (hx : x ∈ (Ranges.anchored anchor epochs first base last).toList)
    (hne : x.tokenAmount ≠ 0) : anchor ≤ x.startEpoch ∧ x.startEpoch ≤ x.endEpoch := by
  simp only [Ranges.toList, Ranges.anchored, mem_cons, not_mem_nil, or_false] at hx
  obtain rfl | rfl | rfl := hx <;> rw [slot_tokenAmount] at hne <;>
    rw [slot, if_pos (Nat.pos_of_ne_zero hne)] <;> dsimp only
  · omega
  · have : epochs - 1 ≠ 0 := right_ne_zero_of_mul hne
    omega
  · omega

theorem anchored_endEpoch (hx : x ∈ (Ranges.anchored anchor epochs first base last).toList) :
    x.endEpoch ≤ anchor + epochs := by
  simp only [Ranges.toList, Ranges.anchored, mem_cons, not_mem_nil, or_false] at hx
  obtain rfl | rfl | rfl := hx <;> unfold slot <;> split <;> simp only [ActiveSinkRange.zero] <;>
    omega

/-- Every range splits evenly over its epochs. -/
theorem anchored_dvd (hx : x ∈ (Ranges.anchored anchor epochs first base last).toList) :
    x.endEpoch + 1 - x.startEpoch ∣ x.tokenAmount := by
  simp only [Ranges.toList, Ranges.anchored, mem_cons, not_mem_nil, or_false] at hx
  obtain rfl | rfl | rfl := hx <;> unfold slot <;> split <;> simp only [ActiveSinkRange.zero]
  · simp
  · simp
  · rw [show anchor + (epochs - 1) + 1 - (anchor + 1) = epochs - 1 by omega]
    exact dvd_mul_left _ _
  · simp
  · simp
  · simp

/-- The `k`-th epoch from the anchor gets its part, wherever the anchor is. -/
theorem anchored_shareAt (hn : 0 < epochs) (k : ℕ) :
    shareAt (Ranges.anchored anchor epochs first base last).toList (anchor + k) =
      part epochs first base last k := by
  have hfull : epochs - 1 ≠ 0 → base * (epochs - 1) / (anchor + (epochs - 1) + 1 - (anchor + 1)) =
      base := by
    intro h
    rw [show anchor + (epochs - 1) + 1 - (anchor + 1) = epochs - 1 by omega,
      Nat.mul_div_cancel _ (by omega)]
  simp only [shareAt, Ranges.toList, Ranges.anchored, map_cons, map_nil, sum_cons,
    sum_nil, slot_share, add_zero, Nat.add_sub_cancel_left, Nat.div_one, part]
  rcases Nat.eq_zero_or_pos k with rfl | hk
  · rw [if_pos (by omega), if_neg (by omega), if_neg (by omega), if_pos rfl]
    rfl
  · rw [if_neg (by omega), if_neg (show k ≠ 0 by omega), zero_add]
    rcases lt_trichotomy k epochs with h | rfl | h
    · rw [if_pos (by omega), if_neg (by omega), if_pos h, add_zero]
      exact hfull (by omega)
    · rw [if_neg (by omega), if_pos (by omega), if_neg (by omega), if_pos rfl, zero_add]
    · rw [if_neg (by omega), if_neg (by omega), if_neg (by omega), if_neg (by omega)]

theorem sum_part (hn : 0 < epochs) :
    ∑ k ∈ Finset.range (epochs + 1), part epochs first base last k =
      first + base * (epochs - 1) + last := by
  obtain ⟨n, rfl⟩ : ∃ n, epochs = n + 1 := ⟨epochs - 1, by omega⟩
  have hmid : ∑ k ∈ Finset.range n, part (n + 1) first base last (k + 1) = base * n := by
    rw [Finset.sum_congr rfl fun k hk => ?_, Finset.sum_const, Finset.card_range, smul_eq_mul,
      mul_comm]
    rw [Finset.mem_range] at hk
    rw [part, if_neg (by omega), if_pos (by omega)]
  rw [Finset.sum_range_succ, Finset.sum_range_succ', hmid]
  simp only [part, Nat.add_sub_cancel, if_pos, lt_irrefl, if_false]
  rw [if_neg (by omega)]
  omega

end Dkg.Publishing
