import Mathlib

/-!
A set of naturals kept as bits of words under keys, with one word cached: the bits to add
to it are collected and written back before another word is read.
-/

namespace BitWords

open Function

variable {κ : Type*} [DecidableEq κ] {k n w x : ℕ} {key : ℕ → κ} {m : κ → ℕ}

/-- The word, its bits in the store, and the bits to add to it. -/
structure Cache where
  word : ℕ
  stored : ℕ
  used : ℕ
  deriving DecidableEq, Repr

variable {c : Cache}

/-- The bit of `n` in its word of `2 ^ k` bits. -/
def bit (k n : ℕ) : ℕ := 1 <<< (n &&& (2 ^ k - 1))

/-- Write the collected bits back. -/
def flush (key : ℕ → κ) (m : κ → ℕ) (c : Cache) : κ → ℕ :=
  if c.used ≠ 0 then update m (key c.word) (m (key c.word) ||| c.used) else m

/-- Make `w` the cached word. -/
def seek (key : ℕ → κ) (m : κ → ℕ) (c : Cache) (w : ℕ) : (κ → ℕ) × Cache :=
  if w ≠ c.word then (flush key m c, ⟨w, flush key m c (key w), 0⟩) else (m, c)

def mark (k : ℕ) (c : Cache) (n : ℕ) : Cache := { c with used := c.used ||| bit k n }

/-- The bit of `n` is set. -/
def Mem (k : ℕ) (key : ℕ → κ) (m : κ → ℕ) (n : ℕ) : Prop :=
  (m (key (n >>> k))).testBit (n % 2 ^ k) = true

/-- The cache holds what is stored under its word; under the word `none` it holds nothing. -/
structure Valid (none : ℕ) (key : ℕ → κ) (m : κ → ℕ) (c : Cache) : Prop where
  used : c.word = none → c.used = 0
  stored : c.word ≠ none → c.stored = m (key c.word)

theorem bit_eq : bit k n = 2 ^ (n % 2 ^ k) := by
  rw [bit, Nat.and_two_pow_sub_one_eq_mod, Nat.shiftLeft_eq, one_mul]

theorem bit_ne_zero : bit k n ≠ 0 := by
  rw [bit_eq]
  exact (Nat.two_pow_pos _).ne'

theorem and_bit_eq_zero : x &&& bit k n = 0 ↔ x.testBit (n % 2 ^ k) = false := by
  rw [bit_eq, Nat.and_two_pow, mul_eq_zero]
  cases x.testBit (n % 2 ^ k) <;> simp

/-- What the store holds once the cache is written back does not depend on the word that
is cached. -/
theorem flush_seek : flush key (seek key m c w).1 (seek key m c w).2 = flush key m c := by
  unfold seek
  split
  · simp [flush]
  · rfl

theorem seek_word : (seek key m c w).2.word = w := by
  unfold seek
  split
  · rfl
  · exact (not_ne_iff.mp ‹_›).symm

theorem seek_valid {none : ℕ} (h : Valid none key m c) (hw : w ≠ none) :
    Valid none key (seek key m c w).1 (seek key m c w).2 := by
  unfold seek
  split
  · exact ⟨fun h => absurd h hw, fun _ => rfl⟩
  · exact h

/-- The two halves of the cache are the word as it will be stored. -/
theorem stored_or_used {none : ℕ} (h : Valid none key m c) (hw : c.word ≠ none) :
    c.stored ||| c.used = flush key m c (key c.word) := by
  rw [h.stored hw, flush]
  split
  case isTrue => rw [update_self]
  case isFalse h => rw [not_ne_iff.mp h, Nat.or_zero]

theorem flush_mark : flush key m (mark k c n) =
    update (flush key m c) (key c.word) (flush key m c (key c.word) ||| bit k n) := by
  have hne : c.used ||| bit k n ≠ 0 := fun h => bit_ne_zero (Nat.or_eq_zero_iff.mp h).2
  rw [flush, mark, if_pos hne, flush]
  split
  case isTrue => rw [update_self, update_idem, Nat.or_assoc]
  case isFalse h => rw [not_ne_iff.mp h, Nat.zero_or]

omit [DecidableEq κ] in
theorem mark_valid {none : ℕ} (h : Valid none key m c) (hw : c.word ≠ none) :
    Valid none key m (mark k c n) :=
  ⟨fun he => absurd he hw, h.stored⟩

theorem eq_of_word_of_bit (hword : x >>> k = n >>> k) (hbit : x % 2 ^ k = n % 2 ^ k) : x = n := by
  rw [Nat.shiftRight_eq_div_pow, Nat.shiftRight_eq_div_pow] at hword
  rw [← Nat.div_add_mod x (2 ^ k), hword, hbit, Nat.div_add_mod]

/-- Marking a number adds it and nothing else. -/
theorem mem_flush_mark (hkey : Injective key) (hw : c.word = n >>> k) :
    Mem k key (flush key m (mark k c n)) x ↔ Mem k key (flush key m c) x ∨ x = n := by
  rw [flush_mark, hw, Mem, Mem]
  by_cases hx : x >>> k = n >>> k
  · rw [hx, update_self, Nat.testBit_or, Bool.or_eq_true, bit_eq, Nat.testBit_two_pow,
      decide_eq_true_iff]
    refine or_congr_right ⟨fun h => eq_of_word_of_bit hx h.symm, fun h => ?_⟩
    rw [h]
  · rw [update_of_ne (hkey.ne hx)]
    refine ⟨.inl, fun h => h.resolve_right fun he => hx ?_⟩
    rw [he]

/-- The check on the cache tells whether the number is in. -/
theorem mark_check {none : ℕ} (h : Valid none key m c) (hw : c.word = n >>> k)
    (hn : n >>> k ≠ none) :
    (c.stored ||| c.used) &&& bit k n = 0 ↔ ¬Mem k key (flush key m c) n := by
  rw [and_bit_eq_zero, stored_or_used h (hw ▸ hn), hw, Mem, Bool.not_eq_true]

/-- Words under other keys are left alone. -/
theorem flush_of_ne {i : κ} (h : ∀ w, i ≠ key w) : flush key m c i = m i := by
  unfold flush
  split
  · exact update_of_ne (h _) _ _
  · rfl

theorem seek_of_ne {i : κ} (h : ∀ w, i ≠ key w) : (seek key m c w).1 i = m i := by
  unfold seek
  split
  · exact flush_of_ne h
  · rfl

end BitWords
