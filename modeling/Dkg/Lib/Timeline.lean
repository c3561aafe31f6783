import Mathlib.Data.List.Basic
import Mathlib.Order.Lattice

/-!
Append-only logs of numbered entries, and runs of total steps whose inputs meet a condition in
the states they meet.
-/

namespace Timeline

open List
variable {α : Type*} {num : α → ℕ} {a : α} {xs ys zs : List α}

/-- The highest number, 0 for the empty log. -/
def top (num : α → ℕ) (xs : List α) : ℕ := xs.foldr (fun a n => max (num a) n) 0

theorem num_le_top (h : a ∈ xs) : num a ≤ top num xs := by
  induction xs with
  | nil => cases h
  | cons x xs ih =>
    rcases mem_cons.mp h with rfl | h
    · exact le_max_left _ _
    · exact (ih h).trans (le_max_right _ _)

theorem top_append : top num (xs ++ ys) = max (top num xs) (top num ys) := by
  induction xs with
  | nil => exact (Nat.zero_max _).symm
  | cons x xs ih =>
    change max (num x) (top num (xs ++ ys)) = max (max (num x) (top num xs)) (top num ys)
    rw [ih, max_assoc]

/-- The second log is the first with entries of higher numbers after it. -/
def Extends (num : α → ℕ) (xs ys : List α) : Prop :=
  ∃ rest, ys = xs ++ rest ∧ ∀ a ∈ rest, top num xs < num a

theorem Extends.refl (xs : List α) : Extends num xs xs :=
  ⟨[], (append_nil xs).symm, by simp⟩

theorem Extends.top_le_top (h : Extends num xs ys) : top num xs ≤ top num ys := by
  obtain ⟨rest, rfl, -⟩ := h
  rw [top_append]
  exact le_max_left _ _

theorem Extends.trans (h : Extends num xs ys) (h' : Extends num ys zs) : Extends num xs zs := by
  obtain ⟨rest, rfl, hrest⟩ := id h
  obtain ⟨rest', rfl, hrest'⟩ := h'
  refine ⟨rest ++ rest', append_assoc .., fun a ha => ?_⟩
  rcases mem_append.mp ha with ha | ha
  · exact hrest a ha
  · exact h.top_le_top.trans_lt (hrest' a ha)

/-- A log that reaches as high as one that extends it is that log. -/
theorem Extends.eq_of_top_le (h : Extends num xs ys) (htop : top num ys ≤ top num xs) :
    xs = ys := by
  obtain ⟨rest, rfl, hrest⟩ := h
  cases rest with
  | nil => exact (append_nil xs).symm
  | cons a rest =>
    have hlt := hrest a mem_cons_self
    have hle : num a ≤ top num (xs ++ a :: rest) := num_le_top (by simp)
    omega

/-- Up to the top of the first log, the two hold the same entries. -/
theorem Extends.mem_iff (h : Extends num xs ys) (ha : num a ≤ top num xs) : a ∈ xs ↔ a ∈ ys := by
  obtain ⟨rest, rfl, hrest⟩ := h
  refine ⟨mem_append_left _, fun hmem => ?_⟩
  rcases mem_append.mp hmem with hmem | hmem
  · exact hmem
  · have hlt := hrest a hmem
    omega

end Timeline

namespace Runs
variable {σ α : Type*} {step : σ → α → σ} {C : σ → α → Prop} {s : σ} {as : List α}

/-- Each input meets the condition in the state it is given to. -/
def Along (step : σ → α → σ) (C : σ → α → Prop) : σ → List α → Prop
  | _, [] => True
  | s, a :: as => C s a ∧ Along step C (step s a) as

instance Along.decidable (step : σ → α → σ) (C : σ → α → Prop) [∀ s a, Decidable (C s a)] :
    ∀ s as, Decidable (Along step C s as)
  | _, [] => isTrue trivial
  | s, a :: as =>
    have := Along.decidable step C (step s a) as
    inferInstanceAs (Decidable (_ ∧ _))

theorem foldl_invariant (Inv : σ → Prop)
    (hstep : ∀ s a, Inv s → C s a → Inv (step s a)) (hs : Inv s) (hC : Along step C s as) :
    Inv (as.foldl step s) := by
  induction as generalizing s with
  | nil => exact hs
  | cons a as ih => exact ih (hstep s a hs hC.1) hC.2

end Runs
