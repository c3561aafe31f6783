import Dkg.Lib.SwapPop
import Mathlib.Data.List.Nodup

/-!
A list without repetitions together with the place of each element: an element is pushed at the
end, and removed by moving the last element into its place.
-/

namespace IndexedList

open List SwapPop Function
variable {α : Type*} {items : List α} {index : α → ℕ} {x y : α}

structure Ok (items : List α) (index : α → ℕ) : Prop where
  nodup : items.Nodup
  at_index : ∀ x ∈ items, items[index x]? = some x

theorem Ok.index_inj (h : Ok items index) (hx : x ∈ items) (hy : y ∈ items)
    (he : index x = index y) : x = y :=
  Option.some.inj ((h.at_index x hx).symm.trans (he ▸ h.at_index y hy))

/-- Every element but the last stands before the last place. -/
theorem Ok.index_succ_lt (h : Ok items index) (hx : x ∈ items) (hy : items.getLast? = some y)
    (hne : x ≠ y) : index x + 1 < items.length := by
  have hat := h.at_index x hx
  have hlt := (List.getElem?_eq_some_iff.mp hat).1
  refine Nat.lt_of_le_of_ne hlt fun he => hne ?_
  rw [List.getLast?_eq_getElem?, ← he, Nat.succ_sub_one, hat] at hy
  exact Option.some.inj hy

variable [DecidableEq α]

theorem Ok.push (h : Ok items index) (hx : x ∉ items) :
    Ok (items ++ [x]) (update index x items.length) := by
  refine ⟨?_, fun z hz => ?_⟩
  · exact h.nodup.append (nodup_singleton x) (disjoint_singleton.mpr hx)
  · rcases mem_append.mp hz with hz | hz
    · have hne : z ≠ x := fun he => hx (he ▸ hz)
      rw [update_of_ne hne, getElem?_concat_eq_some]
      exact .inl (h.at_index z hz)
    · cases mem_singleton.mp hz
      simp

/-- The last element takes the place of `x`. -/
theorem Ok.swapPop (h : Ok items index) (hx : x ∈ items) (hy : items.getLast? = some y) (n : ℕ) :
    Ok (swapPop items (index x)) (update (update index y (index x)) x n) ∧
      ∀ z, z ∈ SwapPop.swapPop items (index x) ↔ z ∈ items ∧ z ≠ x := by
  have hperm := perm_swapPop (h.at_index x hx)
  obtain ⟨hnodup, -, hdisj⟩ := nodup_append.mp (hperm.nodup_iff.mp h.nodup)
  have hmem : ∀ z, z ∈ SwapPop.swapPop items (index x) ↔ z ∈ items ∧ z ≠ x := by
    intro z
    rw [hperm.mem_iff, mem_append, mem_singleton]
    constructor
    · exact fun hz => ⟨.inl hz, hdisj z hz x (mem_singleton_self x)⟩
    · rintro ⟨hz | hz, hne⟩
      · exact hz
      · exact absurd hz hne
  refine ⟨⟨hnodup, fun z hz => ?_⟩, hmem⟩
  obtain ⟨hold, hzx⟩ := (hmem z).mp hz
  rw [update_of_ne hzx]
  by_cases hzy : z = y
  · subst hzy
    rw [update_self]
    exact getElem?_swapPop_self (h.index_succ_lt hx hy (Ne.symm hzx)) hy
  · rw [update_of_ne hzy, getElem?_swapPop]
    · exact h.at_index z hold
    · exact fun he => hzx (h.index_inj hold hx he)
    · exact h.index_succ_lt hold hy hzy

end IndexedList
