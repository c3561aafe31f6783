import Mathlib.Data.List.Basic

/-!
Removal from a list by moving the last element into the place that becomes free.
-/

namespace SwapPop

open List
variable {α : Type*} {l : List α} {i j : ℕ} {x : α}

/-- The list without the entry at `i`. -/
def swapPop (l : List α) (i : ℕ) : List α :=
  match l.getLast? with
  | none => []
  | some last => (l.set i last).dropLast

/-- The last place is dropped, any other takes the last element. -/
theorem swapPop_concat (u : List α) (y : α) :
    swapPop (u ++ [y]) i = if i < u.length then u.set i y else u := by
  unfold swapPop
  rw [getLast?_concat]
  dsimp only
  split_ifs with hlt
  · rw [set_append_left _ _ hlt, dropLast_concat]
  · rw [set_append_right _ _ (Nat.not_lt.mp hlt)]
    cases i - u.length <;> simp

theorem getElem?_concat_eq_some {y : α} :
    (l ++ [x])[i]? = some y ↔ l[i]? = some y ∨ i = l.length ∧ x = y := by
  grind

theorem exists_concat (h : l[i]? = some x) : ∃ u y, l = u ++ [y] := by
  rcases eq_nil_or_concat l with rfl | ⟨u, y, hl⟩
  · cases h
  · exact ⟨u, y, by rw [hl, concat_eq_append]⟩

/-- One occurrence of the entry goes. -/
theorem perm_swapPop (h : l[i]? = some x) : l.Perm (swapPop l i ++ [x]) := by
  obtain ⟨u, y, rfl⟩ := exists_concat h
  rw [swapPop_concat]
  split_ifs with hlt
  · rw [getElem?_append_left hlt] at h
    obtain ⟨_, hx⟩ := List.getElem?_eq_some_iff.mp h
    have hsplit : u = u.take i ++ x :: u.drop (i + 1) := by
      rw [← hx, ← drop_eq_getElem_cons hlt, take_append_drop]
    rw [set_eq_take_append_cons_drop, if_pos hlt]
    have hbefore : (u ++ [y]).Perm (y :: x :: (u.take i ++ u.drop (i + 1))) := by
      refine (perm_append_singleton y u).trans (List.Perm.cons y ?_)
      conv_lhs => rw [hsplit]
      exact perm_middle
    have hafter : (u.take i ++ y :: u.drop (i + 1) ++ [x]).Perm
        (x :: y :: (u.take i ++ u.drop (i + 1))) :=
      (perm_append_singleton x _).trans (perm_middle.cons x)
    exact hbefore.trans ((List.Perm.swap x y _).trans hafter.symm)
  · rcases getElem?_concat_eq_some.mp h with h | ⟨-, rfl⟩
    · exact absurd (List.getElem?_eq_some_iff.mp h).1 hlt
    · exact List.Perm.refl _

/-- Other places keep theirs, up to the last. -/
theorem getElem?_swapPop (hj : j ≠ i) (hlast : j + 1 < l.length) : (swapPop l i)[j]? = l[j]? := by
  obtain ⟨u, y, rfl⟩ := exists_concat (getElem?_eq_getElem hlast)
  rw [length_append, length_singleton] at hlast
  rw [swapPop_concat, getElem?_append_left (by omega)]
  split
  · rw [getElem?_set_ne hj.symm]
  · rfl

theorem getElem?_swapPop_self (hi : i + 1 < l.length) (hx : l.getLast? = some x) :
    (swapPop l i)[i]? = some x := by
  obtain ⟨u, y, rfl⟩ := exists_concat (getElem?_eq_getElem hi)
  rw [getLast?_concat] at hx
  cases hx
  rw [length_append, length_singleton] at hi
  have hlt : i < u.length := by omega
  rw [swapPop_concat, if_pos hlt, getElem?_set_self hlt]

end SwapPop
