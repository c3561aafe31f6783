import Dkg.Lib.JsMap

/-!
Deletion from a map, and how many entries of a map have a property.
-/

namespace JsMap

open List
variable {K V : Type*} [DecidableEq K] {m : List (K × V)} {e : K × V} {k : K} {v : V}

def delete (m : List (K × V)) (k : K) : List (K × V) := m.filter fun e => e.1 ≠ k

theorem mem_delete : e ∈ delete m k ↔ e.1 ≠ k ∧ e ∈ m := by
  rw [delete, mem_filter, decide_eq_true_eq, and_comm]

theorem mem_of_get? (h : get? m k = some v) : (k, v) ∈ m := by
  obtain ⟨e, he, rfl⟩ := Option.map_eq_some_iff.mp h
  have hk : e.1 = k := by simpa using find?_some he
  rw [← hk]
  exact mem_of_find?_eq_some he

theorem nodup_keys_delete (h : (m.map Prod.fst).Nodup) : ((delete m k).map Prod.fst).Nodup :=
  h.sublist (filter_sublist.map _)

section Count
variable (p : K × V → Bool)

theorem countP_delete_le : (delete m k).countP p ≤ m.countP p :=
  filter_sublist.countP_le

/-- What is deleted is no longer counted. -/
theorem countP_delete_lt (h : get? m k = some v) (hp : p (k, v) = true) :
    (delete m k).countP p < m.countP p := by
  obtain ⟨u, w, rfl⟩ := append_of_mem (mem_of_get? h)
  have hdelete : delete (u ++ (k, v) :: w) k = delete u k ++ delete w k := by
    simp [delete]
  have hu : (delete u k).countP p ≤ u.countP p := countP_delete_le p
  have hw : (delete w k).countP p ≤ w.countP p := countP_delete_le p
  rw [hdelete, countP_append, countP_append, countP_cons, if_pos hp]
  omega

/-- A key counts at most once. -/
theorem countP_set_le (hnodup : (m.map Prod.fst).Nodup) :
    (set m k v).countP p ≤ m.countP p + if p (k, v) then 1 else 0 := by
  by_cases h : ∃ e ∈ m, e.1 = k
  · rw [set, if_pos h]
    clear h
    induction m with
    | nil => simp
    | cons e m ih =>
      rw [map_cons, nodup_cons] at hnodup
      rw [map_cons, countP_cons, countP_cons]
      by_cases hk : e.1 = k
      · have hrest : (m.map fun e => if e.1 = k then (k, v) else e) = m := by
          refine (map_congr_left fun e' he' => if_neg ?_).trans (map_id m)
          rintro rfl
          exact hnodup.1 (hk ▸ mem_map_of_mem he')
        rw [hrest, if_pos hk]
        omega
      · rw [if_neg hk]
        have hle := ih hnodup.2
        omega
  · have happend : (m ++ [(k, v)]).countP p = m.countP p + if p (k, v) then 1 else 0 := by
      rw [countP_append, countP_singleton]
    rw [set, if_neg h]
    exact Nat.le_of_eq happend

end Count

end JsMap
