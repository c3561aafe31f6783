import Mathlib.Data.List.Nodup

/-!
Maps that keep the order in which their keys were first set, as lists of entries, and sets that
keep the order in which their elements were first added, as lists.
-/

namespace JsMap

open List
variable {K V : Type*} [DecidableEq K] {m : List (K × V)} {e : K × V} {k : K} {v : V}

/-- A key that is there keeps its place. -/
def set (m : List (K × V)) (k : K) (v : V) : List (K × V) :=
  if ∃ e ∈ m, e.1 = k then m.map fun e => if e.1 = k then (k, v) else e
  else m ++ [(k, v)]

theorem set_of_fresh (h : ∀ e ∈ m, e.1 ≠ k) : set m k v = m ++ [(k, v)] := by
  have hnone : ¬∃ e ∈ m, e.1 = k := fun ⟨e, he, hk⟩ => h e he hk
  rw [set, if_neg hnone]

theorem mem_set : e ∈ set m k v ↔ e = (k, v) ∨ e.1 ≠ k ∧ e ∈ m := by
  unfold set
  split_ifs with h
  · rw [mem_map]
    constructor
    · rintro ⟨e', he', rfl⟩
      split_ifs with hk
      · exact .inl rfl
      · exact .inr ⟨hk, he'⟩
    · rintro (rfl | ⟨hne, he⟩)
      · obtain ⟨e', he', hk⟩ := h
        exact ⟨e', he', if_pos hk⟩
      · exact ⟨e, he, if_neg hne⟩
  · rw [mem_append, mem_singleton]
    constructor
    · rintro (he | rfl)
      · exact .inr ⟨fun hk => h ⟨e, he, hk⟩, he⟩
      · exact .inl rfl
    · rintro (rfl | ⟨-, he⟩)
      · exact .inr rfl
      · exact .inl he

theorem nodup_keys_set (h : (m.map Prod.fst).Nodup) : ((set m k v).map Prod.fst).Nodup := by
  unfold set
  split_ifs with hk
  · have hkeys : (m.map fun e => if e.1 = k then (k, v) else e).map Prod.fst =
        m.map Prod.fst := by
      rw [map_map]
      refine map_congr_left fun e _ => ?_
      dsimp only [Function.comp]
      split_ifs with he
      · exact he.symm
      · rfl
    rw [hkeys]
    exact h
  · rw [map_append]
    refine h.append (nodup_singleton k) (disjoint_singleton.mpr fun hmem => ?_)
    obtain ⟨e, he, hek⟩ := mem_map.mp hmem
    exact hk ⟨e, he, hek⟩

def get? (m : List (K × V)) (k : K) : Option V := (m.find? fun e => e.1 = k).map Prod.snd

/-- Appends to the list under a key. -/
def push (m : List (K × List V)) (k : K) (v : V) : List (K × List V) :=
  set m k ((get? m k).getD [] ++ [v])

@[simp] theorem get?_nil : get? ([] : List (K × V)) k = none := rfl

theorem get?_append_singleton {k' : K} (h : ∀ e ∈ m, e.1 ≠ k) :
    get? (m ++ [(k, v)]) k' = if k' = k then some v else get? m k' := by
  rw [get?, find?_append]
  split_ifs with hk
  · subst hk
    have hnone : m.find? (fun e => decide (e.1 = k')) = none := by simpa using h
    rw [hnone]
    simp
  · have hother : [(k, v)].find? (fun e => decide (e.1 = k')) = none := by simpa using Ne.symm hk
    rw [hother, Option.or_none, get?]

theorem get?_set {k' : K} : get? (set m k v) k' = if k' = k then some v else get? m k' := by
  by_cases h : ∃ e ∈ m, e.1 = k
  · have hkey : ∀ e : K × V, (if e.1 = k then (k, v) else e).1 = e.1 := by
      intro e
      split_ifs with he
      · exact he.symm
      · rfl
    rw [set, if_pos h, get?, find?_map, Option.map_map]
    simp only [Function.comp_def, hkey]
    cases hfind : m.find? fun e => decide (e.1 = k') with
    | none =>
      have hne : k' ≠ k := by
        rintro rfl
        obtain ⟨e, he, hk⟩ := h
        exact of_decide_eq_false (by simpa using find?_eq_none.mp hfind e he) hk
      rw [if_neg hne, get?, hfind]
      rfl
    | some e =>
      have he : e.1 = k' := by simpa using find?_some hfind
      rw [Option.map_some, get?, hfind, he]
      split_ifs <;> rfl
  · rw [set, if_neg h]
    exact get?_append_singleton fun e he hk => h ⟨e, he, hk⟩

end JsMap

namespace JsSet
variable {α : Type*} [DecidableEq α] {s xs : List α} {x y : α}

def add (s : List α) (x : α) : List α := if x ∈ s then s else s ++ [x]

def ofList (xs : List α) : List α := xs.foldl add []

@[simp] theorem mem_add : y ∈ add s x ↔ y ∈ s ∨ y = x := by
  unfold add
  split_ifs with h
  · refine ⟨.inl, ?_⟩
    rintro (hy | rfl)
    · exact hy
    · exact h
  · rw [List.mem_append, List.mem_singleton]

theorem mem_foldl_add : y ∈ xs.foldl add s ↔ y ∈ s ∨ y ∈ xs := by
  induction xs generalizing s with
  | nil => simp
  | cons x xs ih => rw [List.foldl_cons, ih, mem_add, List.mem_cons, or_assoc]

@[simp] theorem mem_ofList : y ∈ ofList xs ↔ y ∈ xs := by
  rw [ofList, mem_foldl_add]
  simp

end JsSet
