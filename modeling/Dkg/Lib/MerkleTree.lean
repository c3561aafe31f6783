import Mathlib

/-!
Merkle trees in which a level of odd length repeats its last node: the levels over a list of
leaves, the siblings along a path, and the walk from a leaf to the root.
-/

namespace MerkleTree

open List
variable {α : Type*} {node : α → α → α} {l path : List α} {x y s : α} {i k : ℕ}

/-- A level of odd length repeats its last node. -/
def pad (l : List α) : List α :=
  if l.length % 2 ≠ 0 then l ++ l.getLast?.toList else l

/-- The neighbours that are hashed together. -/
def pairs : List α → List (α × α)
  | a :: b :: rest => (a, b) :: pairs rest
  | _ => []

/-- The node over a pair. -/
def hashOf (node : α → α → α) (p : α × α) : α := node p.1 p.2

def pairUp (node : α → α → α) (l : List α) : List α := (pairs l).map (hashOf node)

/-- The level above `l`. -/
def above (node : α → α → α) (l : List α) : List α := pairUp node (pad l)

section Level

theorem pad_length (l : List α) : (pad l).length = 2 * ((l.length + 1) / 2) := by
  unfold pad
  split
  case isTrue hodd =>
    have hne : l ≠ [] := by
      rintro rfl
      simp at hodd
    rw [getLast?_eq_some_getLast hne, length_append, Option.toList_some, length_singleton]
    omega
  case isFalse heven => omega

theorem pad_getElem? (hi : i < l.length) : (pad l)[i]? = l[i]? := by
  unfold pad
  split
  · exact getElem?_append_left hi
  · rfl

theorem pairs_length (l : List α) : (pairs l).length = l.length / 2 := by
  fun_induction pairs l with
  | case1 a b rest ih =>
    simp only [length_cons, ih]
    omega
  | case2 l hl =>
    match l with
    | [] => simp
    | [a] => simp
    | a :: b :: rest => exact absurd rfl (hl a b rest)

theorem pairs_getElem? {a b : α} (ha : l[2 * k]? = some a) (hb : l[2 * k + 1]? = some b) :
    (pairs l)[k]? = some (a, b) := by
  induction k generalizing l with
  | zero =>
    match l with
    | [] => simp at ha
    | [_] => simp at hb
    | _ :: _ :: _ => simp_all [pairs]
  | succ k ih =>
    match l with
    | [] => simp at ha
    | [_] => simp [Nat.mul_succ] at hb
    | _ :: _ :: rest => exact ih (l := rest) ha hb

theorem above_length (l : List α) : (above node l).length = (l.length + 1) / 2 := by
  rw [above, pairUp, length_map, pairs_length, pad_length]
  omega

theorem above_length_lt (h : 1 < l.length) : (above node l).length < l.length := by
  rw [above_length]
  omega

end Level

/-- The levels from the leaves to the root, padded where they are paired. -/
def levels (node : α → α → α) (l : List α) : List (List α) :=
  if 1 < l.length then pad l :: levels node (above node l) else [l]
termination_by l.length
decreasing_by exact above_length_lt ‹_›

/-- The node on the other side of index `i`. -/
def siblingIndex (i : ℕ) : ℕ := if i % 2 = 0 then i + 1 else i - 1

/-- The siblings along the path from leaf `i`, one for each level below the root. -/
def siblings : List (List α) → ℕ → List α
  | level :: next :: rest, i =>
    level[siblingIndex i]?.toList ++ siblings (next :: rest) (i / 2)
  | _, _ => []

/-- A node at index `i` and its sibling, in the order of the tree. -/
def pairAt (i : ℕ) (x s : α) : α × α := if i % 2 = 0 then (x, s) else (s, x)

def walk (node : α → α → α) : α → ℕ → List α → α
  | x, _, [] => x
  | x, i, s :: path => walk node (hashOf node (pairAt i x s)) (i / 2) path

def root (node : α → α → α) (l : List α) : Option α :=
  (levels node l).getLast?.bind head?

/-- The pairs hashed for the tree over `l`. -/
def treePairs (node : α → α → α) (l : List α) : List (α × α) :=
  if 1 < l.length then pairs (pad l) ++ treePairs node (above node l) else []
termination_by l.length
decreasing_by exact above_length_lt ‹_›

/-- The pairs hashed on a walk. -/
def walkPairs (node : α → α → α) : α → ℕ → List α → List (α × α)
  | _, _, [] => []
  | x, i, s :: path => pairAt i x s :: walkPairs node (hashOf node (pairAt i x s)) (i / 2) path

section Unfold

/-- Induction along the levels. -/
theorem level_induction {P : List α → Prop} (node : α → α → α) (htop : ∀ l, l.length ≤ 1 → P l)
    (hup : ∀ l, 1 < l.length → P (above node l) → P l) (l : List α) : P l := by
  induction hn : l.length using Nat.strong_induction_on generalizing l with
  | _ n ih =>
    by_cases h : 1 < l.length
    · exact hup l h (ih _ (hn ▸ above_length_lt h) _ rfl)
    · exact htop l (not_lt.mp h)

theorem levels_of_le (h : l.length ≤ 1) : levels node l = [l] := by
  rw [levels, if_neg (not_lt.mpr h)]

theorem levels_of_lt (h : 1 < l.length) :
    levels node l = pad l :: levels node (above node l) := by
  rw [levels, if_pos h]

theorem levels_ne_nil (l : List α) : levels node l ≠ [] := by
  rw [levels]
  split <;> simp

/-- The first level starts with the leaves. -/
theorem levels_headD_getElem? (node : α → α → α) (hi : i < l.length) :
    ((levels node l).headD [])[i]? = l[i]? := by
  rw [levels]
  split
  · exact pad_getElem? hi
  · rfl

theorem root_of_le (h : l.length ≤ 1) : root node l = l.head? := by
  rw [root, levels_of_le h]
  rfl

theorem root_of_lt (h : 1 < l.length) : root node l = root node (above node l) := by
  rw [root, levels_of_lt h, getLast?_cons, getLast?_eq_some_getLast (levels_ne_nil _)]
  rw [root, getLast?_eq_some_getLast (levels_ne_nil _)]
  rfl

theorem siblings_of_le (h : l.length ≤ 1) : siblings (levels node l) i = [] := by
  rw [levels_of_le h]
  rfl

theorem siblings_of_lt (h : 1 < l.length) :
    siblings (levels node l) i =
      (pad l)[siblingIndex i]?.toList ++ siblings (levels node (above node l)) (i / 2) := by
  obtain ⟨next, rest, hlevels⟩ := exists_cons_of_ne_nil (levels_ne_nil (above node l))
  rw [levels_of_lt h, hlevels]
  rfl

theorem treePairs_of_lt (h : 1 < l.length) :
    treePairs node l = pairs (pad l) ++ treePairs node (above node l) := by
  rw [treePairs, if_pos h]

theorem clog_of_lt (node : α → α → α) (h : 1 < l.length) :
    Nat.clog 2 l.length = Nat.clog 2 (above node l).length + 1 := by
  rw [Nat.clog_of_two_le one_lt_two h, above_length]
  rfl

end Unfold

section Paths

/-- Every node below the root has a sibling, and the pair is hashed. -/
theorem exists_sibling (hx : l[i]? = some x) :
    ∃ s, (pad l)[siblingIndex i]? = some s ∧ (pairs (pad l))[i / 2]? = some (pairAt i x s) := by
  have hi : i < l.length := (List.getElem?_eq_some_iff.mp hx).1
  have hpad := pad_length l
  have hx' : (pad l)[i]? = some x := (pad_getElem? hi).trans hx
  by_cases heven : i % 2 = 0
  · have hlt : i + 1 < (pad l).length := by omega
    refine ⟨(pad l)[i + 1], ?_, ?_⟩
    · rw [siblingIndex, if_pos heven, getElem?_eq_getElem hlt]
    · rw [pairAt, if_pos heven]
      have h2 : 2 * (i / 2) = i := by omega
      exact pairs_getElem? (by rwa [h2]) (by rw [h2, getElem?_eq_getElem hlt])
  · have hlt : i - 1 < (pad l).length := by omega
    refine ⟨(pad l)[i - 1], ?_, ?_⟩
    · rw [siblingIndex, if_neg heven, getElem?_eq_getElem hlt]
    · rw [pairAt, if_neg heven]
      have h2 : 2 * (i / 2) = i - 1 := by omega
      have h3 : 2 * (i / 2) + 1 = i := by omega
      exact pairs_getElem? (by rw [h2, getElem?_eq_getElem hlt]) (by rwa [h3])

theorem above_getElem? {p : α × α} (hp : (pairs (pad l))[k]? = some p) :
    (above node l)[k]? = some (hashOf node p) := by
  rw [above, pairUp, getElem?_map, hp, Option.map_some]

theorem siblings_length (hi : i < l.length) :
    (siblings (levels node l) i).length = Nat.clog 2 l.length := by
  induction l using level_induction node generalizing i with
  | htop l hl => rw [siblings_of_le hl, Nat.clog_of_right_le_one hl, length_nil]
  | hup l hl ih =>
    obtain ⟨s, hs, -⟩ := exists_sibling (getElem?_eq_getElem hi)
    have hup : i / 2 < (above node l).length := by
      rw [above_length]
      omega
    rw [siblings_of_lt hl, hs, clog_of_lt node hl, length_append, ih hup]
    exact Nat.add_comm _ _

/-- The walk along the siblings of a leaf ends at the root. -/
theorem walk_siblings (node : α → α → α) (hx : l[i]? = some x) :
    root node l = some (walk node x i (siblings (levels node l) i)) := by
  induction l using level_induction node generalizing i x with
  | htop l hl =>
    have hi : i = 0 := by
      have := (List.getElem?_eq_some_iff.mp hx).1
      omega
    subst hi
    rw [siblings_of_le hl, root_of_le hl, head?_eq_getElem?, hx]
    rfl
  | hup l hl ih =>
    obtain ⟨s, hs, hpair⟩ := exists_sibling hx
    rw [siblings_of_lt hl, hs, root_of_lt hl, ih (above_getElem? hpair)]
    rfl

/-- A walk of full length that ends at the root started from the leaf, or hashed a pair to
the same node as another pair of the tree. -/
theorem walk_binding (hy : l[i]? = some y) (hlen : path.length = Nat.clog 2 l.length)
    (hroot : root node l = some (walk node x i path)) :
    x = y ∨ ∃ p ∈ treePairs node l, ∃ q ∈ walkPairs node x i path,
      p ≠ q ∧ hashOf node p = hashOf node q := by
  induction l using level_induction node generalizing i x y path with
  | htop l hl =>
    have hi : i = 0 := by
      have := (List.getElem?_eq_some_iff.mp hy).1
      omega
    subst hi
    rw [Nat.clog_of_right_le_one hl, length_eq_zero_iff] at hlen
    subst hlen
    rw [root_of_le hl, head?_eq_getElem?, hy] at hroot
    exact .inl (Option.some.inj hroot).symm
  | hup l hl ih =>
    rw [clog_of_lt node hl] at hlen
    obtain ⟨s, path, rfl⟩ := exists_cons_of_length_eq_add_one hlen
    obtain ⟨s', -, hpair⟩ := exists_sibling hy
    rw [root_of_lt hl] at hroot
    rw [treePairs_of_lt hl]
    rcases ih (above_getElem? hpair) (Nat.succ.inj hlen) hroot with heq | ⟨p, hp, q, hq, hpq⟩
    · -- the same node one level up: the two pairs below it agree, or they collide
      by_cases hsame : pairAt i x s = pairAt i y s'
      · left
        unfold pairAt at hsame
        split at hsame
        · exact congrArg Prod.fst hsame
        · exact congrArg Prod.snd hsame
      · refine .inr ⟨_, mem_append_left _ (mem_of_getElem? hpair), _,
          mem_cons_self, fun h => hsame h.symm, heq.symm⟩
    · exact .inr ⟨p, mem_append_right _ hp, q, mem_cons_of_mem _ hq, hpq⟩

/-- One more sibling at the end of a path. -/
theorem walk_concat (x : α) (i : ℕ) (path : List α) (s : α) :
    walk node x i (path ++ [s]) =
      hashOf node (pairAt (i / 2 ^ path.length) (walk node x i path) s) := by
  induction path generalizing x i with
  | nil => simp [walk]
  | cons a path ih =>
    rw [cons_append, walk, ih, walk, Nat.div_div_eq_div_mul, length_cons, pow_succ']

theorem walkPairs_concat (x : α) (i : ℕ) (path : List α) (s : α) :
    walkPairs node x i (path ++ [s]) =
      walkPairs node x i path ++ [pairAt (i / 2 ^ path.length) (walk node x i path) s] := by
  induction path generalizing x i with
  | nil => simp [walk, walkPairs]
  | cons a path ih =>
    rw [cons_append, walkPairs, ih, walk, walkPairs, Nat.div_div_eq_div_mul, length_cons,
      pow_succ', cons_append]

end Paths

end MerkleTree
