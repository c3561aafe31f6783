import Mathlib.Data.List.Induction
import Mathlib.Logic.Function.Iterate
import Mathlib.Tactic.Common

/-!
Merkle trees in which the last node of a level of odd length has a parent of its own: the levels
over a list of leaves, the frontier that takes the leaves one at a time, the paths from a leaf to
the root, and what equal roots say when every digest is the hash of a tagged input.
-/

namespace OddMerkle

open List

section Levels
variable {δ ε : Type*} {node : δ → δ → δ} {odd : δ → δ} {xs ys : List δ} {a b : δ} {i : ℕ}

/-- The level above: neighbours are paired, and a last node without a neighbour is promoted. -/
def levelUp (node : δ → δ → δ) (odd : δ → δ) : List δ → List δ
  | a :: b :: rest => node a b :: levelUp node odd rest
  | [a] => [odd a]
  | [] => []

theorem levelUp_length (xs : List δ) : (levelUp node odd xs).length = (xs.length + 1) / 2 := by
  fun_induction levelUp node odd xs with
  | case1 a b rest ih =>
    simp only [length_cons, ih]
    omega
  | case2 a => simp
  | case3 => simp

/-- The root over the levels; a single node is its own root. -/
def root (node : δ → δ → δ) (odd : δ → δ) : List δ → Option δ
  | [] => none
  | [a] => some a
  | a :: b :: rest => root node odd (levelUp node odd (a :: b :: rest))
termination_by xs => xs.length
decreasing_by
  rw [levelUp_length]
  simp only [length_cons]
  omega

@[simp] theorem root_nil : root node odd [] = none := by
  rw [root]

@[simp] theorem root_singleton (a : δ) : root node odd [a] = some a := by
  rw [root]

theorem root_levelUp (h : 1 < xs.length) :
    root node odd xs = root node odd (levelUp node odd xs) := by
  match xs, h with
  | a :: b :: rest, _ => rw [root]

/-- Induction along the levels. -/
theorem level_induction (node : δ → δ → δ) (odd : δ → δ) {motive : List δ → Prop} (nil : motive []) (single : ∀ a, motive [a])
    (up : ∀ xs, 1 < xs.length → motive (levelUp node odd xs) → motive xs) (xs : List δ) :
    motive xs := by
  fun_induction root node odd xs with
  | case1 => exact nil
  | case2 a => exact single a
  | case3 a b rest ih => exact up _ (by simp) ih

theorem levelUp_append (heven : xs.length % 2 = 0) (ys : List δ) :
    levelUp node odd (xs ++ ys) = levelUp node odd xs ++ levelUp node odd ys := by
  fun_induction levelUp node odd xs with
  | case1 a b rest ih =>
    simp only [length_cons] at heven
    simp only [cons_append, levelUp, ih (by omega)]
  | case2 a => simp at heven
  | case3 => rfl

theorem levelUp_eq_nil : levelUp node odd xs = [] ↔ xs = [] := by
  rw [← length_eq_zero_iff, levelUp_length, ← length_eq_zero_iff]
  omega

/-- A node after a whole number of pairs is promoted with them. -/
theorem root_append_single (heven : xs.length % 2 = 0) (hne : xs ≠ []) (a : δ) :
    root node odd (xs ++ [a]) = root node odd (levelUp node odd xs ++ [odd a]) := by
  have hpos := length_pos_iff.mpr hne
  have hlen : 1 < (xs ++ [a]).length := by
    rw [length_append, length_singleton]
    omega
  rw [root_levelUp hlen, levelUp_append heven]
  rfl

theorem root_append_pair (heven : xs.length % 2 = 0) (a b : δ) :
    root node odd (xs ++ [a] ++ [b]) = root node odd (levelUp node odd xs ++ [node a b]) := by
  have hlen : 1 < (xs ++ [a] ++ [b]).length := by
    simp only [length_append, length_singleton]
    omega
  rw [root_levelUp hlen, append_assoc, levelUp_append heven]
  rfl

theorem root_ne_none (hne : xs ≠ []) : root node odd xs ≠ none := by
  induction xs using level_induction node odd with
  | nil => exact absurd rfl hne
  | single a => simp
  | up xs hlen ih =>
    rw [root_levelUp hlen]
    exact ih (mt levelUp_eq_nil.mp hne)

section Map
variable {node' : ε → ε → ε} {odd' : ε → ε} {f : δ → ε}

theorem levelUp_map (hnode : ∀ a b, f (node a b) = node' (f a) (f b))
    (hodd : ∀ a, f (odd a) = odd' (f a)) (xs : List δ) :
    levelUp node' odd' (xs.map f) = (levelUp node odd xs).map f := by
  fun_induction levelUp node odd xs with
  | case1 a b rest ih => simp only [map_cons, levelUp, ih, hnode]
  | case2 a => simp only [map_cons, map_nil, levelUp, hodd]
  | case3 => rfl

/-- A map that commutes with the two hashes commutes with the root. -/
theorem root_map (hnode : ∀ a b, f (node a b) = node' (f a) (f b))
    (hodd : ∀ a, f (odd a) = odd' (f a)) (xs : List δ) :
    root node' odd' (xs.map f) = (root node odd xs).map f := by
  induction xs using level_induction node odd with
  | nil => simp
  | single a => simp
  | up xs hlen ih =>
    rw [root_levelUp hlen, root_levelUp (by rwa [length_map]), levelUp_map hnode hodd, ih]

end Map

end Levels

section Frontier
variable {δ : Type*} {node : δ → δ → δ} {odd : δ → δ} {levels : List (Option δ)} {xs : List δ}
  {a p : δ} {k l : ℕ}

/-- Take one more leaf: carry it up over the levels that hold a node. -/
def push (node : δ → δ → δ) : List (Option δ) → δ → List (Option δ)
  | [], a => [some a]
  | none :: levels, a => some a :: levels
  | some b :: levels, a => none :: push node levels (node b a)

/-- The root from level `l` on. The pending node was formed at the level it comes with, and is
promoted when a node to its left is met. -/
def finish (node : δ → δ → δ) (odd : δ → δ) : List (Option δ) → ℕ → Option (δ × ℕ) → Option δ
  | [], _, pending => pending.map Prod.fst
  | none :: levels, l, pending => finish node odd levels (l + 1) pending
  | some a :: levels, l, none => finish node odd levels (l + 1) (some (a, l))
  | some a :: levels, l, some (p, k) =>
    finish node odd levels (l + 1) (some (node a (odd^[l - k] p), l + 1))

/-- The frontier of the nodes of a level: an unpaired last node waits, and the others are paired. -/
def Holds (node : δ → δ → δ) (odd : δ → δ) : List (Option δ) → List δ → Prop
  | [], xs => xs = []
  | none :: levels, xs => xs.length % 2 = 0 ∧ Holds node odd levels (levelUp node odd xs)
  | some a :: levels, xs => ∃ ys, xs = ys ++ [a] ∧ ys.length % 2 = 0 ∧
      Holds node odd levels (levelUp node odd ys)

theorem Holds.push (h : Holds node odd levels xs) (a : δ) :
    Holds node odd (push node levels a) (xs ++ [a]) := by
  induction levels generalizing xs a with
  | nil =>
    cases h
    exact ⟨[], rfl, rfl, rfl⟩
  | cons top levels ih =>
    cases top with
    | none => exact ⟨xs, rfl, h⟩
    | some b =>
      obtain ⟨ys, rfl, heven, hys⟩ := h
      have hup : levelUp node odd (ys ++ [b] ++ [a]) = levelUp node odd ys ++ [node b a] := by
        rw [append_assoc, levelUp_append heven]
        rfl
      refine ⟨?_, ?_⟩
      · simp only [length_append, length_singleton]
        omega
      · rw [hup]
        exact ih hys (node b a)

/-- With a pending node, the nodes to its left decide: with none of them it is the root, and
otherwise it is promoted to their level. -/
theorem Holds.finish_some (h : Holds node odd levels xs) (hk : k ≤ l) :
    finish node odd levels l (some (p, k)) =
      if xs = [] then some p else root node odd (xs ++ [odd^[l - k] p]) := by
  induction levels generalizing xs l p k with
  | nil =>
    cases h
    rfl
  | cons top levels ih =>
    cases top with
    | none =>
      obtain ⟨heven, hys⟩ := h
      have hraise : odd^[l + 1 - k] p = odd (odd^[l - k] p) := by
        rw [Nat.succ_sub hk, Function.iterate_succ_apply']
      rw [finish, ih hys (by omega), hraise]
      by_cases hxs : xs = []
      · rw [if_pos hxs, if_pos (levelUp_eq_nil.mpr hxs)]
      · rw [if_neg hxs, if_neg (mt levelUp_eq_nil.mp hxs), root_append_single heven hxs]
    | some a =>
      obtain ⟨ys, rfl, heven, hys⟩ := h
      have hsome : ys ++ [a] ≠ [] := append_ne_nil_of_right_ne_nil _ (cons_ne_nil a [])
      rw [finish, ih hys (Nat.le_refl _), if_neg hsome, root_append_pair heven]
      by_cases hne : ys = []
      · rw [if_pos (levelUp_eq_nil.mpr hne), hne]
        exact (root_singleton _).symm
      · rw [if_neg (mt levelUp_eq_nil.mp hne), Nat.sub_self]
        rfl

/-- The frontier's root is the root over the levels. -/
theorem Holds.finish_none (h : Holds node odd levels xs) (l : ℕ) :
    finish node odd levels l none = root node odd xs := by
  induction levels generalizing xs l with
  | nil =>
    cases h
    simp [finish]
  | cons top levels ih =>
    cases top with
    | none =>
      obtain ⟨heven, hys⟩ := h
      rw [finish, ih hys]
      by_cases hxs : xs = []
      · rw [hxs]
        rfl
      · have hpos := length_pos_iff.mpr hxs
        exact (root_levelUp (by omega)).symm
    | some a =>
      obtain ⟨ys, rfl, heven, hys⟩ := h
      rw [finish, hys.finish_some (Nat.le_succ l)]
      by_cases hne : ys = []
      · subst hne
        exact (root_singleton _).symm
      · rw [if_neg (mt levelUp_eq_nil.mp hne), root_append_single heven hne,
          Nat.succ_sub (Nat.le_refl l), Nat.sub_self]
        rfl

theorem holds_foldl (xs : List δ) : Holds node odd (xs.foldl (push node) []) xs := by
  induction xs using reverseRecOn with
  | nil => rfl
  | append_singleton xs a ih =>
    rw [foldl_append]
    exact ih.push a

/-- Taking the leaves one at a time gives the root over the levels, for any number of them. -/
theorem finish_foldl (xs : List δ) :
    finish node odd (xs.foldl (push node) []) 0 none = root node odd xs :=
  (holds_foldl xs).finish_none 0

end Frontier

section Paths

/-- What a node is combined with on the way up. -/
inductive Kind where
  | left
  | right
  | odd
deriving DecidableEq

/-- One step of a path, with the digest of the neighbour. -/
inductive Step (δ : Type*) where
  | left (digest : δ)
  | right (digest : δ)
  | odd
deriving DecidableEq

variable {δ : Type*} {node : δ → δ → δ} {odd : δ → δ} {xs : List δ} {d a b : δ} {i k width : ℕ}
  {step : Step δ} {steps : List (Step δ)}

def Step.kind : Step δ → Kind
  | .left _ => .left
  | .right _ => .right
  | .odd => .odd

def Step.map {ε : Type*} (f : δ → ε) : Step δ → Step ε
  | .left digest => .left (f digest)
  | .right digest => .right (f digest)
  | .odd => .odd

/-- The kind of step that a position in a level of some width takes. -/
def expectedKind (position width : ℕ) : Kind :=
  if position % 2 = 1 then .left else if position + 1 < width then .right else .odd

/-- The steps are those that lead from the position to the root. -/
def Leads : ℕ → ℕ → List (Step δ) → Prop
  | _, width, [] => width ≤ 1
  | position, width, step :: steps =>
    1 < width ∧ step.kind = expectedKind position width ∧
      Leads (position / 2) ((width + 1) / 2) steps

def climb (node : δ → δ → δ) (odd : δ → δ) (d : δ) : Step δ → δ
  | .left s => node s d
  | .right s => node d s
  | .odd => odd d

/-- The digest that the steps lead to. -/
def walk (node : δ → δ → δ) (odd : δ → δ) (d : δ) (steps : List (Step δ)) : δ :=
  steps.foldl (climb node odd) d

theorem levelUp_pair (ha : xs[2 * k]? = some a) (hb : xs[2 * k + 1]? = some b) :
    (levelUp node odd xs)[k]? = some (node a b) := by
  induction k generalizing xs with
  | zero =>
    match xs with
    | [] => cases ha
    | [_] => cases hb
    | _ :: _ :: _ =>
      cases ha
      cases hb
      rfl
  | succ k ih =>
    match xs with
    | [] => cases ha
    | [_] => cases hb
    | _ :: _ :: rest =>
      have hpair : rest[2 * k]? = some a ∧ rest[2 * k + 1]? = some b := ⟨ha, hb⟩
      exact ih hpair.1 hpair.2

theorem levelUp_last (ha : xs[2 * k]? = some a) (hlen : xs.length = 2 * k + 1) :
    (levelUp node odd xs)[k]? = some (odd a) := by
  induction k generalizing xs with
  | zero =>
    match xs, hlen with
    | [_], _ =>
      cases ha
      rfl
  | succ k ih =>
    match xs, hlen with
    | _ :: _ :: rest, hlen =>
      simp only [length_cons] at hlen
      have hlast : rest[2 * k]? = some a := ha
      exact ih hlast (by omega)

/-- The three ways a node has a parent. -/
inductive Parent (xs : List δ) (i : ℕ) : Kind → Prop where
  | left (a b : δ) (ha : xs[i - 1]? = some a) (hb : xs[i]? = some b) (hi : 2 * (i / 2) = i - 1)
      (hpos : 0 < i) : Parent xs i .left
  | right (a b : δ) (ha : xs[i]? = some a) (hb : xs[i + 1]? = some b) (hi : 2 * (i / 2) = i) :
      Parent xs i .right
  | odd (a : δ) (ha : xs[i]? = some a) (hi : 2 * (i / 2) = i) (hlen : xs.length = i + 1) :
      Parent xs i .odd

theorem parent_expectedKind (hi : i < xs.length) : Parent xs i (expectedKind i xs.length) := by
  have hget : ∀ j (hj : j < xs.length), xs[j]? = some xs[j] := fun j hj => getElem?_eq_getElem hj
  unfold expectedKind
  split
  · exact .left _ _ (hget _ (by omega)) (hget _ hi) (by omega) (by omega)
  · split
    · exact .right _ _ (hget _ hi) (hget _ ‹_›) (by omega)
    · exact .odd _ (hget _ hi) (by omega) (by omega)

/-- The step that a position of a level takes. -/
def stepAt (xs : List δ) (i : ℕ) : Option (Step δ) :=
  match expectedKind i xs.length with
  | .left => xs[i - 1]?.map .left
  | .right => xs[i + 1]?.map .right
  | .odd => some .odd

/-- A position takes a step of its kind, and the step leads to the level above. -/
theorem exists_stepAt (node : δ → δ → δ) (odd : δ → δ) (hd : xs[i]? = some d) :
    ∃ step, stepAt xs i = some step ∧ step.kind = expectedKind i xs.length ∧
      (levelUp node odd xs)[i / 2]? = some (climb node odd d step) := by
  obtain ⟨hi, -⟩ := List.getElem?_eq_some_iff.mp hd
  have hparent := parent_expectedKind hi
  unfold stepAt
  generalize expectedKind i xs.length = kind at hparent
  cases hparent with
  | left a b ha hb hhalf hpos =>
    cases hb.symm.trans hd
    refine ⟨.left a, by simp [ha], rfl, levelUp_pair (hhalf ▸ ha) ?_⟩
    rwa [hhalf, Nat.sub_add_cancel hpos]
  | right a b ha hb hhalf =>
    cases ha.symm.trans hd
    exact ⟨.right b, by simp [hb], rfl, levelUp_pair (hhalf.symm ▸ ha) (hhalf.symm ▸ hb)⟩
  | odd a ha hhalf hlen =>
    cases ha.symm.trans hd
    exact ⟨.odd, rfl, rfl, levelUp_last (hhalf.symm ▸ ha) (hhalf.symm ▸ hlen)⟩

/-- The levels below the root. -/
def levels (node : δ → δ → δ) (odd : δ → δ) : List δ → List (List δ)
  | [] => []
  | [_] => []
  | a :: b :: rest => (a :: b :: rest) :: levels node odd (levelUp node odd (a :: b :: rest))
termination_by xs => xs.length
decreasing_by
  rw [levelUp_length]
  simp only [length_cons]
  omega

theorem levels_levelUp (h : 1 < xs.length) :
    levels node odd xs = xs :: levels node odd (levelUp node odd xs) := by
  match xs, h with
  | a :: b :: rest, _ => rw [levels]

/-- The steps from a position of the lowest level. -/
def path : List (List δ) → ℕ → Option (List (Step δ))
  | [], _ => some []
  | level :: above, i => (stepAt level i).bind fun step => (path above (i / 2)).map (step :: ·)

/-- Every node has a path, of the shape its position asks for, and the path leads to the root. -/
theorem exists_path (node : δ → δ → δ) (odd : δ → δ) (hd : xs[i]? = some d) :
    ∃ steps, path (levels node odd xs) i = some steps ∧ Leads i xs.length steps ∧
      root node odd xs = some (walk node odd d steps) := by
  induction xs using level_induction node odd generalizing i d with
  | nil => cases hd
  | single a =>
    obtain ⟨hi, hd⟩ := List.getElem?_eq_some_iff.mp hd
    have hzero : i = 0 := by simpa using hi
    subst hzero
    cases hd
    exact ⟨[], by rw [levels, path], Nat.le_refl 1, root_singleton _⟩
  | up xs hlen ih =>
    obtain ⟨step, hstep, hkind, hup⟩ := exists_stepAt node odd hd
    obtain ⟨steps, hsteps, hleads, hroot⟩ := ih hup
    refine ⟨step :: steps, ?_, ⟨hlen, hkind, ?_⟩, ?_⟩
    · rw [levels_levelUp hlen, path, hstep, Option.bind_some, hsteps, Option.map_some]
    · rwa [levelUp_length] at hleads
    · rw [root_levelUp hlen, hroot]
      rfl

end Paths

section Binding
variable {ρ δ : Type*}

/-- What is hashed. -/
inductive Input (ρ δ : Type*) where
  | leaf (x : ρ)
  | node (left right : δ)
  | odd (child : δ)
  | empty
deriving DecidableEq

/-- The tree that a root stands for. -/
inductive Tree (ρ : Type*) where
  | leaf (x : ρ)
  | node (left right : Tree ρ)
  | odd (child : Tree ρ)

variable (hash : Input ρ δ → δ)

def Tree.digest : Tree ρ → δ
  | .leaf x => hash (.leaf x)
  | .node l r => hash (.node l.digest r.digest)
  | .odd t => hash (.odd t.digest)

/-- The inputs hashed for the digest of a tree. -/
def Tree.inputs : Tree ρ → List (Input ρ δ)
  | .leaf x => [.leaf x]
  | .node l r => .node (l.digest hash) (r.digest hash) :: (l.inputs ++ r.inputs)
  | .odd t => .odd (t.digest hash) :: t.inputs

def Tree.leaves : Tree ρ → List ρ
  | .leaf x => [x]
  | .node l r => l.leaves ++ r.leaves
  | .odd t => t.leaves

/-- Different inputs with one hash. -/
def Collides (l l' : List (Input ρ δ)) : Prop := ∃ a ∈ l, ∃ b ∈ l', a ≠ b ∧ hash a = hash b

variable {hash} {l l' m m' : List (Input ρ δ)}

theorem Collides.mono (h : Collides hash l l') (hl : l ⊆ m) (hl' : l' ⊆ m') :
    Collides hash m m' := by
  obtain ⟨a, ha, b, hb, hne⟩ := h
  exact ⟨a, hl ha, b, hl' hb, hne⟩

/-- Equal digests come from equal trees, or two inputs collide. -/
theorem Tree.eq_of_digest {t t' : Tree ρ} (h : t.digest hash = t'.digest hash) :
    t = t' ∨ Collides hash (t.inputs hash) (t'.inputs hash) := by
  induction t generalizing t' with
  | leaf x =>
    cases t' with
    | leaf y =>
      by_cases hxy : x = y
      · exact .inl (hxy ▸ rfl)
      · exact .inr ⟨_, mem_cons_self, _, mem_cons_self, by simpa using hxy, h⟩
    | node l r | odd t => exact .inr ⟨_, mem_cons_self, _, mem_cons_self, nofun, h⟩
  | node l r ihl ihr =>
    cases t' with
    | leaf y => exact .inr ⟨_, mem_cons_self, _, mem_cons_self, nofun, h⟩
    | node l' r' =>
      by_cases hchildren : l.digest hash = l'.digest hash ∧ r.digest hash = r'.digest hash
      · rcases ihl hchildren.1 with rfl | hcollide
        · rcases ihr hchildren.2 with rfl | hcollide
          · exact .inl rfl
          · refine .inr (hcollide.mono ?_ ?_) <;> intro a ha <;> simp [inputs, ha]
        · refine .inr (hcollide.mono ?_ ?_) <;> intro a ha <;> simp [inputs, ha]
      · exact .inr ⟨_, mem_cons_self, _, mem_cons_self, by simpa using hchildren, h⟩
    | odd t => exact .inr ⟨_, mem_cons_self, _, mem_cons_self, nofun, h⟩
  | odd t ih =>
    cases t' with
    | leaf y | node l r => exact .inr ⟨_, mem_cons_self, _, mem_cons_self, nofun, h⟩
    | odd t' =>
      by_cases hchild : t.digest hash = t'.digest hash
      · rcases ih hchild with rfl | hcollide
        · exact .inl rfl
        · refine .inr (hcollide.mono ?_ ?_) <;> intro a ha <;> simp [inputs, ha]
      · exact .inr ⟨_, mem_cons_self, _, mem_cons_self, by simpa using hchild, h⟩

/-- A digest is the hash of one of the inputs, which is not that of the empty tree. -/
theorem Tree.exists_input (hash : Input ρ δ → δ) (t : Tree ρ) :
    ∃ a ∈ t.inputs hash, a ≠ .empty ∧ t.digest hash = hash a := by
  cases t with
  | leaf x | node l r | odd t => exact ⟨_, mem_cons_self, nofun, rfl⟩

theorem Tree.leaf_mem_leaves {t : Tree ρ} {x : ρ} (hx : .leaf x ∈ t.inputs hash) :
    x ∈ t.leaves := by
  induction t with
  | leaf y => simpa [inputs, leaves] using hx
  | node l r ihl ihr =>
    simp only [inputs, mem_cons, reduceCtorEq, mem_append, false_or] at hx
    rcases hx with hx | hx
    · exact mem_append_left _ (ihl hx)
    · exact mem_append_right _ (ihr hx)
  | odd t ih =>
    simp only [inputs, mem_cons, reduceCtorEq, false_or] at hx
    exact ih hx

section Root
variable {ts : List (Tree ρ)} {t r : Tree ρ}

theorem leaves_levelUp (ts : List (Tree ρ)) :
    (levelUp .node .odd ts).flatMap Tree.leaves = ts.flatMap Tree.leaves := by
  fun_induction levelUp Tree.node Tree.odd ts with
  | case1 a b rest ih => simp [Tree.leaves, ih]
  | case2 a => simp [Tree.leaves]
  | case3 => rfl

theorem leaves_root (h : root .node .odd ts = some r) : r.leaves = ts.flatMap Tree.leaves := by
  induction ts using level_induction Tree.node Tree.odd with
  | nil => simp at h
  | single a =>
    rw [root_singleton] at h
    cases h
    simp
  | up ts hlen ih =>
    rw [root_levelUp hlen] at h
    rw [ih h, leaves_levelUp]

section Commitment
variable (hash) {xs ys : List ρ}

/-- The digest of a list of leaves. -/
def rootDigest (xs : List ρ) : δ :=
  match root .node .odd (xs.map Tree.leaf) with
  | some t => t.digest hash
  | none => hash .empty

/-- The inputs hashed for the digest of a list of leaves. -/
def rootInputs (xs : List ρ) : List (Input ρ δ) :=
  match root .node .odd (xs.map Tree.leaf) with
  | some t => t.inputs hash
  | none => [.empty]

theorem root_leaf_eq_none (h : root .node .odd (xs.map Tree.leaf) = none) : xs = [] := by
  by_contra hne
  exact root_ne_none (mt map_eq_nil_iff.mp hne) h

theorem leaves_root_leaf (h : root .node .odd (xs.map Tree.leaf) = some t) : t.leaves = xs := by
  rw [leaves_root h, flatMap_map]
  exact flatMap_singleton' xs

theorem leaf_mem_of_rootInputs {x : ρ} (hx : .leaf x ∈ rootInputs hash xs) : x ∈ xs := by
  unfold rootInputs at hx
  split at hx
  · rename_i t ht
    rw [← leaves_root_leaf ht]
    exact t.leaf_mem_leaves hx
  · simp at hx

/-- Equal digests come from equal lists of leaves, or two inputs collide. -/
theorem eq_of_rootDigest (h : rootDigest hash xs = rootDigest hash ys) :
    xs = ys ∨ Collides hash (rootInputs hash xs) (rootInputs hash ys) := by
  unfold rootDigest at h
  unfold rootInputs
  cases hxs : root .node .odd (xs.map Tree.leaf) with
  | none =>
    cases hys : root .node .odd (ys.map Tree.leaf) with
    | none => exact .inl ((root_leaf_eq_none hxs).trans (root_leaf_eq_none hys).symm)
    | some t =>
      obtain ⟨a, ha, hne, hdigest⟩ := Tree.exists_input hash t
      rw [hxs, hys] at h
      exact .inr ⟨_, mem_singleton.mpr rfl, a, ha, hne.symm, h.trans hdigest⟩
  | some t =>
    cases hys : root .node .odd (ys.map Tree.leaf) with
    | none =>
      obtain ⟨a, ha, hne, hdigest⟩ := Tree.exists_input hash t
      rw [hxs, hys] at h
      exact .inr ⟨a, ha, _, mem_singleton.mpr rfl, hne, hdigest.symm.trans h⟩
    | some t' =>
      rw [hxs, hys] at h
      rcases Tree.eq_of_digest h with rfl | hcollide
      · exact .inl ((leaves_root_leaf hxs).symm.trans (leaves_root_leaf hys))
      · exact .inr hcollide

end Commitment

/-- The parent of a node holds what was hashed for the node. -/
theorem exists_parent (hash : Input ρ δ → δ) {i : ℕ} (ht : ts[i]? = some t) :
    ∃ p, (levelUp .node .odd ts)[i / 2]? = some p ∧ t.inputs hash ⊆ p.inputs hash := by
  obtain ⟨step, -, -, hup⟩ := exists_stepAt Tree.node Tree.odd ht
  refine ⟨_, hup, ?_⟩
  cases step with
  | left s | right s | odd => exact fun a ha => by simp [climb, Tree.inputs, ha]

theorem inputs_root (hash : Input ρ δ → δ) {i : ℕ} (ht : ts[i]? = some t)
    (h : root .node .odd ts = some r) :
    t.inputs hash ⊆ r.inputs hash := by
  induction ts using level_induction Tree.node Tree.odd generalizing i t with
  | nil => cases ht
  | single a =>
    rw [root_singleton] at h
    cases h
    have hmem := mem_of_getElem? ht
    cases mem_singleton.mp hmem
    exact List.Subset.refl _
  | up ts hlen ih =>
    rw [root_levelUp hlen] at h
    obtain ⟨p, hp, hsub⟩ := exists_parent hash ht
    exact List.Subset.trans hsub (ih hp h)

/-- The input of a step. -/
def stepInput (d : δ) : Step δ → Input ρ δ
  | .left s => .node s d
  | .right s => .node d s
  | .odd => .odd d

/-- The inputs hashed along the steps. -/
def walkInputs (hash : Input ρ δ → δ) (d : δ) : List (Step δ) → List (Input ρ δ)
  | [] => []
  | step :: steps => stepInput d step :: walkInputs hash (hash (stepInput d step)) steps

theorem leaf_notMem_walkInputs (hash : Input ρ δ → δ) (d : δ) (steps : List (Step δ)) (x : ρ) :
    .leaf x ∉ walkInputs hash d steps := by
  induction steps generalizing d with
  | nil => exact not_mem_nil
  | cons step steps ih =>
    rw [walkInputs, mem_cons, not_or]
    refine ⟨?_, ih _⟩
    cases step <;> exact nofun

theorem climb_hash (d : δ) (step : Step δ) :
    climb (fun a b => hash (.node a b)) (fun a => hash (.odd a)) d step =
      hash (stepInput d step) := by
  cases step <;> rfl

/-- A step that is of the kind the position asks for and gives the digest of the parent starts
from the digest of the node, or its input collides with the parent's. -/
theorem step_binding {i : ℕ} {d : δ} {step : Step δ} {p : Tree ρ} (ht : ts[i]? = some t)
    (hkind : step.kind = expectedKind i ts.length)
    (hp : (levelUp .node .odd ts)[i / 2]? = some p)
    (hdigest : hash (stepInput d step) = p.digest hash) :
    d = t.digest hash ∨ Collides hash [stepInput d step] (p.inputs hash) := by
  obtain ⟨own, -, hown, hup⟩ := exists_stepAt Tree.node Tree.odd ht
  cases hp.symm.trans hup
  have hsame : step.kind = own.kind := hkind.trans hown.symm
  by_cases hd : d = t.digest hash
  · exact .inl hd
  · refine .inr ⟨_, mem_singleton.mpr rfl, ?_⟩
    cases step with
    | left s =>
      cases own with
      | left u =>
        exact ⟨_, mem_cons_self, by simp [stepInput, hd], hdigest⟩
      | right u | odd => cases hsame
    | right s =>
      cases own with
      | left u => cases hsame
      | right u =>
        exact ⟨_, mem_cons_self, by simp [stepInput, hd], hdigest⟩
      | odd => cases hsame
    | odd =>
      cases own with
      | left u | right u => cases hsame
      | odd =>
        exact ⟨_, mem_cons_self, by simp [stepInput, hd], hdigest⟩

/-- A path of the right shape that leads to the root starts from the digest of the node at its
position, or two inputs collide. -/
theorem walk_binding (hash : Input ρ δ → δ) {i : ℕ} {d : δ} {steps : List (Step δ)}
    (ht : ts[i]? = some t)
    (hleads : Leads i ts.length steps) (hroot : root .node .odd ts = some r)
    (hwalk : walk (fun a b => hash (.node a b)) (fun a => hash (.odd a)) d steps =
      r.digest hash) :
    d = t.digest hash ∨ Collides hash (walkInputs hash d steps) (r.inputs hash) := by
  induction ts using level_induction Tree.node Tree.odd generalizing i t d steps with
  | nil => cases ht
  | single a =>
    rw [root_singleton] at hroot
    cases hroot
    cases mem_singleton.mp (mem_of_getElem? ht)
    cases steps with
    | nil => exact .inl hwalk
    | cons step steps => exact absurd hleads.1 (by simp)
  | up ts hlen ih =>
    cases steps with
    | nil => exact absurd hlen (Nat.not_lt.mpr hleads)
    | cons step steps =>
      obtain ⟨-, hkind, hleads⟩ := hleads
      obtain ⟨p, hp, -⟩ := exists_parent hash ht
      rw [root_levelUp hlen] at hroot
      rw [walk, foldl_cons, climb_hash] at hwalk
      rcases ih hp (by rwa [levelUp_length]) hroot hwalk with hparent | hcollide
      · rcases step_binding ht hkind hp hparent with hd | hcollide
        · exact .inl hd
        · refine .inr (hcollide.mono ?_ (inputs_root hash hp hroot))
          exact cons_subset.mpr ⟨mem_cons_self, nil_subset _⟩
      · exact .inr (hcollide.mono (subset_cons_self _ _) (List.Subset.refl _))

end Root

end Binding

end OddMerkle
