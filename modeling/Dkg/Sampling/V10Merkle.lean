import Dkg.Lib.MerkleTree

/-!
`V10MerkleTree` and the structured root of a knowledge asset: leaves are sorted and
deduplicated, levels of odd length repeat their last node, and the private data of an asset
is one sibling on top of the tree of its public leaves. The hash is an arbitrary function.
-/

namespace Dkg.Merkle

open List

abbrev Bytes := List UInt8

/-- The values of `keccak256`. -/
abbrev Bytes32 := {b : Bytes // b.length = 32}

def zero32 : Bytes32 := ⟨replicate 32 0, length_replicate ..⟩

def compareBytes : Bytes → Bytes → ℤ
  | a :: as, b :: bs => if a ≠ b then (a.toNat : ℤ) - b.toNat else compareBytes as bs
  | as, bs => (as.length : ℤ) - bs.length

/-- The errors of the tree and of the proof material. -/
inductive ProofErr where
  | leafIndexOutOfRange (leafIndex : ℕ)
  | leafCountMismatch (computedLeafCount expectedLeafCount : ℕ)
  | rootMismatch (computedMerkleRoot expectedMerkleRoot : Bytes32)
  | chunkOutOfRange (chunkId leafCount : ℕ)
  | noContent
  deriving DecidableEq

/-- The loop of the constructor, after `prev` of the sorted leaves. -/
def dedupeFrom (prev : Bytes32) : List Bytes32 → List Bytes32
  | [] => []
  | leaf :: rest =>
    if compareBytes leaf prev ≠ 0 then leaf :: dedupeFrom leaf rest else dedupeFrom leaf rest

def dedupe : List Bytes32 → List Bytes32
  | [] => []
  | leaf :: rest => leaf :: dedupeFrom leaf rest

def sortLeaves (leaves : List Bytes32) : List Bytes32 :=
  leaves.mergeSort fun a b => decide (compareBytes a b ≤ 0)

/-- The sorted and deduplicated leaves. -/
def canonical (leaves : List Bytes32) : List Bytes32 := dedupe (sortLeaves leaves)

structure V10MerkleTree where
  layers : List (List Bytes32)
  leafCount : ℕ

section Tree
variable (keccak256 : Bytes → Bytes32)

def hashPair (left right : Bytes32) : Bytes32 := keccak256 (left.val ++ right.val)

namespace V10MerkleTree

def buildTree (leaves : List Bytes32) : List (List Bytes32) :=
  MerkleTree.levels (hashPair keccak256) leaves

def new (leaves : List Bytes32) : V10MerkleTree :=
  if leaves.length = 0 then ⟨[[]], 0⟩
  else ⟨buildTree keccak256 (canonical leaves), (canonical leaves).length⟩

def root (t : V10MerkleTree) : Bytes32 :=
  if (t.layers.headD []).length = 0 then zero32
  else (t.layers.getLast?.bind head?).getD zero32

def proof (t : V10MerkleTree) (leafIndex : ℕ) : Except ProofErr (List Bytes32) :=
  if leafIndex ≥ t.leafCount then .error (.leafIndexOutOfRange leafIndex)
  else .ok (MerkleTree.siblings t.layers leafIndex)

def leafAt (t : V10MerkleTree) (leafIndex : ℕ) : Except ProofErr Bytes32 :=
  if leafIndex ≥ t.leafCount then .error (.leafIndexOutOfRange leafIndex)
  else .ok ((t.layers.headD []).getD leafIndex zero32)

def computeKARoot (publicRoot privateRoot : Option Bytes32) : Bytes32 :=
  match publicRoot, privateRoot with
  | some publicRoot, some privateRoot => hashPair keccak256 publicRoot privateRoot
  | some publicRoot, none => publicRoot
  | none, some privateRoot => privateRoot
  | none, none => zero32

end V10MerkleTree

def SENTINEL_NO_PRIVATE_V10 : Bytes32 := keccak256 "DKG_NO_PRIVATE_DATA_V10".toUTF8.toList
def SENTINEL_NO_PUBLIC_V10 : Bytes32 := keccak256 "DKG_NO_PUBLIC_DATA_V10".toUTF8.toList

def collapsePrivateDataHashV10 (privateRoots : List Bytes32) : Bytes32 :=
  if privateRoots.length > 0 then (V10MerkleTree.new keccak256 privateRoots).root
  else SENTINEL_NO_PRIVATE_V10 keccak256

structure StructuredKARootResult where
  root : Bytes32
  leafCount : ℕ
  publicTree : V10MerkleTree
  privateDataHash : Bytes32

def structuredKARootV10 (publicLeaves privateRoots : List Bytes32) : StructuredKARootResult :=
  let publicTree := V10MerkleTree.new keccak256 publicLeaves
  let publicRoot :=
    if publicLeaves.length > 0 then publicTree.root else SENTINEL_NO_PUBLIC_V10 keccak256
  let privateDataHash := collapsePrivateDataHashV10 keccak256 privateRoots
  let root := V10MerkleTree.computeKARoot keccak256 (some publicRoot) (some privateDataHash)
  ⟨root, publicTree.leafCount, publicTree, privateDataHash⟩

end Tree

section Order
variable {a b c : Bytes}

theorem compareBytes_eq_zero : compareBytes a b = 0 ↔ a = b := by
  fun_induction compareBytes a b with
  | case1 a as b bs hne =>
    have : a.toNat ≠ b.toNat := fun h => hne (UInt8.toNat_inj.mp h)
    simp only [cons.injEq, hne, false_and, iff_false]
    omega
  | case2 a as b bs heq ih => simp [not_not.mp heq, ih]
  | case3 as bs hshort =>
    cases as with
    | nil => cases bs <;> simp; omega
    | cons a as =>
      cases bs with
      | nil => simp; omega
      | cons b bs => exact (hshort a as b bs rfl rfl).elim

theorem compareBytes_swap (a b : Bytes) : compareBytes b a = -compareBytes a b := by
  fun_induction compareBytes a b with
  | case1 a as b bs hne =>
    rw [compareBytes, if_pos (Ne.symm hne)]
    omega
  | case2 a as b bs heq ih =>
    rw [compareBytes, if_neg (not_not.mpr (not_not.mp heq).symm), ih]
  | case3 as bs hshort =>
    cases as with
    | nil => cases bs <;> simp [compareBytes]
    | cons a as =>
      cases bs with
      | nil => simp [compareBytes]
      | cons b bs => exact (hshort a as b bs rfl rfl).elim

theorem compareBytes_trans (hab : compareBytes a b ≤ 0) (hbc : compareBytes b c ≤ 0) :
    compareBytes a c ≤ 0 := by
  induction a generalizing b c with
  | nil => cases c <;> simp [compareBytes]
  | cons x as ih =>
    rcases b with _ | ⟨y, bs⟩
    · simp [compareBytes] at hab
      omega
    rcases c with _ | ⟨z, cs⟩
    · simp [compareBytes] at hbc
      omega
    rw [compareBytes] at hab hbc ⊢
    by_cases hxy : x = y <;> by_cases hyz : y = z
    · subst hxy hyz
      rw [if_neg (by simp)] at hab hbc ⊢
      exact ih hab hbc
    · subst hxy
      rwa [if_pos hyz] at hbc ⊢
    · subst hyz
      rwa [if_pos hxy] at hab ⊢
    · rw [if_pos hxy] at hab
      rw [if_pos hyz] at hbc
      have hne : x.toNat ≠ y.toNat := fun h => hxy (UInt8.toNat_inj.mp h)
      rw [if_pos (by rintro rfl; omega)]
      omega

/-- The order of the leaves of a tree. -/
def Before (x y : Bytes32) : Prop := compareBytes x y < 0

instance : Std.Irrefl Before where
  irrefl a h := by simp [Before, compareBytes_eq_zero.mpr rfl] at h

instance : Std.Antisymm Before where
  antisymm a b hab hba := by
    unfold Before at hab hba
    rw [compareBytes_swap] at hba
    omega

variable {leaves leaves' : List Bytes32} {x y : Bytes32}

theorem before_of_le (h : compareBytes x y ≤ 0) (hne : x ≠ y) : Before x y :=
  lt_of_le_of_ne h fun hz => hne (Subtype.ext (compareBytes_eq_zero.mp hz))

theorem sortLeaves_sorted (leaves : List Bytes32) :
    (sortLeaves leaves).Pairwise fun a b : Bytes32 => compareBytes a b ≤ 0 := by
  have htrans : ∀ a b c : Bytes32, decide (compareBytes a b ≤ 0) →
      decide (compareBytes b c ≤ 0) → decide (compareBytes a c ≤ 0) := by
    intro a b c hab hbc
    simp only [decide_eq_true_eq] at hab hbc ⊢
    exact compareBytes_trans hab hbc
  have htotal : ∀ a b : Bytes32,
      (decide (compareBytes a b ≤ 0) || decide (compareBytes b a ≤ 0)) = true := by
    intro a b
    simp only [Bool.or_eq_true, decide_eq_true_eq]
    have := compareBytes_swap a.val b.val
    omega
  exact (pairwise_mergeSort htrans htotal leaves).imp fun h => of_decide_eq_true h

/-- The loop keeps one of each run of equal leaves. -/
theorem dedupeFrom_spec
    (hsorted : (x :: leaves).Pairwise fun a b : Bytes32 => compareBytes a b ≤ 0) :
    (x :: dedupeFrom x leaves).Pairwise Before ∧
      ∀ y, y ∈ x :: dedupeFrom x leaves ↔ y ∈ x :: leaves := by
  induction leaves generalizing x with
  | nil => simp [dedupeFrom]
  | cons leaf rest ih =>
    obtain ⟨hfirst, hrest⟩ := pairwise_cons.mp hsorted
    obtain ⟨hpair, hmem⟩ := ih hrest
    rw [dedupeFrom]
    split
    case isTrue hne =>
      refine ⟨pairwise_cons.mpr ⟨fun y hy => ?_, hpair⟩, fun y => ?_⟩
      · refine before_of_le (hfirst y ((hmem y).mp hy)) ?_
        rintro rfl
        -- a leaf that comes back after a greater one
        rcases mem_cons.mp ((hmem x).mp hy) with rfl | hx
        · exact hne (compareBytes_eq_zero.mpr rfl)
        · have hge := (pairwise_cons.mp hrest).1 x hx
          have hle := hfirst leaf mem_cons_self
          rw [compareBytes_swap] at hge
          rw [compareBytes_swap] at hne
          omega
      · rw [mem_cons, hmem, ← mem_cons]
    case isFalse heq =>
      have hx : leaf = x := Subtype.ext (compareBytes_eq_zero.mp (not_not.mp heq))
      subst hx
      exact ⟨hpair, fun y => by rw [hmem]; simp⟩

theorem canonical_spec (leaves : List Bytes32) :
    (canonical leaves).Pairwise Before ∧ ∀ y, y ∈ canonical leaves ↔ y ∈ leaves := by
  have hmem : ∀ y, y ∈ sortLeaves leaves ↔ y ∈ leaves := fun y => mem_mergeSort
  have hsorted := sortLeaves_sorted leaves
  unfold canonical
  cases hs : sortLeaves leaves with
  | nil =>
    rw [hs] at hmem
    exact ⟨.nil, hmem⟩
  | cons x rest =>
    rw [hs] at hmem hsorted
    obtain ⟨hpair, hdedupe⟩ := dedupeFrom_spec hsorted
    exact ⟨hpair, fun y => (hdedupe y).trans (hmem y)⟩

theorem mem_canonical : y ∈ canonical leaves ↔ y ∈ leaves := (canonical_spec leaves).2 y

/-- The leaves of the tree depend only on which leaves there are. -/
theorem canonical_congr (h : ∀ y, y ∈ leaves ↔ y ∈ leaves') :
    canonical leaves = canonical leaves' := by
  refine (canonical_spec leaves).1.eq_of_mem_iff (canonical_spec leaves').1 fun y => ?_
  rw [mem_canonical, mem_canonical, h]

theorem canonical_length (leaves : List Bytes32) :
    (canonical leaves).length = leaves.toFinset.card := by
  have hnodup : (canonical leaves).Nodup := (canonical_spec leaves).1.nodup
  have heq : leaves.toFinset = (canonical leaves).toFinset := by
    ext y
    simp [mem_canonical]
  rw [heq, toFinset_card_of_nodup hnodup]

end Order

section Facts
variable {keccak256 : Bytes → Bytes32} {leaves : List Bytes32} {i : ℕ} {x : Bytes32}

theorem new_leafCount (leaves : List Bytes32) :
    (V10MerkleTree.new keccak256 leaves).leafCount = (canonical leaves).length := by
  unfold V10MerkleTree.new
  split
  case isTrue h =>
    obtain rfl := length_eq_zero_iff.mp h
    simp [canonical, sortLeaves, dedupe]
  case isFalse => rfl

theorem new_eq (h : leaves ≠ []) : V10MerkleTree.new keccak256 leaves =
    ⟨MerkleTree.levels (hashPair keccak256) (canonical leaves), (canonical leaves).length⟩ :=
  if_neg (by simpa using h)

theorem ne_nil_of_canonical (hx : (canonical leaves)[i]? = some x) : leaves ≠ [] :=
  ne_nil_of_mem (mem_canonical.mp (mem_of_getElem? hx))

theorem new_leafAt (hx : (canonical leaves)[i]? = some x) :
    (V10MerkleTree.new keccak256 leaves).leafAt i = .ok x := by
  have hi : i < (canonical leaves).length := (List.getElem?_eq_some_iff.mp hx).1
  rw [new_eq (ne_nil_of_canonical hx), V10MerkleTree.leafAt, if_neg (not_le.mpr hi),
    getD_eq_getElem?_getD, MerkleTree.levels_headD_getElem? _ hi, hx]
  rfl

theorem new_proof (hx : (canonical leaves)[i]? = some x) :
    (V10MerkleTree.new keccak256 leaves).proof i =
      .ok (MerkleTree.siblings (MerkleTree.levels (hashPair keccak256) (canonical leaves)) i) := by
  have hi : i < (canonical leaves).length := (List.getElem?_eq_some_iff.mp hx).1
  rw [new_eq (ne_nil_of_canonical hx), V10MerkleTree.proof, if_neg (not_le.mpr hi)]

theorem new_root (hx : (canonical leaves)[i]? = some x) :
    MerkleTree.root (hashPair keccak256) (canonical leaves) =
      some (V10MerkleTree.new keccak256 leaves).root := by
  have hpos : 0 < (canonical leaves).length := length_pos_of_mem (mem_of_getElem? hx)
  have hroot := MerkleTree.walk_siblings (hashPair keccak256) hx
  have hfirst :
      ((MerkleTree.levels (hashPair keccak256) (canonical leaves)).headD []).length ≠ 0 := by
    intro hz
    have hget := MerkleTree.levels_headD_getElem? (hashPair keccak256) hpos
    rw [length_eq_zero_iff.mp hz, getElem?_eq_getElem hpos] at hget
    cases hget
  rw [new_eq (ne_nil_of_canonical hx), V10MerkleTree.root, if_neg hfirst]
  change _ = some ((MerkleTree.root (hashPair keccak256) (canonical leaves)).getD zero32)
  rw [hroot, Option.getD_some]

/-- The tree depends only on which leaves there are. -/
theorem new_congr {leaves' : List Bytes32} (h : ∀ y, y ∈ leaves ↔ y ∈ leaves') :
    V10MerkleTree.new keccak256 leaves = V10MerkleTree.new keccak256 leaves' := by
  have hnil : leaves.length = 0 ↔ leaves'.length = 0 := by
    simp [length_eq_zero_iff, eq_nil_iff_forall_not_mem, h]
  unfold V10MerkleTree.new
  rw [canonical_congr h]
  simp only [hnil]

end Facts

end Dkg.Merkle
