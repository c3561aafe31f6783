import Dkg.Wire.Scalars
import Dkg.Lib.OddMerkle

/-!
Domain-separated digests of Merkle trees: the bytes that are hashed for a leaf, a pair, a promoted
node and the empty tree, and a log of them.
-/

namespace Dkg.Wire
open Utf16 OddMerkle List

/-- The combinations made of digests. -/
structure Hashes (δ : Type) where
  node : δ → δ → δ
  odd : δ → δ
  empty : δ

/-- The domains of a tree; they differ at one position that they all have. -/
structure Domains where
  leaf : List UInt8
  node : List UInt8
  odd : List UInt8
  empty : List UInt8
  position : ℕ
  inside : ∀ d ∈ [leaf, node, odd, empty], position < d.length
  differ : ([leaf, node, odd, empty].map (·[position]?)).Nodup

/-- The bytes hashed for the root of a computation, beside its digest. -/
structure Logged where
  digest : Digest
  inputs : List (List UInt8)

namespace Domains
variable (D : Domains) (sha256 : List UInt8 → Digest)

def hashes : Hashes Digest where
  node left right := digestBytes sha256 D.node [left.1, right.1]
  odd child := digestBytes sha256 D.odd [child.1]
  empty := digestBytes sha256 D.empty []

/-- The same combinations with what they hash. -/
def logging : Hashes Logged where
  node left right :=
    let bytes := D.node ++ [left.digest.1, right.digest.1].flatten
    ⟨sha256 bytes, bytes :: (left.inputs ++ right.inputs)⟩
  odd child :=
    let bytes := D.odd ++ [child.digest.1].flatten
    ⟨sha256 bytes, bytes :: child.inputs⟩
  empty :=
    let bytes := D.empty ++ [].flatten
    ⟨sha256 bytes, [bytes]⟩

/-- A leaf with what it hashes. -/
def loggedLeaf (bytes : List UInt8) : Logged :=
  let bytes := D.leaf ++ bytes
  ⟨sha256 bytes, [bytes]⟩

section Encode
variable {ρ : Type} (leafBytes : ρ → List UInt8)

/-- The bytes of an input. -/
def encode : Input ρ Digest → List UInt8
  | .leaf x => D.leaf ++ leafBytes x
  | .node left right => D.node ++ [left.1, right.1].flatten
  | .odd child => D.odd ++ [child.1].flatten
  | .empty => D.empty ++ [].flatten

def hash (a : Input ρ Digest) : Digest := sha256 (D.encode leafBytes a)

variable {D leafBytes} {a b : Input ρ Digest}

/-- The inputs of different kinds differ where the domains do. -/
theorem encode_position (a : Input ρ Digest) : (D.encode leafBytes a)[D.position]? =
    match a with
    | .leaf _ => D.leaf[D.position]?
    | .node _ _ => D.node[D.position]?
    | .odd _ => D.odd[D.position]?
    | .empty => D.empty[D.position]? := by
  cases a with
  | leaf x | node left right | odd child | empty =>
    exact List.getElem?_append_left (D.inside _ (by simp))

/-- Different inputs are different bytes. -/
theorem encode_injective
    (hleaf : ∀ x y, a = .leaf x → b = .leaf y → leafBytes x = leafBytes y → x = y)
    (h : D.encode leafBytes a = D.encode leafBytes b) : a = b := by
  have hat := congrArg (·[D.position]?) h
  have hdiffer := D.differ
  simp only [encode_position] at hat
  simp only [map_cons, map_nil, nodup_cons, mem_cons, not_mem_nil, or_false, not_or] at hdiffer
  obtain ⟨⟨hln, hlo, hle⟩, ⟨hno, hne⟩, hoe, -⟩ := hdiffer
  cases a with
  | leaf x =>
    cases b with
    | leaf y => exact congrArg _ (hleaf x y rfl rfl (append_cancel_left h))
    | node left right => exact absurd hat hln
    | odd child => exact absurd hat hlo
    | empty => exact absurd hat hle
  | node left right =>
    cases b with
    | leaf y => exact absurd hat.symm hln
    | node left' right' =>
      have hbytes := append_cancel_left h
      simp only [flatten_cons, flatten_nil, append_nil] at hbytes
      obtain ⟨hleft, hright⟩ := append_inj hbytes (left.2.trans left'.2.symm)
      rw [Subtype.ext hleft, Subtype.ext hright]
    | odd child => exact absurd hat hno
    | empty => exact absurd hat hne
  | odd child =>
    cases b with
    | leaf y => exact absurd hat.symm hlo
    | node left right => exact absurd hat.symm hno
    | odd child' =>
      have hbytes := append_cancel_left h
      rw [flatten_singleton, flatten_singleton] at hbytes
      rw [Subtype.ext hbytes]
    | empty => exact absurd hat hoe
  | empty =>
    cases b with
    | leaf y => exact absurd hat.symm hle
    | node left right => exact absurd hat.symm hne
    | odd child => exact absurd hat.symm hoe
    | empty => rfl

end Encode

section Trees
variable {ρ : Type} (leafBytes : ρ → List UInt8)

/-- A tree with what is hashed for it. -/
def log (t : OddMerkle.Tree ρ) : Logged :=
  ⟨t.digest (D.hash sha256 leafBytes),
    (t.inputs (D.hash sha256 leafBytes)).map (D.encode leafBytes)⟩

/-- The digest of the root is that of the root's tree. -/
theorem root_hashes (xs : List ρ) :
    root (D.hashes sha256).node (D.hashes sha256).odd
        (xs.map fun x => sha256 (D.leaf ++ leafBytes x)) =
      (root .node .odd (xs.map OddMerkle.Tree.leaf)).map
        (OddMerkle.Tree.digest (D.hash sha256 leafBytes)) := by
  have hnode : ∀ l r : OddMerkle.Tree ρ, (l.node r).digest (D.hash sha256 leafBytes) =
      (D.hashes sha256).node (l.digest (D.hash sha256 leafBytes))
        (r.digest (D.hash sha256 leafBytes)) := fun _ _ => rfl
  have hodd : ∀ t : OddMerkle.Tree ρ, t.odd.digest (D.hash sha256 leafBytes) =
      (D.hashes sha256).odd (t.digest (D.hash sha256 leafBytes)) := fun _ => rfl
  rw [← root_map hnode hodd, map_map]
  rfl

theorem root_logging (xs : List ρ) :
    root (D.logging sha256).node (D.logging sha256).odd
        (xs.map fun x => D.loggedLeaf sha256 (leafBytes x)) =
      (root .node .odd (xs.map OddMerkle.Tree.leaf)).map (D.log sha256 leafBytes) := by
  have hnode : ∀ l r, D.log sha256 leafBytes (.node l r) =
      (D.logging sha256).node (D.log sha256 leafBytes l) (D.log sha256 leafBytes r) := by
    intro l r
    simp only [log, logging, OddMerkle.Tree.digest, OddMerkle.Tree.inputs, map_cons, map_append]
    rfl
  have hodd : ∀ t, D.log sha256 leafBytes (.odd t) =
      (D.logging sha256).odd (D.log sha256 leafBytes t) := fun _ => rfl
  rw [← root_map hnode hodd, map_map]
  rfl

end Trees

end Domains

end Dkg.Wire
