import Dkg.Sampling.ProofMaterial

/-!
An accepted proof of storage shows the challenged content: content and proof that pass the
checks of `submitProof` belong to the challenged leaf, or the publisher's tree and the
verifier's walk between them hash two byte strings to one value.
-/

namespace Dkg.Merkle
open MerkleTree List

variable {keccak256 : Bytes → Bytes32} {contents : List Bytes} {privateRoots : List Bytes32}
  {challenge : Challenge} {content : Bytes} {proof : List Bytes32} {S : List Bytes}
  {p q : Bytes32 × Bytes32} {x : Bytes32} {i : ℕ}

/-- The 64 bytes hashed for an inner node. -/
def preimage (p : Bytes32 × Bytes32) : Bytes := p.1.val ++ p.2.val

/-- Two of the byte strings have one hash. -/
def Collision (keccak256 : Bytes → Bytes32) (S : List Bytes) : Prop :=
  ∃ a ∈ S, ∃ b ∈ S, a ≠ b ∧ keccak256 a = keccak256 b

theorem preimage_injective : Function.Injective preimage := by
  intro p q h
  have hlen : p.1.val.length = q.1.val.length := p.1.2.trans q.1.2.symm
  obtain ⟨hleft, hright⟩ := append_inj h hlen
  exact Prod.ext (Subtype.ext hleft) (Subtype.ext hright)

theorem collision_of_pairs (hp : preimage p ∈ S) (hq : preimage q ∈ S) (hne : p ≠ q)
    (h : hashOf (hashPair keccak256) p = hashOf (hashPair keccak256) q) : Collision keccak256 S :=
  ⟨_, hp, _, hq, preimage_injective.ne hne, h⟩

section Binding
variable (keccak256 contents privateRoots)

/-- What is hashed for the tree over the contents. -/
def treeHashed : List Bytes :=
  contents ++ (treePairs (hashPair keccak256) (canonical (contents.map keccak256))).map preimage

/-- What is hashed on top of it for a public asset. -/
def topPair : Bytes32 × Bytes32 :=
  ((V10MerkleTree.new keccak256 (contents.map keccak256)).root,
    collapsePrivateDataHashV10 keccak256 privateRoots)

/-- What is hashed to verify a proof. -/
def walkHashed (content : Bytes) (i : ℕ) (proof : List Bytes32) : List Bytes :=
  content :: (walkPairs (hashPair keccak256) (keccak256 content) i proof).map preimage

/-- The content is a listed one and its hash is leaf `i`. -/
def Shows (i : ℕ) (content : Bytes) : Prop :=
  content ∈ contents ∧ (canonical (contents.map keccak256))[i]? = some (keccak256 content)

end Binding

/-- A walk of full height to the root of the tree. -/
theorem tree_binding (hi : i < (canonical (contents.map keccak256)).length)
    (hlen : proof.length = treeHeight (canonical (contents.map keccak256)).length)
    (hwalk : walk (hashPair keccak256) (keccak256 content) i proof =
      (V10MerkleTree.new keccak256 (contents.map keccak256)).root) :
    Shows keccak256 contents i content ∨ Collision keccak256 (treeHashed keccak256 contents ++
        walkHashed keccak256 content i proof) := by
  obtain ⟨x, hx⟩ : ∃ x, (canonical (contents.map keccak256))[i]? = some x :=
    ⟨_, getElem?_eq_getElem hi⟩
  rw [treeHeight_eq] at hlen
  rcases walk_binding hx hlen ((new_root hx).trans (congrArg some hwalk.symm)) with
    heq | ⟨p, hp, q, hq, hne, hpq⟩
  · obtain ⟨c, hc, rfl⟩ := mem_map.mp (mem_canonical.mp (mem_of_getElem? hx))
    by_cases hcontent : content = c
    · subst hcontent
      exact .inl ⟨hc, hx⟩
    · refine .inr ⟨content, ?_, c, ?_, hcontent, heq⟩
      · simp [walkHashed]
      · simp [treeHashed, hc]
  · refine .inr (collision_of_pairs ?_ ?_ hne hpq)
    · exact mem_append_left _ (mem_append_right _ (mem_map_of_mem hp))
    · exact mem_append_right _ (mem_cons_of_mem _ (mem_map_of_mem hq))

theorem Collision.mono {T : List Bytes} (h : Collision keccak256 S) (hST : S ⊆ T) :
    Collision keccak256 T := by
  obtain ⟨a, ha, b, hb, hab⟩ := h
  exact ⟨a, hST ha, b, hST hb, hab⟩

/-- On the curated path the walk ends at the root of the tree. -/
theorem catalog_binding (hpins : challenge.Pins (catalogCommitment keccak256 contents) true)
    (hcheck : checkProof keccak256 challenge content proof = .ok ()) :
    Shows keccak256 contents challenge.chunkId content ∨
      Collision keccak256 (treeHashed keccak256 contents ++
        walkHashed keccak256 content challenge.chunkId proof) := by
  obtain ⟨hi, hlen, hverify⟩ := checkProof_ok.mp hcheck
  rw [hpins.leafCount, catalogCommitment_leafCount] at hi hlen
  rw [hpins.isCurated] at hlen
  have hwalk := of_decide_eq_true hverify
  rw [hpins.root] at hwalk
  exact tree_binding hi hlen hwalk

/-- On the public path the last sibling is paired with the root of the tree. -/
theorem public_binding (hpins : challenge.Pins (kaCommitment keccak256 contents privateRoots) false)
    (hcheck : checkProof keccak256 challenge content proof = .ok ()) :
    Shows keccak256 contents challenge.chunkId content ∨
      Collision keccak256 (treeHashed keccak256 contents ++
        preimage (topPair keccak256 contents privateRoots) ::
          walkHashed keccak256 content challenge.chunkId proof) := by
  obtain ⟨hi, hlen, hverify⟩ := checkProof_ok.mp hcheck
  rw [hpins.leafCount, kaCommitment_leafCount] at hi hlen
  rw [hpins.isCurated] at hlen
  have hwalk := of_decide_eq_true hverify
  obtain ⟨x, hx⟩ : ∃ x, (canonical (contents.map keccak256))[challenge.chunkId]? = some x :=
    ⟨_, getElem?_eq_getElem hi⟩
  obtain rfl | ⟨path, s, rfl⟩ := proof.eq_nil_or_concat'
  · cases hlen
  have hpath : path.length = treeHeight (canonical (contents.map keccak256)).length := by
    simpa using hlen
  rw [hpins.root, walk_concat, hpath, treeHeight_eq, index_at_top hi] at hwalk
  have htop := hwalk.trans (structured_root keccak256 (ne_nil_of_canonical hx) privateRoots)
  have hwalked : walkHashed keccak256 content challenge.chunkId (path ++ [s]) =
      walkHashed keccak256 content challenge.chunkId path ++
        [preimage (walk (hashPair keccak256) (keccak256 content) challenge.chunkId path, s)] := by
    rw [walkHashed, walkPairs_concat, hpath, treeHeight_eq, index_at_top hi, map_append]
    rfl
  rw [hwalked]
  by_cases hpair : (walk (hashPair keccak256) (keccak256 content) challenge.chunkId path, s) =
      topPair keccak256 contents privateRoots
  · refine (tree_binding hi hpath (congrArg Prod.fst hpair)).imp_right fun h => h.mono ?_
    simp only [subset_def, mem_append, mem_cons]
    tauto
  · exact .inr (collision_of_pairs (by simp) (by simp) hpair htop)

/-- An accepted proof shows the challenged content: it is one of the published contents and
its hash is the challenged leaf, unless two byte strings that the publisher and the verifier
hashed collide. -/
theorem accepted_proof_shows_content (keccak256 : Bytes → Bytes32) (contents : List Bytes)
    (privateRoots : List Bytes32) (challenge : Challenge) (content : Bytes) (proof : List Bytes32)
    (hcheck : checkProof keccak256 challenge content proof = .ok ()) :
    (challenge.Pins (kaCommitment keccak256 contents privateRoots) false → (content ∈ contents ∧
        (canonical (contents.map keccak256))[challenge.chunkId]? = some (keccak256 content)) ∨
      Collision keccak256 (treeHashed keccak256 contents ++
        preimage (topPair keccak256 contents privateRoots) ::
          walkHashed keccak256 content challenge.chunkId proof)) ∧
    (challenge.Pins (catalogCommitment keccak256 contents) true → (content ∈ contents ∧
        (canonical (contents.map keccak256))[challenge.chunkId]? = some (keccak256 content)) ∨
      Collision keccak256 (treeHashed keccak256 contents ++
        walkHashed keccak256 content challenge.chunkId proof)) :=
  ⟨fun hpins => public_binding hpins hcheck, fun hpins => catalog_binding hpins hcheck⟩

/-- The proof an honest node gives for the last of three leaves. -/
theorem accepted_proof_shows_content_honest :
    let contents : List Bytes := [[3], [1], [2], [1]]
    let challenge := blankChallenge.pin (catalogCommitment first32 contents) 2 true
    ∃ content proof, checkProof first32 challenge content proof = .ok () ∧
      ((content ∈ contents ∧ (canonical (contents.map first32))[2]? = some (first32 content)) ∨
        Collision first32 (treeHashed first32 contents ++ walkHashed first32 content 2 proof)) := by
  intro contents challenge
  have hcount : (canonical (contents.map first32)).length = 3 := by
    rw [canonical_length]
    decide
  have hleaves : (catalogCommitment first32 contents).merkleLeafCount = 3 :=
    catalogCommitment_leafCount.trans hcount
  have hi : 2 < (canonical (contents.map first32)).length := by omega
  obtain ⟨m, -, hlen, hverify⟩ := catalog_material hi
  have hcheck : checkProof first32 challenge m.content m.proof = .ok () :=
    check_of_verify (by omega) (by omega) hlen hverify blankChallenge
  refine ⟨m.content, m.proof, hcheck, ?_⟩
  exact (accepted_proof_shows_content first32 contents [] challenge m.content m.proof hcheck).2
    (pin_pins _ (by omega) blankChallenge 2 true)

end Dkg.Merkle
