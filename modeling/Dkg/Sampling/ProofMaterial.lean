import Dkg.Lib.Revert
import Dkg.Sampling.V10Merkle

/-!
The two ends of a proof of storage: the material an honest node builds from the contents it
holds, and the checks of `RandomSampling.submitProof` against the root and leaf count pinned
on the challenge.
-/

namespace Dkg.Merkle
open Revert List

section Material

structure V10ProofMaterial where
  content : Bytes
  leaf : Bytes32
  proof : List Bytes32
  merkleRoot : Bytes32
  leafCount : ℕ

structure V10MerkleCommitment where
  merkleRoot : Bytes32
  merkleLeafCount : ℕ

/-- The map from leaf hashes to contents: a later content replaces an earlier one. -/
def contentOf (leaves : List Bytes32) (contents : List Bytes) (leaf : Bytes32) : Option Bytes :=
  ((leaves.zip contents).reverse.find? fun entry => entry.1 = leaf).map Prod.snd

def lookupContent (leaves : List Bytes32) (contents : List Bytes) (leaf : Bytes32) :
    Except ProofErr Bytes :=
  match contentOf leaves contents leaf with
  | some content => .ok content
  | none => .error .noContent

variable (keccak256 : Bytes → Bytes32)

def buildV10ProofMaterial (publicLeafContents : List Bytes) (privateRoots : List Bytes32)
    (chunkId : ℕ) (expected : V10MerkleCommitment) : Except ProofErr V10ProofMaterial := do
  let leaves := publicLeafContents.map keccak256
  let ka := structuredKARootV10 keccak256 leaves privateRoots
  require (ka.leafCount = expected.merkleLeafCount)
    (.leafCountMismatch ka.leafCount expected.merkleLeafCount)
  require (ka.root = expected.merkleRoot) (.rootMismatch ka.root expected.merkleRoot)
  require (chunkId < ka.leafCount) (.chunkOutOfRange chunkId ka.leafCount)
  let leafHash ← ka.publicTree.leafAt chunkId
  let content ← lookupContent leaves publicLeafContents leafHash
  let proof ← ka.publicTree.proof chunkId
  return ⟨content, leafHash, proof ++ [ka.privateDataHash], ka.root, ka.leafCount⟩

def buildV10CatalogProofMaterial (catalogContents : List Bytes) (chunkId : ℕ)
    (expected : V10MerkleCommitment) : Except ProofErr V10ProofMaterial := do
  let leaves := catalogContents.map keccak256
  let tree := V10MerkleTree.new keccak256 leaves
  require (tree.leafCount = expected.merkleLeafCount)
    (.leafCountMismatch tree.leafCount expected.merkleLeafCount)
  require (tree.root = expected.merkleRoot) (.rootMismatch tree.root expected.merkleRoot)
  require (chunkId < tree.leafCount) (.chunkOutOfRange chunkId tree.leafCount)
  let leafHash ← tree.leafAt chunkId
  let content ← lookupContent leaves catalogContents leafHash
  let proof ← tree.proof chunkId
  return ⟨content, leafHash, proof, tree.root, tree.leafCount⟩

/-- What the publisher commits to for a public asset. -/
def kaCommitment (contents : List Bytes) (privateRoots : List Bytes32) : V10MerkleCommitment :=
  let ka := structuredKARootV10 keccak256 (contents.map keccak256) privateRoots
  ⟨ka.root, ka.leafCount⟩

/-- `computeCatalogRoot`: what the publisher commits to for a curated asset. -/
def catalogCommitment (contents : List Bytes) : V10MerkleCommitment :=
  let tree := V10MerkleTree.new keccak256 (contents.map keccak256)
  ⟨tree.root, tree.leafCount⟩

end Material

section Chain
variable (keccak256 : Bytes → Bytes32)

/-- `RandomSamplingLib.Challenge`. -/
structure Challenge where
  knowledgeAssetId : ℕ
  chunkId : ℕ
  epoch : ℕ
  activeProofPeriodStartBlock : ℕ
  proofingPeriodDurationInBlocks : ℕ
  solved : Bool
  isCurated : Bool
  challengeLeafCount : UInt32
  challengeRoot : Bytes32

structure MerkleRootMismatchError where
  computedMerkleRoot : Bytes32
  expectedMerkleRoot : Bytes32

def verifyV10MerkleProof (root leaf : Bytes32) (leafIndex : ℕ) (proof : List Bytes32) : Bool :=
  MerkleTree.walk (hashPair keccak256) leaf leafIndex proof = root

/-- The loop of `_treeHeight`. -/
def treeHeightFrom (n h : ℕ) : ℕ :=
  if 2 ^ h < n then treeHeightFrom n (h + 1) else h
termination_by n - 2 ^ h
decreasing_by
  have hpow : 2 ^ h < 2 ^ (h + 1) := Nat.pow_lt_pow_right one_lt_two (Nat.lt_succ_self h)
  omega

def treeHeight (n : ℕ) : ℕ := treeHeightFrom n 0

/-- The checks of `submitProof` on the submitted content and proof. -/
def checkProof (challenge : Challenge) (content : Bytes) (merkleProof : List Bytes32) :
    Except MerkleRootMismatchError Unit := do
  let expectedMerkleRoot := challenge.challengeRoot
  let leafCount := challenge.challengeLeafCount.toNat
  require (leafCount ≠ 0 ∧ challenge.chunkId < leafCount) ⟨zero32, expectedMerkleRoot⟩
  let leaf := keccak256 content
  let expectedProofLen := treeHeight leafCount + if challenge.isCurated then 0 else 1
  require (merkleProof.length = expectedProofLen) ⟨zero32, expectedMerkleRoot⟩
  require (verifyV10MerkleProof keccak256 expectedMerkleRoot leaf challenge.chunkId merkleProof)
    ⟨zero32, expectedMerkleRoot⟩

/-- The challenge for chunk `i`, with the commitment of an asset pinned at issuance. -/
def Challenge.pin (challenge : Challenge) (commitment : V10MerkleCommitment) (i : ℕ)
    (isCurated : Bool) : Challenge :=
  { challenge with
    chunkId := i
    isCurated
    challengeLeafCount := UInt32.ofNat commitment.merkleLeafCount
    challengeRoot := commitment.merkleRoot }

/-- The challenge pins the commitment of an asset. -/
structure Challenge.Pins (challenge : Challenge) (commitment : V10MerkleCommitment)
    (isCurated : Bool) : Prop where
  root : challenge.challengeRoot = commitment.merkleRoot
  leafCount : challenge.challengeLeafCount.toNat = commitment.merkleLeafCount
  isCurated : challenge.isCurated = isCurated

end Chain

section Facts
variable {keccak256 : Bytes → Bytes32} {contents : List Bytes} {privateRoots leaves : List Bytes32}
  {leaf x : Bytes32} {content : Bytes} {i n h : ℕ}

theorem treeHeightFrom_eq (hle : h ≤ Nat.clog 2 n) : treeHeightFrom n h = Nat.clog 2 n := by
  fun_induction treeHeightFrom n h with
  | case1 h hlt ih => exact ih ((Nat.lt_clog_iff_pow_lt one_lt_two).mpr hlt)
  | case2 h hge => exact le_antisymm hle ((Nat.clog_le_iff_le_pow one_lt_two).mpr (not_lt.mp hge))

/-- The loop of the contract finds the height of the tree. -/
theorem treeHeight_eq (n : ℕ) : treeHeight n = Nat.clog 2 n := treeHeightFrom_eq (Nat.zero_le _)

/-- The map has a content for every leaf of the tree. -/
theorem lookupContent_ok (hleaf : leaf ∈ contents.map keccak256) :
    ∃ content, lookupContent (contents.map keccak256) contents leaf = .ok content ∧
      content ∈ contents ∧ keccak256 content = leaf := by
  have hzip : (contents.map keccak256).zip contents = contents.map fun c => (keccak256 c, c) := by
    rw [← zip_map', map_id']
  obtain ⟨c, hc, rfl⟩ := mem_map.mp hleaf
  have hsome : (((contents.map keccak256).zip contents).reverse.find?
      fun entry => entry.1 = keccak256 c).isSome := by
    rw [hzip, find?_isSome]
    exact ⟨(keccak256 c, c), mem_reverse.mpr (mem_map_of_mem hc), by simp⟩
  obtain ⟨entry, hentry⟩ := Option.isSome_iff_exists.mp hsome
  have hmem := mem_of_find?_eq_some hentry
  rw [hzip, mem_reverse] at hmem
  obtain ⟨c', hc', rfl⟩ := mem_map.mp hmem
  refine ⟨c', ?_, hc', by simpa using find?_some hentry⟩
  rw [lookupContent, contentOf, hentry]
  rfl

variable (keccak256) in
/-- The root of an asset with public leaves is their root paired with the private data. -/
theorem structured_root (h : leaves ≠ []) (privateRoots : List Bytes32) :
    (structuredKARootV10 keccak256 leaves privateRoots).root =
      hashPair keccak256 (V10MerkleTree.new keccak256 leaves).root
        (collapsePrivateDataHashV10 keccak256 privateRoots) := by
  have hpos : leaves.length > 0 := length_pos_iff.mpr h
  simp only [structuredKARootV10, if_pos hpos, V10MerkleTree.computeKARoot]

/-- The path over the public leaves ends on the left of the private data. -/
theorem index_at_top (hi : i < n) : i / 2 ^ Nat.clog 2 n = 0 :=
  Nat.div_eq_of_lt (hi.trans_le ((Nat.clog_le_iff_le_pow one_lt_two).mp le_rfl))

theorem checkProof_ok {challenge : Challenge} {proof : List Bytes32} :
    checkProof keccak256 challenge content proof = .ok () ↔
      challenge.chunkId < challenge.challengeLeafCount.toNat ∧
      proof.length = treeHeight challenge.challengeLeafCount.toNat +
        (if challenge.isCurated then 0 else 1) ∧
      verifyV10MerkleProof keccak256 challenge.challengeRoot (keccak256 content) challenge.chunkId
        proof = true := by
  simp only [checkProof, bind_eq_ok, require_eq_ok, exists_const]
  constructor
  · rintro ⟨⟨_, hlt⟩, hlen, hverify⟩
    exact ⟨hlt, hlen, hverify⟩
  · rintro ⟨hlt, hlen, hverify⟩
    exact ⟨⟨by omega, hlt⟩, hlen, hverify⟩

end Facts

section Honest
variable {keccak256 : Bytes → Bytes32} {contents contents' : List Bytes}
  {privateRoots : List Bytes32} {challenge : Challenge} {x : Bytes32} {i : ℕ}

theorem pin_pins (commitment : V10MerkleCommitment) (h : commitment.merkleLeafCount < 2 ^ 32)
    (challenge : Challenge) (i : ℕ) (isCurated : Bool) :
    (challenge.pin commitment i isCurated).Pins commitment isCurated :=
  ⟨rfl, UInt32.toNat_ofNat_of_lt' h, rfl⟩

/-- A proof of the right length that verifies passes the checks against a challenge that pins
the commitment. -/
theorem check_of_verify {commitment : V10MerkleCommitment} {isCurated : Bool} {content : Bytes}
    {proof : List Bytes32} (hcount : commitment.merkleLeafCount ≤ 2 ^ 32 - 1)
    (hi : i < commitment.merkleLeafCount)
    (hlen : proof.length = treeHeight commitment.merkleLeafCount + if isCurated then 0 else 1)
    (hverify : verifyV10MerkleProof keccak256 commitment.merkleRoot (keccak256 content) i proof)
    (challenge : Challenge) :
    checkProof keccak256 (challenge.pin commitment i isCurated) content proof = .ok () := by
  have hpin := pin_pins commitment (by omega) challenge i isCurated
  refine checkProof_ok.mpr ⟨?_, ?_, hverify⟩
  · rw [hpin.leafCount]
    exact hi
  · rw [hpin.leafCount]
    exact hlen

theorem kaCommitment_leafCount : (kaCommitment keccak256 contents privateRoots).merkleLeafCount =
    (canonical (contents.map keccak256)).length := new_leafCount _

theorem catalogCommitment_leafCount : (catalogCommitment keccak256 contents).merkleLeafCount =
    (canonical (contents.map keccak256)).length := new_leafCount _

/-- What an honest node finds for the challenged leaf: its content, and the path to the root. -/
theorem honest_path (hi : i < (canonical (contents.map keccak256)).length) :
    ∃ x content path, (canonical (contents.map keccak256))[i]? = some x ∧
      lookupContent (contents.map keccak256) contents x = .ok content ∧
      (V10MerkleTree.new keccak256 (contents.map keccak256)).proof i = .ok path ∧
      path.length = treeHeight (canonical (contents.map keccak256)).length ∧
      MerkleTree.walk (hashPair keccak256) (keccak256 content) i path =
        (V10MerkleTree.new keccak256 (contents.map keccak256)).root := by
  obtain ⟨x, hx⟩ : ∃ x, (canonical (contents.map keccak256))[i]? = some x :=
    ⟨_, getElem?_eq_getElem hi⟩
  obtain ⟨content, hlookup, -, hcontent⟩ :=
    lookupContent_ok (mem_canonical.mp (mem_of_getElem? hx))
  refine ⟨x, content, _, hx, hlookup, new_proof hx, ?_, ?_⟩
  · rw [treeHeight_eq, MerkleTree.siblings_length hi]
  · have hwalk := MerkleTree.walk_siblings (hashPair keccak256) hx
    rw [new_root hx, Option.some.injEq] at hwalk
    rw [hcontent, hwalk]

theorem catalog_material (hi : i < (canonical (contents.map keccak256)).length) :
    ∃ m, buildV10CatalogProofMaterial keccak256 contents i (catalogCommitment keccak256 contents) =
        .ok m ∧
      m.proof.length = treeHeight (catalogCommitment keccak256 contents).merkleLeafCount ∧
      verifyV10MerkleProof keccak256 (catalogCommitment keccak256 contents).merkleRoot
        (keccak256 m.content) i m.proof = true := by
  obtain ⟨x, content, path, hx, hlookup, hproof, hlen, hwalk⟩ := honest_path hi
  have hlt : i < (V10MerkleTree.new keccak256 (contents.map keccak256)).leafCount := by
    rwa [new_leafCount]
  refine ⟨⟨content, x, path, (catalogCommitment keccak256 contents).merkleRoot,
    (catalogCommitment keccak256 contents).merkleLeafCount⟩, ?_, ?_, decide_eq_true hwalk⟩
  · simp only [buildV10CatalogProofMaterial, catalogCommitment]
    rw [require_of trivial, ok_bind, require_of trivial, ok_bind, require_of hlt, ok_bind,
      new_leafAt hx, ok_bind, hlookup, ok_bind, hproof]
    rfl
  · rw [hlen, catalogCommitment_leafCount]

theorem public_material (privateRoots : List Bytes32)
    (hi : i < (canonical (contents.map keccak256)).length) :
    ∃ m, buildV10ProofMaterial keccak256 contents privateRoots i
        (kaCommitment keccak256 contents privateRoots) = .ok m ∧
      m.proof.length =
        treeHeight (kaCommitment keccak256 contents privateRoots).merkleLeafCount + 1 ∧
      verifyV10MerkleProof keccak256 (kaCommitment keccak256 contents privateRoots).merkleRoot
        (keccak256 m.content) i m.proof = true := by
  obtain ⟨x, content, path, hx, hlookup, hproof, hlen, hwalk⟩ := honest_path hi
  have hlt : i < (structuredKARootV10 keccak256 (contents.map keccak256) privateRoots).leafCount :=
    hi.trans_eq (new_leafCount _).symm
  refine ⟨⟨content, x, path ++ [collapsePrivateDataHashV10 keccak256 privateRoots],
    (kaCommitment keccak256 contents privateRoots).merkleRoot,
    (kaCommitment keccak256 contents privateRoots).merkleLeafCount⟩, ?_, ?_, decide_eq_true ?_⟩
  · simp only [buildV10ProofMaterial, kaCommitment]
    rw [require_of trivial, ok_bind, require_of trivial, ok_bind, require_of hlt, ok_bind]
    simp only [structuredKARootV10]
    rw [new_leafAt hx, ok_bind, hlookup, ok_bind, hproof]
    rfl
  · rw [length_append, hlen, kaCommitment_leafCount, length_singleton]
  · rw [treeHeight_eq] at hlen
    rw [MerkleTree.walk_concat, hlen, index_at_top hi, hwalk]
    exact (structured_root keccak256 (ne_nil_of_canonical hx) privateRoots).symm

/-- The commitments depend only on which contents there are. -/
theorem commitments_congr (h : ∀ c, c ∈ contents ↔ c ∈ contents') (privateRoots : List Bytes32) :
    kaCommitment keccak256 contents privateRoots = kaCommitment keccak256 contents' privateRoots ∧
      catalogCommitment keccak256 contents = catalogCommitment keccak256 contents' := by
  have hleaves : ∀ y, y ∈ contents.map keccak256 ↔ y ∈ contents'.map keccak256 := by
    intro y
    simp only [mem_map, h]
  have hpos : (contents.map keccak256).length > 0 ↔ (contents'.map keccak256).length > 0 := by
    simp only [gt_iff_lt, length_pos_iff_exists_mem, hleaves]
  simp only [kaCommitment, catalogCommitment, structuredKARootV10, new_congr hleaves, hpos,
    and_self]

/-- The chain accepts every honest proof: for each chunk of a knowledge asset the material
built from its contents has the length the contract expects and passes its checks, on the
public and on the curated path; and permuted or repeated contents have the same root and
leaf count. -/
theorem honest_proofs_accepted (keccak256 : Bytes → Bytes32) (contents : List Bytes)
    (privateRoots : List Bytes32)
    (hcount : (canonical (contents.map keccak256)).length ≤ 2 ^ 32 - 1) :
    let ka := kaCommitment keccak256 contents privateRoots
    let catalog := catalogCommitment keccak256 contents
    (∀ i < (canonical (contents.map keccak256)).length, ∀ challenge : Challenge,
      (∃ m, buildV10ProofMaterial keccak256 contents privateRoots i ka = .ok m ∧
        m.proof.length = treeHeight ka.merkleLeafCount + 1 ∧
        verifyV10MerkleProof keccak256 ka.merkleRoot (keccak256 m.content) i m.proof = true ∧
        checkProof keccak256 (challenge.pin ka i false) m.content m.proof = .ok ()) ∧
      ∃ m, buildV10CatalogProofMaterial keccak256 contents i catalog = .ok m ∧
        m.proof.length = treeHeight catalog.merkleLeafCount ∧
        verifyV10MerkleProof keccak256 catalog.merkleRoot (keccak256 m.content) i m.proof = true ∧
        checkProof keccak256 (challenge.pin catalog i true) m.content m.proof = .ok ()) ∧
    ∀ contents' : List Bytes, (∀ c, c ∈ contents' ↔ c ∈ contents) →
      kaCommitment keccak256 contents' privateRoots = ka ∧
        catalogCommitment keccak256 contents' = catalog := by
  intro ka catalog
  refine ⟨fun i hi challenge => ⟨?_, ?_⟩, fun contents' h => commitments_congr h privateRoots⟩
  · obtain ⟨m, hm, hlen, hverify⟩ := public_material privateRoots hi
    refine ⟨m, hm, hlen, hverify, check_of_verify ?_ ?_ hlen hverify challenge⟩
    · rwa [kaCommitment_leafCount]
    · rwa [kaCommitment_leafCount]
  · obtain ⟨m, hm, hlen, hverify⟩ := catalog_material hi
    refine ⟨m, hm, hlen, hverify, check_of_verify ?_ ?_ hlen hverify challenge⟩
    · rwa [catalogCommitment_leafCount]
    · rwa [catalogCommitment_leafCount]

/-- A stand-in for the hash: the first 32 bytes. -/
def first32 (b : Bytes) : Bytes32 := ⟨(b ++ replicate 32 0).take 32, by simp⟩

def blankChallenge : Challenge := ⟨0, 0, 0, 0, 0, false, false, 0, zero32⟩

/-- Four contents, one of them twice, and the last of the three leaves. -/
theorem honest_proofs_accepted_repeated :
    let contents : List Bytes := [[3], [1], [2], [1]]
    let ka := kaCommitment first32 contents [zero32]
    (canonical (contents.map first32)).length = 3 ∧
      ∃ m, buildV10ProofMaterial first32 contents [zero32] 2 ka = .ok m ∧
        checkProof first32 (blankChallenge.pin ka 2 false) m.content m.proof = .ok () := by
  intro contents ka
  have hcount : (canonical (contents.map first32)).length = 3 := by
    rw [canonical_length]
    decide
  refine ⟨hcount, ?_⟩
  obtain ⟨⟨m, hm, -, -, hcheck⟩, -⟩ := (honest_proofs_accepted first32 contents [zero32]
    (hcount.trans_le (by decide))).1 2 (by omega) blankChallenge
  exact ⟨m, hm, hcheck⟩

end Honest

end Dkg.Merkle
