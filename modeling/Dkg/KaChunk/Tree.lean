import Dkg.Lib.BigEndian
import Dkg.Wire.Hashing

/-!
The chunk tree of a knowledge-asset transfer: a bundle is cut into chunks of 256 KiB, and the root
is taken over leaves that bind the index, the length and the bytes of each chunk.
-/

namespace Dkg.KaChunk
open Revert Utf16 Wire List

def KA_TRANSFER_CHUNK_SIZE_BYTES_V1 : ℕ := 262144
def MIN_KA_TRANSFER_BYTES_V1 : ℕ := 16
def MAX_KA_TRANSFER_BYTES_V1 : ℕ := 1073741824
def MAX_KA_TRANSFER_CHUNKS_V1 : ℕ := 4096

/-- `KaChunkTreeV1Error`, by code and message. -/
inductive TreeErr where
  | treeByteLength
  | chunkIndex
  | chunkByteLength
  | chunkCount
  | u64Range
deriving DecidableEq

def domains : Domains where
  leaf := utf8Bytes (text "dkg-ka-chunk-leaf-v1\n")
  node := utf8Bytes (text "dkg-ka-chunk-node-v1\n")
  odd := utf8Bytes (text "dkg-ka-chunk-odd-v1\n")
  empty := utf8Bytes (text "dkg-ka-chunk-empty-v1\n")
  position := 13
  inside := by decide
  differ := by decide

def encodeU64Be (value : ℕ) : Except TreeErr (List UInt8) := do
  require (value / 256 ^ 8 = 0) .u64Range
  return BigEndian.encode 8 value

variable (sha256 : List UInt8 → Digest)

def computeLeafDigestBytes (chunkIndex : ℕ) (chunkBytes : List UInt8) : Except TreeErr Digest := do
  let index ← encodeU64Be chunkIndex
  let length ← encodeU64Be chunkBytes.length
  return digestBytes sha256 domains.leaf [index, length, chunkBytes]

def computeKaChunkLeafDigestV1 (chunkIndex : ℕ) (chunkBytes : List UInt8) :
    Except TreeErr Digest := do
  require (¬chunkIndex ≥ MAX_KA_TRANSFER_CHUNKS_V1) .chunkIndex
  require (¬(chunkBytes.length < 1 ∨ chunkBytes.length > KA_TRANSFER_CHUNK_SIZE_BYTES_V1))
    .chunkByteLength
  computeLeafDigestBytes sha256 chunkIndex chunkBytes

/-- The bytes from `index * chunkSize` on, at most one chunk of them. -/
def chunkAt (bundleBytes : List UInt8) (index : ℕ) : List UInt8 :=
  (bundleBytes.drop (index * KA_TRANSFER_CHUNK_SIZE_BYTES_V1)).take KA_TRANSFER_CHUNK_SIZE_BYTES_V1

def chunkCountOf (byteLength : ℕ) : ℕ := (byteLength - 1) / KA_TRANSFER_CHUNK_SIZE_BYTES_V1 + 1

def assertKaChunkTreeByteLengthV1 (byteLength : ℕ) : Except TreeErr Unit :=
  require (¬(byteLength < MIN_KA_TRANSFER_BYTES_V1 ∨ byteLength > MAX_KA_TRANSFER_BYTES_V1))
    .treeByteLength

def computeKaChunkTreeRootV1 (bundleBytes : List UInt8) : Except TreeErr Text := do
  assertKaChunkTreeByteLengthV1 bundleBytes.length
  let chunkCount := chunkCountOf bundleBytes.length
  require (¬(chunkCount < 1 ∨ chunkCount > MAX_KA_TRANSFER_CHUNKS_V1)) .chunkCount
  let leaves ← (range chunkCount).mapM fun index =>
    computeLeafDigestBytes sha256 index (chunkAt bundleBytes index)
  let H := domains.hashes sha256
  match OddMerkle.root H.node H.odd leaves with
  | some root => return digestToLowerHex root
  | none => .error .chunkCount

section Leaves
variable {sha256} {bundle : List UInt8} {i : ℕ}

/-- A bundle whose length the limits admit. -/
def Admitted (bundle : List UInt8) : Prop :=
  MIN_KA_TRANSFER_BYTES_V1 ≤ bundle.length ∧ bundle.length ≤ MAX_KA_TRANSFER_BYTES_V1

instance (bundle : List UInt8) : Decidable (Admitted bundle) := inferInstanceAs (Decidable (_ ∧ _))

/-- The bytes of a leaf after its domain. -/
def leafBytes (leaf : ℕ × List UInt8) : List UInt8 :=
  BigEndian.encode 8 leaf.1 ++ BigEndian.encode 8 leaf.2.length ++ leaf.2

/-- The chunks of a bundle with their indices. -/
def chunksOf (bundle : List UInt8) : List (ℕ × List UInt8) :=
  (range (chunkCountOf bundle.length)).map fun i => (i, chunkAt bundle i)

theorem chunksOf_length (bundle : List UInt8) :
    (chunksOf bundle).length = chunkCountOf bundle.length := by
  rw [chunksOf, length_map, length_range]

theorem chunksOf_getElem? (hi : i < chunkCountOf bundle.length) :
    (chunksOf bundle)[i]? = some (i, chunkAt bundle i) := by
  rw [chunksOf, getElem?_map, getElem?_range hi]
  rfl

theorem encodeU64Be_ok (hi : i < 2 ^ 64) : encodeU64Be i = .ok (BigEndian.encode 8 i) := by
  rw [encodeU64Be, require_of (Nat.div_eq_of_lt (by omega))]
  rfl

theorem computeLeafDigestBytes_ok {chunk : List UInt8} (hi : i < 2 ^ 64)
    (hlen : chunk.length < 2 ^ 64) : computeLeafDigestBytes sha256 i chunk =
      .ok (sha256 (domains.leaf ++ leafBytes (i, chunk))) := by
  rw [computeLeafDigestBytes, encodeU64Be_ok hi, ok_bind, encodeU64Be_ok hlen, ok_bind, digestBytes,
    leafBytes]
  simp only [flatten_cons, flatten_nil, append_nil, append_assoc]
  rfl

theorem chunkAt_length (hi : i < chunkCountOf bundle.length) (hpos : 0 < bundle.length) :
    (chunkAt bundle i).length = if i + 1 < chunkCountOf bundle.length then
      KA_TRANSFER_CHUNK_SIZE_BYTES_V1
    else bundle.length - (chunkCountOf bundle.length - 1) * KA_TRANSFER_CHUNK_SIZE_BYTES_V1 := by
  unfold chunkCountOf KA_TRANSFER_CHUNK_SIZE_BYTES_V1 at *
  rw [chunkAt, length_take, length_drop, KA_TRANSFER_CHUNK_SIZE_BYTES_V1]
  split <;> omega

theorem chunkAt_length_le (bundle : List UInt8) (i : ℕ) :
    (chunkAt bundle i).length ≤ KA_TRANSFER_CHUNK_SIZE_BYTES_V1 := by
  rw [chunkAt, length_take]
  exact Nat.min_le_left _ _

theorem chunkCountOf_le (h : Admitted bundle) :
    1 ≤ chunkCountOf bundle.length ∧ chunkCountOf bundle.length ≤ MAX_KA_TRANSFER_CHUNKS_V1 := by
  unfold Admitted MIN_KA_TRANSFER_BYTES_V1 MAX_KA_TRANSFER_BYTES_V1 at h
  unfold chunkCountOf MAX_KA_TRANSFER_CHUNKS_V1 KA_TRANSFER_CHUNK_SIZE_BYTES_V1
  omega

variable (sha256) in
/-- The digests of the leaves of a bundle. -/
def leafDigests (bundle : List UInt8) : List Digest :=
  (chunksOf bundle).map fun leaf => sha256 (domains.leaf ++ leafBytes leaf)

theorem mapM_leaves (sha256 : List UInt8 → Digest) (h : Admitted bundle) (f : ℕ → Except TreeErr Digest)
    (hf : ∀ i < chunkCountOf bundle.length,
      f i = computeLeafDigestBytes sha256 i (chunkAt bundle i)) :
    (range (chunkCountOf bundle.length)).mapM f = .ok (leafDigests sha256 bundle) := by
  have hcount := (chunkCountOf_le h).2
  have hall : ∀ i ∈ range (chunkCountOf bundle.length),
      f i = .ok (sha256 (domains.leaf ++ leafBytes (i, chunkAt bundle i))) := by
    intro i hi
    rw [mem_range] at hi
    have hlen := chunkAt_length_le bundle i
    unfold MAX_KA_TRANSFER_CHUNKS_V1 at hcount
    unfold KA_TRANSFER_CHUNK_SIZE_BYTES_V1 at hlen
    rw [hf i hi, computeLeafDigestBytes_ok (by omega) (by omega)]
  rw [mapM_ok hall, leafDigests, chunksOf, map_map]
  rfl

/-- The tree over the chunks of a bundle. -/
theorem exists_tree (h : Admitted bundle) :
    ∃ r, OddMerkle.root .node .odd ((chunksOf bundle).map OddMerkle.Tree.leaf) = some r := by
  refine Option.ne_none_iff_exists'.mp (OddMerkle.root_ne_none fun hnil => ?_)
  have hlen := congrArg length hnil
  rw [length_map, chunksOf_length] at hlen
  have hcount := (chunkCountOf_le h).1
  simp at hlen
  omega

/-- The root of an admitted bundle is the digest of the tree over its chunks. -/
theorem computeKaChunkTreeRootV1_ok (h : Admitted bundle) {r : OddMerkle.Tree (ℕ × List UInt8)}
    (hr : OddMerkle.root .node .odd ((chunksOf bundle).map OddMerkle.Tree.leaf) = some r) :
    computeKaChunkTreeRootV1 sha256 bundle =
      .ok (digestToLowerHex (r.digest (domains.hash sha256 leafBytes))) := by
  obtain ⟨hmin, hmax⟩ := h
  have hcount := chunkCountOf_le ⟨hmin, hmax⟩
  rw [computeKaChunkTreeRootV1, assertKaChunkTreeByteLengthV1, require_of (by omega), ok_bind]
  dsimp only
  rw [require_of (by omega), ok_bind, mapM_leaves sha256 ⟨hmin, hmax⟩ _ (fun _ _ => rfl), ok_bind,
    leafDigests, domains.root_hashes, hr]
  rfl

end Leaves

end Dkg.KaChunk
