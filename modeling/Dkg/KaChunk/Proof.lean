import Dkg.KaChunk.Tree

/-!
Chunk proofs: the builder, the check of a proof's shape against the chunk count, the verification
of a chunk, and the canonical JSON form of a proof.
-/

namespace Dkg.KaChunk
open Revert Utf16 Json Wire OddMerkle

def MAX_KA_CHUNK_PROOF_BYTES_V1 : ℕ := 1280
def MAX_KA_CHUNK_PROOF_DEPTH_V1 : ℕ := 3
def MAX_KA_CHUNK_PROOF_STEPS_V1 : ℕ := 12
def MAX_KA_CHUNK_PROOFS_PER_REQUEST_V1 : ℕ := 16

/-- `KaChunkProofV1Error`, by code and message, and what the functions it calls throw. -/
inductive Err where
  | notRecord
  | fieldSet
  | chunkCount
  | chunkIndexDecimal
  | chunkIndexRange (chunkCount : ℕ)
  | stepsArray
  | omitsLevel
  | stepsAfterRoot
  | stepNotRecord (index : ℕ)
  | stepFieldSet (index : ℕ)
  | stepKind (index : ℕ) (kind : Kind)
  | stepDigest (index : ℕ)
  | bundleLength
  | requestSize
  | requestIndexes (chunkCount : ℕ)
  | transferByteLength
  | rootNotDigest
  | chunkByteLength (chunkIndex expectedLength : ℕ)
  | rootMismatch
  | objectTooLarge
  | tree (cause : TreeErr)
  | json (cause : Json.Err)

/-- `KaChunkProofV1`, the digests of its steps as bytes. -/
structure KaChunkProof where
  chunkIndex : Text
  steps : List (Step Digest)
deriving DecidableEq

section Objects
variable {ν : Type}

def kindText : Kind → Text
  | .left => text "left"
  | .right => text "right"
  | .odd => text "odd"

/-- A step as the builder makes the object. -/
def stepValue : Step Digest → Value ν
  | .left d => .object [(text "kind", .string (text "left")),
      (text "digest", .string (digestToLowerHex d))]
  | .right d => .object [(text "kind", .string (text "right")),
      (text "digest", .string (digestToLowerHex d))]
  | .odd => .object [(text "kind", .string (text "odd"))]

def KaChunkProof.toValue (proof : KaChunkProof) : Value ν :=
  .object [(text "chunkIndex", .string proof.chunkIndex),
    (text "steps", .array (proof.steps.map stepValue))]

/-- `assertExactKeys`: own keys are unique, so number and membership decide. -/
def exactKeys (members : List (Text × Value ν)) (expected : List Text) : Bool :=
  members.length == expected.length && members.all fun m => expected.contains m.1

/-- The field of a record. -/
def field (members : List (Text × Value ν)) (key : Text) : Option (Value ν) :=
  (members.find? fun m => m.1 == key).map Prod.snd

def assertChunkCount (chunkCount : ℕ) : Except Err Unit :=
  require (¬(chunkCount < 1 ∨ chunkCount > MAX_KA_TRANSFER_CHUNKS_V1)) .chunkCount

/-- The digest of a step. -/
def assertStepDigest (members : List (Text × Value ν)) (index : ℕ) : Except Err Digest :=
  match field members (text "digest") with
  | some (.string digest) => (digestFromLowerHex digest).mapError fun _ => .stepDigest index
  | _ => .error (.stepDigest index)

/-- The kind of a step. -/
def assertStepKind (members : List (Text × Value ν)) (expectedKind : Kind) (index : ℕ) :
    Except Err Unit :=
  match field members (text "kind") with
  | some (.string kind) => require (kind = kindText expectedKind) (.stepKind index expectedKind)
  | _ => .error (.stepKind index expectedKind)

def assertProofStep (step : Value ν) (expectedKind : Kind) (index : ℕ) :
    Except Err (Step Digest) :=
  match step with
  | .object members => do
    let expected := if expectedKind = .odd then [text "kind"] else [text "digest", text "kind"]
    require (exactKeys members expected = true) (.stepFieldSet index)
    assertStepKind members expectedKind index
    match expectedKind with
    | .left => return .left (← assertStepDigest members index)
    | .right => return .right (← assertStepDigest members index)
    | .odd => return .odd
  | _ => .error (.stepNotRecord index)

/-- The loop over the levels of the tree, from the position of the chunk up. -/
def assertSteps : List (Value ν) → ℕ → ℕ → ℕ → Except Err (List (Step Digest))
  | [], _, width, _ => if width > 1 then .error .omitsLevel else .ok []
  | step :: steps, position, width, index =>
    if width > 1 then do
      let first ← assertProofStep step (expectedKind position width) index
      let rest ← assertSteps steps (position / 2) ((width + 1) / 2) (index + 1)
      return first :: rest
    else .error .stepsAfterRoot

/-- `assertKaChunkProofV1`, with the proof it asserts the object to be. -/
def assertKaChunkProofV1 (proof : Value ν) (chunkCount : ℕ) : Except Err KaChunkProof := do
  assertChunkCount chunkCount
  match proof with
  | .object members =>
    require (exactKeys members [text "chunkIndex", text "steps"] = true) .fieldSet
    match field members (text "chunkIndex") with
    | some (.string chunkIndexText) =>
      let chunkIndex ← (parseCanonicalDecimalU64 "chunkIndex" chunkIndexText).mapError
        fun _ => .chunkIndexDecimal
      require (¬chunkIndex ≥ chunkCount) (.chunkIndexRange chunkCount)
      match field members (text "steps") with
      | some (.array steps) =>
        require (¬steps.length > MAX_KA_CHUNK_PROOF_STEPS_V1) .stepsArray
        let steps ← assertSteps steps chunkIndex chunkCount 0
        return ⟨chunkIndexText, steps⟩
      | _ => .error .stepsArray
    | _ => .error .chunkIndexDecimal
  | _ => .error .notRecord

end Objects

section Codec
variable (N : Numbers)

def canonicalizeKaChunkProofV1 (proof : Value N.Num) (chunkCount : ℕ) : Except Err Text := do
  let _ ← assertKaChunkProofV1 proof chunkCount
  (canonicalizeJson N proof
    ⟨some MAX_KA_CHUNK_PROOF_BYTES_V1, some MAX_KA_CHUNK_PROOF_DEPTH_V1⟩).mapError .json

/-- `wireByteLength` of a string. -/
def wireByteLength (input : Text) : ℕ :=
  if input.length > MAX_KA_CHUNK_PROOF_BYTES_V1 then MAX_KA_CHUNK_PROOF_BYTES_V1 + 1
  else (utf8 input).length

def parseCanonicalKaChunkProofV1 (input : Text) (chunkCount : ℕ) (options : Options) :
    Except Err KaChunkProof := do
  require (¬wireByteLength input > MAX_KA_CHUNK_PROOF_BYTES_V1) .objectTooLarge
  let parsed ← (parseCanonicalJson N input
    ⟨some (min (options.maxBytes.getD MAX_KA_CHUNK_PROOF_BYTES_V1) MAX_KA_CHUNK_PROOF_BYTES_V1),
      some (min (options.maxDepth.getD MAX_KA_CHUNK_PROOF_DEPTH_V1)
        MAX_KA_CHUNK_PROOF_DEPTH_V1)⟩).mapError .json
  assertKaChunkProofV1 parsed chunkCount

end Codec

variable (sha256 : List UInt8 → Digest)

def expectedChunkCount (byteLength : ℕ) : Except Err ℕ := do
  let chunkCount := chunkCountOf byteLength
  assertChunkCount chunkCount
  return chunkCount

/-- The loop that checks the requested indexes against the one before. -/
def checkIndexes (chunkCount : ℕ) : List ℤ → ℤ → Except Err Unit
  | [], _ => .ok ()
  | chunkIndex :: rest, previous => do
    require (¬(chunkIndex < 0 ∨ chunkIndex ≥ chunkCount ∨ chunkIndex ≤ previous))
      (.requestIndexes chunkCount)
    checkIndexes chunkCount rest chunkIndex

/-- The proof of one index from the levels of the tree. -/
def proofAt (chunkCount : ℕ) (levels : List (List Digest)) (chunkIndex : ℕ) :
    Except Err KaChunkProof := do
  let steps ← match path levels chunkIndex with
    | some steps => .ok steps
    | none => .error (.stepDigest 0)
  let proof : KaChunkProof := ⟨digitsOf chunkIndex, steps⟩
  let _ ← assertKaChunkProofV1 (ν := ℕ) proof.toValue chunkCount
  return proof

def buildKaChunkProofsV1 (bundleBytes : List UInt8) (chunkIndexes : List ℤ) :
    Except Err (List KaChunkProof) := do
  let byteLength := bundleBytes.length
  require (¬(byteLength < MIN_KA_TRANSFER_BYTES_V1 ∨ byteLength > MAX_KA_TRANSFER_BYTES_V1))
    .bundleLength
  let chunkCount ← expectedChunkCount byteLength
  require (¬(chunkIndexes.length < 1 ∨
    chunkIndexes.length > MAX_KA_CHUNK_PROOFS_PER_REQUEST_V1)) .requestSize
  checkIndexes chunkCount chunkIndexes (-1)
  let leaves ← ((List.range chunkCount).mapM fun index =>
    computeKaChunkLeafDigestV1 sha256 index (chunkAt bundleBytes index)).mapError .tree
  let H := domains.hashes sha256
  let levels := levels H.node H.odd leaves
  chunkIndexes.mapM fun chunkIndex => proofAt chunkCount levels chunkIndex.toNat

def assertValidKaChunkProofV1 {ν : Type} (proof : Value ν) (chunkBytes : List UInt8)
    (transferByteLength : ℕ) (expectedRoot : Text) : Except Err Unit := do
  require (¬(transferByteLength < MIN_KA_TRANSFER_BYTES_V1 ∨
    transferByteLength > MAX_KA_TRANSFER_BYTES_V1)) .transferByteLength
  (assertCanonicalDigest "chunkTreeRoot" expectedRoot).mapError fun _ => .rootNotDigest
  let chunkCount ← expectedChunkCount transferByteLength
  let proof ← assertKaChunkProofV1 proof chunkCount
  let chunkIndex ← (parseCanonicalDecimalU64 "chunkIndex" proof.chunkIndex).mapError
    fun _ => .chunkIndexDecimal
  let expectedLength := if chunkIndex + 1 < chunkCount then KA_TRANSFER_CHUNK_SIZE_BYTES_V1
    else transferByteLength - (chunkCount - 1) * KA_TRANSFER_CHUNK_SIZE_BYTES_V1
  require (chunkBytes.length = expectedLength) (.chunkByteLength chunkIndex expectedLength)
  let digest ← (computeKaChunkLeafDigestV1 sha256 chunkIndex chunkBytes).mapError .tree
  let H := domains.hashes sha256
  let digest := walk H.node H.odd digest proof.steps
  require (digestToLowerHex digest = expectedRoot) .rootMismatch

end Dkg.KaChunk
