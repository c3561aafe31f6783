import Dkg.Framing.FixedHeader
import Dkg.Wire.LengthPrefixed

/-!
The two protocols over the decoder with a fixed header: the bulk transfer of graphs and the
experimental exact batch stream.
-/

namespace Dkg.FixedHeader
open Revert StreamCut
open Wire (isSafeInteger)

section View
variable (bytes : List UInt8) (offset : ℕ)

/-- What a view writes for a number: its lowest bytes. -/
def setUint (width : ℕ) (value : ℤ) : List UInt8 :=
  BigEndian.encode width (value % 256 ^ width).toNat

def getUint8 : ℕ := BigEndian.decode ((bytes.drop offset).take 1)
def getUint16 : ℕ := BigEndian.decode ((bytes.drop offset).take 2)
def getUint32 : ℕ := BigEndian.decode ((bytes.drop offset).take 4)

theorem decode_setUint (width : ℕ) (value : ℤ) (h0 : 0 ≤ value) (h : value < 256 ^ width) :
    (BigEndian.decode (setUint width value) : ℤ) = value := by
  have hlt : (value % 256 ^ width).toNat < 256 ^ width := by
    have := Int.emod_lt_of_pos value (b := 256 ^ width) (by positivity)
    have := Int.emod_nonneg value (b := 256 ^ width) (by positivity)
    zify
    omega
  rw [setUint, BigEndian.decode_encode hlt, Int.emod_eq_of_lt h0 h, Int.toNat_of_nonneg h0]

theorem decode_setUint_natCast (width value : ℕ) (h : value < 256 ^ width) :
    BigEndian.decode (setUint width value) = value := by
  exact_mod_cast decode_setUint width value (Int.natCast_nonneg _) (by exact_mod_cast h)

end View

namespace BulkGraph

def MAGIC : ℤ := 0x444b4732
def BULK_GRAPH_MAX_ASSETS : ℤ := 1024
def BULK_GRAPH_FRAME_BYTES : ℤ := 64 * 1024
def BULK_GRAPH_REQUEST_BYTES : ℤ := 512 * 1024
def BULK_GRAPH_HEADER_BYTES : ℕ := 20

/-- The kinds are REQUEST 1, META 2, DATA 3, ASSET_END 4, CREDIT 5, COMMIT 6, CHUNK_END 7 and
REFUSE 8. -/
structure BulkGraphHeader where
  kind : ℤ
  index : ℤ
  sequence : ℤ
deriving DecidableEq

structure BulkGraphFrame extends BulkGraphHeader where
  payload : List UInt8
deriving DecidableEq

inductive BulkGraphError where
  | frameHeader
  | frameLength
  | wireVersion
  | truncated
deriving DecidableEq

def validateBulkGraphHeader (header : BulkGraphHeader) (length : ℤ) : Except BulkGraphError Unit := do
  require (¬(¬([header.kind, header.index, header.sequence, length].all isSafeInteger) ∨
    header.kind < 1 ∨ header.kind > 8 ∨ header.index < 0 ∨ header.index > BULK_GRAPH_MAX_ASSETS ∨
    header.sequence < 0 ∨ header.sequence > 0xffffffff ∨ length < 0)) .frameHeader
  let limit := if header.kind = 1 then BULK_GRAPH_REQUEST_BYTES
    else if header.kind = 2 then 128 * 1024 else BULK_GRAPH_FRAME_BYTES
  require (¬(length > limit ∨ (header.kind ∈ [4, 5, 6] ∧ length ≠ 0) ∨
    (header.kind ∈ [1, 2, 3, 7, 8] ∧ length = 0))) .frameLength

/-- The twenty bytes before the payload; the bytes 5 to 7 stay zero. -/
def headerBytes (header : BulkGraphHeader) (length : ℕ) : List UInt8 :=
  setUint 4 MAGIC ++ setUint 1 header.kind ++ [0, 0, 0] ++ setUint 4 header.index ++
    setUint 4 header.sequence ++ setUint 4 length

def encodeBulkGraphFrame (frame : BulkGraphFrame) : Except BulkGraphError (List UInt8) := do
  validateBulkGraphHeader frame.toBulkGraphHeader frame.payload.length
  return headerBytes frame.toBulkGraphHeader frame.payload.length ++ frame.payload

def parseHeader (bytes : List UInt8) : Except BulkGraphError (BulkGraphHeader × ℕ) := do
  require (¬(getUint32 bytes 0 ≠ MAGIC ∨ getUint8 bytes 5 ≠ 0 ∨ getUint16 bytes 6 ≠ 0))
    .wireVersion
  let header : BulkGraphHeader := ⟨getUint8 bytes 4, getUint32 bytes 8, getUint32 bytes 12⟩
  let length := getUint32 bytes 16
  validateBulkGraphHeader header length
  return (header, length)

def options : Options BulkGraphHeader BulkGraphFrame BulkGraphError where
  headerBytes := BULK_GRAPH_HEADER_BYTES
  headerBytes_pos := by decide
  parseHeader := parseHeader
  complete header payload := .ok ⟨header, payload⟩
  truncatedError := .truncated

def decodeBulkGraphFrames : List (List UInt8) → Yielded BulkGraphError BulkGraphFrame :=
  decodeFixedHeaderFrames options

/-- A header that is valid parses back. -/
theorem parseHeader_headerBytes {header : BulkGraphHeader} {length : ℕ}
    (h : validateBulkGraphHeader header length = .ok ()) :
    parseHeader (headerBytes header length) = .ok (header, length) := by
  obtain ⟨kind, index, sequence⟩ := header
  have hvalid := h
  simp only [validateBulkGraphHeader, bind_eq_ok, require_eq_ok] at hvalid
  obtain ⟨-, hheader, hlength⟩ := hvalid
  have hsmall : (length : ℤ) ≤ 512 * 1024 := by
    unfold BULK_GRAPH_REQUEST_BYTES BULK_GRAPH_FRAME_BYTES at hlength
    split_ifs at hlength <;> omega
  unfold BULK_GRAPH_MAX_ASSETS at hheader
  set bytes := headerBytes ⟨kind, index, sequence⟩ length
  have hkind : (getUint8 bytes 4 : ℤ) = kind := decode_setUint 1 kind (by omega) (by omega)
  have hindex : (getUint32 bytes 8 : ℤ) = index := decode_setUint 4 index (by omega) (by omega)
  have hsequence : (getUint32 bytes 12 : ℤ) = sequence :=
    decode_setUint 4 sequence (by omega) (by omega)
  have hlen : getUint32 bytes 16 = length := decode_setUint_natCast 4 length (by omega)
  have hfixed : ¬((getUint32 bytes 0 : ℤ) ≠ MAGIC ∨ getUint8 bytes 5 ≠ 0 ∨
      getUint16 bytes 6 ≠ 0) := by
    rw [show (getUint32 bytes 0 : ℤ) = MAGIC from decode_setUint 4 MAGIC (by decide) (by decide)]
    exact fun h => h.elim (· rfl) (fun h => h.elim (· rfl) (· rfl))
  rw [parseHeader, require_of hfixed, ok_bind]
  dsimp only
  rw [hkind, hindex, hsequence, hlen, h]
  rfl

theorem encodes {frame : BulkGraphFrame} {bytes : List UInt8}
    (h : encodeBulkGraphFrame frame = .ok bytes) : Encodes options frame bytes := by
  rw [encodeBulkGraphFrame, bind_eq_ok] at h
  obtain ⟨_, hvalid, hbytes⟩ := h
  cases hbytes
  exact ⟨_, frame.payload, _, rfl, rfl, parseHeader_headerBytes hvalid, rfl⟩

end BulkGraph

namespace ExactBatch

def EXACT_BATCH_BATCH_INDEX : ℤ := 255
def EXACT_BATCH_FRAME_HEADER_BYTES : ℕ := 16
def EXACT_BATCH_MAX_FRAME_BYTES : ℤ := 64 * 1024
def EXACT_BATCH_MAX_REQUEST_BYTES : ℤ := 8 * 1024
def EXACT_BATCH_MAX_ASSETS : ℤ := 10
def EXACT_BATCH_MAX_CHUNKS_PER_ASSET : ℤ := 1024
def MAGIC : List UInt8 := [68, 75, 66, 49]

def EXACT_BATCH_REFUSALS : List String :=
  ["UNSUPPORTED", "RESOURCE_LIMIT", "SOURCE_CHANGED", "ASSET_MISSING", "DENIED", "BUSY"]

/-- The kinds are REQUEST 1, META 2, DATA 3, ASSET_END 4, ACK 5, BATCH_END 6 and REFUSE 7. -/
structure ExactBatchHeader where
  kind : ℤ
  assetIndex : ℤ
  sequence : ℤ
deriving DecidableEq

structure ExactBatchFrame extends ExactBatchHeader where
  payload : List UInt8
deriving DecidableEq

inductive ExactBatchError where
  | frameHeader
  | frameIndex
  | request
  | metadata
  | dataFrame
  | controlPayload
  | chunkCount
  | endCount
  | refusal
  | unknownRefusal
  | magic
  | truncated
deriving DecidableEq

def uint (value max : ℤ) : Bool := decide (0 ≤ value ∧ value ≤ max)

theorem uint_iff {value max : ℤ} : uint value max = true ↔ 0 ≤ value ∧ value ≤ max := by
  rw [uint, decide_eq_true_eq]

def validateHeader (header : ExactBatchHeader) (length : ℤ) : Except ExactBatchError Unit := do
  let ⟨kind, index, sequence⟩ := header
  require (¬(¬uint kind 7 ∨ kind = 0 ∨ ¬uint index 255 ∨ ¬uint sequence 0xffffffff ∨
    ¬uint length EXACT_BATCH_MAX_FRAME_BYTES)) .frameHeader
  let batch := kind = 1 ∨ kind = 6 ∨ kind = 7
  require (¬(if batch then index ≠ EXACT_BATCH_BATCH_INDEX else index ≥ EXACT_BATCH_MAX_ASSETS))
    .frameIndex
  require (¬(kind = 1 ∧ (sequence ≠ 0 ∨ length < 1 ∨ length > EXACT_BATCH_MAX_REQUEST_BYTES)))
    .request
  require (¬(kind = 2 ∧ (sequence ≠ 0 ∨ length < 1))) .metadata
  require (¬(kind = 3 ∧ (length < 1 ∨ sequence ≥ EXACT_BATCH_MAX_CHUNKS_PER_ASSET))) .dataFrame
  require (¬((kind = 4 ∨ kind = 5 ∨ kind = 6) ∧ length ≠ 0)) .controlPayload
  require (¬((kind = 4 ∨ kind = 5) ∧
    (sequence < 1 ∨ sequence > EXACT_BATCH_MAX_CHUNKS_PER_ASSET))) .chunkCount
  require (¬(kind = 6 ∧ (sequence < 1 ∨ sequence > EXACT_BATCH_MAX_ASSETS))) .endCount
  require (¬(kind = 7 ∧ (sequence ≠ 0 ∨ length < 1 ∨ length > 64))) .refusal

/-- The bytes of a refusal code, all of it ASCII. -/
def codeBytes (code : String) : List UInt8 := code.toList.map fun c => UInt8.ofNat c.toNat

/-- The text decoder drops one byte order mark. Bytes that are not UTF-8 are no refusal either. -/
def isRefusal (payload : List UInt8) : Bool :=
  EXACT_BATCH_REFUSALS.any fun code =>
    payload == codeBytes code || payload == [0xef, 0xbb, 0xbf] ++ codeBytes code

def validatePayload (frame : ExactBatchFrame) : Except ExactBatchError Unit :=
  require (¬(frame.kind = 7 ∧ ¬isRefusal frame.payload)) .unknownRefusal

def validateExactBatchFrame (frame : ExactBatchFrame) : Except ExactBatchError Unit := do
  validateHeader frame.toExactBatchHeader frame.payload.length
  validatePayload frame

/-- The sixteen bytes before the payload; the bytes 6 and 7 stay zero. -/
def headerBytes (header : ExactBatchHeader) (length : ℕ) : List UInt8 :=
  MAGIC ++ setUint 1 header.kind ++ setUint 1 header.assetIndex ++ [0, 0] ++
    setUint 4 header.sequence ++ setUint 4 length

def encodeExactBatchFrame (frame : ExactBatchFrame) : Except ExactBatchError (List UInt8) := do
  validateExactBatchFrame frame
  return headerBytes frame.toExactBatchHeader frame.payload.length ++ frame.payload

def parseHeader (bytes : List UInt8) : Except ExactBatchError (ExactBatchHeader × ℕ) := do
  require (¬(bytes.take 4 ≠ MAGIC ∨ getUint16 bytes 6 ≠ 0)) .magic
  let header : ExactBatchHeader := ⟨getUint8 bytes 4, getUint8 bytes 5, getUint32 bytes 8⟩
  let length := getUint32 bytes 12
  validateHeader header length
  return (header, length)

def complete (header : ExactBatchHeader) (payload : List UInt8) :
    Except ExactBatchError ExactBatchFrame := do
  let frame : ExactBatchFrame := ⟨header, payload⟩
  validatePayload frame
  return frame

def options : Options ExactBatchHeader ExactBatchFrame ExactBatchError where
  headerBytes := EXACT_BATCH_FRAME_HEADER_BYTES
  headerBytes_pos := by decide
  parseHeader := parseHeader
  complete := complete
  truncatedError := .truncated

def decodeExactBatchFrames : List (List UInt8) → Yielded ExactBatchError ExactBatchFrame :=
  decodeFixedHeaderFrames options

theorem parseHeader_headerBytes {header : ExactBatchHeader} {length : ℕ}
    (h : validateHeader header length = .ok ()) :
    parseHeader (headerBytes header length) = .ok (header, length) := by
  obtain ⟨kind, index, sequence⟩ := header
  have hvalid := h
  rw [validateHeader, bind_eq_ok] at hvalid
  obtain ⟨_, hheader, -⟩ := hvalid
  rw [require_eq_ok] at hheader
  simp only [uint_iff, EXACT_BATCH_MAX_FRAME_BYTES] at hheader
  set bytes := headerBytes ⟨kind, index, sequence⟩ length
  have hkind : (getUint8 bytes 4 : ℤ) = kind := decode_setUint 1 kind (by omega) (by omega)
  have hindex : (getUint8 bytes 5 : ℤ) = index := decode_setUint 1 index (by omega) (by omega)
  have hsequence : (getUint32 bytes 8 : ℤ) = sequence :=
    decode_setUint 4 sequence (by omega) (by omega)
  have hlen : getUint32 bytes 12 = length := decode_setUint_natCast 4 length (by omega)
  have hfixed : ¬(bytes.take 4 ≠ MAGIC ∨ getUint16 bytes 6 ≠ 0) := fun h => h.elim (· rfl) (· rfl)
  rw [parseHeader, require_of hfixed, ok_bind]
  dsimp only
  rw [hkind, hindex, hsequence, hlen, h]
  rfl

theorem encodes {frame : ExactBatchFrame} {bytes : List UInt8}
    (h : encodeExactBatchFrame frame = .ok bytes) : Encodes options frame bytes := by
  rw [encodeExactBatchFrame, bind_eq_ok] at h
  obtain ⟨_, hframe, hbytes⟩ := h
  cases hbytes
  unfold validateExactBatchFrame at hframe
  rw [bind_eq_ok] at hframe
  obtain ⟨_, hheader, hpayload⟩ := hframe
  refine ⟨_, frame.payload, _, rfl, rfl, parseHeader_headerBytes hheader, ?_⟩
  change (validatePayload frame >>= _) = _
  rw [hpayload]
  rfl

end ExactBatch

/-- Both protocols survive any chunking and report a stream that is cut inside a frame. -/
theorem fixedHeaderFrames_chunking :
    Chunking BulkGraph.encodeBulkGraphFrame BulkGraph.decodeBulkGraphFrames ∧
      Chunking ExactBatch.encodeExactBatchFrame ExactBatch.decodeExactBatchFrames :=
  ⟨chunking_of_encodes fun _ _ => BulkGraph.encodes,
    chunking_of_encodes fun _ _ => ExactBatch.encodes⟩

/-- A commit without payload, its header cut in two, and a refusal cut in its payload. -/
theorem fixedHeaderFrames_chunking_commit :
    BulkGraph.decodeBulkGraphFrames [[0x44, 0x4b, 0x47, 0x32, 6, 0, 0, 0, 0, 0, 0, 0], [],
        [0, 0, 0, 7, 0, 0, 0, 0]] = ⟨[⟨⟨6, 0, 7⟩, []⟩], none⟩ ∧
      ExactBatch.decodeExactBatchFrames [[68, 75, 66, 49, 7, 255, 0, 0, 0, 0, 0, 0, 0, 0, 0, 4, 66],
        [85, 83, 89]] = ⟨[⟨⟨7, 255, 0⟩, [66, 85, 83, 89]⟩], none⟩ :=
  ⟨fixedHeaderFrames_chunking.1.inverts _ _ _ rfl rfl,
    fixedHeaderFrames_chunking.2.inverts _ _ _ rfl rfl⟩

end Dkg.FixedHeader
