import Dkg.KaChunk.Tree
import Dkg.Lib.BigEndian

/-!
The opaque bundle of a knowledge asset: two byte strings, each after its length in eight bytes. The
decoder is modelled with what it touches: the bytes it reads, the lengths it turns into numbers of
double precision and the parts it cuts out.
-/

namespace Dkg.KaBundle
open Revert Utf16 Wire KaChunk List

def KA_BUNDLE_U64_PREFIX_BYTES_V1 : ℕ := 8
def MIN_KA_BUNDLE_BYTES_V1 : ℕ := MIN_KA_TRANSFER_BYTES_V1
def MAX_KA_BUNDLE_BYTES_V1 : ℕ := MAX_KA_TRANSFER_BYTES_V1
def MAX_U64 : ℕ := 18446744073709551615

def PROJECTION_DIGEST_DOMAIN_BYTES : List UInt8 := utf8Bytes (text "dkg-ka-projection-v1\n")
def BLOB_DIGEST_DOMAIN_BYTES : List UInt8 := utf8Bytes (text "dkg-ka-transfer-v1\n")

inductive KaBundleError where
  | byteLength
  | truncated (what : String)
  | lengthOverflow
  | trailingBytes
  | notAByte
deriving DecidableEq

/-- The nearest number of double precision, ties to even. -/
def toDouble (n : ℕ) : ℕ :=
  let shift := Nat.log2 n - 52
  let high := n >>> shift
  let low := n % 2 ^ shift
  if 2 * low > 2 ^ shift ∨ (2 * low = 2 ^ shift ∧ high % 2 = 1 ∧ 0 < shift) then (high + 1) <<< shift
  else high <<< shift

/-- What a computation touches. -/
inductive Access where
  | read (index : ℕ)
  | convert (value : ℕ)
  | subarray (start stop : ℕ)

/-- An access that stays inside the bytes, or a conversion that keeps the value. -/
def Access.Sound (bytes : List UInt8) : Access → Prop
  | .read index => index < bytes.length
  | .convert value => toDouble value = value
  | .subarray start stop => start ≤ stop ∧ stop ≤ bytes.length

/-- A computation that can throw, with what it touched until then. -/
structure Traced (α : Type) where
  accesses : List Access
  result : Except KaBundleError α

namespace Traced
variable {α β : Type}

protected def bind (x : Traced α) (f : α → Traced β) : Traced β :=
  match x.result with
  | .error e => ⟨x.accesses, .error e⟩
  | .ok a => ⟨x.accesses ++ (f a).accesses, (f a).result⟩

instance : Monad Traced where
  pure a := ⟨[], .ok a⟩
  bind := Traced.bind

/-- A check touches nothing. -/
def check (x : Except KaBundleError α) : Traced α := ⟨[], x⟩

@[simp] theorem pure_result (a : α) : (pure a : Traced α).result = .ok a := rfl

@[simp] theorem check_result (x : Except KaBundleError α) : (check x).result = x := rfl

@[simp] theorem bind_result (x : Traced α) (f : α → Traced β) :
    (x >>= f).result = x.result >>= fun a => (f a).result := by
  change (Traced.bind x f).result = _
  unfold Traced.bind
  cases x.result <;> rfl

/-- Everything that is touched is sound. -/
def Sound (bytes : List UInt8) (x : Traced α) : Prop := ∀ a ∈ x.accesses, a.Sound bytes

theorem Sound.bind {bytes : List UInt8} {x : Traced α} {f : α → Traced β} (hx : x.Sound bytes)
    (hf : ∀ a, x.result = .ok a → (f a).Sound bytes) : (x >>= f).Sound bytes := by
  change (Traced.bind x f).Sound bytes
  unfold Traced.bind
  cases h : x.result with
  | error e => exact hx
  | ok a => exact forall_mem_append.mpr ⟨hx, hf a h⟩

theorem sound_check (bytes : List UInt8) (x : Except KaBundleError α) : (check x).Sound bytes :=
  nofun

theorem sound_pure (bytes : List UInt8) (a : α) : (pure a : Traced α).Sound bytes := nofun

end Traced

open Traced

def assertU64Length (value : ℕ) : Except KaBundleError Unit :=
  require (¬value > MAX_U64) .lengthOverflow

def assertOpaqueKaBundleByteLengthV1 (totalByteLength : ℕ) : Except KaBundleError Unit :=
  require (¬(totalByteLength < MIN_KA_BUNDLE_BYTES_V1 ∨ totalByteLength > MAX_KA_BUNDLE_BYTES_V1))
    .byteLength

def calculateOpaqueKaBundleByteLengthV1 (projectionByteLength sealByteLength : ℕ) :
    Except KaBundleError ℕ := do
  assertU64Length projectionByteLength
  assertU64Length sealByteLength
  let payloadLimit := MAX_KA_BUNDLE_BYTES_V1 - MIN_KA_BUNDLE_BYTES_V1
  require (¬(projectionByteLength > payloadLimit ∨
    sealByteLength > payloadLimit - projectionByteLength)) .lengthOverflow
  let totalByteLength := MIN_KA_BUNDLE_BYTES_V1 + projectionByteLength + sealByteLength
  assertOpaqueKaBundleByteLengthV1 totalByteLength
  return totalByteLength

/-- The eight bytes of a length. -/
def encodeU64Be (value : ℕ) : Except KaBundleError (List UInt8) := do
  assertU64Length value
  return BigEndian.encode KA_BUNDLE_U64_PREFIX_BYTES_V1 value

/-- A byte as a big integer, which throws on `undefined`. -/
def readByte (bytes : List UInt8) (index : ℕ) : Traced ℕ :=
  ⟨[.read index], match bytes[index]? with
    | some byte => .ok byte.toNat
    | none => .error .notAByte⟩

/-- The loop of `decodeU64Be` over the bytes that are left. -/
def decodeFrom (bytes : List UInt8) : ℕ → ℕ → ℕ → Traced ℕ
  | 0, _, value => pure value
  | count + 1, index, value => do
    let byte ← readByte bytes index
    decodeFrom bytes count (index + 1) (value <<< 8 ||| byte)

def decodeU64Be (bytes : List UInt8) (offset : ℕ) : Traced ℕ := do
  check (require (¬offset + KA_BUNDLE_U64_PREFIX_BYTES_V1 > bytes.length)
    (.truncated "u64be length prefix"))
  decodeFrom bytes KA_BUNDLE_U64_PREFIX_BYTES_V1 offset 0

def number (value : ℕ) : Traced ℕ := ⟨[.convert value], .ok (toDouble value)⟩

def subarray (bytes : List UInt8) (start stop : ℕ) : Traced (List UInt8) :=
  ⟨[.subarray start stop], .ok ((bytes.take stop).drop start)⟩

structure EncodedOpaqueKaBundle where
  bundleBytes : List UInt8
  projectionDigest : Text
  blobDigest : Text

structure DecodedOpaqueKaBundle where
  projectionBytes : List UInt8
  sealBytes : List UInt8
  projectionDigest : Text
  blobDigest : Text

variable (sha256 : List UInt8 → Digest)

def computeKaProjectionDigestV1 (projectionBytes : List UInt8) : Text :=
  digestToLowerHex (digestBytes sha256 PROJECTION_DIGEST_DOMAIN_BYTES [projectionBytes])

def blobDigestOf (bundleBytes : List UInt8) : Text :=
  digestToLowerHex (digestBytes sha256 BLOB_DIGEST_DOMAIN_BYTES [bundleBytes])

def encodeOpaqueKaBundleV1 (projectionBytes sealBytes : List UInt8) :
    Except KaBundleError EncodedOpaqueKaBundle := do
  let _ ← calculateOpaqueKaBundleByteLengthV1 projectionBytes.length sealBytes.length
  let projectionPrefix ← encodeU64Be projectionBytes.length
  let sealPrefix ← encodeU64Be sealBytes.length
  let bundleBytes := projectionPrefix ++ projectionBytes ++ sealPrefix ++ sealBytes
  let finalizedProjectionBytes := (bundleBytes.take
    (KA_BUNDLE_U64_PREFIX_BYTES_V1 + projectionBytes.length)).drop KA_BUNDLE_U64_PREFIX_BYTES_V1
  return ⟨bundleBytes, computeKaProjectionDigestV1 sha256 finalizedProjectionBytes,
    blobDigestOf sha256 bundleBytes⟩

def decodeOpaqueKaBundleV1 (bundleBytes : List UInt8) : Traced DecodedOpaqueKaBundle := do
  let receivedByteLength := bundleBytes.length
  check (assertOpaqueKaBundleByteLengthV1 receivedByteLength)
  let projectionByteLength ← decodeU64Be bundleBytes 0
  let minimumWithProjection ← check (calculateOpaqueKaBundleByteLengthV1 projectionByteLength 0)
  check (require (¬minimumWithProjection > receivedByteLength)
    (.truncated "projection payload or seal-length prefix"))
  let projectionStart := KA_BUNDLE_U64_PREFIX_BYTES_V1
  let projectionEnd := projectionStart + (← number projectionByteLength)
  let sealByteLength ← decodeU64Be bundleBytes projectionEnd
  let expectedByteLength ← check
    (calculateOpaqueKaBundleByteLengthV1 projectionByteLength sealByteLength)
  check (require (¬expectedByteLength > receivedByteLength) (.truncated "seal payload"))
  check (require (¬expectedByteLength < receivedByteLength) .trailingBytes)
  let sealStart := projectionEnd + KA_BUNDLE_U64_PREFIX_BYTES_V1
  let sealEnd := sealStart + (← number sealByteLength)
  let projectionBytes ← subarray bundleBytes projectionStart projectionEnd
  let sealBytes ← subarray bundleBytes sealStart sealEnd
  return ⟨projectionBytes, sealBytes, computeKaProjectionDigestV1 sha256 projectionBytes,
    blobDigestOf sha256 bundleBytes⟩

section Reading
variable {bytes : List UInt8} {index count value offset : ℕ}

theorem toDouble_of_lt {n : ℕ} (h : n < 2 ^ 53) : toDouble n = n := by
  have hshift : Nat.log2 n - 52 = 0 := by
    rcases Nat.eq_zero_or_pos n with rfl | hpos
    · decide
    · have := (Nat.log2_lt (by omega)).mpr h
      omega
  unfold toDouble
  rw [hshift]
  simp [Nat.mod_one]

theorem shift_or {byte : ℕ} (h : byte < 256) : value <<< 8 ||| byte = value * 256 + byte := by
  have hor := Nat.two_pow_add_eq_or_of_lt (i := 8) h value
  rw [Nat.shiftLeft_eq, mul_comm, ← hor]

theorem readByte_result (h : index < bytes.length) :
    (readByte bytes index).result = .ok (bytes[index]).toNat := by
  rw [readByte, getElem?_eq_getElem h]

theorem decodeFrom_result (h : index + count ≤ bytes.length) :
    (decodeFrom bytes count index value).result = .ok (((bytes.drop index).take count).foldl
      (fun value byte => value * 256 + byte.toNat) value) := by
  induction count generalizing index value with
  | zero => rw [take_zero]; rfl
  | succ count ih =>
    have hlt : index < bytes.length := by omega
    rw [decodeFrom, bind_result, readByte_result hlt, ok_bind, ih (by omega),
      shift_or (bytes[index]).toNat_lt, ← getElem_cons_drop hlt, take_succ_cons,
      foldl_cons]

theorem decodeFrom_sound (h : index + count ≤ bytes.length) :
    (decodeFrom bytes count index value).Sound bytes := by
  induction count generalizing index value with
  | zero => exact sound_pure _ _
  | succ count ih =>
    refine Sound.bind ?_ fun byte _ => ih (by omega)
    exact forall_mem_singleton.mpr (show index < bytes.length by omega)

theorem decodeU64Be_result (h : offset + 8 ≤ bytes.length) :
    (decodeU64Be bytes offset).result = .ok (BigEndian.decode ((bytes.drop offset).take 8)) := by
  have hle : ¬offset + KA_BUNDLE_U64_PREFIX_BYTES_V1 > bytes.length := Nat.not_lt.mpr h
  rw [decodeU64Be, bind_result, check_result, require_of hle, ok_bind]
  exact decodeFrom_result h

theorem decodeU64Be_inv (h : (decodeU64Be bytes offset).result = .ok value) :
    offset + 8 ≤ bytes.length ∧ value = BigEndian.decode ((bytes.drop offset).take 8) := by
  have hcheck := h
  rw [decodeU64Be, bind_result, check_result, bind_eq_ok] at hcheck
  obtain ⟨_, hle, -⟩ := hcheck
  have hle : offset + 8 ≤ bytes.length := Nat.not_lt.mp (require_eq_ok.mp hle)
  rw [decodeU64Be_result hle] at h
  cases h
  exact ⟨hle, rfl⟩

theorem decodeU64Be_sound (bytes : List UInt8) (offset : ℕ) :
    (decodeU64Be bytes offset).Sound bytes := by
  refine Sound.bind (sound_check _ _) fun _ hle => ?_
  exact decodeFrom_sound (Nat.not_lt.mp (require_eq_ok.mp hle))

end Reading

section Lengths
variable {p s total : ℕ}

theorem calculate_eq_ok : calculateOpaqueKaBundleByteLengthV1 p s = .ok total ↔
    16 + p + s ≤ MAX_KA_BUNDLE_BYTES_V1 ∧ total = 16 + p + s := by
  have hmin : MIN_KA_BUNDLE_BYTES_V1 = 16 := rfl
  have hmax : MAX_KA_BUNDLE_BYTES_V1 = 1073741824 := rfl
  have hu64 : MAX_U64 = 18446744073709551615 := rfl
  simp only [calculateOpaqueKaBundleByteLengthV1, assertU64Length,
    assertOpaqueKaBundleByteLengthV1, bind_eq_ok, require_eq_ok, pure_eq_ok, hmin, hmax, hu64,
    exists_const]
  omega

end Lengths

section Codec
variable {sha256} {p s b : List UInt8} {enc : EncodedOpaqueKaBundle} {d : DecodedOpaqueKaBundle}

/-- The frame of two byte strings. -/
def bundleOf (p s : List UInt8) : List UInt8 :=
  BigEndian.encode 8 p.length ++ p ++ BigEndian.encode 8 s.length ++ s

theorem bundleOf_length (p s : List UInt8) : (bundleOf p s).length = 16 + p.length + s.length := by
  simp only [bundleOf, length_append, BigEndian.length_encode]
  omega

/-- The limit of a frame, under which it can be written. -/
def Fits (p s : List UInt8) : Prop := 16 + p.length + s.length ≤ MAX_KA_BUNDLE_BYTES_V1

theorem encodeU64Be_ok {n : ℕ} (h : n ≤ MAX_KA_BUNDLE_BYTES_V1) :
    encodeU64Be n = .ok (BigEndian.encode 8 n) := by
  have hle : ¬n > MAX_U64 := Nat.not_lt.mpr (h.trans (by decide))
  rw [encodeU64Be, assertU64Length, require_of hle]
  rfl

/-- The four parts of a frame are where the decoder looks for them. -/
theorem bundleOf_parts (p s : List UInt8) :
    (bundleOf p s).take 8 = BigEndian.encode 8 p.length ∧
      ((bundleOf p s).take (8 + p.length)).drop 8 = p ∧
      ((bundleOf p s).drop (8 + p.length)).take 8 = BigEndian.encode 8 s.length ∧
      ((bundleOf p s).take (8 + p.length + 8 + s.length)).drop (8 + p.length + 8) = s := by
  have hhead : (BigEndian.encode 8 p.length ++ p).length = 8 + p.length := by
    rw [length_append, BigEndian.length_encode]
  have hbundle : bundleOf p s = BigEndian.encode 8 p.length ++ p ++
      (BigEndian.encode 8 s.length ++ s) := append_assoc _ _ _
  have hdrop : (bundleOf p s).drop (8 + p.length) = BigEndian.encode 8 s.length ++ s := by
    rw [hbundle]
    exact drop_left' hhead
  refine ⟨?_, ?_, ?_, ?_⟩
  · rw [hbundle, append_assoc]
    exact take_left' (BigEndian.length_encode _ _)
  · rw [hbundle, take_left' hhead]
    exact drop_left' (BigEndian.length_encode _ _)
  · rw [hdrop]
    exact take_left' (BigEndian.length_encode _ _)
  · rw [take_of_length_le (by rw [bundleOf_length]; omega), ← drop_drop, hdrop]
    exact drop_left' (BigEndian.length_encode _ _)

theorem encode_eq_ok : encodeOpaqueKaBundleV1 sha256 p s = .ok enc ↔
    Fits p s ∧ enc = ⟨bundleOf p s, computeKaProjectionDigestV1 sha256 p,
      blobDigestOf sha256 (bundleOf p s)⟩ := by
  by_cases hfits : Fits p s
  · have hp : p.length ≤ MAX_KA_BUNDLE_BYTES_V1 := by unfold Fits at hfits; omega
    have hs : s.length ≤ MAX_KA_BUNDLE_BYTES_V1 := by unfold Fits at hfits; omega
    rw [encodeOpaqueKaBundleV1, calculate_eq_ok.mpr ⟨hfits, rfl⟩, ok_bind, encodeU64Be_ok hp,
      ok_bind, encodeU64Be_ok hs, ok_bind, pure_eq_ok, eq_comm]
    change enc = ⟨bundleOf p s, computeKaProjectionDigestV1 sha256
      (((bundleOf p s).take (8 + p.length)).drop 8), _⟩ ↔ _
    rw [(bundleOf_parts p s).2.1]
    exact ⟨fun h => ⟨hfits, h⟩, And.right⟩
  · refine ⟨fun h => ?_, fun h => absurd h.1 hfits⟩
    rw [encodeOpaqueKaBundleV1, bind_eq_ok] at h
    obtain ⟨total, htotal, -⟩ := h
    exact absurd (calculate_eq_ok.mp htotal).1 hfits

theorem encode_declared {offset n : ℕ} (h : (decodeU64Be b offset).result = .ok n) :
    BigEndian.encode 8 n = (b.drop offset).take 8 := by
  obtain ⟨hle, rfl⟩ := decodeU64Be_inv h
  have hlen : ((b.drop offset).take 8).length = 8 := by
    rw [length_take, length_drop]
    omega
  have hback := BigEndian.encode_decode ((b.drop offset).take 8)
  rwa [hlen] at hback

/-- Bytes split in a length, as many bytes, another length and the rest. -/
theorem eq_bundleOf {n m : ℕ} (hn : BigEndian.encode 8 n = b.take 8)
    (hm : BigEndian.encode 8 m = (b.drop (8 + n)).take 8) (hlen : b.length = 16 + n + m) :
    b = bundleOf ((b.take (8 + n)).drop 8) ((b.take (8 + n + 8 + m)).drop (8 + n + 8)) := by
  have hp : ((b.take (8 + n)).drop 8).length = n := by
    rw [length_drop, length_take]
    omega
  have hs : (b.take (8 + n + 8 + m)).drop (8 + n + 8) = (b.drop (8 + n)).drop 8 := by
    rw [take_of_length_le (by omega), drop_drop]
  have hslen : ((b.drop (8 + n)).drop 8).length = m := by
    rw [length_drop, length_drop]
    omega
  rw [hs, bundleOf, hp, hslen, hn, hm, append_assoc, take_append_drop]
  have hhead : b.take 8 ++ (b.take (8 + n)).drop 8 = b.take (8 + n) := by
    conv_rhs => rw [← take_append_drop 8 (b.take (8 + n))]
    rw [take_take, Nat.min_eq_left (by omega)]
  rw [hhead, take_append_drop]

/-- A decoded frame is the frame of what was decoded. -/
theorem decode_inv (h : (decodeOpaqueKaBundleV1 sha256 b).result = .ok d) :
    Fits d.projectionBytes d.sealBytes ∧ b = bundleOf d.projectionBytes d.sealBytes ∧
      d.projectionDigest = computeKaProjectionDigestV1 sha256 d.projectionBytes ∧
      d.blobDigest = blobDigestOf sha256 b := by
  simp only [decodeOpaqueKaBundleV1, bind_result, check_result, bind_eq_ok, require_eq_ok,
    calculate_eq_ok] at h
  obtain ⟨-, hlen, n, hn, -, ⟨hsmall, rfl⟩, -, hmin, n', hn', m, hm, -, ⟨hfits, rfl⟩, -, hle, -, hge,
    m', hm', h⟩ := h
  have hmax : MAX_KA_BUNDLE_BYTES_V1 = 1073741824 := rfl
  have hnumber : n' = n := (Except.ok.inj hn').symm.trans (toDouble_of_lt (by omega))
  have hnumber' : m' = m := (Except.ok.inj hm').symm.trans (toDouble_of_lt (by omega))
  subst hnumber hnumber'
  obtain ⟨p, hp, s, hs, hd⟩ := h
  cases hp
  cases hs
  cases hd
  have hb : b = bundleOf _ _ := eq_bundleOf (encode_declared hn) (encode_declared hm) (by omega)
  refine ⟨?_, hb, rfl, rfl⟩
  have hlength := congrArg length hb
  rw [bundleOf_length] at hlength
  unfold Fits
  exact hlength ▸ (by omega)

/-- The frame of two byte strings decodes to them. -/
theorem decode_bundleOf (hfits : Fits p s) :
    (decodeOpaqueKaBundleV1 sha256 (bundleOf p s)).result =
      .ok ⟨p, s, computeKaProjectionDigestV1 sha256 p, blobDigestOf sha256 (bundleOf p s)⟩ := by
  have hmax : MAX_KA_BUNDLE_BYTES_V1 = 1073741824 := rfl
  have hmin : MIN_KA_BUNDLE_BYTES_V1 = 16 := rfl
  have hlen := bundleOf_length p s
  unfold Fits at hfits
  obtain ⟨hhead, hp, hseal, hs⟩ := bundleOf_parts p s
  have hn : (decodeU64Be (bundleOf p s) 0).result = .ok p.length := by
    rw [decodeU64Be_result (by omega), drop_zero, hhead, BigEndian.decode_encode (by omega)]
  have hm : (decodeU64Be (bundleOf p s) (8 + p.length)).result = .ok s.length := by
    rw [decodeU64Be_result (by omega), hseal, BigEndian.decode_encode (by omega)]
  have hnumber : (number p.length).result = .ok p.length := by
    rw [number, toDouble_of_lt (by omega)]
  have hnumber' : (number s.length).result = .ok s.length := by
    rw [number, toDouble_of_lt (by omega)]
  simp only [decodeOpaqueKaBundleV1, bind_result, check_result, bind_eq_ok, require_eq_ok,
    calculate_eq_ok, assertOpaqueKaBundleByteLengthV1]
  refine ⟨(), by omega, _, hn, _, ⟨by omega, rfl⟩, (), by omega, _, hnumber, _, hm, _,
    ⟨by omega, rfl⟩, (), by omega, (), by omega, _, hnumber', _, rfl, _, rfl, ?_⟩
  change Except.ok (DecodedOpaqueKaBundle.mk (((bundleOf p s).take (8 + p.length)).drop 8)
    (((bundleOf p s).take (8 + p.length + 8 + s.length)).drop (8 + p.length + 8))
    (computeKaProjectionDigestV1 sha256 (((bundleOf p s).take (8 + p.length)).drop 8)) _) = _
  rw [hp, hs]

/-- Whatever the bytes are, the decoder reads inside them and converts no length that is not
exact. -/
theorem decode_sound (b : List UInt8) : (decodeOpaqueKaBundleV1 sha256 b).Sound b := by
  have hmax : MAX_KA_BUNDLE_BYTES_V1 = 1073741824 := rfl
  have hconvert : ∀ n, n < 2 ^ 53 → (number n).Sound b := fun n hn =>
    forall_mem_singleton.mpr (toDouble_of_lt hn)
  unfold decodeOpaqueKaBundleV1
  refine Sound.bind (sound_check _ _) fun _ _ => ?_
  refine Sound.bind (decodeU64Be_sound _ _) fun n _ => ?_
  refine Sound.bind (sound_check _ _) fun total htotal => ?_
  obtain ⟨hsmall, rfl⟩ := calculate_eq_ok.mp htotal
  refine Sound.bind (sound_check _ _) fun _ hmin => ?_
  have hmin := require_eq_ok.mp hmin
  refine Sound.bind (hconvert n (by omega)) fun n' hn' => ?_
  obtain rfl : n' = n := (Except.ok.inj hn').symm.trans (toDouble_of_lt (by omega))
  refine Sound.bind (decodeU64Be_sound _ _) fun m _ => ?_
  refine Sound.bind (sound_check _ _) fun total htotal => ?_
  obtain ⟨hfits, rfl⟩ := calculate_eq_ok.mp htotal
  refine Sound.bind (sound_check _ _) fun _ hle => ?_
  have hle := require_eq_ok.mp hle
  refine Sound.bind (sound_check _ _) fun _ _ => ?_
  refine Sound.bind (hconvert m (by omega)) fun m' hm' => ?_
  obtain rfl : m' = m := (Except.ok.inj hm').symm.trans (toDouble_of_lt (by omega))
  have hwidth : KA_BUNDLE_U64_PREFIX_BYTES_V1 = 8 := rfl
  refine Sound.bind (forall_mem_singleton.mpr ⟨by omega, by omega⟩) fun _ _ => ?_
  refine Sound.bind (forall_mem_singleton.mpr ⟨by omega, by omega⟩) fun _ _ => ?_
  exact sound_pure _ _

end Codec

/-- Decoding inverts encoding, a byte string decodes exactly when it is the frame of two byte
strings, which it determines, and no input makes the decoder read outside it or round a length. -/
theorem opaqueKaBundle_codec :
    (∀ p s : List UInt8, 16 + p.length + s.length ≤ MAX_KA_BUNDLE_BYTES_V1 →
      ∃ enc, encodeOpaqueKaBundleV1 sha256 p s = .ok enc ∧
        (decodeOpaqueKaBundleV1 sha256 enc.bundleBytes).result =
          .ok ⟨p, s, enc.projectionDigest, enc.blobDigest⟩) ∧
      (∀ b, (∃ d, (decodeOpaqueKaBundleV1 sha256 b).result = .ok d) ↔
        ∃! ps : List UInt8 × List UInt8, ∃ enc,
          encodeOpaqueKaBundleV1 sha256 ps.1 ps.2 = .ok enc ∧ enc.bundleBytes = b) ∧
      ∀ b e, (decodeOpaqueKaBundleV1 sha256 b).result = .error e →
        ∀ a ∈ (decodeOpaqueKaBundleV1 sha256 b).accesses, a.Sound b := by
  refine ⟨?_, ?_, fun b e _ => decode_sound b⟩
  · intro p s hfits
    exact ⟨_, encode_eq_ok.mpr ⟨hfits, rfl⟩, decode_bundleOf hfits⟩
  · intro b
    constructor
    · rintro ⟨d, hd⟩
      obtain ⟨hfits, hb, -, -⟩ := decode_inv hd
      refine ⟨(d.projectionBytes, d.sealBytes), ⟨_, encode_eq_ok.mpr ⟨hfits, rfl⟩, hb.symm⟩, ?_⟩
      rintro ⟨p, s⟩ ⟨enc, henc, rfl⟩
      obtain ⟨hfits', rfl⟩ := encode_eq_ok.mp henc
      rw [decode_bundleOf hfits'] at hd
      cases hd
      rfl
    · rintro ⟨⟨p, s⟩, ⟨enc, henc, rfl⟩, -⟩
      obtain ⟨hfits, rfl⟩ := encode_eq_ok.mp henc
      exact ⟨_, decode_bundleOf hfits⟩

/-- A projection of two bytes with an empty seal, and a frame that declares `2 ^ 64 - 1` bytes. -/
theorem opaqueKaBundle_codec_twoBytes :
    (∃ enc, encodeOpaqueKaBundleV1 (fun _ => ⟨replicate 32 0, rfl⟩) [1, 2] [] = .ok enc ∧
        (decodeOpaqueKaBundleV1 (fun _ => ⟨replicate 32 0, rfl⟩) enc.bundleBytes).result =
          .ok ⟨[1, 2], [], enc.projectionDigest, enc.blobDigest⟩) ∧
      let traced := decodeOpaqueKaBundleV1 (fun _ => ⟨replicate 32 0, rfl⟩) (replicate 16 255)
      traced.accesses.length = 8 ∧ ∀ a ∈ traced.accesses, a.Sound (replicate 16 255) :=
  ⟨(opaqueKaBundle_codec _).1 [1, 2] [] (by decide), rfl,
    (opaqueKaBundle_codec _).2.2 _ .lengthOverflow rfl⟩

end Dkg.KaBundle
