import Dkg.Json.Canonical

/-!
The scalars of the sync wire format: unsigned decimals, digests, addresses and network ids as
texts, and the hexadecimal form of a digest.
-/

namespace Dkg.Wire
open Revert Utf16 Json List

/-- The units of an ASCII literal. -/
def text (s : String) : Text := s.toList.map Char.toNat

inductive Width where
  | u64
  | u256
deriving DecidableEq

/-- What a validator of a scalar throws, with the label of the field. -/
inductive ScalarError where
  | notCanonicalDecimal (label : String) (width : Width)
  | outsideRange (label : String) (width : Width)
  | notDigest (label : String)
  | notAddress (label : String)
  | zeroAddress (label : String)
  | emptyNetworkId (label : String)
  | networkIdTooLong (label : String)
  | networkIdGrammar (label : String)
deriving DecidableEq

def MAX_DECIMAL_U64 : ℕ := 2 ^ 64 - 1
def MAX_DECIMAL_U256 : ℕ := 2 ^ 256 - 1

/-- `CANONICAL_UNSIGNED_DECIMAL`. -/
def isUnsignedDecimal (value : Text) : Bool :=
  value == [0x30] || match value with
    | [] => false
    | u :: rest => decide (0x31 ≤ u ∧ u ≤ 0x39) && rest.all isDigit

def MAX_SAFE_INTEGER : ℕ := 2 ^ 53 - 1

/-- `Number.isSafeInteger`. -/
def isSafeInteger (value : ℤ) : Bool :=
  decide (-(MAX_SAFE_INTEGER : ℤ) ≤ value ∧ value ≤ MAX_SAFE_INTEGER)

def isLowerHex (u : ℕ) : Bool := decide (0x30 ≤ u ∧ u ≤ 0x39) || decide (0x61 ≤ u ∧ u ≤ 0x66)

theorem isLowerHex_iff {u : ℕ} :
    isLowerHex u = true ↔ 0x30 ≤ u ∧ u ≤ 0x39 ∨ 0x61 ≤ u ∧ u ≤ 0x66 := by
  rw [isLowerHex, Bool.or_eq_true, decide_eq_true_eq, decide_eq_true_eq]

/-- `0x` and as many lowercase digits as bytes need. -/
def isHexOf (bytes : ℕ) (value : Text) : Bool :=
  value.take 2 == text "0x" && (value.drop 2).length == 2 * bytes && (value.drop 2).all isLowerHex

section Scalars
variable (label : String) (value : Text)

def parseCanonicalUnsignedDecimal (max : ℕ) (width : Width) : Except ScalarError ℕ := do
  let maxDigits := (digitsOf max).length
  require (¬value.length > maxDigits) (.outsideRange label width)
  require (isUnsignedDecimal value = true) (.notCanonicalDecimal label width)
  let parsed := decimalNumber value
  require (¬parsed > max) (.outsideRange label width)
  return parsed

def parseCanonicalDecimalU64 : Except ScalarError ℕ :=
  parseCanonicalUnsignedDecimal label value MAX_DECIMAL_U64 .u64

def assertCanonicalDecimalU64 : Except ScalarError Unit := do
  let _ ← parseCanonicalDecimalU64 label value

def assertCanonicalChainId : Except ScalarError Unit := do
  let _ ← parseCanonicalUnsignedDecimal label value MAX_DECIMAL_U256 .u256

def assertCanonicalDigest : Except ScalarError Unit :=
  require (isHexOf 32 value = true) (.notDigest label)

def assertCanonicalEvmAddress : Except ScalarError Unit := do
  require (isHexOf 20 value = true) (.notAddress label)
  require (value ≠ text "0x" ++ replicate 40 0x30) (.zeroAddress label)

def MAX_NETWORK_ID_BYTES_V1 : ℕ := 128

/-- `NETWORK_ID_PATTERN`, unit by unit. -/
def isNetworkIdUnit (u : ℕ) : Bool :=
  decide (0x41 ≤ u ∧ u ≤ 0x5a) || decide (0x61 ≤ u ∧ u ≤ 0x7a) || isDigit u ||
    (text "._:-").contains u

def assertNetworkIdV1 : Except ScalarError Unit := do
  require (value ≠ []) (.emptyNetworkId label)
  require (¬(value.length > MAX_NETWORK_ID_BYTES_V1 ∨
    (utf8 value).length > MAX_NETWORK_ID_BYTES_V1)) (.networkIdTooLong label)
  require (value.all isNetworkIdUnit = true) (.networkIdGrammar label)

end Scalars

section Decimal
variable {n m : ℕ}

theorem digitsOf_length_le (h : n ≤ m) : (digitsOf n).length ≤ (digitsOf m).length := by
  have hlen := Nat.le_length_digits_le 10 n m h
  unfold digitsOf
  split
  · split_ifs with hm
    · exact le_rfl
    · rw [length_map, length_reverse, length_singleton]
      exact length_pos_iff.mpr (Nat.digits_ne_nil_iff_ne_zero.mpr hm)
  · rw [if_neg (by omega)]
    simpa using hlen

theorem isUnsignedDecimal_digitsOf (n : ℕ) : isUnsignedDecimal (digitsOf n) = true := by
  rcases digitsOf_cases n with hzero | ⟨u, x, hux, hne⟩
  · rw [hzero]
    rfl
  · have hall : ∀ w ∈ u :: x, isDigit w = true := hux ▸ digitsOf_isDigit
    obtain ⟨hu, hx⟩ := forall_mem_cons.mp hall
    have hu := of_decide_eq_true hu
    have hfirst : decide (0x31 ≤ u ∧ u ≤ 0x39) = true := decide_eq_true ⟨by omega, hu.2⟩
    rw [hux, isUnsignedDecimal, hfirst, all_eq_true.mpr hx, Bool.and_true, Bool.or_true]

theorem parseCanonicalDecimalU64_digitsOf (label : String) (h : n ≤ MAX_DECIMAL_U64) :
    parseCanonicalDecimalU64 label (digitsOf n) = .ok n := by
  rw [parseCanonicalDecimalU64, parseCanonicalUnsignedDecimal,
    require_of (not_lt.mpr (digitsOf_length_le h)), ok_bind,
    require_of (isUnsignedDecimal_digitsOf n), ok_bind, decimalNumber_digitsOf]
  dsimp only
  rw [require_of (not_lt.mpr h)]
  rfl

end Decimal

/-- A SHA-256 digest. -/
def Digest : Type := { bytes : List UInt8 // bytes.length = 32 }

instance : DecidableEq Digest :=
  inferInstanceAs (DecidableEq { bytes : List UInt8 // bytes.length = 32 })

/-- The bytes that a digest function is given: a domain, then the chunks. -/
def digestBytes (sha256 : List UInt8 → Digest) (domain : List UInt8) (chunks : List (List UInt8)) :
    Digest :=
  sha256 (domain ++ chunks.flatten)

section Hex

def hexByte (b : UInt8) : Text := [hexDigit (b.toNat / 16), hexDigit (b.toNat % 16)]

def digestToLowerHex (d : Digest) : Text := text "0x" ++ d.1.flatMap hexByte

def hexValue (u : ℕ) : ℕ := if u ≤ 0x39 then u - 0x30 else u - 0x61 + 10

/-- The digits two at a time. -/
def hexBytes : Text → List UInt8
  | a :: b :: rest => UInt8.ofNat (hexValue a * 16 + hexValue b) :: hexBytes rest
  | _ => []

theorem hexBytes_length (t : Text) : (hexBytes t).length = t.length / 2 := by
  fun_induction hexBytes t with
  | case1 a b rest ih =>
    simp only [length_cons, ih]
    omega
  | case2 t ht =>
    match t with
    | [] => simp
    | [a] => simp
    | a :: b :: rest => exact absurd rfl (ht a b rest)

theorem isHexOf_iff {n : ℕ} {t : Text} : isHexOf n t = true ↔
    ∃ x, t = text "0x" ++ x ∧ x.length = 2 * n ∧ ∀ u ∈ x, isLowerHex u = true := by
  unfold isHexOf
  simp only [Bool.and_eq_true, beq_iff_eq, all_eq_true]
  constructor
  · rintro ⟨⟨htake, hlen⟩, hall⟩
    refine ⟨t.drop 2, ?_, hlen, hall⟩
    rw [← htake, take_append_drop]
  · rintro ⟨x, rfl, hlen, hall⟩
    exact ⟨⟨rfl, hlen⟩, hall⟩

/-- Digits after `0x`. -/
theorem ascii_hex {x : Text} (h : ∀ u ∈ x, isLowerHex u = true) : ∀ u ∈ text "0x" ++ x, u < 0x80 := by
  refine forall_mem_append.mpr ⟨by decide, fun u hu => ?_⟩
  have := isLowerHex_iff.mp (h u hu)
  omega

theorem isHexOf_ascii {n : ℕ} {t : Text} (h : isHexOf n t = true) : ∀ u ∈ t, u < 0x80 := by
  obtain ⟨x, rfl, -, hx⟩ := isHexOf_iff.mp h
  exact ascii_hex hx

def digestFromLowerHex (digest : Text) : Except ScalarError Digest :=
  if h : isHexOf 32 digest = true then
    .ok ⟨hexBytes (digest.drop 2), by
      obtain ⟨x, rfl, hlen, -⟩ := isHexOf_iff.mp h
      rw [hexBytes_length]
      show x.length / 2 = 32
      omega⟩
  else .error (.notDigest "digest")

theorem isLowerHex_hexDigit {n : ℕ} (hn : n < 16) : isLowerHex (hexDigit n) = true := by
  unfold isLowerHex hexDigit
  split
  · rw [decide_eq_true (by omega), Bool.true_or]
  · rw [decide_eq_true (p := 0x61 ≤ _ ∧ _) (by omega), Bool.or_true]

theorem hexValue_hexDigit {n : ℕ} (hn : n < 16) : hexValue (hexDigit n) = n := by
  unfold hexValue hexDigit
  split <;> split <;> omega

theorem hexBytes_flatMap (l : List UInt8) : hexBytes (l.flatMap hexByte) = l := by
  induction l with
  | nil => rfl
  | cons b l ih =>
    have hlt := b.toNat_lt
    have hhigh := hexValue_hexDigit (show b.toNat / 16 < 16 by omega)
    have hlow := hexValue_hexDigit (show b.toNat % 16 < 16 by omega)
    have hbyte : b.toNat / 16 * 16 + b.toNat % 16 = b.toNat := by omega
    rw [flatMap_cons, hexByte]
    simp only [cons_append, nil_append, hexBytes, hhigh, hlow, hbyte, ih, UInt8.ofNat_toNat]

theorem digestToLowerHex_isHex (d : Digest) : isHexOf 32 (digestToLowerHex d) = true := by
  refine isHexOf_iff.mpr ⟨d.1.flatMap hexByte, rfl, ?_, ?_⟩
  · have hsum : ∀ l : List UInt8, (l.flatMap hexByte).length = 2 * l.length := by
      intro l
      induction l with
      | nil => rfl
      | cons b l ih =>
        simp only [flatMap_cons, length_append, ih, hexByte, length_cons, length_nil]
        omega
    rw [hsum, d.2]
  · intro u hu
    obtain ⟨b, -, hb⟩ := mem_flatMap.mp hu
    have hlt := b.toNat_lt
    simp only [hexByte, mem_cons, not_mem_nil, or_false] at hb
    rcases hb with rfl | rfl
    · exact isLowerHex_hexDigit (by omega)
    · exact isLowerHex_hexDigit (by omega)

/-- Reading the hexadecimal form of a digest gives the digest. -/
theorem digestFromLowerHex_toLowerHex (d : Digest) :
    digestFromLowerHex (digestToLowerHex d) = .ok d := by
  rw [digestFromLowerHex, dif_pos (digestToLowerHex_isHex d)]
  exact congrArg Except.ok (Subtype.ext (hexBytes_flatMap d.1))

theorem digestToLowerHex_injective {d d' : Digest}
    (h : digestToLowerHex d = digestToLowerHex d') : d = d' := by
  have hread := digestFromLowerHex_toLowerHex d
  rw [h, digestFromLowerHex_toLowerHex] at hread
  exact (Except.ok.inj hread).symm

end Hex

end Dkg.Wire
