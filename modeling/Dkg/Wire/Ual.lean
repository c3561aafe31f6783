import Dkg.Wire.Scalars

/-!
Deterministic UALs of knowledge assets: `did:dkg:<chain>/<author>/<number>`.
-/

namespace Dkg.Wire
open Revert Utf16 Json

/-- What `parseDeterministicKnowledgeAssetUal` throws. -/
inductive UalError where
  | tooLong
  | notSafeIri
  | noMatch
  | networkTooLong
  | numberTooLong
  | numberTooLarge
deriving DecidableEq

/-- The white space of `trim` and of `\s`. -/
def isSpace (u : ℕ) : Bool :=
  decide (0x09 ≤ u ∧ u ≤ 0x0d) || decide (0x2000 ≤ u ∧ u ≤ 0x200a) ||
    [0x20, 0xa0, 0x1680, 0x2028, 0x2029, 0x202f, 0x205f, 0x3000, 0xfeff].contains u

def trim (t : Text) : Text := (((t.dropWhile isSpace).reverse).dropWhile isSpace).reverse

def isAlpha (u : ℕ) : Bool := decide (0x41 ≤ u ∧ u ≤ 0x5a) || decide (0x61 ≤ u ∧ u ≤ 0x7a)

def isSchemeUnit (u : ℕ) : Bool := isAlpha u || isDigit u || (text "+.-").contains u

def isIriUnit (u : ℕ) : Bool :=
  !(isSpace u || decide (u ≤ 0x20) ||
    [0x3c, 0x3e, 0x22, 0x7b, 0x7d, 0x7c, 0x5c, 0x5e, 0x60].contains u)

/-- `isSafeIri`: a scheme, a colon and safe characters. -/
def isSafeIri (value : Text) : Bool :=
  let (scheme, rest) := value.span isSchemeUnit
  (scheme.head?.any isAlpha) &&
    match rest with
    | 0x3a :: body => !body.isEmpty && body.all isIriUnit
    | _ => false

def isHexUnit (u : ℕ) : Bool := isLowerHex u || decide (0x41 ≤ u ∧ u ≤ 0x46)

/-- The groups that `DETERMINISTIC_KA_UAL_RE` captures. -/
def matchUal (input : Text) : Option (Text × Text × Text) :=
  if input.take 8 = text "did:dkg:" then
    let (chainId, rest) := (input.drop 8).span (· != 0x2f)
    let address := (rest.drop 1).take 42
    let after := (rest.drop 1).drop 42
    let number := after.drop 1
    if !chainId.isEmpty ∧ rest.take 1 = text "/" ∧ address.length = 42 ∧
        address.take 2 = text "0x" ∧ (address.drop 2).all isHexUnit ∧ after.take 1 = text "/" ∧
        !number.isEmpty ∧ number.all isDigit then
      some (chainId, address, number)
    else none
  else none

def MAX_KNOWLEDGE_ASSET_NUMBER : ℕ := 2 ^ 96 - 1
def MAX_CANONICAL_KNOWLEDGE_ASSET_NUMBER_DIGITS_V1 : ℕ :=
  (digitsOf MAX_KNOWLEDGE_ASSET_NUMBER).length
def MAX_CANONICAL_DETERMINISTIC_UAL_BYTES_V1 : ℕ :=
  (text "did:dkg:").length + MAX_NETWORK_ID_BYTES_V1 + (text "/").length + (text "0x").length + 40 +
    (text "/").length + MAX_CANONICAL_KNOWLEDGE_ASSET_NUMBER_DIGITS_V1

/-- `canonicalKnowledgeAssetAgentAddress` of an EVM address. -/
def canonicalKnowledgeAssetAgentAddress (address : Text) : Text :=
  address.map fun u => if 0x41 ≤ u ∧ u ≤ 0x5a then u + 0x20 else u

/-- `DeterministicKnowledgeAssetUalParts`. -/
structure UalParts where
  ual : Text
  chainId : Text
  agentAddress : Text
  kaNumber : Text

def parseDeterministicKnowledgeAssetUal (rawUal : Text) : Except UalError UalParts := do
  let input := trim rawUal
  require (¬input.length > MAX_CANONICAL_DETERMINISTIC_UAL_BYTES_V1) .tooLong
  require (isSafeIri input = true) .notSafeIri
  match matchUal input with
  | none => .error .noMatch
  | some (chainId, rawAgentAddress, rawKaNumber) =>
    require (¬chainId.length > MAX_NETWORK_ID_BYTES_V1) .networkTooLong
    require (¬rawKaNumber.length > MAX_CANONICAL_KNOWLEDGE_ASSET_NUMBER_DIGITS_V1) .numberTooLong
    let agentAddress := canonicalKnowledgeAssetAgentAddress rawAgentAddress
    let kaNumberValue := decimalNumber rawKaNumber
    require (¬kaNumberValue > MAX_KNOWLEDGE_ASSET_NUMBER) .numberTooLarge
    let kaNumber := digitsOf kaNumberValue
    return {
      ual := text "did:dkg:" ++ chainId ++ text "/" ++ agentAddress ++ text "/" ++ kaNumber
      chainId, agentAddress, kaNumber }

/-- The parts make up the UAL, and the number is in decimal. -/
theorem parseDeterministicKnowledgeAssetUal_ok {rawUal : Text} {parts : UalParts}
    (hok : parseDeterministicKnowledgeAssetUal rawUal = .ok parts) :
    parts.ual = text "did:dkg:" ++ parts.chainId ++ text "/" ++ parts.agentAddress ++ text "/" ++
      parts.kaNumber ∧ ∃ n, parts.kaNumber = digitsOf n := by
  obtain ⟨_, -, hok⟩ := bind_eq_ok.mp hok
  obtain ⟨_, -, hok⟩ := bind_eq_ok.mp hok
  split at hok
  · cases hok
  · obtain ⟨_, -, hok⟩ := bind_eq_ok.mp hok
    obtain ⟨_, -, hok⟩ := bind_eq_ok.mp hok
    obtain ⟨_, -, hok⟩ := bind_eq_ok.mp hok
    cases hok
    exact ⟨rfl, _, rfl⟩

end Dkg.Wire
