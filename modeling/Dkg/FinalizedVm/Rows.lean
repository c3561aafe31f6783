import Dkg.Wire.Ual

/-!
The rows of a finalized VM set: the checks a row passes for its scope, and the canonical JSON that
its leaf digest is taken of.
-/

namespace Dkg.FinalizedVm
open Revert Utf16 Json Wire List

/-- `FinalizedVmSetScopeV1`. -/
structure Scope where
  networkId : Text
  chainId : Text
  contractAddress : Text
deriving DecidableEq

/-- `FinalizedVmSetRowV1`. -/
structure Row where
  chainId : Text
  contractAddress : Text
  ordinal : Text
  ual : Text
  authorAddress : Text
  assertionVersion : Text
  assertionRoot : Text
  finalizedBlockNumber : Text
  finalizedBlockHash : Text
  placementEvidenceDigest : Text
deriving DecidableEq

/-- `FinalizedVmSetV1Error`, by code and message. -/
inductive Err where
  | scopeScalar (cause : ScalarError)
  | rowScalar (cause : ScalarError)
  | assertionVersionNotPositive
  | ualTooLong
  | ualInvalid (cause : UalError)
  | ualAlias
  | ualAuthor
  | ualNamespace
  | lane
  | order
  | rowCountExceeds
  | appendAfterFinalize
  | frontierFinalized
  | json (cause : Json.Err)

def MAX_FINALIZED_VM_SET_UAL_BYTES_V1 : ℕ := 209

def snapshotFinalizedVmSetScopeV1 (scope : Scope) : Except Err Scope := do
  Except.mapError .scopeScalar do
    assertNetworkIdV1 "scope.networkId" scope.networkId
    assertCanonicalChainId "scope.chainId" scope.chainId
    assertCanonicalEvmAddress "scope.contractAddress" scope.contractAddress
  return scope

/-- The scalars of a row: its ordinal and its assertion version. -/
def rowScalars (row : Row) : Except ScalarError (ℕ × ℕ) := do
  assertCanonicalChainId "row.chainId" row.chainId
  assertCanonicalEvmAddress "row.contractAddress" row.contractAddress
  let ordinalValue ← parseCanonicalDecimalU64 "row.ordinal" row.ordinal
  assertCanonicalEvmAddress "row.authorAddress" row.authorAddress
  let assertionVersionValue ← parseCanonicalDecimalU64 "row.assertionVersion" row.assertionVersion
  return (ordinalValue, assertionVersionValue)

/-- The scalars checked once the assertion version is known to be positive. -/
def rowDigests (row : Row) : Except ScalarError Unit := do
  assertCanonicalDigest "row.assertionRoot" row.assertionRoot
  assertCanonicalDecimalU64 "row.finalizedBlockNumber" row.finalizedBlockNumber
  assertCanonicalDigest "row.finalizedBlockHash" row.finalizedBlockHash
  assertCanonicalDigest "row.placementEvidenceDigest" row.placementEvidenceDigest

/-- `snapshotFinalizedVmSetRowForScopeV1`: the row is returned as it came, with its ordinal. -/
def snapshotFinalizedVmSetRowForScopeV1 (scope : Scope) (row : Row) : Except Err (Row × ℕ) := do
  let (ordinalValue, assertionVersionValue) ← (rowScalars row).mapError .rowScalar
  require (assertionVersionValue ≠ 0) .assertionVersionNotPositive
  (rowDigests row).mapError .rowScalar
  require (¬(row.ual.length > MAX_FINALIZED_VM_SET_UAL_BYTES_V1 ∨
    (utf8 row.ual).length > MAX_FINALIZED_VM_SET_UAL_BYTES_V1)) .ualTooLong
  let parsed ← (parseDeterministicKnowledgeAssetUal row.ual).mapError .ualInvalid
  require (parsed.ual = row.ual) .ualAlias
  require (parsed.agentAddress = row.authorAddress) .ualAuthor
  require (parsed.chainId = scope.networkId) .ualNamespace
  require (row.chainId = scope.chainId ∧ row.contractAddress = scope.contractAddress) .lane
  return (row, ordinalValue)

namespace Row

/-- The members of the row as a JSON object. -/
def members (row : Row) : List (Text × Text) :=
  [(text "chainId", row.chainId), (text "contractAddress", row.contractAddress),
    (text "ordinal", row.ordinal), (text "ual", row.ual),
    (text "authorAddress", row.authorAddress), (text "assertionVersion", row.assertionVersion),
    (text "assertionRoot", row.assertionRoot),
    (text "finalizedBlockNumber", row.finalizedBlockNumber),
    (text "finalizedBlockHash", row.finalizedBlockHash),
    (text "placementEvidenceDigest", row.placementEvidenceDigest)]

def toValue (ν : Type) (row : Row) : Value ν :=
  .object (row.members.map fun m => (m.1, .string m.2))

/-- Every field is ASCII. -/
def Ascii (row : Row) : Prop := ∀ m ∈ row.members, ∀ u ∈ m.2, u < 0x80

end Row

section Ascii
variable {label : String} {value : Text}

theorem isDigit_ascii {t : Text} (h : t.all isDigit = true) : ∀ u ∈ t, u < 0x80 := by
  intro u hu
  have hdigit := of_decide_eq_true (all_eq_true.mp h u hu)
  omega

theorem isUnsignedDecimal_ascii (h : isUnsignedDecimal value = true) : ∀ u ∈ value, u < 0x80 := by
  unfold isUnsignedDecimal at h
  rcases (Bool.or_eq_true _ _).mp h with hzero | hpos
  · rw [beq_iff_eq] at hzero
    subst hzero
    decide
  · cases value with
    | nil => exact nofun
    | cons u rest =>
      obtain ⟨hfirst, hrest⟩ := (Bool.and_eq_true _ _).mp hpos
      have hfirst := of_decide_eq_true hfirst
      exact forall_mem_cons.mpr ⟨by omega, isDigit_ascii hrest⟩

theorem parseCanonicalUnsignedDecimal_ascii {max n : ℕ} {width : Width}
    (hok : parseCanonicalUnsignedDecimal label value max width = .ok n) :
    ∀ u ∈ value, u < 0x80 := by
  obtain ⟨_, -, hok⟩ := bind_eq_ok.mp hok
  obtain ⟨_, hdecimal, -⟩ := bind_eq_ok.mp hok
  exact isUnsignedDecimal_ascii (require_eq_ok.mp hdecimal)

theorem assertCanonicalDecimalU64_ascii {x : Unit}
    (hok : assertCanonicalDecimalU64 label value = .ok x) : ∀ u ∈ value, u < 0x80 := by
  obtain ⟨_, hparse, -⟩ := bind_eq_ok.mp hok
  exact parseCanonicalUnsignedDecimal_ascii hparse

theorem assertCanonicalChainId_ascii {x : Unit}
    (hok : assertCanonicalChainId label value = .ok x) : ∀ u ∈ value, u < 0x80 := by
  obtain ⟨_, hparse, -⟩ := bind_eq_ok.mp hok
  exact parseCanonicalUnsignedDecimal_ascii hparse

theorem assertCanonicalDigest_ascii {x : Unit}
    (hok : assertCanonicalDigest label value = .ok x) : ∀ u ∈ value, u < 0x80 :=
  isHexOf_ascii (require_eq_ok.mp hok)

theorem assertCanonicalEvmAddress_ascii {x : Unit}
    (hok : assertCanonicalEvmAddress label value = .ok x) : ∀ u ∈ value, u < 0x80 := by
  obtain ⟨_, hhex, -⟩ := bind_eq_ok.mp hok
  exact isHexOf_ascii (require_eq_ok.mp hhex)

theorem assertNetworkIdV1_ascii {x : Unit}
    (hok : assertNetworkIdV1 label value = .ok x) : ∀ u ∈ value, u < 0x80 := by
  obtain ⟨_, -, hok⟩ := bind_eq_ok.mp hok
  obtain ⟨_, -, hok⟩ := bind_eq_ok.mp hok
  intro u hu
  have hunit := all_eq_true.mp (require_eq_ok.mp hok) u hu
  unfold isNetworkIdUnit isDigit at hunit
  simp only [Bool.or_eq_true, decide_eq_true_eq, contains_iff_mem] at hunit
  rcases hunit with ((hunit | hunit) | hunit) | hunit
  · omega
  · omega
  · omega
  · have hall : ∀ w ∈ text "._:-", w < 0x80 := by decide
    exact hall u hunit

end Ascii

theorem snapshotFinalizedVmSetScopeV1_ok {scope scope' : Scope}
    (hok : snapshotFinalizedVmSetScopeV1 scope = .ok scope') :
    scope' = scope ∧ ∀ u ∈ scope.networkId, u < 0x80 := by
  obtain ⟨_, hscalars, hok⟩ := bind_eq_ok.mp hok
  obtain ⟨_, hnetwork, -⟩ := bind_eq_ok.mp (mapError_eq_ok.mp hscalars)
  cases hok
  exact ⟨rfl, assertNetworkIdV1_ascii hnetwork⟩

/-- A row that is accepted has ASCII fields only. -/
theorem snapshotFinalizedVmSetRowForScopeV1_ok {scope : Scope} {row row' : Row} {n : ℕ}
    (hscope : ∀ u ∈ scope.networkId, u < 0x80)
    (hok : snapshotFinalizedVmSetRowForScopeV1 scope row = .ok (row', n)) :
    row' = row ∧ row.Ascii := by
  obtain ⟨⟨_, _⟩, hscalars, hok⟩ := bind_eq_ok.mp hok
  obtain ⟨_, -, hok⟩ := bind_eq_ok.mp hok
  obtain ⟨_, hdigests, hok⟩ := bind_eq_ok.mp hok
  obtain ⟨_, -, hok⟩ := bind_eq_ok.mp hok
  obtain ⟨parsed, hparsed, hok⟩ := bind_eq_ok.mp hok
  obtain ⟨_, hual, hok⟩ := bind_eq_ok.mp hok
  obtain ⟨_, hauthor, hok⟩ := bind_eq_ok.mp hok
  obtain ⟨_, hnetwork, hok⟩ := bind_eq_ok.mp hok
  obtain ⟨_, -, hok⟩ := bind_eq_ok.mp hok
  cases hok
  obtain ⟨_, hchain, hscalars⟩ := bind_eq_ok.mp (mapError_eq_ok.mp hscalars)
  obtain ⟨_, hcontract, hscalars⟩ := bind_eq_ok.mp hscalars
  obtain ⟨_, hordinal, hscalars⟩ := bind_eq_ok.mp hscalars
  obtain ⟨_, haddress, hscalars⟩ := bind_eq_ok.mp hscalars
  obtain ⟨_, hversion, -⟩ := bind_eq_ok.mp hscalars
  obtain ⟨_, hroot, hdigests⟩ := bind_eq_ok.mp (mapError_eq_ok.mp hdigests)
  obtain ⟨_, hnumber, hdigests⟩ := bind_eq_ok.mp hdigests
  obtain ⟨_, hhash, hplacement⟩ := bind_eq_ok.mp hdigests
  have haddress := assertCanonicalEvmAddress_ascii haddress
  have hualText : ∀ u ∈ row.ual, u < 0x80 := by
    obtain ⟨hparts, k, hk⟩ := parseDeterministicKnowledgeAssetUal_ok (mapError_eq_ok.mp hparsed)
    have hdigits : ∀ u ∈ digitsOf k, u < 0x80 := isDigit_ascii (all_eq_true.mpr digitsOf_isDigit)
    rw [← require_eq_ok.mp hual, hparts, require_eq_ok.mp hauthor, require_eq_ok.mp hnetwork, hk]
    simp only [forall_mem_append]
    exact ⟨⟨⟨⟨⟨by decide, hscope⟩, by decide⟩, haddress⟩, by decide⟩, hdigits⟩
  refine ⟨rfl, ?_⟩
  simp only [Row.Ascii, Row.members, forall_mem_cons]
  exact ⟨assertCanonicalChainId_ascii hchain, assertCanonicalEvmAddress_ascii hcontract,
    parseCanonicalUnsignedDecimal_ascii hordinal, hualText, haddress,
    parseCanonicalUnsignedDecimal_ascii hversion, assertCanonicalDigest_ascii hroot,
    assertCanonicalDecimalU64_ascii hnumber, assertCanonicalDigest_ascii hhash,
    assertCanonicalDigest_ascii hplacement, nofun⟩

end Dkg.FinalizedVm
