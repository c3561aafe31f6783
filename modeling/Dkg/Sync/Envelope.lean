import Dkg.Lib.JsMap
import Dkg.Lib.Revert
import Dkg.Skolem.Terms

/-!
The metadata of a durable sync batch: how its rows are taken in, which subjects carry an integrity
envelope, and which knowledge assets they describe.
-/

namespace Dkg.Sync
open Skolem (Text quote isLineTerminator isBlankNode isLiteral)
open Revert

/-- The ontology terms that the verifier reads, and all others. -/
inductive Predicate
  | merkleRoot
  | contentScopeVersion
  | kaUal
  | assertionVersion
  | assertionGraph
  | batchId
  | status
  | reservedUal
  | privateMerkleRoot
  | rootEntity
  | partOf
  | authenticatedSubGraphName
  | other (iri : Text)
deriving DecidableEq

structure Quad where
  subject : Text
  predicate : Predicate
  object : Text
  graph : Text
deriving DecidableEq

abbrev Bytes := List UInt8

def toHex (bytes : Bytes) : Text :=
  bytes.flatMap fun b => [Nat.digitChar (b.toNat / 16), Nat.digitChar (b.toNat % 16)]

/-- After the opening quote: up to the last quote that ends the text or stands before a datatype
or a language tag. -/
def literalBody : Text → Option Text
  | [] => none
  | c :: rest =>
    match literalBody rest with
    | some body => some (c :: body)
    | none =>
      if c = quote ∧ (rest = [] ∨ ['^', '^'].isPrefixOf rest ∨ rest.head? = some '@') then some []
      else none

def stripLiteral (raw : Text) : Text :=
  match raw with
  | [] => raw
  | c :: rest =>
    -- the pattern's dot stops at a line terminator
    if c = quote ∧ ¬rest.any isLineTerminator then (literalBody rest).getD raw else raw

def parseInteger (raw field : Text) : Except Text ℤ :=
  let negative := raw.head? = some '-'
  let digits := if negative then raw.drop 1 else raw
  if digits ≠ [] ∧ digits.all Char.isDigit then
    .ok (if negative then -(Nat.ofDigitChars 10 digits 0 : ℤ) else Nat.ofDigitChars 10 digits 0)
  else .error ("invalid ".toList ++ field ++ ": ".toList ++ raw)

def intText (n : ℤ) : Text :=
  if n < 0 then '-' :: Nat.toDigits 10 n.natAbs else Nat.toDigits 10 n.natAbs

def isIriMetaSubject (term : Text) : Bool := term ≠ [] ∧ ¬isBlankNode term ∧ ¬isLiteral term

def isHexDigit (c : Char) : Bool :=
  c.isDigit || (decide ('a' ≤ c) && decide (c ≤ 'f')) || (decide ('A' ≤ c) && decide (c ≤ 'F'))

/-- `did:dkg:` -/
def didDkg : Text := ['d', 'i', 'd', ':', 'd', 'k', 'g', ':']

/-- `did:dkg:`, a network, an agent address and a number, between slashes. A malformed name of
that shape counts too. -/
def isDeterministicKaMetadataSubject (subject : Text) : Bool :=
  match subject.splitOn '/' with
  | [network, agent, number] =>
    didDkg.isPrefixOf network && decide (didDkg.length < network.length) &&
      ['0', 'x'].isPrefixOf agent && decide (agent.length = 42) && (agent.drop 2).all isHexDigit &&
      !number.isEmpty && number.all Char.isDigit
  | _ => false

def RECEIVER_OWNED_META_PREDICATES : List Predicate := [.authenticatedSubGraphName]

/-- The rows that verification sees. -/
def isAdmissible (q : Quad) : Bool :=
  isIriMetaSubject q.subject ∧ q.predicate ∉ RECEIVER_OWNED_META_PREDICATES

structure PreparedDurableMeta where
  originalMetaQuads : List Quad
  verificationView : List Quad
  admissibleOriginalIndexes : List ℕ
  droppedNonIriSubjectTriples : ℕ
  droppedReceiverOwnedTriples : ℕ

def prepareDurableMeta (metaQuads : List Quad) : PreparedDurableMeta where
  originalMetaQuads := metaQuads
  verificationView := metaQuads.filter isAdmissible
  admissibleOriginalIndexes := (metaQuads.zipIdx.filter fun e => isAdmissible e.1).map Prod.snd
  droppedNonIriSubjectTriples := metaQuads.countP fun q => !isIriMetaSubject q.subject
  droppedReceiverOwnedTriples := metaQuads.countP fun q =>
    isIriMetaSubject q.subject && decide (q.predicate ∈ RECEIVER_OWNED_META_PREDICATES)

/-! The index of a batch: rows by subject, data by graph, and the subjects with an envelope. -/

/-- `metaBySubject.get(subject) ?? []`. -/
def rowsOf (view : List Quad) (subject : Text) : List Quad :=
  view.filter fun q => q.subject = subject

/-- `metaBySubject.values()`, one after another. -/
def rowsBySubject (view : List Quad) : List Quad :=
  (JsSet.ofList (view.map Quad.subject)).flatMap (rowsOf view)

/-- The data quads at `dataIndexesByGraph.get(graph) ?? []`. -/
def quadsOf (data : List Quad) (graph : Text) : List Quad := data.filter fun q => q.graph = graph

def merkleSubjects (view : List Quad) : List Text :=
  JsSet.ofList ((view.filter fun q => q.predicate = .merkleRoot).map Quad.subject)

def markerSubjects (view : List Quad) : List Text :=
  JsSet.ofList ((view.filter fun q => q.predicate = .contentScopeVersion ∧
    isDeterministicKaMetadataSubject q.subject).map Quad.subject)

def integritySubjects (view : List Quad) : List Text :=
  JsSet.ofList (merkleSubjects view ++ markerSubjects view)

def distinctObjects (rows : List Quad) (p : Predicate) : List Text :=
  JsSet.ofList ((rows.filter fun q => q.predicate = p).map fun q => stripLiteral q.object)

inductive LogLevel
  | debug
  | warn
deriving DecidableEq

structure LogEntry where
  level : LogLevel
  message : Text
deriving DecidableEq

/-- What is rejected is a warning, unless unverified data is accepted anyway. -/
def rejectionLevel (acceptUnverified : Bool) : LogLevel :=
  if acceptUnverified then .debug else .warn

structure GraphScopedDescriptor where
  assertionGraph : Text
  publicTripleCount : ℕ
  privateRoot : Option Bytes
  claimedRootHex : Text
  metadataDigestHex : Text
deriving DecidableEq

/-- What the verifier takes from other packages. A function that can throw returns the message. -/
structure Imports where
  parseGraphScopedDescriptor : Text → List Quad → Except Text GraphScopedDescriptor
  computeStructuredKCRoot : List Quad → List Bytes → Except Text Bytes
  /-- Whether the rows of a subject form a complete author seal. -/
  parseGraphScopedAssertionSealCandidate : List Quad → Text → Bool
  skolemizeByEntity : List Quad → List (Text × List Quad)

/-- The units of a text in UTF-16. -/
def unitsOf (t : Text) : List ℕ :=
  t.flatMap fun c =>
    if c.toNat < 0x10000 then [c.toNat]
    else [0xd800 + (c.toNat - 0x10000) / 0x400, 0xdc00 + (c.toNat - 0x10000) % 0x400]

/-- `Array.prototype.sort`, by units. -/
def sort (texts : List Text) : List Text := texts.insertionSort fun a b => unitsOf a ≤ unitsOf b

inductive Candidate
  | graphScoped (ual : Text) (descriptor : GraphScopedDescriptor)
  | legacy (ual : Text)
deriving DecidableEq

def Candidate.ual : Candidate → Text
  | .graphScoped ual _ => ual
  | .legacy ual => ual

def Candidate.graphScoped? : Candidate → Option (Text × GraphScopedDescriptor)
  | .graphScoped ual d => some (ual, d)
  | .legacy _ => none

def Candidate.legacy? : Candidate → Option Text
  | .graphScoped .. => none
  | .legacy ual => some ual

def GRAPH_KA_CONTENT_SCOPE_VERSION : ℤ := 2

structure IntegrityMetadataRead where
  candidates : List Candidate := []
  invalidKcUals : List Text := []
  fatalUnscopedFailure : Bool := false
  logs : List LogEntry := []

section Read
variable (imports : Imports) (view : List Quad) (acceptUnverified : Bool)

/-- The body of the `try` for one subject, and the rootless case before it. -/
def readSubject (subject : Text) : Except Text Candidate :=
  let rows := rowsOf view subject
  let markerValues := distinctObjects rows .contentScopeVersion
  if markerValues = [] then .ok (.legacy subject)
  else do
    let parsed ← markerValues.mapM (parseInteger · "contentScopeVersion".toList)
    match JsSet.ofList parsed with
    | [version] =>
      require (subject ∈ merkleSubjects view) "missing merkleRoot metadata".toList
      if version = 1 then pure (.legacy subject)
      else do
        require (version = GRAPH_KA_CONTENT_SCOPE_VERSION)
          ("unsupported contentScopeVersion ".toList ++ intText version)
        let descriptor ← imports.parseGraphScopedDescriptor subject rows
        pure (.graphScoped subject descriptor)
    | _ => .error "ambiguous contentScopeVersion metadata".toList

def invalidEntry (ual message : Text) : LogEntry where
  level := rejectionLevel acceptUnverified
  message := "Invalid graph-scoped KA metadata for ".toList ++ ual ++ ": ".toList ++ message

def IntegrityMetadataRead.addSubject (r : IntegrityMetadataRead) (subject : Text) :
    IntegrityMetadataRead :=
  match readSubject imports view subject with
  | .ok c => { r with candidates := r.candidates ++ [c] }
  | .error message =>
    { r with
      invalidKcUals := JsSet.add r.invalidKcUals subject
      fatalUnscopedFailure := true
      logs := r.logs ++ [invalidEntry acceptUnverified subject message] }

/-- One graph belongs to one asset: a second subject that claims it takes both down. -/
def claimGraph (s : List (Text × Text) × IntegrityMetadataRead) (c : Candidate) :
    List (Text × Text) × IntegrityMetadataRead :=
  match c with
  | .legacy _ => s
  | .graphScoped ual d =>
    match (JsMap.get? s.1 d.assertionGraph).filter fun owner => owner ≠ [] ∧ owner ≠ ual with
    | some owner =>
      (s.1, { s.2 with
        invalidKcUals := JsSet.add (JsSet.add s.2.invalidKcUals owner) ual
        fatalUnscopedFailure := true
        logs := s.2.logs ++ [⟨rejectionLevel acceptUnverified,
          "Graph-scoped KA assertion graph ".toList ++ d.assertionGraph ++
            " has multiple owners".toList⟩] })
    | none => (JsMap.set s.1 d.assertionGraph ual, s.2)

/-- A graph-scoped asset has no token-level owners. -/
def IntegrityMetadataRead.rejectAlias (graphScopedUals : List Text) (r : IntegrityMetadataRead)
    (q : Quad) : IntegrityMetadataRead :=
  let owner := stripLiteral q.object
  if q.predicate ≠ .partOf ∨ owner ∉ graphScopedUals then r
  else
    { r with
      invalidKcUals := JsSet.add r.invalidKcUals owner
      fatalUnscopedFailure := true
      logs :=
        if owner ∈ r.invalidKcUals then r.logs
        else r.logs ++ [invalidEntry acceptUnverified owner
          "token-level legacy ownership binding".toList] }

def readCandidates : IntegrityMetadataRead :=
  (integritySubjects view).foldl (·.addSubject imports view acceptUnverified) {}

def readOwners : IntegrityMetadataRead :=
  let r := readCandidates imports view acceptUnverified
  (r.candidates.foldl (claimGraph acceptUnverified) ([], r)).2

def readAliases : IntegrityMetadataRead :=
  let r := readOwners imports view acceptUnverified
  let graphScopedUals := (r.candidates.filterMap Candidate.graphScoped?).map Prod.fst
  (rowsBySubject view).foldl (·.rejectAlias acceptUnverified graphScopedUals) r

def readIntegrityMetadata : IntegrityMetadataRead :=
  let r := readAliases imports view acceptUnverified
  { r with candidates := r.candidates.filter fun c => c.ual ∉ r.invalidKcUals }

end Read

end Dkg.Sync
