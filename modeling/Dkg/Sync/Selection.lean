import Dkg.Sync.Verification

/-!
Which rows of a durable sync batch are kept: the data of verified assets, and the metadata that
those assets or no asset at all own.
-/

namespace Dkg.Sync
open Skolem (Text)
open Revert

def SKOLEM_SUFFIX : Text := "/.well-known/genid/".toList

def findLegacyRootOwner (subject : Text) (roots : List Text) : Option Text :=
  roots.find? fun root => subject = root ∨ (root ++ SKOLEM_SUFFIX).isPrefixOf subject

/-- Whether the text ends in `/context/` and a number. -/
def endsInContextNumber (graph : Text) : Bool :=
  let digits := graph.rtakeWhile Char.isDigit
  !digits.isEmpty && "/context/".toList.isSuffixOf (graph.rdropWhile Char.isDigit)

def isDetachedLegacyProjectionGraph (graph : Text) : Bool :=
  "did:dkg:context-graph:".toList.isPrefixOf graph &&
    ("/_catalog".toList.isSuffixOf graph || endsInContextNumber graph ||
      metaSuffix.isSuffixOf graph &&
        endsInContextNumber (graph.take (graph.length - metaSuffix.length)))

def DURABLE_SYNC_CONTROL_PREDICATES : List Predicate := [.batchId, .assertionGraph, .assertionVersion]

structure SelectedMetadata where
  indexes : List ℕ
  droppedControls : ℕ
  droppedNonIriSubjectTriples : ℕ

inductive RowFate
  | kept
  | droppedControl
  | skipped
deriving DecidableEq

section Metadata
variable (imports : Imports) (view : List Quad) (admitted authenticated : List Text)
  (kaToKc : List (Text × Text))

def isGraphSealDescriptiveVersion (q : Quad) : Bool :=
  q.predicate = .assertionVersion ∧
    imports.parseGraphScopedAssertionSealCandidate (rowsOf view q.subject) q.subject

/-- Fields that a descriptor owns are controls; elsewhere the version in an author seal is not. -/
def isDurableSyncControlQuad (q : Quad) (descriptorOwned : Bool) : Bool :=
  q.predicate ∈ DURABLE_SYNC_CONTROL_PREDICATES ∧
    (descriptorOwned ∨ ¬isGraphSealDescriptiveVersion imports view q)

/-- The subjects that rows name as the asset they belong to. -/
def namedOwners (rows : List Quad) : List Text :=
  JsSet.ofList ((distinctObjects rows .kaUal ++ distinctObjects rows .reservedUal).map stripLiteral)

def integerObjects (rows : List Quad) (p : Predicate) (field : Text) : Except Text (List ℤ) :=
  (distinctObjects rows p).mapM (parseInteger · field)

/-- Both sets of rows have one version and one graph, and they are the same. -/
def repeatsScope (rows descriptorRows : List Quad) : Except Text Bool := do
  let scopeVersions ← integerObjects rows .contentScopeVersion "contentScopeVersion".toList
  let repeatedVersions ← integerObjects rows .assertionVersion "assertionVersion".toList
  let descriptorVersions ← integerObjects descriptorRows .assertionVersion "assertionVersion".toList
  let repeatedGraphs := (distinctObjects rows .assertionGraph).map stripLiteral
  let descriptorGraphs := (distinctObjects descriptorRows .assertionGraph).map stripLiteral
  pure (scopeVersions = [GRAPH_KA_CONTENT_SCOPE_VERSION] ∧ repeatedVersions.length = 1 ∧
    descriptorVersions.length = 1 ∧ repeatedVersions = descriptorVersions ∧
    repeatedGraphs.length = 1 ∧ descriptorGraphs.length = 1 ∧ repeatedGraphs = descriptorGraphs)

def isAuthenticatedSyncControl (q : Quad) : Bool :=
  if q.subject ∈ authenticated then true
  else if ((JsMap.get? kaToKc q.subject).filter (· ≠ [])).any (· ∈ authenticated) then true
  else if q.predicate = .batchId then false
  else
    match namedOwners (rowsOf view q.subject) with
    | [owner] =>
      if owner ∈ authenticated then
        match repeatsScope (rowsOf view q.subject) (rowsOf view owner) with
        | .ok same => same
        | .error _ => false
      else false
    | _ => false

/-- A row of the asset `owner`. -/
def ownedRowFate (q : Quad) (owner : Text) : RowFate :=
  if owner ∈ admitted then
    if isDurableSyncControlQuad imports view q true ∧ owner ∉ authenticated then .droppedControl
    else .kept
  else .skipped

def standaloneRowFate (q : Quad) : RowFate :=
  if isDurableSyncControlQuad imports view q false ∧
      ¬isAuthenticatedSyncControl view authenticated kaToKc q then .droppedControl
  else .kept

def metadataRowFate (q : Quad) : RowFate :=
  if q.subject ∈ merkleSubjects view ∨ q.subject ∈ markerSubjects view then
    ownedRowFate imports view admitted authenticated q q.subject
  else
    match (JsMap.get? kaToKc q.subject).filter (· ≠ []) with
    | some owner => ownedRowFate imports view admitted authenticated q owner
    | none => standaloneRowFate imports view authenticated kaToKc q

/-- The loop over the admissible rows. -/
def selectRows (prepared : PreparedDurableMeta) (fate : Quad → RowFate) : SelectedMetadata where
  indexes := prepared.admissibleOriginalIndexes.filter fun i =>
    (prepared.originalMetaQuads[i]?).any fun q => fate q = .kept
  droppedControls := prepared.droppedReceiverOwnedTriples +
    prepared.admissibleOriginalIndexes.countP fun i =>
      (prepared.originalMetaQuads[i]?).any fun q => fate q = .droppedControl
  droppedNonIriSubjectTriples := prepared.droppedNonIriSubjectTriples

def selectAdmittedMetadataIndexes (prepared : PreparedDurableMeta) : SelectedMetadata :=
  selectRows prepared
    (metadataRowFate imports prepared.verificationView admitted authenticated kaToKc)

def selectSystemOverrideMetadataIndexes (prepared : PreparedDurableMeta) : SelectedMetadata :=
  selectRows prepared (standaloneRowFate imports prepared.verificationView authenticated kaToKc)

end Metadata

structure DurableIntegritySelection where
  dataIndexes : List ℕ := []
  metaIndexes : List ℕ := []
  rejected : ℕ := 0
  droppedSyncControlTriples : ℕ := 0
  droppedNonIriSubjectTriples : ℕ := 0
  consumedUnpersistedMetaTriples : ℕ := 0
  verifiedZeroPublicAssets : ℕ := 0
  verifiedGraphScopedDataGraphs : List Text := []
  logs : List LogEntry := []

def allIndexes (quads : List Quad) : List ℕ := List.range quads.length

def droppedControlsLog (n : ℕ) : List LogEntry :=
  if n = 0 then []
  else [⟨.warn, "Dropped ".toList ++ Nat.toDigits 10 n ++
    " unverified durable sync control metadata triple(s)".toList⟩]

def droppedNonIriLog (n : ℕ) : List LogEntry :=
  if n = 0 then []
  else [⟨.warn, "Dropped ".toList ++ Nat.toDigits 10 n ++
    " non-IRI durable _meta subject triple(s) from peer ingest (#1921)".toList⟩]

/-- The selection of these data and metadata rows, nothing else being reported. -/
def DurableIntegritySelection.keep (dataIndexes : List ℕ) (selected : SelectedMetadata)
    (logs : List LogEntry) : DurableIntegritySelection where
  dataIndexes := dataIndexes
  metaIndexes := selected.indexes
  droppedSyncControlTriples := selected.droppedControls
  droppedNonIriSubjectTriples := selected.droppedNonIriSubjectTriples
  consumedUnpersistedMetaTriples :=
    selected.droppedControls + selected.droppedNonIriSubjectTriples
  logs := logs ++ droppedControlsLog selected.droppedControls ++
    droppedNonIriLog selected.droppedNonIriSubjectTriples

inductive DataFate
  | selected
  | refused
  | detached
  | unbound
deriving DecidableEq

structure IntegrityVerificationOutcome where
  hasGraphScopedCandidates : Bool
  admittedMetadataUals : List Text
  authenticatedMetadataUals : List Text
  rejectedKcUals : List Text
  graphVerification : List (Text × Bool)
  verifiedGraphScopedDataGraphs : List Text
  verifiedZeroPublicAssets : ℕ
  kaToKc : List (Text × Text)
  kcRootEntities : List (Text × List Text)
  fatalUnscopedFailure : Bool
  logs : List LogEntry

def dataFate (o : IntegrityVerificationOutcome) (q : Quad) : DataFate :=
  let allLegacyRoots := JsSet.ofList (o.kcRootEntities.flatMap Prod.snd)
  let verifiedLegacyRoots := (o.kcRootEntities.filter fun e =>
    e.1 ∈ o.admittedMetadataUals).flatMap Prod.snd
  match JsMap.get? o.graphVerification q.graph with
  | some true => .selected
  | some false => .refused
  | none =>
    match (findLegacyRootOwner q.subject allLegacyRoots).filter (· ≠ []) with
    | some owner => if owner ∈ verifiedLegacyRoots then .selected else .refused
    | none =>
      if o.hasGraphScopedCandidates then
        if isDetachedLegacyProjectionGraph q.graph then .detached else .unbound
      else .selected

section Select
variable (imports : Imports) (data : List Quad) (acceptUnverified : Bool)

def selectedData (o : IntegrityVerificationOutcome) : List ℕ :=
  (data.zipIdx.filter fun e => dataFate o e.1 = .selected).map Prod.snd

def detachedLog (n : ℕ) : List LogEntry :=
  if n = 0 then []
  else [⟨.debug, "Dropped ".toList ++ Nat.toDigits 10 n ++
    " detached legacy projection triples from rootless sync batch".toList⟩]

def unboundLog (n : ℕ) : List LogEntry :=
  if n = 0 then []
  else [⟨rejectionLevel acceptUnverified, "Rejecting sync batch: ".toList ++ Nat.toDigits 10 n ++
    " data triples are not bound to a verified KA".toList⟩]

def selectVerifiedQuads (prepared : PreparedDurableMeta) (o : IntegrityVerificationOutcome) :
    DurableIntegritySelection :=
  let unbound := data.countP fun q => dataFate o q = .unbound
  let logs := o.logs ++ detachedLog (data.countP fun q => dataFate o q = .detached) ++
    unboundLog acceptUnverified unbound
  let rejected := o.rejectedKcUals.length +
    if 0 < unbound ∧ o.rejectedKcUals.length = 0 then 1 else 0
  let verifiedGraphs := sort o.verifiedGraphScopedDataGraphs
  if acceptUnverified ∧ 0 < rejected then
    { DurableIntegritySelection.keep (allIndexes data)
        (selectSystemOverrideMetadataIndexes imports o.authenticatedMetadataUals o.kaToKc prepared)
        (logs ++ [⟨.debug, "Accepting ".toList ++ Nat.toDigits 10 rejected ++
          " unverified KC(s) (system context graph)".toList⟩]) with
      verifiedZeroPublicAssets := o.verifiedZeroPublicAssets
      verifiedGraphScopedDataGraphs := verifiedGraphs }
  else if o.fatalUnscopedFailure ∨ 0 < unbound then
    -- a fatal batch selects nothing, and names no verified graph either
    { rejected := rejected
      verifiedZeroPublicAssets := o.verifiedZeroPublicAssets
      logs := logs }
  else
    { DurableIntegritySelection.keep (selectedData data o)
        (selectAdmittedMetadataIndexes imports o.admittedMetadataUals o.authenticatedMetadataUals
          o.kaToKc prepared) logs with
      rejected := rejected
      verifiedZeroPublicAssets := o.verifiedZeroPublicAssets
      verifiedGraphScopedDataGraphs := verifiedGraphs }

def unboundBatch (reason : Text) : DurableIntegritySelection where
  rejected := 1
  logs := [⟨.warn, "Rejecting sync batch: received ".toList ++ Nat.toDigits 10 data.length ++
    reason⟩]

def combineOutcomes (hasGraphScoped : Bool) (g : GraphScopedOutcome) (l : LegacyOutcome) :
    IntegrityVerificationOutcome where
  hasGraphScopedCandidates := hasGraphScoped
  admittedMetadataUals := JsSet.ofList (g.admittedMetadataUals ++ l.verifiedKcUals)
  authenticatedMetadataUals := JsSet.ofList (g.authenticatedMetadataUals ++ l.authenticatedKcUals)
  rejectedKcUals := JsSet.ofList (g.rejectedKcUals ++ l.rejectedKcUals)
  graphVerification := g.graphVerification
  verifiedGraphScopedDataGraphs := g.verifiedGraphScopedDataGraphs
  verifiedZeroPublicAssets := g.verifiedZeroPublicAssets
  kaToKc := l.kaToKc
  kcRootEntities := l.kcRootEntities
  fatalUnscopedFailure := g.fatalUnscopedFailure || l.fatalUnscopedFailure
  logs := g.logs ++ l.logs

/-- The part of the verifier for a batch in which some subject has an envelope. -/
def verifyAndSelect (mode : Mode) (prepared : PreparedDurableMeta) :
    Except Text DurableIntegritySelection := do
  let view := prepared.verificationView
  let parsed := readIntegrityMetadata imports view acceptUnverified
  let graphScoped ← verifyGraphScopedCandidates imports data view acceptUnverified mode parsed
  let legacy := verifyLegacyCandidates imports data view acceptUnverified mode parsed.candidates
  let hasGraphScoped := !(parsed.candidates.filterMap Candidate.graphScoped?).isEmpty
  pure (selectVerifiedQuads imports data acceptUnverified prepared
    (combineOutcomes hasGraphScoped graphScoped legacy))

def selectVerifiedDurableSyncQuads (metaQuads : List Quad) (mode : Mode) :
    Except Text DurableIntegritySelection := do
  require (¬(mode.isHeld ∧ data ≠ [])) "Held metadata evidence cannot authenticate fetched DATA".toList
  if metaQuads = [] then
    if ¬acceptUnverified ∧ data ≠ [] then
      pure (unboundBatch data " data triples but no KA integrity metadata".toList)
    else pure { dataIndexes := allIndexes data }
  else
    let prepared := prepareDurableMeta metaQuads
    if integritySubjects prepared.verificationView = [] then
      if ¬acceptUnverified ∧ data ≠ [] then
        pure (unboundBatch data " data triples without a Merkle-bound KA descriptor".toList)
      else
        pure (.keep (allIndexes data) (selectAdmittedMetadataIndexes imports [] [] [] prepared) [])
    else verifyAndSelect imports data acceptUnverified mode prepared

end Select

end Dkg.Sync
