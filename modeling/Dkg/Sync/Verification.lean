import Dkg.Sync.Envelope

/-!
Verification of the knowledge assets that a durable sync batch describes: graph-scoped assets
against the quads of their own graph, legacy assets against the quads of their root entities.
-/

namespace Dkg.Sync
open Skolem (Text)
open Revert

inductive Mode
  | fullSnapshot
  | sinceBatchId (since : ℤ)
  | changelogPage (changedDataGraphs : List Text)
  /-- The descriptors held and authenticated already, by name and digest. -/
  | heldMetadata (descriptors : List (Text × Text))
deriving DecidableEq

inductive CandidateScope
  | inScope
  | outOfScope
  | tentativeWithoutBatch
deriving DecidableEq

/-- `tentative` -/
def tentative : Text := ['t', 'e', 'n', 't', 'a', 't', 'i', 'v', 'e']

def candidateIsNewerThan (rows : List Quad) (since : ℤ) : Except Text Bool :=
  match distinctObjects rows .batchId with
  | [] => .error "missing batchId metadata".toList
  | [value] => do
    let batchId ← parseInteger value "batchId".toList
    require (0 ≤ batchId) ("invalid batchId: ".toList ++ intText batchId)
    pure (since < batchId)
  | _ => .error "ambiguous batchId metadata".toList

def classifyGraphScopedCandidateScope (view : List Quad) (mode : Mode)
    (ual assertionGraph : Text) : Except Text CandidateScope :=
  match mode with
  | .fullSnapshot => .ok .inScope
  | .heldMetadata _ => .ok .outOfScope
  | .changelogPage changed => .ok (if assertionGraph ∈ changed then .inScope else .outOfScope)
  | .sinceBatchId since =>
    let rows := rowsOf view ual
    if distinctObjects rows .batchId = [] ∧ distinctObjects rows .status = [tentative] then
      .ok .tentativeWithoutBatch
    else do
      let newer ← candidateIsNewerThan rows since
      pure (if newer then .inScope else .outOfScope)

/-- The digest under which a descriptor is held; of two entries the later one counts. -/
def Mode.heldDigest (mode : Mode) (ual : Text) : Option Text :=
  match mode with
  | .heldMetadata descriptors =>
    JsMap.get? (descriptors.foldl (fun m e => JsMap.set m e.1 e.2) []) ual
  | _ => none

structure GraphScopedOutcome where
  admittedMetadataUals : List Text := []
  authenticatedMetadataUals : List Text := []
  rejectedKcUals : List Text := []
  graphVerification : List (Text × Bool) := []
  verifiedGraphScopedDataGraphs : List Text := []
  verifiedZeroPublicAssets : ℕ := 0
  fatalUnscopedFailure : Bool := false
  logs : List LogEntry := []

section GraphScoped
variable (imports : Imports) (data view : List Quad) (acceptUnverified : Bool) (mode : Mode)

def GraphScopedOutcome.skip (o : GraphScopedOutcome) (ual : Text) (d : GraphScopedDescriptor)
    (scope : CandidateScope) : GraphScopedOutcome :=
  { o with
    authenticatedMetadataUals :=
      if mode.heldDigest ual = some d.metadataDigestHex then
        JsSet.add o.authenticatedMetadataUals ual
      else o.authenticatedMetadataUals
    graphVerification :=
      if scope = .tentativeWithoutBatch then
        JsMap.set o.graphVerification d.assertionGraph false
      else o.graphVerification
    admittedMetadataUals :=
      if acceptUnverified then JsSet.add o.admittedMetadataUals ual else o.admittedMetadataUals }

def GraphScopedOutcome.accept (o : GraphScopedOutcome) (ual : Text) (d : GraphScopedDescriptor) :
    GraphScopedOutcome :=
  { o with
    graphVerification := JsMap.set o.graphVerification d.assertionGraph true
    admittedMetadataUals := JsSet.add o.admittedMetadataUals ual
    authenticatedMetadataUals := JsSet.add o.authenticatedMetadataUals ual
    verifiedGraphScopedDataGraphs := JsSet.add o.verifiedGraphScopedDataGraphs d.assertionGraph
    verifiedZeroPublicAssets :=
      if d.publicTripleCount = 0 then o.verifiedZeroPublicAssets + 1
      else o.verifiedZeroPublicAssets }

def ellipsis : Char := Char.ofNat 0x2026

def mismatchDetail (d : GraphScopedDescriptor) (fetched : ℕ) (computedHex : Option Text) : Text :=
  if fetched ≠ d.publicTripleCount then
    "public triple count mismatch: metadata=".toList ++ Nat.toDigits 10 d.publicTripleCount ++
      ", fetched=".toList ++ Nat.toDigits 10 fetched
  else
    "claimed ".toList ++ d.claimedRootHex.take 16 ++ [ellipsis] ++ ", computed ".toList ++
      (computedHex.getD []).take 16 ++ [ellipsis]

/-- A short or long graph makes the whole batch fail: the missing quads may stand elsewhere. -/
def GraphScopedOutcome.reject (o : GraphScopedOutcome) (ual : Text) (d : GraphScopedDescriptor)
    (fetched : ℕ) (computedHex : Option Text) : GraphScopedOutcome :=
  { o with
    graphVerification := JsMap.set o.graphVerification d.assertionGraph false
    rejectedKcUals := JsSet.add o.rejectedKcUals ual
    fatalUnscopedFailure := o.fatalUnscopedFailure || decide (fetched ≠ d.publicTripleCount)
    logs := o.logs ++ [⟨rejectionLevel acceptUnverified,
      "Merkle mismatch for graph-scoped KA ".toList ++ ual ++
        (if acceptUnverified then " (system context graph, accepted)".toList else []) ++
        ": ".toList ++ mismatchDetail d fetched computedHex⟩] }

def computedRootHex (d : GraphScopedDescriptor) : Except Text (Option Text) :=
  let publicQuads := quadsOf data d.assertionGraph
  if publicQuads.length = d.publicTripleCount then do
    let root ← imports.computeStructuredKCRoot publicQuads d.privateRoot.toList
    pure (some (toHex root))
  else pure none

def GraphScopedOutcome.verify (o : GraphScopedOutcome) (c : Text × GraphScopedDescriptor) :
    Except Text GraphScopedOutcome :=
  match classifyGraphScopedCandidateScope view mode c.1 c.2.assertionGraph with
  | .error message =>
    .ok { o with
      rejectedKcUals := JsSet.add o.rejectedKcUals c.1
      fatalUnscopedFailure := true
      logs := o.logs ++ [⟨rejectionLevel acceptUnverified,
        "Invalid graph-scoped KA delta metadata for ".toList ++ c.1 ++ ": ".toList ++ message⟩] }
  | .ok .inScope => do
    let computedHex ← computedRootHex imports data c.2
    pure (if computedHex = some c.2.claimedRootHex then o.accept c.1 c.2
      else o.reject acceptUnverified c.1 c.2 (quadsOf data c.2.assertionGraph).length computedHex)
  | .ok scope => .ok (o.skip acceptUnverified mode c.1 c.2 scope)

def verifyGraphScopedCandidates (parsed : IntegrityMetadataRead) : Except Text GraphScopedOutcome :=
  (parsed.candidates.filterMap Candidate.graphScoped?).foldlM
    (·.verify imports data view acceptUnverified mode)
    { rejectedKcUals := parsed.invalidKcUals
      fatalUnscopedFailure := parsed.fatalUnscopedFailure
      logs := parsed.logs }

end GraphScoped

/-! Legacy assets: token rows name their owner with `partOf`, collapsed rows own themselves. -/

def normalizeHex32 (raw field : Text) : Except Text Text :=
  let bare := stripLiteral raw
  let digits :=
    if bare.head? = some '0' ∧ (bare.drop 1).head?.map Char.toLower = some 'x' then bare.drop 2
    else bare
  let hex := digits.map Char.toLower
  if hex.length = 64 ∧ hex.all isHexDigit then .ok hex
  else .error (field ++ " must be exactly 32 bytes of hexadecimal data".toList)

def hexValue (c : Char) : ℕ := if c.isDigit then c.toNat - 48 else c.toNat - 87

def hexToBytes : Text → Bytes
  | a :: b :: rest => UInt8.ofNat (16 * hexValue a + hexValue b) :: hexToBytes rest
  | _ => []

structure LegacyOutcome where
  verifiedKcUals : List Text := []
  authenticatedKcUals : List Text := []
  rejectedKcUals : List Text := []
  kaToKc : List (Text × Text) := []
  kcRootEntities : List (Text × List Text) := []
  fatalUnscopedFailure : Bool := false
  logs : List LogEntry := []

def bindLegacyRow (legacyKcUals : List Text)
    (m : List (Text × Text) × List (Text × List Text)) (q : Quad) :
    List (Text × Text) × List (Text × List Text) :=
  if q.predicate = .partOf then
    if stripLiteral q.object ∈ legacyKcUals then
      (JsMap.set m.1 q.subject (stripLiteral q.object), m.2)
    else m
  else if q.predicate = .rootEntity then (m.1, JsMap.push m.2 q.subject (stripLiteral q.object))
  else m

def legacyBindings (view : List Quad) (legacyKcUals : List Text) :
    List (Text × Text) × List (Text × List Text) :=
  let m := view.foldl (bindLegacyRow legacyKcUals) ([], [])
  (legacyKcUals.foldl (fun kaToKc kc =>
    if (JsMap.get? m.2 kc).isSome ∧ (JsMap.get? kaToKc kc).isNone then JsMap.set kaToKc kc kc
    else kaToKc) m.1, m.2)

def joinRootEntities (kaToKc : List (Text × Text)) (kaRootEntities : List (Text × List Text)) :
    List (Text × List Text) :=
  kaToKc.foldl (fun joined e =>
    match JsMap.get? kaRootEntities e.1 with
    | none => joined
    | some roots =>
      JsMap.set joined e.2 (roots.foldl JsSet.add ((JsMap.get? joined e.2).getD []))) []

def overlappingLegacyKcs (kcRootEntities : List (Text × List Text)) : List Text :=
  let owners := kcRootEntities.foldl (fun o e =>
    e.2.foldl (fun o root => JsMap.push o root e.1) o) []
  JsSet.ofList ((owners.filter fun e => 1 < e.2.length).flatMap Prod.snd)

/-- `/_meta` -/
def metaSuffix : Text := ['/', '_', 'm', 'e', 't', 'a']

def legacyDataGraphFromMetadata (view : List Quad) (kcUal : Text) : Option Text :=
  match JsSet.ofList
    (((rowsOf view kcUal).filter fun q => q.predicate = .merkleRoot).map Quad.graph) with
  | [metaGraph] =>
    if metaSuffix.isSuffixOf metaGraph then
      some (metaGraph.take (metaGraph.length - metaSuffix.length))
    else none
  | _ => none

def Mode.isHeld : Mode → Bool
  | .heldMetadata _ => true
  | _ => false

section Legacy
variable (imports : Imports) (data view : List Quad) (acceptUnverified : Bool) (mode : Mode)

def LegacyOutcome.reject (o : LegacyOutcome) (kcUal message : Text) (fatal : Bool) :
    LegacyOutcome :=
  { o with
    rejectedKcUals := JsSet.add o.rejectedKcUals kcUal
    fatalUnscopedFailure := o.fatalUnscopedFailure || fatal
    logs := o.logs ++ [⟨rejectionLevel acceptUnverified, message⟩] }

/-- Not checked by this page: kept only where unverified data is accepted. -/
def LegacyOutcome.skip (o : LegacyOutcome) (kcUal : Text) : LegacyOutcome :=
  if acceptUnverified then { o with verifiedKcUals := JsSet.add o.verifiedKcUals kcUal } else o

def LegacyOutcome.accept (o : LegacyOutcome) (kcUal : Text) : LegacyOutcome :=
  { o with
    verifiedKcUals := JsSet.add o.verifiedKcUals kcUal
    authenticatedKcUals := JsSet.add o.authenticatedKcUals kcUal }

def legacyPrivateRoots (kaToKc : List (Text × Text)) (kcUal : Text) : Except Text (List Bytes) :=
  ((kaToKc.filter fun e => e.2 = kcUal).flatMap fun e =>
      distinctObjects (rowsOf view e.1) .privateMerkleRoot).mapM fun raw => do
    let hex ← normalizeHex32 raw "privateMerkleRoot".toList
    pure (hexToBytes hex)

/-- The `try` around the comparison of roots. -/
def LegacyOutcome.compare (o : LegacyOutcome) (kcUal claimed : Text) (roots : List Text) :
    LegacyOutcome :=
  let failed := fun message => o.reject acceptUnverified kcUal
    ("Merkle verification error for ".toList ++ kcUal ++ ": ".toList ++ message) false
  let legacyDataGraph := legacyDataGraphFromMetadata view kcUal
  let unchanged := match mode with
    | .changelogPage changed => legacyDataGraph.all fun graph => graph ∉ changed
    | _ => false
  match legacyPrivateRoots view o.kaToKc kcUal with
  | .error message => failed message
  | .ok privateRoots =>
    if unchanged then o.skip acceptUnverified kcUal
    else if kcUal ∈ overlappingLegacyKcs o.kcRootEntities then
      let accepted := o.accept kcUal
      { accepted with
        logs := accepted.logs ++ [⟨.debug, "Skipping legacy Merkle check for ".toList ++ kcUal ++
          ": root entity is shared across versions".toList⟩] }
    else
      let publicQuads := roots.flatMap fun root =>
        (JsMap.get? (imports.skolemizeByEntity data) root).getD []
      match imports.computeStructuredKCRoot publicQuads privateRoots with
      | .error message => failed message
      | .ok root =>
        if toHex root = claimed then o.accept kcUal
        else o.reject acceptUnverified kcUal ("Merkle mismatch for ".toList ++ kcUal ++
            (if acceptUnverified then " (system context graph, accepted)".toList else []) ++
            ": claimed ".toList ++ claimed.take 16 ++ [ellipsis] ++ ", computed ".toList ++
            (toHex root).take 16 ++ [ellipsis]) false

def LegacyOutcome.verify (o : LegacyOutcome) (kcUal : Text) : LegacyOutcome :=
  let roots := (JsMap.get? o.kcRootEntities kcUal).getD []
  let newer := match mode with
    | .sinceBatchId since => candidateIsNewerThan (rowsOf view kcUal) since
    | _ => .ok true
  if kcUal ∉ merkleSubjects view ∨ mode.isHeld then o
  else
    match newer with
    | .error message => o.reject acceptUnverified kcUal
        ("Invalid legacy KA delta metadata for ".toList ++ kcUal ++ ": ".toList ++ message) true
    | .ok false => o.skip acceptUnverified kcUal
    | .ok true =>
      match (distinctObjects (rowsOf view kcUal) .merkleRoot).mapM
        (normalizeHex32 · "merkleRoot".toList) with
      | .error message => o.reject acceptUnverified kcUal
          ("Unverifiable legacy KA ".toList ++ kcUal ++ ": ".toList ++ message) roots.isEmpty
      | .ok claimedRoots =>
        match claimedRoots, roots with
        | [claimed], _ :: _ => o.compare imports data view acceptUnverified mode kcUal claimed roots
        | [_], [] => o.reject acceptUnverified kcUal
            ("Unverifiable legacy KA ".toList ++ kcUal ++
              ": missing rootEntity metadata".toList) true
        | _, _ => o.reject acceptUnverified kcUal
            ("Unverifiable legacy KA ".toList ++ kcUal ++ ": ambiguous merkleRoot".toList) true

def verifyLegacyCandidates (candidates : List Candidate) : LegacyOutcome :=
  let legacyKcUals := JsSet.ofList (candidates.filterMap Candidate.legacy?)
  if legacyKcUals = [] then {}
  else
    let bindings := legacyBindings view legacyKcUals
    legacyKcUals.foldl (·.verify imports data view acceptUnverified mode)
      { kaToKc := bindings.1
        kcRootEntities := joinRootEntities bindings.1 bindings.2 }

end Legacy

end Dkg.Sync
