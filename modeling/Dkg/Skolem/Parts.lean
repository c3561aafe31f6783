import Dkg.Lib.BlankGraph
import Dkg.Lib.Revert
import Dkg.Skolem.Terms

/-!
`skolemizeKnowledgeAssetParts`: the blank nodes of the public part get IRIs from a canonical
labelling of that part alone, those of the private part only from one of the private part in which
the shared nodes already are IRIs. The labelling, the order of the result and the checks of single
terms are parameters.
-/

namespace Dkg.Skolem

open Revert BlankGraph Function List

structure Quad where
  subject : Text
  predicate : Text
  object : Text
  graph : Text
  deriving DecidableEq, Repr

/-- A quad of the result, whose graph is empty. -/
structure Statement where
  subject : Text
  predicate : Text
  object : Text
  deriving DecidableEq, Repr

def Statement.toQuad (s : Statement) : Quad := ⟨s.subject, s.predicate, s.object, []⟩

inductive Err where
  | reserved (term : Text)
  | mixed
  | notSafe (term : Text)
  | unassigned (blankNode : Text)
  deriving DecidableEq, Repr

structure Env where
  toLowerCase : Text → Text
  assertSafeIri : Text → Bool
  assertSafeRdfTerm : Text → Bool
  /-- The number in the identifier of a blank node, for the lines of one part. -/
  canonicalBlankNodeIdMap : List (Triple Text Text) → Text → Option ℕ
  /-- The order of the keys that `JSON.stringify` makes. -/
  before : Statement → Statement → Bool

structure PartitionScan where
  blankNodes : List Text
  sawCanonicalSkolemTerm : Bool

section Lines

def resourceNode (term : Text) : Node Text Text :=
  if isBlankNode term then .blank term else .ground (bracket (unwrapIri term))

def objectNode (term : Text) : Node Text Text :=
  if isLiteral term then .ground (normalizeObject term) else resourceNode term

/-- The line of a quad. -/
def lineOf (q : Quad) : Triple Text Text :=
  ⟨resourceNode q.subject,
    if isBlankNode q.predicate then q.predicate else bracket (unwrapIri q.predicate),
    objectNode q.object⟩

def blankNodesOf (quads : List Quad) : List Text :=
  (quads.flatMap fun q => [q.subject, q.object].filter isBlankNode).dedup

theorem mem_blankNodesOf {quads : List Quad} {b : Text} :
    b ∈ blankNodesOf quads ↔ isBlankNode b = true ∧ ∃ q ∈ quads, q.subject = b ∨ q.object = b := by
  simp only [blankNodesOf, mem_dedup, mem_flatMap, mem_filter, mem_cons, not_mem_nil, or_false]
  constructor
  · rintro ⟨q, hq, hb, hblank⟩
    exact ⟨hblank, q, hq, hb.imp Eq.symm Eq.symm⟩
  · rintro ⟨hblank, q, hq, hb⟩
    exact ⟨q, hq, hb.imp Eq.symm Eq.symm, hblank⟩

end Lines

namespace Env
variable (env : Env)

def reserves (term : Text) : Bool :=
  KNOWLEDGE_ASSET_SKOLEM_PREFIX.isPrefixOf (env.toLowerCase (unwrapIri term))

def rejectReservedSkolemTerm (term : Text) (allowCanonical : Bool) : Except Err Unit :=
  require (env.reserves term = false ∨
    allowCanonical = true ∧ isCanonicalSkolemIri (unwrapIri term) = true) (.reserved term)

def checkQuad (allowCanonical : Bool) (q : Quad) : Except Err Unit := do
  env.rejectReservedSkolemTerm q.subject allowCanonical
  env.rejectReservedSkolemTerm q.predicate false
  (if isLiteral q.object then pure () else env.rejectReservedSkolemTerm q.object allowCanonical)
  (if q.graph = [] then pure () else env.rejectReservedSkolemTerm q.graph false)

def scanPartition (quads : List Quad) (allowCanonical : Bool) : Except Err PartitionScan := do
  quads.forM (env.checkQuad allowCanonical)
  pure ⟨blankNodesOf quads, quads.any fun q => isCanonicalSkolemTerm q.subject ||
    (!isLiteral q.object && isCanonicalSkolemTerm q.object)⟩

def safeResource (term : Text) : Bool := isBlankNode term || env.assertSafeIri (unwrapIri term)

def safeObject (term : Text) : Bool :=
  if isLiteral term then env.assertSafeRdfTerm (normalizeObject term) else env.safeResource term

def quadToCanonicalizationNQuad (q : Quad) : Except Err (Triple Text Text) := do
  require (env.safeResource q.subject = true) (.notSafe q.subject)
  require (env.safeResource q.predicate = true) (.notSafe q.predicate)
  require (env.safeObject q.object = true) (.notSafe q.object)
  pure (lineOf q)

def assignCanonicalSkolemIds (quads : List Quad) (blankNodes : List Text) (skolemPrefix : Text)
    (mapping : Text → Option Text) : Except Err (Text → Option Text) :=
  if blankNodes = [] then .ok mapping
  else do
    let lines ← quads.mapM env.quadToCanonicalizationNQuad
    blankNodes.foldlM (fun mapping blankNode =>
      match env.canonicalBlankNodeIdMap lines blankNode with
      | some n => .ok (update mapping blankNode (some (skolemPrefix ++ canonicalId n)))
      | none => .error (.unassigned blankNode)) mapping

end Env

def substituteMappedTerms (mapping : Text → Option Text) (q : Quad) : Quad :=
  { q with
    subject := (mapping q.subject).getD q.subject
    object := if isLiteral q.object then q.object else (mapping q.object).getD q.object }

def normalize (mapping : Text → Option Text) (q : Quad) : Statement :=
  ⟨(mapping q.subject).getD (unwrapIri q.subject), unwrapIri q.predicate,
    (mapping q.object).getD (normalizeObject q.object)⟩

namespace Env
variable (env : Env)

/-- Without repetitions, in the order of the keys. -/
def arrange (statements : List Statement) : List Statement :=
  statements.dedup.insertionSort fun a b => env.before a b = true

def normalizePartition (mapping : Text → Option Text) (quads : List Quad) : List Statement :=
  env.arrange (quads.map (normalize mapping))

def skolemizeKnowledgeAssetParts (publicQuads privateQuads : List Quad) (allowCanonical : Bool) :
    Except Err (List Statement × List Statement) := do
  let publicScan ← env.scanPartition publicQuads allowCanonical
  let privateScan ← env.scanPartition privateQuads allowCanonical
  require (¬((publicScan.blankNodes ≠ [] ∨ privateScan.blankNodes ≠ []) ∧
    (publicScan.sawCanonicalSkolemTerm = true ∨ privateScan.sawCanonicalSkolemTerm = true))) .mixed
  let mapping ← env.assignCanonicalSkolemIds publicQuads publicScan.blankNodes
    KNOWLEDGE_ASSET_SKOLEM_PREFIX fun _ => none
  let privateOnly := privateScan.blankNodes.filter fun blankNode => (mapping blankNode).isNone
  let mapping ← env.assignCanonicalSkolemIds (privateQuads.map (substituteMappedTerms mapping))
    privateOnly KNOWLEDGE_ASSET_PRIVATE_SKOLEM_PREFIX mapping
  pure (env.normalizePartition mapping publicQuads, env.normalizePartition mapping privateQuads)

end Env

section Specs
variable {env : Env} {quads : List Quad} {q : Quad} {allowCanonical : Bool}

/-- The quad names no reserved IRI. -/
def Env.Unreserved (env : Env) (q : Quad) : Prop :=
  env.reserves q.subject = false ∧ env.reserves q.predicate = false ∧
    (isLiteral q.object = false → env.reserves q.object = false) ∧
    (q.graph ≠ [] → env.reserves q.graph = false)

theorem checkQuad_ok : env.checkQuad allowCanonical q = .ok () ↔
    (env.reserves q.subject = false ∨
      allowCanonical = true ∧ isCanonicalSkolemIri (unwrapIri q.subject) = true) ∧
    env.reserves q.predicate = false ∧
    (isLiteral q.object = false → env.reserves q.object = false ∨
      allowCanonical = true ∧ isCanonicalSkolemIri (unwrapIri q.object) = true) ∧
    (q.graph ≠ [] → env.reserves q.graph = false) := by
  obtain ⟨subject, predicate, object, graph⟩ := q
  cases hobject : isLiteral object <;> by_cases hgraph : graph = [] <;>
    simp [Env.checkQuad, Env.rejectReservedSkolemTerm, hobject, hgraph]

theorem checkQuad_false_ok : env.checkQuad false q = .ok () ↔ env.Unreserved q := by
  rw [checkQuad_ok]
  simp [Env.Unreserved]

theorem forM_ok {α ε : Type} {f : α → Except ε Unit} {as : List α} :
    as.forM f = .ok () ↔ ∀ a ∈ as, f a = .ok () := by
  induction as with
  | nil => simp [List.forM, pure, Except.pure]
  | cons a as ih =>
    change (f a >>= fun _ => as.forM f) = .ok () ↔ _
    rw [bind_eq_ok, forall_mem_cons, ← ih]
    constructor
    · rintro ⟨_, ha, has⟩
      exact ⟨ha, has⟩
    · rintro ⟨ha, has⟩
      exact ⟨(), ha, has⟩

theorem mapM_ok {α β ε : Type} {f : α → Except ε β} {g : α → β} {as : List α} {bs : List β}
    (hf : ∀ a b, f a = .ok b → b = g a) (h : as.mapM f = .ok bs) :
    bs = as.map g ∧ ∀ a ∈ as, ∃ b, f a = .ok b := by
  induction as generalizing bs with
  | nil => simp_all
  | cons a as ih =>
    simp only [mapM_cons, bind_eq_ok, pure_eq_ok] at h
    obtain ⟨b, hb, bs', hbs', rfl⟩ := h
    obtain ⟨rfl, hall⟩ := ih hbs'
    refine ⟨by rw [hf a b hb]; rfl, fun a' ha' => ?_⟩
    rcases mem_cons.mp ha' with rfl | ha'
    · exact ⟨b, hb⟩
    · exact hall a' ha'

theorem quadToCanonicalizationNQuad_eq {line : Triple Text Text}
    (h : env.quadToCanonicalizationNQuad q = .ok line) : line = lineOf q := by
  simp only [Env.quadToCanonicalizationNQuad, bind_eq_ok, require_eq_ok, pure_eq_ok] at h
  obtain ⟨-, -, -, -, -, -, rfl⟩ := h
  rfl

variable {lines : List (Triple Text Text)} {blankNodes : List Text} {skolemPrefix : Text}
  {mapping mapping' : Text → Option Text}

/-- The blank nodes listed get their IRIs, the others stay as they are. -/
theorem assignCanonicalSkolemIds_ok
    (h : env.assignCanonicalSkolemIds quads blankNodes skolemPrefix mapping = .ok mapping') :
    (∀ b ∈ blankNodes, ∃ n, env.canonicalBlankNodeIdMap (quads.map lineOf) b = some n ∧
      mapping' b = some (skolemPrefix ++ canonicalId n)) ∧
    ∀ b, b ∉ blankNodes → mapping' b = mapping b := by
  unfold Env.assignCanonicalSkolemIds at h
  split_ifs at h with hnil
  · cases h
    simp [hnil]
  · clear hnil
    simp only [bind_eq_ok] at h
    obtain ⟨lines, hlines, h⟩ := h
    obtain ⟨rfl, -⟩ := mapM_ok (fun _ _ => quadToCanonicalizationNQuad_eq) hlines
    induction blankNodes generalizing mapping with
    | nil =>
      cases h
      simp
    | cons b blankNodes ih =>
      rw [foldlM_cons, bind_eq_ok] at h
      obtain ⟨next, hnext, h⟩ := h
      cases hid : env.canonicalBlankNodeIdMap (quads.map lineOf) b with
      | none => simp [hid] at hnext
      | some n =>
        simp only [hid, Except.ok.injEq] at hnext
        subst hnext
        obtain ⟨hmapped, hkept⟩ := ih h
        refine ⟨fun b' hb' => ?_, fun b' hb' => ?_⟩
        · by_cases hmem : b' ∈ blankNodes
          · exact hmapped b' hmem
          · obtain rfl : b' = b := (mem_cons.mp hb').resolve_right hmem
            exact ⟨n, hid, by rw [hkept b' hmem, update_self]⟩
        · rw [mem_cons, not_or] at hb'
          rw [hkept b' hb'.2, update_of_ne hb'.1]

/-- The checks before the labelling pass. -/
def Env.Safe (env : Env) (q : Quad) : Prop :=
  env.safeResource q.subject = true ∧ env.safeResource q.predicate = true ∧
    env.safeObject q.object = true

theorem assignCanonicalSkolemIds_returns (skolemPrefix : Text) (mapping : Text → Option Text)
    (hsafe : ∀ q ∈ quads, env.Safe q)
    (hassigned : ∀ b ∈ blankNodes,
      ∃ n, env.canonicalBlankNodeIdMap (quads.map lineOf) b = some n) :
    ∃ mapping', env.assignCanonicalSkolemIds quads blankNodes skolemPrefix mapping =
      .ok mapping' := by
  unfold Env.assignCanonicalSkolemIds
  split_ifs with hnil
  · exact ⟨mapping, rfl⟩
  clear hnil
  have hlines : quads.mapM env.quadToCanonicalizationNQuad = .ok (quads.map lineOf) := by
    clear hassigned
    induction quads with
    | nil => rfl
    | cons q quads ih =>
      obtain ⟨hsubject, hpredicate, hobject⟩ := hsafe q mem_cons_self
      have hline : env.quadToCanonicalizationNQuad q = .ok (lineOf q) := by
        simp [Env.quadToCanonicalizationNQuad, require_of hsubject, require_of hpredicate,
          require_of hobject, pure, Except.pure]
      rw [mapM_cons, hline, ok_bind, ih fun q' hq' => hsafe q' (mem_cons_of_mem _ hq')]
      rfl
  rw [hlines, ok_bind]
  induction blankNodes generalizing mapping with
  | nil => exact ⟨mapping, rfl⟩
  | cons b blankNodes ih =>
    obtain ⟨n, hn⟩ := hassigned b mem_cons_self
    rw [foldlM_cons]
    simp only [hn, ok_bind]
    exact ih _ fun b' hb' => hassigned b' (mem_cons_of_mem _ hb')

end Specs

end Dkg.Skolem
