import Dkg.Skolem.Parts

/-!
What skolemizing depends on. The public list is determined by the public quads up to renaming of
blank nodes, order, repetition and graph terms. So is the private list if every symmetry of the
public part extends to the private part; otherwise it tells apart nodes that the labels of the
public part do not.
-/

namespace Dkg.Skolem

open Revert BlankGraph List

/-- What is assumed of the parameters. -/
structure Lawful (env : Env) : Prop where
  lower : ∀ t, KNOWLEDGE_ASSET_SKOLEM_PREFIX.isPrefixOf t = true →
    KNOWLEDGE_ASSET_SKOLEM_PREFIX.isPrefixOf (env.toLowerCase t) = true
  canonical : Canonical env.canonicalBlankNodeIdMap
  total : ∀ a b, env.before a b = true ∨ env.before b a = true
  trans : ∀ a b c, env.before a b = true → env.before b c = true → env.before a c = true
  antisymm : ∀ a b, env.before a b = true → env.before b a = true → a = b

section Arrange
variable {env : Env} {as bs : List Statement}

theorem mem_arrange {s : Statement} : s ∈ env.arrange as ↔ s ∈ as := by
  rw [Env.arrange, mem_insertionSort, mem_dedup]

theorem nodup_arrange (as : List Statement) : (env.arrange as).Nodup :=
  (perm_insertionSort _ _).nodup_iff.mpr (nodup_dedup as)

theorem Lawful.pairwise_arrange (h : Lawful env) (as : List Statement) :
    (env.arrange as).Pairwise fun a b => env.before a b = true := by
  have : Std.Total fun a b => env.before a b = true := ⟨h.total⟩
  have : IsTrans _ fun a b => env.before a b = true := ⟨h.trans⟩
  exact pairwise_insertionSort _ _

/-- A sorted list without repetitions is determined by its members. -/
theorem Lawful.eq_of_mem_iff (h : Lawful env) (ha : as.Pairwise fun a b => env.before a b = true)
    (hb : bs.Pairwise fun a b => env.before a b = true) (hna : as.Nodup) (hnb : bs.Nodup)
    (hmem : ∀ s, s ∈ as ↔ s ∈ bs) : as = bs := by
  have hperm : as.Perm bs := (perm_ext_iff_of_nodup hna hnb).mpr hmem
  exact hperm.eq_of_pairwise (fun a b _ _ => h.antisymm a b) ha hb

theorem Lawful.arrange_congr (h : Lawful env) (hmem : ∀ s, s ∈ as ↔ s ∈ bs) :
    env.arrange as = env.arrange bs :=
  h.eq_of_mem_iff (h.pairwise_arrange as) (h.pairwise_arrange bs) (nodup_arrange as)
    (nodup_arrange bs) fun s => by rw [mem_arrange, mem_arrange, hmem]

end Arrange

section Iris
variable {t : Text}

/-- The texts that the two passes make. -/
def IsSkolem (t : Text) : Prop :=
  ∃ n, t = KNOWLEDGE_ASSET_SKOLEM_PREFIX ++ canonicalId n ∨
    t = KNOWLEDGE_ASSET_PRIVATE_SKOLEM_PREFIX ++ canonicalId n

theorem IsSkolem.head (h : IsSkolem t) : t.head? = some 'u' := by
  obtain ⟨n, rfl | rfl⟩ := h <;> rfl

theorem IsSkolem.not_blank (h : IsSkolem t) : isBlankNode t = false := by
  by_contra hblank
  have hhead := head_of_isBlankNode (show isBlankNode t = true by simpa using hblank)
  rw [h.head] at hhead
  revert hhead
  decide

theorem IsSkolem.not_literal (h : IsSkolem t) : isLiteral t = false := by
  rw [isLiteral, h.head]
  decide

theorem IsSkolem.unwrapIri (h : IsSkolem t) : unwrapIri t = t :=
  unwrapIri_of_head (by rw [h.head]; decide)

theorem IsSkolem.canonical (h : IsSkolem t) : isCanonicalSkolemIri t = true := by
  obtain ⟨n, rfl | rfl⟩ := h
  · exact isCanonicalSkolemIri_public n
  · exact isCanonicalSkolemIri_private n

theorem IsSkolem.reserved (h : IsSkolem t) :
    KNOWLEDGE_ASSET_SKOLEM_PREFIX.isPrefixOf t = true := by
  obtain ⟨n, rfl | rfl⟩ := h
  · simp [KNOWLEDGE_ASSET_SKOLEM_PREFIX, isPrefixOf]
  · simp [KNOWLEDGE_ASSET_PRIVATE_SKOLEM_PREFIX, KNOWLEDGE_ASSET_SKOLEM_PREFIX, isPrefixOf]

/-- The public and the private IRIs are disjoint. -/
theorem public_ne_private (n m : ℕ) : KNOWLEDGE_ASSET_SKOLEM_PREFIX ++ canonicalId n ≠
    KNOWLEDGE_ASSET_PRIVATE_SKOLEM_PREFIX ++ canonicalId m := by
  intro h
  rw [KNOWLEDGE_ASSET_PRIVATE_SKOLEM_PREFIX, append_assoc] at h
  have hhead : some 'c' = some 'p' := congrArg head? (append_cancel_left h)
  revert hhead
  decide

end Iris

section Lines
variable {quads : List Quad} {b : Text}

theorem subject_mem_blankNodesOf {q : Quad} (hq : q ∈ quads)
    (hb : isBlankNode q.subject = true) : q.subject ∈ blankNodesOf quads :=
  mem_blankNodesOf.mpr ⟨hb, q, hq, .inl rfl⟩

theorem object_mem_blankNodesOf {q : Quad} (hq : q ∈ quads)
    (hb : isBlankNode q.object = true) : q.object ∈ blankNodesOf quads :=
  mem_blankNodesOf.mpr ⟨hb, q, hq, .inr rfl⟩

theorem blankNodesOf_append {P Q : List Quad} :
    b ∈ blankNodesOf (P ++ Q) ↔ b ∈ blankNodesOf P ∨ b ∈ blankNodesOf Q := by
  simp only [mem_blankNodesOf, mem_append, or_and_right, exists_or, ← and_or_left]

theorem resourceNode_eq_blank {t : Text} :
    resourceNode t = .blank b ↔ isBlankNode b = true ∧ t = b := by
  unfold resourceNode
  split_ifs with h
  · constructor
    · rintro ⟨⟩
      exact ⟨h, rfl⟩
    · rintro ⟨-, rfl⟩
      rfl
  · constructor
    · rintro ⟨⟩
    · rintro ⟨hb, rfl⟩
      exact absurd hb h

theorem objectNode_eq_blank {t : Text} :
    objectNode t = .blank b ↔ isBlankNode b = true ∧ t = b := by
  unfold objectNode
  split_ifs with h
  · constructor
    · rintro ⟨⟩
    · rintro ⟨hb, rfl⟩
      rw [not_isBlankNode_of_literal h] at hb
      cases hb
  · exact resourceNode_eq_blank

theorem occurs_lines : Occurs b (quads.map lineOf) ↔ b ∈ blankNodesOf quads := by
  rw [mem_blankNodesOf]
  constructor
  · rintro ⟨line, hline, hb⟩
    obtain ⟨q, hq, rfl⟩ := mem_map.mp hline
    rcases hb with hb | hb
    · obtain ⟨hblank, rfl⟩ := resourceNode_eq_blank.mp hb
      exact ⟨hblank, q, hq, .inl rfl⟩
    · obtain ⟨hblank, rfl⟩ := objectNode_eq_blank.mp hb
      exact ⟨hblank, q, hq, .inr rfl⟩
  · rintro ⟨hblank, q, hq, hb | hb⟩
    · exact ⟨lineOf q, mem_map_of_mem hq, .inl (resourceNode_eq_blank.mpr ⟨hblank, hb⟩)⟩
    · exact ⟨lineOf q, mem_map_of_mem hq, .inr (objectNode_eq_blank.mpr ⟨hblank, hb⟩)⟩

end Lines

section Output
variable {quads : List Quad} {q : Quad} {mapping : Text → Option Text} {pre : Text}
  {ids : Text → Option ℕ}

def outNode (pre : Text) : Node (Option ℕ) Text → Text
  | .blank (some n) => pre ++ canonicalId n
  | .blank none => []
  | .ground g => unwrapIri g

def outStatement (pre : Text) (t : Triple (Option ℕ) Text) : Statement :=
  ⟨outNode pre t.subject, unwrapIri t.predicate, outNode pre t.object⟩

/-- The mapping gives the blank nodes of some quads IRIs after their identifiers, and nothing to
other terms. -/
structure MapsBlanks (ids : Text → Option ℕ) (pre : Text) (quads : List Quad)
    (mapping : Text → Option Text) : Prop where
  mapped : ∀ b ∈ blankNodesOf quads, ∃ n, ids b = some n ∧ mapping b = some (pre ++ canonicalId n)
  unmapped : ∀ t, isBlankNode t = false → mapping t = none

theorem MapsBlanks.resource (h : MapsBlanks ids pre quads mapping) {t : Text}
    (ht : isBlankNode t = true → t ∈ blankNodesOf quads) :
    (mapping t).getD (unwrapIri t) = outNode pre ((resourceNode t).subst fun b => .blank (ids b)) := by
  unfold resourceNode
  split_ifs with hblank
  · obtain ⟨n, hn, hmapped⟩ := h.mapped t (ht hblank)
    simp [Node.subst, outNode, hn, hmapped]
  · rw [h.unmapped t (by simpa using hblank)]
    exact (unwrapIri_bracket _).symm

theorem MapsBlanks.object (h : MapsBlanks ids pre quads mapping) {t : Text}
    (ht : isBlankNode t = true → t ∈ blankNodesOf quads) :
    (mapping t).getD (normalizeObject t) =
      outNode pre ((objectNode t).subst fun b => .blank (ids b)) := by
  by_cases hliteral : isLiteral t = true
  · rw [h.unmapped t (not_isBlankNode_of_literal hliteral), objectNode, if_pos hliteral]
    exact (unwrapIri_of_literal (isLiteral_normalizeObject hliteral)).symm
  · rw [objectNode, if_neg hliteral, normalizeObject, if_neg hliteral]
    exact h.resource ht

theorem MapsBlanks.normalize_eq (h : MapsBlanks ids pre quads mapping) (hq : q ∈ quads) :
    normalize mapping q = outStatement pre ((lineOf q).subst fun b => .blank (ids b)) := by
  have hpredicate : unwrapIri q.predicate = unwrapIri (if isBlankNode q.predicate then q.predicate
      else bracket (unwrapIri q.predicate)) := by
    split_ifs with hblank
    · rfl
    · rw [unwrapIri_bracket]
  rw [normalize, h.resource (subject_mem_blankNodesOf hq), h.object (object_mem_blankNodesOf hq),
    hpredicate]
  rfl

theorem resourceNode_substitute (hblank : ∀ t, isBlankNode t = false → mapping t = none)
    (hskolem : ∀ t v, mapping t = some v → IsSkolem v) (t : Text) :
    resourceNode ((mapping t).getD t) =
      (resourceNode t).subst (Node.groundBy fun b => (mapping b).map bracket) := by
  cases hv : mapping t with
  | none =>
    rw [Option.getD_none, resourceNode]
    split_ifs
    · simp [Node.subst, Node.groundBy, hv]
    · rfl
  | some v =>
    have htblank : isBlankNode t = true := by
      by_contra hne
      rw [hblank t (by simpa using hne)] at hv
      cases hv
    have hsk := hskolem t v hv
    rw [Option.getD_some, resourceNode, if_neg (by simp [hsk.not_blank]), hsk.unwrapIri,
      resourceNode, if_pos htblank]
    simp [Node.subst, Node.groundBy, hv]

/-- Substituting the mapped terms makes their nodes ground. -/
theorem lineOf_substitute (hblank : ∀ t, isBlankNode t = false → mapping t = none)
    (hskolem : ∀ t v, mapping t = some v → IsSkolem v) (q : Quad) :
    lineOf (substituteMappedTerms mapping q) =
      (lineOf q).subst (Node.groundBy fun b => (mapping b).map bracket) := by
  have hobject : objectNode (if isLiteral q.object then q.object
      else (mapping q.object).getD q.object) =
      (objectNode q.object).subst (Node.groundBy fun b => (mapping b).map bracket) := by
    by_cases hliteral : isLiteral q.object = true
    · rw [if_pos hliteral, objectNode, if_pos hliteral]
      rfl
    · rw [if_neg hliteral, objectNode, objectNode, if_neg hliteral, ←
        resourceNode_substitute hblank hskolem, if_neg]
      cases hv : mapping q.object with
      | none => exact hliteral
      | some v => simp [(hskolem _ v hv).not_literal]
  rw [lineOf, substituteMappedTerms]
  simp only [resourceNode_substitute hblank hskolem, hobject]
  rfl

/-- The blank nodes left after substitution are those that are not mapped. -/
theorem mem_substituted (hskolem : ∀ t v, mapping t = some v → IsSkolem v) {b : Text} :
    b ∈ blankNodesOf (quads.map (substituteMappedTerms mapping)) ↔
      b ∈ blankNodesOf quads ∧ mapping b = none := by
  have hterm : ∀ t, isBlankNode b = true → ((mapping t).getD t = b ↔ t = b ∧ mapping b = none) := by
    intro t hblank
    cases hv : mapping t with
    | none =>
      constructor
      · rintro rfl
        exact ⟨rfl, hv⟩
      · exact fun hb => hb.1
    | some v =>
      have hne := (hskolem t v hv).not_blank
      constructor
      · rintro rfl
        rw [Option.getD_some, hne] at hblank
        cases hblank
      · rintro ⟨rfl, hnone⟩
        rw [hv] at hnone
        cases hnone
  have hobject : ∀ t, isBlankNode b = true →
      ((if isLiteral t then t else (mapping t).getD t) = b ↔ t = b ∧ mapping b = none) := by
    intro t hblank
    split_ifs with hliteral
    · have hne : t ≠ b := by
        rintro rfl
        rw [not_isBlankNode_of_literal hliteral] at hblank
        cases hblank
      exact ⟨fun ht => absurd ht hne, fun ht => absurd ht.1 hne⟩
    · exact hterm t hblank
  rw [mem_blankNodesOf, mem_blankNodesOf]
  constructor
  · rintro ⟨hblank, q', hq', hb⟩
    obtain ⟨q, hq, rfl⟩ := mem_map.mp hq'
    rcases hb with hb | hb
    · obtain ⟨hb', hnone⟩ := (hterm _ hblank).mp hb
      exact ⟨⟨hblank, q, hq, .inl hb'⟩, hnone⟩
    · obtain ⟨hb', hnone⟩ := (hobject _ hblank).mp hb
      exact ⟨⟨hblank, q, hq, .inr hb'⟩, hnone⟩
  · rintro ⟨⟨hblank, q, hq, hb⟩, hnone⟩
    refine ⟨hblank, _, mem_map_of_mem hq, ?_⟩
    rcases hb with hb | hb
    · exact .inl ((hterm _ hblank).mpr ⟨hb, hnone⟩)
    · exact .inr ((hobject _ hblank).mpr ⟨hb, hnone⟩)

end Output

section Passes
variable {env : Env} {P Q : List Quad} {m₁ m₂ : Text → Option Text}
  {r : List Statement × List Statement} {allowCanonical : Bool}

/-- The mappings after the public and after the private pass. -/
structure Passes (env : Env) (P Q : List Quad) (m₁ m₂ : Text → Option Text) : Prop where
  publicPass : ∀ b ∈ blankNodesOf P, ∃ n, env.canonicalBlankNodeIdMap (P.map lineOf) b = some n ∧
    m₁ b = some (KNOWLEDGE_ASSET_SKOLEM_PREFIX ++ canonicalId n)
  publicOnly : ∀ b, b ∉ blankNodesOf P → m₁ b = none
  privatePass : ∀ b ∈ blankNodesOf Q, m₁ b = none →
    ∃ n, env.canonicalBlankNodeIdMap ((Q.map (substituteMappedTerms m₁)).map lineOf) b = some n ∧
      m₂ b = some (KNOWLEDGE_ASSET_PRIVATE_SKOLEM_PREFIX ++ canonicalId n)
  kept : ∀ b, b ∉ blankNodesOf Q ∨ m₁ b ≠ none → m₂ b = m₁ b

theorem scanPartition_ok {quads : List Quad} {scan : PartitionScan}
    (h : env.scanPartition quads allowCanonical = .ok scan) :
    (∀ q ∈ quads, env.checkQuad allowCanonical q = .ok ()) ∧
      scan.blankNodes = blankNodesOf quads := by
  simp only [Env.scanPartition, bind_eq_ok, pure_eq_ok] at h
  obtain ⟨u, hcheck, rfl⟩ := h
  exact ⟨forM_ok.mp hcheck, rfl⟩

theorem skolemizeKnowledgeAssetParts_ok
    (h : env.skolemizeKnowledgeAssetParts P Q allowCanonical = .ok r) :
    (∀ q ∈ P ++ Q, env.checkQuad allowCanonical q = .ok ()) ∧ ∃ m₁ m₂, Passes env P Q m₁ m₂ ∧
        r = (env.normalizePartition m₂ P, env.normalizePartition m₂ Q) := by
  simp only [Env.skolemizeKnowledgeAssetParts, bind_eq_ok, require_eq_ok, pure_eq_ok] at h
  obtain ⟨publicScan, hpublic, privateScan, hprivate, -, -, m₁, hm₁, m₂, hm₂, rfl⟩ := h
  obtain ⟨hP, hblankP⟩ := scanPartition_ok hpublic
  obtain ⟨hQ, hblankQ⟩ := scanPartition_ok hprivate
  rw [hblankP] at hm₁
  rw [hblankQ] at hm₂
  obtain ⟨hmapped₁, hkept₁⟩ := assignCanonicalSkolemIds_ok hm₁
  obtain ⟨hmapped₂, hkept₂⟩ := assignCanonicalSkolemIds_ok hm₂
  refine ⟨fun q hq => (mem_append.mp hq).elim (hP q) (hQ q), m₁, m₂,
    ⟨hmapped₁, hkept₁, fun b hb hnone => ?_, fun b hb => ?_⟩, rfl⟩
  · exact hmapped₂ b (mem_filter.mpr ⟨hb, by rw [hnone]; rfl⟩)
  · refine hkept₂ b fun hmem => ?_
    obtain ⟨hbQ, hnone⟩ := mem_filter.mp hmem
    rcases hb with hb | hb
    · exact hb hbQ
    · exact hb (Option.isNone_iff_eq_none.mp hnone)

namespace Passes

theorem blank_of_mem {b : Text} {quads : List Quad} (h : b ∈ blankNodesOf quads) :
    isBlankNode b = true := (mem_blankNodesOf.mp h).1

theorem unmapped₁ (h : Passes env P Q m₁ m₂) (t : Text) (ht : isBlankNode t = false) :
    m₁ t = none :=
  h.publicOnly t fun hmem => by simp [blank_of_mem hmem] at ht

theorem skolem₁ (h : Passes env P Q m₁ m₂) (t v : Text) (hv : m₁ t = some v) : IsSkolem v := by
  by_cases ht : t ∈ blankNodesOf P
  · obtain ⟨n, -, hn⟩ := h.publicPass t ht
    rw [hv, Option.some.injEq] at hn
    exact ⟨n, .inl hn⟩
  · rw [h.publicOnly t ht] at hv
    cases hv

theorem unmapped₂ (h : Passes env P Q m₁ m₂) (t : Text) (ht : isBlankNode t = false) :
    m₂ t = none := by
  rw [h.kept t (.inl fun hmem => by simp [blank_of_mem hmem] at ht), h.unmapped₁ t ht]

theorem maps_public (h : Passes env P Q m₁ m₂) :
    MapsBlanks (env.canonicalBlankNodeIdMap (P.map lineOf)) KNOWLEDGE_ASSET_SKOLEM_PREFIX P m₂ where
  mapped b hb := by
    obtain ⟨n, hn, hm⟩ := h.publicPass b hb
    exact ⟨n, hn, by rw [h.kept b (.inr (by simp [hm])), hm]⟩
  unmapped := h.unmapped₂

theorem maps_private (h : Passes env P Q m₁ m₂) :
    MapsBlanks (env.canonicalBlankNodeIdMap ((Q.map (substituteMappedTerms m₁)).map lineOf))
      KNOWLEDGE_ASSET_PRIVATE_SKOLEM_PREFIX (Q.map (substituteMappedTerms m₁)) m₂ where
  mapped b hb := by
    obtain ⟨hbQ, hnone⟩ := (mem_substituted h.skolem₁).mp hb
    exact h.privatePass b hbQ hnone
  unmapped := h.unmapped₂

theorem normalize_substitute (h : Passes env P Q m₁ m₂) (q : Quad) :
    normalize m₂ (substituteMappedTerms m₁ q) = normalize m₂ q := by
  have hterm : ∀ (t : Text) (f : Text → Text), (∀ v, IsSkolem v → f v = v) →
      (m₂ ((m₁ t).getD t)).getD (f ((m₁ t).getD t)) = (m₂ t).getD (f t) := by
    intro t f hf
    cases hv : m₁ t with
    | none => rfl
    | some v =>
      have hsk := h.skolem₁ t v hv
      rw [Option.getD_some, h.unmapped₂ v hsk.not_blank, h.kept t (.inr (by simp [hv])), hv,
        Option.getD_none, Option.getD_some, hf v hsk]
  have hobject : (m₂ (if isLiteral q.object then q.object else (m₁ q.object).getD q.object)).getD
      (normalizeObject (if isLiteral q.object then q.object
        else (m₁ q.object).getD q.object)) = (m₂ q.object).getD (normalizeObject q.object) := by
    split_ifs with hliteral
    · rfl
    · refine hterm q.object normalizeObject fun v hv => ?_
      rw [normalizeObject, if_neg (by simp [hv.not_literal]), hv.unwrapIri]
  rw [normalize, normalize, substituteMappedTerms]
  simp only [hobject, hterm q.subject unwrapIri fun v hv => hv.unwrapIri]

/-- The public list as the labelled lines of the public part. -/
theorem public_eq (h : Passes env P Q m₁ m₂) :
    env.normalizePartition m₂ P = env.arrange ((relabel env.canonicalBlankNodeIdMap
      (P.map lineOf)).map (outStatement KNOWLEDGE_ASSET_SKOLEM_PREFIX)) := by
  rw [Env.normalizePartition, relabel, map_map, map_map]
  exact congrArg env.arrange (map_congr_left fun q hq => h.maps_public.normalize_eq hq)

/-- The private list as the labelled lines of the private part with the shared nodes ground. -/
theorem private_eq (h : Passes env P Q m₁ m₂) :
    env.normalizePartition m₂ Q = env.arrange ((relabel env.canonicalBlankNodeIdMap
      ((Q.map lineOf).map (Triple.subst (Node.groundBy fun b => (m₁ b).map bracket)))).map
        (outStatement KNOWLEDGE_ASSET_PRIVATE_SKOLEM_PREFIX)) := by
  have hlines : (Q.map lineOf).map (Triple.subst (Node.groundBy fun b => (m₁ b).map bracket)) =
      (Q.map (substituteMappedTerms m₁)).map lineOf := by
    rw [map_map, map_map]
    exact map_congr_left fun q _ => (lineOf_substitute h.unmapped₁ h.skolem₁ q).symm
  have hstatements : Q.map (normalize m₂) =
      (Q.map (substituteMappedTerms m₁)).map (normalize m₂) := by
    rw [map_map]
    exact map_congr_left fun q _ => (h.normalize_substitute q).symm
  rw [hlines, Env.normalizePartition, hstatements, relabel]
  refine congrArg env.arrange ((map_congr_left fun q hq =>
    h.maps_private.normalize_eq hq).trans ?_)
  simp only [map_map, Function.comp_def]

theorem namesBlanks (h : Passes env P Q m₁ m₂) :
    NamesBlanks env.canonicalBlankNodeIdMap
      (fun n => bracket (KNOWLEDGE_ASSET_SKOLEM_PREFIX ++ canonicalId n)) (P.map lineOf)
      fun b => (m₁ b).map bracket where
  named b hb := by
    obtain ⟨n, hn, hm⟩ := h.publicPass b (occurs_lines.mp hb)
    simp only [hn, hm, Option.map_some]
  unnamed b hb := by
    simp only [h.publicOnly b fun hmem => hb (occurs_lines.mpr hmem), Option.map_none]

end Passes

end Passes

section Renaming
variable {env : Env} {quads P Q P' Q' : List Quad} {ρ : Text → Text}
  {r r' : List Statement × List Statement}

def renameTerm (ρ : Text → Text) (t : Text) : Text := if isBlankNode t then ρ t else t

def Quad.rename (ρ : Text → Text) (q : Quad) : Quad :=
  { q with subject := renameTerm ρ q.subject, object := renameTerm ρ q.object }

/-- A renaming of the blank nodes of some quads. -/
structure Renames (ρ : Text → Text) (quads : List Quad) : Prop where
  blank : ∀ b ∈ blankNodesOf quads, isBlankNode (ρ b) = true
  injective : ∀ b ∈ blankNodesOf quads, ∀ b' ∈ blankNodesOf quads, ρ b = ρ b' → b = b'

def Quad.statement (q : Quad) : Statement := ⟨q.subject, q.predicate, q.object⟩

/-- The same triples, in any order and number and in any graphs. -/
def SameTriples (P P' : List Quad) : Prop :=
  ∀ s, s ∈ P.map Quad.statement ↔ s ∈ P'.map Quad.statement

/-- Blank nodes and their new names. -/
def Renames.rel (ρ : Text → Text) (quads : List Quad) (b b' : Text) : Prop :=
  b ∈ blankNodesOf quads ∧ b' = ρ b

theorem Renames.oneToOne (h : Renames ρ quads) : OneToOne (Renames.rel ρ quads) where
  left hab hab' := hab.2.trans hab'.2.symm
  right hab ha'b := h.injective _ hab.1 _ ha'b.1 (hab.2.symm.trans ha'b.2)

theorem Renames.resource (h : Renames ρ quads) {t : Text}
    (ht : isBlankNode t = true → t ∈ blankNodesOf quads) :
    (resourceNode t).Rel (Renames.rel ρ quads) (resourceNode (renameTerm ρ t)) := by
  by_cases hblank : isBlankNode t = true
  · rw [renameTerm, if_pos hblank, resourceNode, if_pos hblank, resourceNode,
      if_pos (h.blank t (ht hblank))]
    exact ⟨ht hblank, rfl⟩
  · rw [renameTerm, if_neg hblank, resourceNode, if_neg hblank]
    rfl

theorem Renames.object (h : Renames ρ quads) {t : Text}
    (ht : isBlankNode t = true → t ∈ blankNodesOf quads) :
    (objectNode t).Rel (Renames.rel ρ quads) (objectNode (renameTerm ρ t)) := by
  by_cases hliteral : isLiteral t = true
  · rw [renameTerm, if_neg (by simp [not_isBlankNode_of_literal hliteral]), objectNode,
      if_pos hliteral]
    rfl
  · have hrenamed : ¬isLiteral (renameTerm ρ t) = true := by
      unfold renameTerm
      split_ifs with hblank
      · intro hρ
        have hne := h.blank t (ht hblank)
        rw [not_isBlankNode_of_literal hρ] at hne
        cases hne
      · exact hliteral
    rw [objectNode, if_neg hliteral, objectNode, if_neg hrenamed]
    exact h.resource ht

theorem Renames.line (h : Renames ρ quads) {q : Quad} (hq : q ∈ quads) :
    (lineOf q).Rel (Renames.rel ρ quads) (lineOf (q.rename ρ)) where
  subject := h.resource (subject_mem_blankNodesOf hq)
  predicate := rfl
  object := h.object (object_mem_blankNodesOf hq)

theorem lineOf_congr {q q' : Quad} (h : q.statement = q'.statement) : lineOf q = lineOf q' := by
  obtain ⟨subject, predicate, object, graph⟩ := q
  obtain ⟨subject', predicate', object', graph'⟩ := q'
  cases h
  rfl

theorem Renames.corresponds (h : Renames ρ quads) {R R' : List Quad}
    (hR : ∀ q ∈ R, q ∈ quads) (hsame : SameTriples (R.map (Quad.rename ρ)) R') :
    Corresponds (Renames.rel ρ quads) (R.map lineOf) (R'.map lineOf) where
  forth t ht := by
    obtain ⟨q, hq, rfl⟩ := mem_map.mp ht
    obtain ⟨q', hq', heq⟩ := mem_map.mp ((hsame _).mp (mem_map_of_mem (mem_map_of_mem hq)))
    exact ⟨lineOf q', mem_map_of_mem hq', lineOf_congr heq ▸ h.line (hR q hq)⟩
  back t' ht' := by
    obtain ⟨q', hq', rfl⟩ := mem_map.mp ht'
    obtain ⟨s, hs, heq⟩ := mem_map.mp ((hsame _).mpr (mem_map_of_mem hq'))
    obtain ⟨q, hq, rfl⟩ := mem_map.mp hs
    exact ⟨lineOf q, mem_map_of_mem hq, lineOf_congr heq ▸ h.line (hR q hq)⟩

theorem Lawful.arrange_relabel (h : Lawful env) {ts ts' : List (Triple Text Text)}
    (hiso : Isomorphic ts ts') (pre : Text) :
    env.arrange ((relabel env.canonicalBlankNodeIdMap ts).map (outStatement pre)) =
      env.arrange ((relabel env.canonicalBlankNodeIdMap ts').map (outStatement pre)) := by
  refine h.arrange_congr fun s => ?_
  simp only [mem_map, h.canonical.invariant hiso]

/-- Both lists under a renaming: the private one needs the symmetries of the public part to
extend. -/
theorem Lawful.skolemize_rename (h : Lawful env) (hρ : Renames ρ (P ++ Q))
    (hP : SameTriples (P.map (Quad.rename ρ)) P') (hQ : SameTriples (Q.map (Quad.rename ρ)) Q')
    (hr : env.skolemizeKnowledgeAssetParts P Q false = .ok r)
    (hr' : env.skolemizeKnowledgeAssetParts P' Q' false = .ok r') :
    r'.1 = r.1 ∧ (SymmetriesExtend (P.map lineOf) (Q.map lineOf) → r'.2 = r.2) := by
  obtain ⟨-, m₁, m₂, hpasses, rfl⟩ := skolemizeKnowledgeAssetParts_ok hr
  obtain ⟨-, m₁', m₂', hpasses', rfl⟩ := skolemizeKnowledgeAssetParts_ok hr'
  have hcorrP := hρ.corresponds (fun _ => mem_append_left Q) hP
  have hcorrQ := hρ.corresponds (fun _ => mem_append_right P) hQ
  constructor
  · simp only [hpasses.public_eq, hpasses'.public_eq]
    exact (h.arrange_relabel ⟨_, hρ.oneToOne, hcorrP⟩ _).symm
  · intro hext
    simp only [hpasses.private_eq, hpasses'.private_eq]
    exact (h.arrange_relabel (h.canonical.ground_isomorphic hρ.oneToOne hcorrP hcorrQ hext
      hpasses.namesBlanks hpasses'.namesBlanks) _).symm

end Renaming

end Dkg.Skolem
