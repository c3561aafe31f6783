import Dkg.Skolem.Canonical

/-!
What a skolemized asset says: one statement for each normalized triple, and nothing left to do on
a second pass.
-/

namespace Dkg.Skolem

open Revert BlankGraph List

section Statements
variable {env : Env} {P Q : List Quad} {m₁ m₂ : Text → Option Text}

def subjectNode (term : Text) : Node Text Text :=
  if isBlankNode term then .blank term else .ground (unwrapIri term)

def objectTerm (term : Text) : Node Text Text :=
  if isBlankNode term then .blank term else .ground (normalizeObject term)

/-- A quad without its graph, with its IRIs and literals in normal form. -/
def normalizedTriple (q : Quad) : Triple Text Text :=
  ⟨subjectNode q.subject, unwrapIri q.predicate, objectTerm q.object⟩

def fillNode (iri : Text → Text) : Node Text Text → Text
  | .blank b => iri b
  | .ground g => g

/-- The triple with IRIs for its blank nodes. -/
def fill (iri : Text → Text) (t : Triple Text Text) : Statement :=
  ⟨fillNode iri t.subject, t.predicate, fillNode iri t.object⟩

namespace Passes

/-- The IRI that a blank node gets. -/
def iri (m₂ : Text → Option Text) (b : Text) : Text := (m₂ b).getD []

theorem iri_cases (h : Passes env P Q m₁ m₂) {b : Text}
    (hb : b ∈ blankNodesOf (P ++ Q)) :
    (b ∈ blankNodesOf P ∧ ∃ n, env.canonicalBlankNodeIdMap (P.map lineOf) b = some n ∧
      m₂ b = some (KNOWLEDGE_ASSET_SKOLEM_PREFIX ++ canonicalId n)) ∨
    (b ∈ blankNodesOf (Q.map (substituteMappedTerms m₁)) ∧
      ∃ n, env.canonicalBlankNodeIdMap ((Q.map (substituteMappedTerms m₁)).map lineOf) b = some n ∧
        m₂ b = some (KNOWLEDGE_ASSET_PRIVATE_SKOLEM_PREFIX ++ canonicalId n)) := by
  by_cases hbP : b ∈ blankNodesOf P
  · exact .inl ⟨hbP, h.maps_public.mapped b hbP⟩
  · have hbQ := (mem_substituted h.skolem₁).mpr ⟨(blankNodesOf_append.mp hb).resolve_left hbP, h.publicOnly b hbP⟩
    exact .inr ⟨hbQ, h.maps_private.mapped b hbQ⟩

theorem isSkolem_iri (h : Passes env P Q m₁ m₂) {b : Text}
    (hb : b ∈ blankNodesOf (P ++ Q)) : m₂ b = some (iri m₂ b) ∧ IsSkolem (iri m₂ b) := by
  rcases h.iri_cases hb with ⟨-, n, -, hn⟩ | ⟨-, n, -, hn⟩
  · simp only [iri, hn, Option.getD_some]
    exact ⟨trivial, n, .inl rfl⟩
  · simp only [iri, hn, Option.getD_some]
    exact ⟨trivial, n, .inr rfl⟩

/-- Distinct blank nodes get distinct IRIs. -/
theorem iri_injective (h : Passes env P Q m₁ m₂) (hcanon : Canonical env.canonicalBlankNodeIdMap)
    {b b' : Text} (hb : b ∈ blankNodesOf (P ++ Q))
    (hb' : b' ∈ blankNodesOf (P ++ Q)) (heq : iri m₂ b = iri m₂ b') : b = b' := by
  rcases h.iri_cases hb with ⟨hmem, n, hid, hn⟩ | ⟨hmem, n, hid, hn⟩ <;>
    rcases h.iri_cases hb' with ⟨hmem', n', hid', hn'⟩ | ⟨hmem', n', hid', hn'⟩ <;>
    simp only [iri, hn, hn', Option.getD_some] at heq
  · obtain rfl := canonicalId_injective (append_cancel_left heq)
    exact hcanon.injective (occurs_lines.mpr hmem) (occurs_lines.mpr hmem') (hid.trans hid'.symm)
  · exact absurd heq (public_ne_private n n')
  · exact absurd heq.symm (public_ne_private n' n)
  · obtain rfl := canonicalId_injective (append_cancel_left heq)
    exact hcanon.injective (occurs_lines.mpr hmem) (occurs_lines.mpr hmem') (hid.trans hid'.symm)

theorem normalize_eq_fill (h : Passes env P Q m₁ m₂) {q : Quad} (hq : q ∈ P ++ Q) :
    normalize m₂ q = fill (iri m₂) (normalizedTriple q) := by
  have hterm : ∀ (t : Text) (f : Text → Text), (isBlankNode t = true →
      t ∈ blankNodesOf (P ++ Q)) → (m₂ t).getD (f t) =
        fillNode (iri m₂) (if isBlankNode t then .blank t else .ground (f t)) := by
    intro t f ht
    split_ifs with hblank
    · rw [(h.isSkolem_iri (ht hblank)).1]
      rfl
    · rw [h.unmapped₂ t (by simpa using hblank)]
      rfl
  rw [normalize, hterm q.subject unwrapIri, hterm q.object normalizeObject]
  · rfl
  · exact object_mem_blankNodesOf hq
  · exact subject_mem_blankNodesOf hq

end Passes

/-- A blank node of the parts, or a text that is not one of the new IRIs. -/
def Proper (quads : List Quad) : Node Text Text → Prop
  | .blank b => b ∈ blankNodesOf quads
  | .ground g => ¬IsSkolem g

theorem Lawful.not_isSkolem (h : Lawful env) {t : Text} (ht : env.reserves t = false) :
    ¬IsSkolem (unwrapIri t) := by
  intro hsk
  rw [Env.reserves, h.lower _ hsk.reserved] at ht
  cases ht

theorem Lawful.proper (h : Lawful env) {q : Quad} (hq : q ∈ quads) (hun : env.Unreserved q) :
    Proper quads (normalizedTriple q).subject ∧ Proper quads (normalizedTriple q).object := by
  obtain ⟨hsubject, -, hobject, -⟩ := hun
  constructor
  · change Proper quads (subjectNode q.subject)
    unfold subjectNode
    split_ifs with hb
    · exact subject_mem_blankNodesOf hq hb
    · exact h.not_isSkolem hsubject
  · change Proper quads (objectTerm q.object)
    unfold objectTerm
    split_ifs with hb
    · exact object_mem_blankNodesOf hq hb
    · by_cases hliteral : isLiteral q.object = true
      · intro hsk
        have hne := hsk.not_literal
        rw [isLiteral_normalizeObject hliteral] at hne
        cases hne
      · rw [Proper, normalizeObject, if_neg hliteral]
        exact h.not_isSkolem (hobject (by simpa using hliteral))

theorem fillNode_injective {iri : Text → Text}
    (hiri : ∀ b ∈ blankNodesOf quads, ∀ b' ∈ blankNodesOf quads, iri b = iri b' → b = b')
    (hsk : ∀ b ∈ blankNodesOf quads, IsSkolem (iri b))
    {x y : Node Text Text} (hx : Proper quads x) (hy : Proper quads y)
    (heq : fillNode iri x = fillNode iri y) : x = y := by
  cases x with
  | blank b =>
    cases y with
    | blank b' => rw [hiri b hx b' hy heq]
    | ground g =>
      obtain rfl : iri b = g := heq
      exact absurd (hsk b hx) hy
  | ground g =>
    cases y with
    | blank b' =>
      obtain rfl : g = iri b' := heq
      exact absurd (hsk b' hy) hx
    | ground g' => exact congrArg Node.ground heq

theorem arrange_singleton (s : Statement) : env.arrange [s] = [s] := by
  rw [Env.arrange, (nodup_singleton s).dedup]
  rfl

theorem fill_injective {iri : Text → Text}
    (hiri : ∀ b ∈ blankNodesOf quads, ∀ b' ∈ blankNodesOf quads, iri b = iri b' → b = b')
    (hsk : ∀ b ∈ blankNodesOf quads, IsSkolem (iri b))
    {t t' : Triple Text Text} (ht : Proper quads t.subject ∧ Proper quads t.object)
    (ht' : Proper quads t'.subject ∧ Proper quads t'.object) (heq : fill iri t = fill iri t') :
    t = t' := by
  obtain ⟨hs, hp, ho⟩ := Statement.mk.inj heq
  obtain ⟨subject, predicate, object⟩ := t
  obtain ⟨subject', predicate', object'⟩ := t'
  obtain rfl := fillNode_injective hiri hsk ht.1 ht'.1 hs
  obtain rfl := fillNode_injective hiri hsk ht.2 ht'.2 ho
  exact congrArg (Triple.mk subject · object) hp

theorem length_arrange_map {α : Type} [DecidableEq α] {f : α → Statement} {as : List α}
    (hf : ∀ a ∈ as, ∀ a' ∈ as, f a = f a' → a = a') :
    (env.arrange (as.map f)).length = as.dedup.length := by
  have himage : (as.map f).toFinset = as.toFinset.image f := by
    ext s
    simp
  rw [Env.arrange, (perm_insertionSort _ _).length_eq, ← card_toFinset, ← card_toFinset, himage]
  refine Finset.card_image_of_injOn fun a ha a' ha' heq => ?_
  exact hf a (mem_toFinset.mp ha) a' (mem_toFinset.mp ha') heq

end Statements

section SecondPass
variable {env : Env} {P Q : List Quad}

/-- A statement that a second pass leaves alone. -/
structure Fixed (env : Env) (s : Statement) : Prop where
  checked : env.checkQuad true s.toQuad = .ok ()
  subject : isBlankNode s.subject = false
  object : isBlankNode s.object = false
  normal : normalize (fun _ => none) s.toQuad = s

theorem scanPartition_fixed {as : List Statement} (h : ∀ s ∈ as, Fixed env s) :
    ∃ saw, env.scanPartition (as.map Statement.toQuad) true = .ok ⟨[], saw⟩ := by
  have hcheck : (as.map Statement.toQuad).forM (env.checkQuad true) = .ok () := by
    refine forM_ok.mpr fun q hq => ?_
    obtain ⟨s, hs, rfl⟩ := mem_map.mp hq
    exact (h s hs).checked
  have hblank : blankNodesOf (as.map Statement.toQuad) = [] := by
    refine eq_nil_iff_forall_not_mem.mpr fun b hb => ?_
    obtain ⟨hblank, q, hq, hterm⟩ := mem_blankNodesOf.mp hb
    obtain ⟨s, hs, rfl⟩ := mem_map.mp hq
    rcases hterm with rfl | rfl
    · exact absurd hblank (by simp [Statement.toQuad, (h s hs).subject])
    · exact absurd hblank (by simp [Statement.toQuad, (h s hs).object])
  exact ⟨_, by rw [Env.scanPartition, hcheck, hblank]; rfl⟩

/-- A second pass over statements it leaves alone only arranges them. -/
theorem skolemize_fixed {as bs : List Statement} (ha : ∀ s ∈ as, Fixed env s)
    (hb : ∀ s ∈ bs, Fixed env s) :
    env.skolemizeKnowledgeAssetParts (as.map Statement.toQuad) (bs.map Statement.toQuad) true =
      .ok (env.arrange as, env.arrange bs) := by
  have hmap : ∀ cs : List Statement, (∀ s ∈ cs, Fixed env s) →
      env.normalizePartition (fun _ => none) (cs.map Statement.toQuad) = env.arrange cs := by
    intro cs hcs
    rw [Env.normalizePartition, map_map]
    refine congrArg env.arrange ?_
    conv_rhs => rw [← map_id cs]
    exact map_congr_left fun s hs => (hcs s hs).normal
  obtain ⟨saw, hscan⟩ := scanPartition_fixed ha
  obtain ⟨saw', hscan'⟩ := scanPartition_fixed hb
  rw [Env.skolemizeKnowledgeAssetParts, hscan, ok_bind, hscan', ok_bind, require_of (by simp),
    ok_bind]
  simp only [Env.assignCanonicalSkolemIds, filter_nil, if_true, ok_bind, hmap as ha, hmap bs hb]
  rfl

/-- A term with a normal form that a second pass reads as it is, and not as a blank node. -/
def Plain (norm : Text → Text) (t : Text) : Prop :=
  norm (norm t) = norm t ∧ isBlankNode (norm t) = false

structure PlainQuad (q : Quad) : Prop where
  subject : isBlankNode q.subject = false → Plain unwrapIri q.subject
  predicate : unwrapIri (unwrapIri q.predicate) = unwrapIri q.predicate
  object : isBlankNode q.object = false → Plain normalizeObject q.object

theorem IsSkolem.normalizeObject {t : Text} (h : IsSkolem t) : normalizeObject t = t := by
  rw [Skolem.normalizeObject, if_neg (by simp [h.not_literal]), h.unwrapIri]

theorem reserves_unwrapIri {t : Text} (h : unwrapIri (unwrapIri t) = unwrapIri t) :
    env.reserves (unwrapIri t) = env.reserves t := by
  rw [Env.reserves, Env.reserves, h]

section Fixing
variable {m₁ m₂ : Text → Option Text}

/-- What a term becomes, for the terms of subjects and of objects. -/
theorem Passes.fill_term (h : Passes env P Q m₁ m₂) {t : Text} {norm : Text → Text}
    (ht : isBlankNode t = true → t ∈ blankNodesOf (P ++ Q))
    (hskolem : ∀ v, IsSkolem v → norm v = v) (hplain : isBlankNode t = false → Plain norm t)
    {v : Text} (hv : fillNode (Passes.iri m₂) (if isBlankNode t then .blank t
      else .ground (norm t)) = v) :
    isBlankNode v = false ∧ norm v = v ∧ (IsSkolem v ∨ isBlankNode t = false ∧ v = norm t) := by
  subst hv
  split_ifs with hb
  · have hsk := (h.isSkolem_iri (ht hb)).2
    exact ⟨hsk.not_blank, hskolem _ hsk, .inl hsk⟩
  · obtain ⟨hnorm, hblank⟩ := hplain (by simpa using hb)
    exact ⟨hblank, hnorm, .inr ⟨by simpa using hb, rfl⟩⟩

theorem Passes.fixed (h : Passes env P Q m₁ m₂) {q : Quad}
    (hq : q ∈ P ++ Q) (hun : env.Unreserved q) (hplain : PlainQuad q) :
    Fixed env (fill (Passes.iri m₂) (normalizedTriple q)) := by
  generalize hs : fill (Passes.iri m₂) (normalizedTriple q) = s
  obtain ⟨subject, predicate, object⟩ := s
  obtain ⟨hsubject, rfl, hobject⟩ := Statement.mk.inj hs
  obtain ⟨hblank, hunwrap, hcases⟩ := h.fill_term (subject_mem_blankNodesOf hq)
    (fun _ => IsSkolem.unwrapIri) hplain.subject hsubject
  obtain ⟨hblank', hnormal, hcases'⟩ := h.fill_term (object_mem_blankNodesOf hq)
    (fun _ => IsSkolem.normalizeObject) hplain.object hobject
  refine ⟨checkQuad_ok.mpr ⟨?_, ?_, fun hliteral => ?_, fun hne => absurd rfl hne⟩, hblank,
    hblank', ?_⟩
  · rcases hcases with hsk | ⟨hb, rfl⟩
    · exact .inr ⟨rfl, hsk.unwrapIri.symm ▸ hsk.canonical⟩
    · exact .inl ((reserves_unwrapIri (hplain.subject hb).1).trans hun.1)
  · exact (reserves_unwrapIri hplain.predicate).trans hun.2.1
  · change isLiteral object = false at hliteral
    rcases hcases' with hsk | ⟨hb, rfl⟩
    · exact .inr ⟨rfl, hsk.unwrapIri.symm ▸ hsk.canonical⟩
    · -- a literal would have stayed one
      have hbare : isLiteral q.object = false := by
        by_contra hne
        have hnormal' := isLiteral_normalizeObject (by simpa using hne)
        exact absurd (hliteral.symm.trans hnormal') (by simp)
      rw [normalizeObject_of_not_literal hbare] at hnormal hliteral ⊢
      rw [normalizeObject_of_not_literal hliteral] at hnormal
      exact .inl ((reserves_unwrapIri hnormal).trans (hun.2.2.1 hbare))
  · have hpredicate : unwrapIri (normalizedTriple q).predicate = (normalizedTriple q).predicate :=
      hplain.predicate
    simp only [Skolem.normalize, Statement.toQuad, Option.getD_none, hunwrap, hnormal, hpredicate]

end Fixing

section Unfixed
variable {m₁ m₂ : Text → Option Text} {t : Text}

/-- A list that a function maps onto itself is fixed by it, if what it moves it makes smaller. -/
theorem fixed_of_onto {α : Type} [DecidableEq α] {f : α → α} {as : List α} (size : α → ℕ)
    (hsize : ∀ a ∈ as, f a ≠ a → size (f a) < size a) (honto : ∀ a ∈ as, ∃ b ∈ as, f b = a) :
    ∀ a ∈ as, f a = a := by
  by_contra hmoved
  push Not at hmoved
  obtain ⟨a₀, ha₀, hne₀⟩ := hmoved
  obtain ⟨a, ha, hmax⟩ := (as.toFinset.filter fun a => f a ≠ a).exists_max_image size
    ⟨a₀, by simp [ha₀, hne₀]⟩
  simp only [Finset.mem_filter, mem_toFinset, and_imp] at ha hmax
  obtain ⟨b, hb, rfl⟩ := honto a ha.1
  have hne : f b ≠ b := fun heq => ha.2 (by rw [heq, heq])
  exact (hsize b hb hne).not_ge (hmax b hb hne)

/-- How far a term is from its normal form. -/
def distance (t : Text) : ℕ :=
  if isBlankNode t then 1 else if normalizeObject t = t then 0 else if isLiteral t then 1
  else t.length + 1

theorem distance_le (t : Text) : distance t ≤ t.length + 1 := by
  unfold distance
  split_ifs <;> omega

theorem distance_unwrapIri (h : unwrapIri t ≠ t) : distance (unwrapIri t) < distance t := by
  have hwrapped : t.head? = some '<' ∧ t.getLast? = some '>' := by
    by_contra hbare
    exact h (by rw [unwrapIri, if_neg hbare])
  have hblank : ¬isBlankNode t = true := fun hb => by
    have hhead := head_of_isBlankNode hb
    rw [hwrapped.1] at hhead
    exact absurd hhead (by decide)
  have hliteral : ¬isLiteral t = true := fun hl => h (unwrapIri_of_literal hl)
  have hmoved : normalizeObject t ≠ t := by rwa [normalizeObject, if_neg hliteral]
  have hlength : (unwrapIri t).length < t.length := by
    rw [unwrapIri, if_pos hwrapped, length_dropLast, length_drop]
    have hne : t ≠ [] := by
      rintro rfl
      cases hwrapped.1
    have hpos := length_pos_of_ne_nil hne
    omega
  have hle := distance_le (unwrapIri t)
  have hfar : distance t = t.length + 1 := by
    rw [distance, if_neg hblank, if_neg hmoved, if_neg hliteral]
  omega

theorem distance_normalizeObject (h : normalizeObject t ≠ t) (hb : isBlankNode t = false) :
    distance (normalizeObject t) < distance t := by
  by_cases hliteral : isLiteral t = true
  · have hnormal := not_isBlankNode_of_literal (isLiteral_normalizeObject hliteral)
    rw [distance, distance, if_neg (by simp [hnormal]),
      if_pos (normalizeObject_normalizeObject hliteral), if_neg (by simp [hb]), if_neg h,
      if_pos hliteral]
    exact Nat.one_pos
  · rw [normalizeObject, if_neg hliteral] at h ⊢
    exact distance_unwrapIri h

/-- A pass brings a term closer to its normal form, or leaves it as it is, and then it is not a
blank node. -/
theorem Passes.term_moves (h : Passes env P Q m₁ m₂) {f : Text → Text}
    (ht : isBlankNode t = true → t ∈ blankNodesOf (P ++ Q))
    (hf : f t ≠ t → isBlankNode t = false → distance (f t) < distance t) :
    distance ((m₂ t).getD (f t)) ≤ distance t ∧ (distance ((m₂ t).getD (f t)) = distance t →
        (m₂ t).getD (f t) = t ∧ isBlankNode t = false ∧ f t = t) := by
  by_cases hb : isBlankNode t = true
  · obtain ⟨hmapped, hsk⟩ := h.isSkolem_iri (ht hb)
    have hnear : distance (Passes.iri m₂ t) = 0 := by
      rw [distance, if_neg (by simp [hsk.not_blank]), if_pos hsk.normalizeObject]
    have hfar : distance t = 1 := if_pos hb
    rw [hmapped, Option.getD_some]
    omega
  · have hb' : isBlankNode t = false := by simpa using hb
    rw [h.unmapped₂ t hb', Option.getD_none]
    by_cases hmoved : f t = t
    · exact ⟨(congrArg distance hmoved).le, fun _ => ⟨hmoved, hb', hmoved⟩⟩
    · have hlt := hf hmoved hb'
      omega

/-- The statements that a second pass gives back are in normal form. -/
theorem Passes.normal_of_onto {as : List Statement} (h : Passes env P Q m₁ m₂)
    (has : ∀ s ∈ as, s.toQuad ∈ P ++ Q)
    (honto : ∀ s ∈ as, ∃ s' ∈ as, normalize m₂ s'.toQuad = s) {s : Statement} (hs : s ∈ as) :
    (isBlankNode s.subject = false ∧ unwrapIri s.subject = s.subject) ∧
      unwrapIri s.predicate = s.predicate ∧
      isBlankNode s.object = false ∧ normalizeObject s.object = s.object := by
  have hsubject := fun s hs => h.term_moves (f := unwrapIri)
    (subject_mem_blankNodesOf (has s hs)) fun hne _ => distance_unwrapIri hne
  have hobject := fun s hs => h.term_moves (f := normalizeObject)
    (object_mem_blankNodesOf (has s hs)) distance_normalizeObject
  have hfixed : normalize m₂ s.toQuad = s := by
    refine fixed_of_onto (fun s => distance s.subject + distance s.predicate + distance s.object)
      (fun s hs hne => ?_) honto s hs
    obtain ⟨hle, heq⟩ := hsubject s hs
    obtain ⟨hle', heq'⟩ := hobject s hs
    by_contra hge
    simp only [normalize, Statement.toQuad, not_lt] at hle heq hle' heq' hge
    have hpredicate : unwrapIri s.predicate = s.predicate := by
      by_contra hmoved
      have hlt := distance_unwrapIri hmoved
      omega
    rw [hpredicate] at hge
    refine hne ?_
    simp only [normalize, Statement.toQuad, (heq (by omega)).1, hpredicate, (heq' (by omega)).1]
  obtain ⟨hsub, hpred, hobj⟩ := Statement.mk.inj hfixed
  exact ⟨((hsubject s hs).2 (congrArg distance hsub)).2, hpred,
    ((hobject s hs).2 (congrArg distance hobj)).2⟩

theorem Passes.plain_of_again (h : Passes env P Q m₁ m₂) {as bs : List Statement}
    (has : as = env.normalizePartition m₂ P) (hbs : bs = env.normalizePartition m₂ Q)
    (hagain : env.skolemizeKnowledgeAssetParts (as.map Statement.toQuad)
      (bs.map Statement.toQuad) true = .ok (as, bs)) {q : Quad} (hq : q ∈ P ++ Q) :
    PlainQuad q := by
  obtain ⟨-, m₁', m₂', hpasses, hr⟩ := skolemizeKnowledgeAssetParts_ok hagain
  obtain ⟨has', hbs'⟩ := Prod.mk.inj hr
  have honto : ∀ cs : List Statement, cs = env.normalizePartition m₂' (cs.map Statement.toQuad) →
      ∀ s ∈ cs, ∃ s' ∈ cs, normalize m₂' s'.toQuad = s := by
    intro cs hcs s hs
    rw [hcs, Env.normalizePartition, mem_arrange, map_map] at hs
    exact mem_map.mp hs
  have hnormal := (mem_append.mp hq).elim
    (fun hq => hpasses.normal_of_onto (fun s hs => mem_append_left _ (mem_map_of_mem hs)) (honto as has')
      (has ▸ mem_arrange.mpr (mem_map_of_mem hq) : normalize m₂ q ∈ as))
    fun hq => hpasses.normal_of_onto (fun s hs => mem_append_right _ (mem_map_of_mem hs)) (honto bs hbs')
      (hbs ▸ mem_arrange.mpr (mem_map_of_mem hq) : normalize m₂ q ∈ bs)
  simp only [normalize] at hnormal
  obtain ⟨hsubject, hpredicate, hobject⟩ := hnormal
  refine ⟨fun hb => ?_, hpredicate, fun hb => ?_⟩
  · rw [h.unmapped₂ _ hb] at hsubject
    exact hsubject.symm
  · rw [h.unmapped₂ _ hb] at hobject
    exact hobject.symm

end Unfixed

end SecondPass

section Returns
variable {env : Env} {P Q : List Quad}

theorem Lawful.not_canonical (h : Lawful env) {t : Text} (ht : env.reserves t = false) :
    isCanonicalSkolemTerm t = false := by
  by_contra hcanon
  simp only [isCanonicalSkolemTerm, isCanonicalSkolemIri, Bool.not_eq_false, Bool.and_eq_true]
    at hcanon
  rw [Env.reserves, h.lower _ hcanon.1.1.1] at ht
  cases ht

theorem Lawful.scanPartition_returns (h : Lawful env) {quads : List Quad}
    (hun : ∀ q ∈ quads, env.Unreserved q) :
    env.scanPartition quads false = .ok ⟨blankNodesOf quads, false⟩ := by
  have hcheck : quads.forM (env.checkQuad false) = .ok () :=
    forM_ok.mpr fun q hq => checkQuad_false_ok.mpr (hun q hq)
  have hsaw : (quads.any fun q => isCanonicalSkolemTerm q.subject ||
      (!isLiteral q.object && isCanonicalSkolemTerm q.object)) = false := by
    refine any_eq_false.mpr fun q hq => ?_
    obtain ⟨hsubject, -, hobject, -⟩ := hun q hq
    rw [h.not_canonical hsubject, Bool.false_or]
    cases hliteral : isLiteral q.object with
    | true => simp
    | false => simp [h.not_canonical (hobject hliteral)]
  rw [Env.scanPartition, hcheck, ok_bind, hsaw]
  rfl

theorem safe_substitute {mapping : Text → Option Text} {q : Quad}
    (hskolem : ∀ t v, mapping t = some v → IsSkolem v)
    (hiri : ∀ t v, mapping t = some v → env.assertSafeIri v = true) (h : env.Safe q) :
    env.Safe (substituteMappedTerms mapping q) := by
  have hterm : ∀ t, env.safeResource t = true → env.safeResource ((mapping t).getD t) = true := by
    intro t ht
    cases hv : mapping t with
    | none => exact ht
    | some v =>
      rw [Option.getD_some, Env.safeResource, (hskolem t v hv).unwrapIri, hiri t v hv, Bool.or_true]
  obtain ⟨hsubject, hpredicate, hobject⟩ := h
  refine ⟨hterm _ hsubject, hpredicate, ?_⟩
  unfold substituteMappedTerms
  dsimp only
  by_cases hliteral : isLiteral q.object = true
  · rw [if_pos hliteral]
    exact hobject
  · rw [if_neg hliteral]
    rw [Env.safeObject, if_neg hliteral] at hobject
    have hne : ¬isLiteral ((mapping q.object).getD q.object) = true := by
      cases hv : mapping q.object with
      | none => exact hliteral
      | some v => simp [(hskolem _ v hv).not_literal]
    rw [Env.safeObject, if_neg hne]
    exact hterm _ hobject

/-- Quads with terms that pass the checks are skolemized. -/
theorem Lawful.skolemize_returns (h : Lawful env)
    (hun : ∀ q ∈ P ++ Q, env.Unreserved q ∧ env.Safe q)
    (hsafe : ∀ n, env.assertSafeIri (KNOWLEDGE_ASSET_SKOLEM_PREFIX ++ canonicalId n) = true) :
    ∃ r, env.skolemizeKnowledgeAssetParts P Q false = .ok r := by
  have hscan := h.scanPartition_returns fun q hq => (hun q (mem_append_left Q hq)).1
  have hscan' := h.scanPartition_returns fun q hq => (hun q (mem_append_right P hq)).1
  obtain ⟨m₁, hm₁⟩ := assignCanonicalSkolemIds_returns KNOWLEDGE_ASSET_SKOLEM_PREFIX
    (fun _ => none) (fun q hq => (hun q (mem_append_left Q hq)).2)
    fun b hb => h.canonical.assigned (occurs_lines.mpr hb)
  obtain ⟨hmapped, hkept⟩ := assignCanonicalSkolemIds_ok hm₁
  have hvalue : ∀ t v, m₁ t = some v →
      ∃ n, v = KNOWLEDGE_ASSET_SKOLEM_PREFIX ++ canonicalId n := by
    intro t v hv
    by_cases ht : t ∈ blankNodesOf P
    · obtain ⟨n, -, hn⟩ := hmapped t ht
      exact ⟨n, Option.some.inj (hv.symm.trans hn)⟩
    · rw [hkept t ht] at hv
      cases hv
  have hskolem : ∀ t v, m₁ t = some v → IsSkolem v := fun t v hv =>
    (hvalue t v hv).imp fun n hn => .inl hn
  have hiri : ∀ t v, m₁ t = some v → env.assertSafeIri v = true := fun t v hv => by
    obtain ⟨n, rfl⟩ := hvalue t v hv
    exact hsafe n
  have hsafe' : ∀ q ∈ Q.map (substituteMappedTerms m₁), env.Safe q := by
    intro q' hq'
    obtain ⟨q, hq, rfl⟩ := mem_map.mp hq'
    exact safe_substitute hskolem hiri (hun q (mem_append_right P hq)).2
  have hassigned : ∀ b ∈ (blankNodesOf Q).filter fun b => (m₁ b).isNone,
      ∃ n, env.canonicalBlankNodeIdMap
        ((Q.map (substituteMappedTerms m₁)).map lineOf) b = some n := by
    intro b hb
    obtain ⟨hbQ, hnone⟩ := mem_filter.mp hb
    exact h.canonical.assigned (occurs_lines.mpr ((mem_substituted hskolem).mpr
      ⟨hbQ, Option.isNone_iff_eq_none.mp hnone⟩))
  obtain ⟨m₂, hm₂⟩ := assignCanonicalSkolemIds_returns KNOWLEDGE_ASSET_PRIVATE_SKOLEM_PREFIX m₁
    hsafe' hassigned
  refine ⟨(env.normalizePartition m₂ P, env.normalizePartition m₂ Q), ?_⟩
  rw [Env.skolemizeKnowledgeAssetParts, hscan, ok_bind, hscan', ok_bind, require_of (by simp),
    ok_bind, hm₁, ok_bind]
  dsimp only
  rw [hm₂]
  rfl

end Returns

section Parts
variable {env : Env}

theorem Lawful.content (h : Lawful env) {P Q : List Quad} {r : List Statement × List Statement}
    (hr : env.skolemizeKnowledgeAssetParts P Q false = .ok r) :
    ∃ iri : Text → Text,
      (∀ b ∈ blankNodesOf (P ++ Q), ∀ b' ∈ blankNodesOf (P ++ Q), iri b = iri b' → b = b') ∧
      r.1 = env.arrange (P.map fun q => fill iri (normalizedTriple q)) ∧
      r.2 = env.arrange (Q.map fun q => fill iri (normalizedTriple q)) ∧
      r.1.length = (P.map normalizedTriple).dedup.length ∧
      r.2.length = (Q.map normalizedTriple).dedup.length ∧
      ((∀ q ∈ P ++ Q, PlainQuad q) ↔ env.skolemizeKnowledgeAssetParts
        (r.1.map Statement.toQuad) (r.2.map Statement.toQuad) true = .ok r) := by
  obtain ⟨hchecks, m₁, m₂, hpasses, rfl⟩ := skolemizeKnowledgeAssetParts_ok hr
  have hun : ∀ q ∈ P ++ Q, env.Unreserved q := fun q hq => checkQuad_false_ok.mp (hchecks q hq)
  have hleft : ∀ q ∈ P, q ∈ P ++ Q := fun _ => mem_append_left Q
  have hright : ∀ q ∈ Q, q ∈ P ++ Q := fun _ => mem_append_right P
  have hlist : ∀ R : List Quad, (∀ q ∈ R, q ∈ P ++ Q) → env.normalizePartition m₂ R =
      env.arrange (R.map fun q => fill (Passes.iri m₂) (normalizedTriple q)) := fun R hR =>
    congrArg env.arrange (map_congr_left fun q hq => hpasses.normalize_eq_fill (hR q hq))
  have hiri := fun b hb b' => @Passes.iri_injective env P Q m₁ m₂ hpasses h.canonical b b' hb
  have hlength : ∀ R : List Quad, (∀ q ∈ R, q ∈ P ++ Q) →
      (env.normalizePartition m₂ R).length = (R.map normalizedTriple).dedup.length := by
    intro R hR
    have hmap : (R.map fun q => fill (Passes.iri m₂) (normalizedTriple q)) =
        (R.map normalizedTriple).map (fill (Passes.iri m₂)) := by
      rw [map_map]
      rfl
    rw [hlist R hR, hmap]
    refine length_arrange_map fun t ht t' ht' heq => ?_
    obtain ⟨q, hq, rfl⟩ := mem_map.mp ht
    obtain ⟨q', hq', rfl⟩ := mem_map.mp ht'
    exact fill_injective hiri (fun b hb => (hpasses.isSkolem_iri hb).2)
      (h.proper (hR q hq) (hun q (hR q hq))) (h.proper (hR q' hq') (hun q' (hR q' hq'))) heq
  refine ⟨Passes.iri m₂, hiri, hlist P hleft, hlist Q hright,
    hlength P hleft, hlength Q hright, fun hplain => ?_,
    fun hagain q hq => hpasses.plain_of_again rfl rfl hagain hq⟩
  have hfixed : ∀ R : List Quad, (∀ q ∈ R, q ∈ P ++ Q) →
      ∀ s ∈ env.normalizePartition m₂ R, Fixed env s := by
    intro R hR s hs
    rw [hlist R hR, mem_arrange] at hs
    obtain ⟨q, hq, rfl⟩ := mem_map.mp hs
    exact hpasses.fixed (hR q hq) (hun q (hR q hq)) (hplain q (hR q hq))
  rw [skolemize_fixed (hfixed P hleft) (hfixed Q hright)]
  have hagain : ∀ R : List Quad, env.arrange (env.normalizePartition m₂ R) =
      env.normalizePartition m₂ R := fun R => h.arrange_congr fun s => mem_arrange
  rw [hagain, hagain]

/-- Quads that pass the checks are skolemized; the public list depends on the public quads up to
renaming of blank nodes, order, repetition and graphs, and not on the private ones; the private
list depends on both in the same way if the symmetries of the public part extend; both have one
statement for each normalized triple, with distinct IRIs for distinct blank nodes; and a second
pass changes nothing. -/
theorem skolemize_content (h : Lawful env) (P Q : List Quad) :
    ((∀ q ∈ P ++ Q, env.Unreserved q ∧ env.Safe q) →
      (∀ n, env.assertSafeIri (KNOWLEDGE_ASSET_SKOLEM_PREFIX ++ canonicalId n) = true) →
      ∃ r, env.skolemizeKnowledgeAssetParts P Q false = .ok r) ∧
    ∀ r, env.skolemizeKnowledgeAssetParts P Q false = .ok r →
      (∀ ρ P' Q' r', Renames ρ (P ++ Q) → SameTriples (P.map (Quad.rename ρ)) P' →
        SameTriples (Q.map (Quad.rename ρ)) Q' →
        env.skolemizeKnowledgeAssetParts P' Q' false = .ok r' →
        r'.1 = r.1 ∧ (SymmetriesExtend (P.map lineOf) (Q.map lineOf) → r'.2 = r.2)) ∧
      (∀ Q' r', env.skolemizeKnowledgeAssetParts P Q' false = .ok r' → r'.1 = r.1) ∧
      (∃ iri : Text → Text,
        (∀ b ∈ blankNodesOf (P ++ Q), ∀ b' ∈ blankNodesOf (P ++ Q), iri b = iri b' → b = b') ∧
        (∀ s, s ∈ r.1 ↔ ∃ q ∈ P, fill iri (normalizedTriple q) = s) ∧
        ∀ s, s ∈ r.2 ↔ ∃ q ∈ Q, fill iri (normalizedTriple q) = s) ∧
      (r.1.Nodup ∧ r.1.length = (P.map normalizedTriple).dedup.length) ∧
      (r.2.Nodup ∧ r.2.length = (Q.map normalizedTriple).dedup.length) ∧
      ((∀ q ∈ P ++ Q, PlainQuad q) ↔ env.skolemizeKnowledgeAssetParts
        (r.1.map Statement.toQuad) (r.2.map Statement.toQuad) true = .ok r) := by
  refine ⟨h.skolemize_returns, fun r hr => ?_⟩
  obtain ⟨iri, hiri, hpublic, hprivate, hlength, hlength', hsecond⟩ := h.content hr
  refine ⟨fun ρ P' Q' r' hρ hP hQ hr' => h.skolemize_rename hρ hP hQ hr hr', fun Q' r' hr' => ?_,
    ⟨iri, hiri, fun s => ?_, fun s => ?_⟩, ⟨?_, hlength⟩, ⟨?_, hlength'⟩, hsecond⟩
  · obtain ⟨-, m₁, m₂, hpasses, rfl⟩ := skolemizeKnowledgeAssetParts_ok hr
    obtain ⟨-, m₁', m₂', hpasses', rfl⟩ := skolemizeKnowledgeAssetParts_ok hr'
    exact hpasses'.public_eq.trans hpasses.public_eq.symm
  · rw [hpublic, mem_arrange, mem_map]
  · rw [hprivate, mem_arrange, mem_map]
  · rw [hpublic]
    exact nodup_arrange _
  · rw [hprivate]
    exact nodup_arrange _

end Parts

section Sample

instance encodableChar : Encodable Char := Encodable.ofLeftInverse Char.toNat Char.ofNat Char.ofNat_toNat

/-- A labelling by representatives, and the lexicographic order. -/
noncomputable def sampleEnv : Env where
  toLowerCase := id
  assertSafeIri _ := true
  assertSafeRdfTerm _ := true
  canonicalBlankNodeIdMap := labelByRepresentative
  before a b := decide (toLex (a.subject, toLex (a.predicate, a.object)) ≤
    toLex (b.subject, toLex (b.predicate, b.object)))

theorem lawful_sampleEnv : Lawful sampleEnv where
  lower _ h := h
  canonical := canonical_labelByRepresentative
  total a b := by
    simp only [sampleEnv, decide_eq_true_eq]
    exact le_total _ _
  trans a b c hab hbc := by
    simp only [sampleEnv, decide_eq_true_eq] at hab hbc ⊢
    exact hab.trans hbc
  antisymm a b hab hba := by
    simp only [sampleEnv, decide_eq_true_eq] at hab hba
    have heq := toLex.injective (le_antisymm hab hba)
    obtain ⟨subject, predicate, object⟩ := a
    obtain ⟨subject', predicate', object'⟩ := b
    simpa using heq

def nodeX : Text := ['_', ':', 'x']

def nodeY : Text := ['_', ':', 'y']

/-- Two public nodes of which one is mentioned in private. -/
def twinQuads : List Quad := [⟨nodeX, ['p'], ['o'], []⟩, ⟨nodeY, ['p'], ['o'], []⟩]

def secretQuad (node : Text) : List Quad := [⟨node, ['s'], ['o'], []⟩]

def swapXY (t : Text) : Text := if t = nodeX then nodeY else if t = nodeY then nodeX else t

theorem sample_terms (q : Quad)
    (hq : q ∈ twinQuads ∨ ∃ node ∈ [nodeX, nodeY], q ∈ secretQuad node) :
    sampleEnv.Unreserved q ∧ sampleEnv.Safe q := by
  simp only [twinQuads, secretQuad, mem_cons, not_mem_nil, or_false] at hq
  rcases hq with (rfl | rfl) | ⟨node, rfl | rfl, rfl⟩ <;>
    exact ⟨⟨rfl, rfl, fun _ => rfl, fun h => absurd rfl h⟩, rfl, rfl, rfl⟩

theorem skolemize_content_renamed :
    ∃ r r', sampleEnv.skolemizeKnowledgeAssetParts (secretQuad nodeX) (secretQuad nodeX) false =
        .ok r ∧
      sampleEnv.skolemizeKnowledgeAssetParts (secretQuad nodeY) (secretQuad nodeY) false =
        .ok r' ∧ r'.1 = r.1 ∧ r'.2 = r.2 ∧ r.1.length = 1 := by
  have hterms : ∀ node ∈ [nodeX, nodeY], ∀ q ∈ secretQuad node ++ secretQuad node,
      sampleEnv.Unreserved q ∧ sampleEnv.Safe q := fun node hnode q hq =>
    sample_terms q (.inr ⟨node, hnode, (mem_append.mp hq).elim id id⟩)
  obtain ⟨r', hr'⟩ := (skolemize_content lawful_sampleEnv (secretQuad nodeY) (secretQuad nodeY)).1
    (hterms nodeY (by simp)) fun _ => rfl
  obtain ⟨hreturns, hcontent⟩ :=
    skolemize_content lawful_sampleEnv (secretQuad nodeX) (secretQuad nodeX)
  obtain ⟨r, hr⟩ := hreturns (hterms nodeX (by simp)) fun _ => rfl
  obtain ⟨hrename, -, -, hpublic, -⟩ := hcontent r hr
  have hρ : Renames swapXY (secretQuad nodeX ++ secretQuad nodeX) := ⟨by decide, by decide⟩
  have hsame : SameTriples ((secretQuad nodeX).map (Quad.rename swapXY)) (secretQuad nodeY) := by
    intro s
    have hmap : ((secretQuad nodeX).map (Quad.rename swapXY)).map Quad.statement =
        (secretQuad nodeY).map Quad.statement := by decide
    rw [hmap]
  obtain ⟨hfirst, hsecond⟩ := hrename swapXY _ _ r' hρ hsame hsame hr'
  have hextend : SymmetriesExtend ((secretQuad nodeX).map lineOf) ((secretQuad nodeX).map lineOf) :=
    fun A hA hcorr => ⟨A, hA, hcorr, fun _ _ _ h => h⟩
  refine ⟨r, r', hr, hr', hfirst, hsecond hextend, hpublic.2.trans ?_⟩
  decide

/-- The twins are exchanged by a renaming that leaves the public quads as they are; the private
list shows which of them is meant by a label that both of them could have. -/
theorem twin_labels_show :
    Lawful sampleEnv ∧ Renames swapXY (twinQuads ++ secretQuad nodeX) ∧
      SameTriples (twinQuads.map (Quad.rename swapXY)) twinQuads ∧
      SameTriples ((secretQuad nodeX).map (Quad.rename swapXY)) (secretQuad nodeY) ∧
      ∃ r r', sampleEnv.skolemizeKnowledgeAssetParts twinQuads (secretQuad nodeX) false = .ok r ∧
        sampleEnv.skolemizeKnowledgeAssetParts twinQuads (secretQuad nodeY) false = .ok r' ∧
        r.2 ≠ r'.2 := by
  have hterms : ∀ node ∈ [nodeX, nodeY], ∀ q ∈ twinQuads ++ secretQuad node,
      sampleEnv.Unreserved q ∧ sampleEnv.Safe q := fun node hnode q hq =>
    (mem_append.mp hq).elim (sample_terms q ∘ .inl) fun hq =>
      sample_terms q (.inr ⟨node, hnode, hq⟩)
  obtain ⟨r, hr⟩ := lawful_sampleEnv.skolemize_returns (hterms nodeX (by simp)) fun _ => rfl
  obtain ⟨r', hr'⟩ := lawful_sampleEnv.skolemize_returns (hterms nodeY (by simp)) fun _ => rfl
  refine ⟨lawful_sampleEnv, ⟨by decide, by decide⟩, ?_, ?_, r, r', hr, hr', ?_⟩
  · intro s
    have hmap : (twinQuads.map (Quad.rename swapXY)).map Quad.statement =
        [⟨nodeY, ['p'], ['o']⟩, ⟨nodeX, ['p'], ['o']⟩] := by decide
    rw [hmap]
    simp [twinQuads, Quad.statement, or_comm]
  · intro s
    have hmap : ((secretQuad nodeX).map (Quad.rename swapXY)).map Quad.statement =
        (secretQuad nodeY).map Quad.statement := by decide
    rw [hmap]
  · obtain ⟨-, m₁, m₂, hpasses, rfl⟩ := skolemizeKnowledgeAssetParts_ok hr
    obtain ⟨-, m₁', m₂', hpasses', rfl⟩ := skolemizeKnowledgeAssetParts_ok hr'
    have hX : nodeX ∈ blankNodesOf twinQuads := by decide
    have hY : nodeY ∈ blankNodesOf twinQuads := by decide
    obtain ⟨n, hn, hm⟩ := hpasses.maps_public.mapped nodeX hX
    obtain ⟨n', hn', hm'⟩ := hpasses'.maps_public.mapped nodeY hY
    intro heq
    have hsubject := congrArg (map Statement.subject) heq
    simp only [Env.normalizePartition, secretQuad, map_cons, map_nil, arrange_singleton,
      normalize, hm, hm', Option.getD_some, cons.injEq, and_true] at hsubject
    obtain rfl := canonicalId_injective (append_cancel_left hsubject)
    have hsame := lawful_sampleEnv.canonical.injective (occurs_lines.mpr hX)
      (occurs_lines.mpr hY) (hn.trans hn'.symm)
    revert hsame
    decide

end Sample

end Dkg.Skolem
