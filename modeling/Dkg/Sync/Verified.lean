import Dkg.Sync.Selection

/-!
What a batch leaves behind: without legacy assets, every data row kept stands in the graph of one
verified asset, and no row kept can steer the node unless a verified asset says the same.
-/

namespace Dkg.Sync

open List
open Skolem (Text)
open Revert

section Read
variable {imports : Imports} {view : List Quad} {accept : Bool} {subject ual ual' : Text}
  {d d' : GraphScopedDescriptor} {c : Candidate} {r : IntegrityMetadataRead}

/-- The batch has this descriptor for this asset. -/
def Describes (imports : Imports) (view : List Quad) (ual : Text) (d : GraphScopedDescriptor) :
    Prop :=
  ual ∈ integritySubjects view ∧ readSubject imports view ual = .ok (.graphScoped ual d)

theorem readSubject_ual (h : readSubject imports view subject = .ok c) : c.ual = subject := by
  simp only [readSubject] at h
  split_ifs at h with hmarkers
  · cases h
    rfl
  · obtain ⟨parsed, -, h⟩ := bind_eq_ok.mp h
    split at h
    · obtain ⟨-, -, h⟩ := bind_eq_ok.mp h
      split_ifs at h with hone
      · cases h
        rfl
      · obtain ⟨-, -, h⟩ := bind_eq_ok.mp h
        obtain ⟨descriptor, -, h⟩ := bind_eq_ok.mp h
        cases h
        rfl
    · cases h

/-- The first pass keeps every candidate that it reads. -/
theorem candidates_foldl_addSubject (subjects : List Text) :
    (subjects.foldl (·.addSubject imports view accept) r).candidates =
      r.candidates ++ subjects.filterMap fun s => (readSubject imports view s).toOption := by
  induction subjects generalizing r with
  | nil => simp
  | cons s subjects ih =>
    rw [foldl_cons, ih]
    cases h : readSubject imports view s with
    | ok c | error message => simp [IntegrityMetadataRead.addSubject, h, Except.toOption]

theorem foldl_addSubject_clean {subjects : List Text}
    (h : (subjects.foldl (·.addSubject imports view accept) r).fatalUnscopedFailure = false) :
    r.fatalUnscopedFailure = false ∧
      (subjects.foldl (·.addSubject imports view accept) r).invalidKcUals = r.invalidKcUals ∧
      ∀ s ∈ subjects, ∃ c, readSubject imports view s = .ok c := by
  induction subjects generalizing r with
  | nil => exact ⟨h, rfl, by simp⟩
  | cons s subjects ih =>
    rw [foldl_cons] at h
    obtain ⟨hfatal, hinvalid, hread⟩ := ih h
    cases hs : readSubject imports view s with
    | error message => simp [IntegrityMetadataRead.addSubject, hs] at hfatal
    | ok c =>
      simp only [IntegrityMetadataRead.addSubject, hs] at hfatal hinvalid
      refine ⟨hfatal, ?_, ?_⟩
      · rw [foldl_cons]
        simpa only [IntegrityMetadataRead.addSubject, hs] using hinvalid
      · intro s' hs'
        rcases mem_cons.mp hs' with rfl | hs'
        · exact ⟨c, hs⟩
        · exact hread s' hs'

/-- What one candidate does to the owners when it meets no other claim. -/
theorem claimGraph_clean {s : List (Text × Text) × IntegrityMetadataRead}
    (h : (claimGraph accept s (.graphScoped ual d)).2.fatalUnscopedFailure = false) :
    claimGraph accept s (.graphScoped ual d) = (JsMap.set s.1 d.assertionGraph ual, s.2) ∧
      ∀ owner, JsMap.get? s.1 d.assertionGraph = some owner → owner ≠ [] → owner = ual := by
  simp only [claimGraph] at h ⊢
  split at h
  · simp at h
  · rename_i hnone
    refine ⟨rfl, fun owner howner hne => ?_⟩
    by_contra hdiff
    rw [howner, Option.filter_some, if_pos (by simpa using ⟨hne, hdiff⟩)] at hnone
    cases hnone

theorem foldl_claimGraph_clean {s : List (Text × Text) × IntegrityMetadataRead}
    {cs : List Candidate}
    (h : (cs.foldl (claimGraph accept) s).2.fatalUnscopedFailure = false) :
    (cs.foldl (claimGraph accept) s).2 = s.2 ∧
      (∀ graph owner, JsMap.get? s.1 graph = some owner → owner ≠ [] →
        JsMap.get? (cs.foldl (claimGraph accept) s).1 graph = some owner) ∧
      ∀ ual d, .graphScoped ual d ∈ cs → ual ≠ [] →
        JsMap.get? (cs.foldl (claimGraph accept) s).1 d.assertionGraph = some ual := by
  induction cs generalizing s with
  | nil => exact ⟨rfl, fun _ _ howner _ => howner, by simp⟩
  | cons c cs ih =>
    rw [foldl_cons] at h ⊢
    obtain ⟨hsame, hkept, howns⟩ := ih h
    cases c with
    | legacy ual =>
      refine ⟨hsame, hkept, fun ual d hmem => howns ual d ?_⟩
      simpa using hmem
    | graphScoped ual d =>
      have hfatal : (claimGraph accept s (.graphScoped ual d)).2.fatalUnscopedFailure = false := by
        rw [← hsame]
        exact h
      obtain ⟨hset, hunique⟩ := claimGraph_clean hfatal
      rw [hset] at hsame hkept howns ⊢
      have hthis : ual ≠ [] → JsMap.get? (JsMap.set s.1 d.assertionGraph ual) d.assertionGraph =
          some ual := fun _ => by rw [JsMap.get?_set, if_pos rfl]
      refine ⟨hsame, fun graph owner howner hne => hkept graph owner ?_ hne, ?_⟩
      · rw [JsMap.get?_set]
        split_ifs with hgraph
        · subst hgraph
          rw [hunique owner howner hne]
        · exact howner
      · intro ual' d' hmem hne
        rcases mem_cons.mp hmem with heq | hmem
        · cases heq
          exact hkept _ _ (hthis hne) hne
        · exact howns ual' d' hmem hne

theorem foldl_rejectAlias_clean {uals : List Text} {rows : List Quad}
    (h : (rows.foldl (·.rejectAlias accept uals) r).fatalUnscopedFailure = false) :
    rows.foldl (·.rejectAlias accept uals) r = r := by
  induction rows generalizing r with
  | nil => rfl
  | cons q rows ih =>
    rw [foldl_cons] at h ⊢
    have hrest := ih h
    rw [hrest] at h ⊢
    simp only [IntegrityMetadataRead.rejectAlias] at h ⊢
    split_ifs at h ⊢ with hnone
    rfl

/-- A batch whose metadata reads without failure: no subject was given up. -/
structure CleanRead (imports : Imports) (view : List Quad) (r : IntegrityMetadataRead) : Prop where
  candidates : r.candidates =
    (integritySubjects view).filterMap fun s => (readSubject imports view s).toOption
  read : ∀ s ∈ integritySubjects view, ∃ c, readSubject imports view s = .ok c
  owner : (∀ s ∈ integritySubjects view, s ≠ []) → ∀ ual d ual' d', Describes imports view ual d →
    Describes imports view ual' d' → d.assertionGraph = d'.assertionGraph → ual = ual'

theorem describes_of_mem {r : IntegrityMetadataRead} (h : CleanRead imports view r)
    (hmem : (ual, d) ∈ r.candidates.filterMap Candidate.graphScoped?) :
    Describes imports view ual d := by
  obtain ⟨c, hc, hgraph⟩ := mem_filterMap.mp hmem
  rw [h.candidates] at hc
  obtain ⟨s, hs, hread⟩ := mem_filterMap.mp hc
  cases hok : readSubject imports view s with
  | error message => simp [hok, Except.toOption] at hread
  | ok c' =>
    simp only [hok, Except.toOption, Option.some.injEq] at hread
    subst hread
    have hual := readSubject_ual hok
    cases c' with
    | legacy ual => cases hgraph
    | graphScoped ual d =>
      cases hgraph
      cases hual
      exact ⟨hs, hok⟩

theorem mem_of_describes (h : Describes imports view ual d) :
    .graphScoped ual d ∈
      (integritySubjects view).filterMap fun s => (readSubject imports view s).toOption :=
  mem_filterMap.mpr ⟨ual, h.1, by rw [h.2]; rfl⟩

theorem cleanRead
    (h : (readIntegrityMetadata imports view accept).fatalUnscopedFailure = false) :
    CleanRead imports view (readIntegrityMetadata imports view accept) := by
  have haliases : readAliases imports view accept = readOwners imports view accept :=
    foldl_rejectAlias_clean h
  have howners : (readOwners imports view accept).fatalUnscopedFailure = false := haliases ▸ h
  obtain ⟨hsame, -, howns⟩ := foldl_claimGraph_clean howners
  change readOwners imports view accept = readCandidates imports view accept at hsame
  have hread : (readCandidates imports view accept).fatalUnscopedFailure = false := hsame ▸ howners
  obtain ⟨-, hinvalid, hok⟩ := foldl_addSubject_clean hread
  have hcandidates : (readCandidates imports view accept).candidates =
      (integritySubjects view).filterMap fun s => (readSubject imports view s).toOption := by
    rw [readCandidates, candidates_foldl_addSubject]
    rfl
  refine ⟨?_, hok, ?_⟩
  · have hr : readAliases imports view accept = readCandidates imports view accept :=
      haliases.trans hsame
    have hnone : (readCandidates imports view accept).invalidKcUals = [] := hinvalid
    simp only [readIntegrityMetadata, hr, hnone, not_mem_nil, not_false_eq_true, decide_true,
      filter_true, hcandidates]
  · intro hnonempty ual d ual' d' hd hd' hgraph
    have hfirst := howns ual d (hcandidates ▸ mem_of_describes hd) (hnonempty ual hd.1)
    have hsecond := howns ual' d' (hcandidates ▸ mem_of_describes hd') (hnonempty ual' hd'.1)
    rw [hgraph, hsecond] at hfirst
    exact (Option.some.inj hfirst).symm

end Read

section Subjects
variable {view metaQuads : List Quad} {subject : Text}

theorem mem_merkleSubjects :
    subject ∈ merkleSubjects view ↔ ∃ q ∈ view, q.predicate = .merkleRoot ∧ q.subject = subject := by
  simp [merkleSubjects, and_assoc]

theorem mem_markerSubjects :
    subject ∈ markerSubjects view ↔ ∃ q ∈ view, q.predicate = .contentScopeVersion ∧
      isDeterministicKaMetadataSubject q.subject ∧ q.subject = subject := by
  simp [markerSubjects, and_assoc]

theorem mem_integritySubjects :
    subject ∈ integritySubjects view ↔
      subject ∈ merkleSubjects view ∨ subject ∈ markerSubjects view := by
  simp [integritySubjects]

theorem ne_nil_of_mem_integritySubjects
    (h : subject ∈ integritySubjects (prepareDurableMeta metaQuads).verificationView) :
    subject ≠ [] := by
  have hrow : ∃ q ∈ (prepareDurableMeta metaQuads).verificationView, q.subject = subject := by
    rcases mem_integritySubjects.mp h with h | h
    · obtain ⟨q, hq, -, hsubject⟩ := mem_merkleSubjects.mp h
      exact ⟨q, hq, hsubject⟩
    · obtain ⟨q, hq, -, -, hsubject⟩ := mem_markerSubjects.mp h
      exact ⟨q, hq, hsubject⟩
  obtain ⟨q, hq, rfl⟩ := hrow
  have hadmissible := (mem_filter.mp hq).2
  simp only [isAdmissible, isIriMetaSubject, Bool.decide_and, Bool.and_eq_true,
    decide_eq_true_eq] at hadmissible
  exact hadmissible.1.1

end Subjects

section Verify
variable {imports : Imports} {data view : List Quad} {mode : Mode} {ual : Text}
  {d : GraphScopedDescriptor} {o o' : GraphScopedOutcome} {c : Text × GraphScopedDescriptor}
  {cs : List (Text × GraphScopedDescriptor)}

/-- The quads of the descriptor's graph are as many as it says and have the root it claims. -/
structure Verified (imports : Imports) (data view : List Quad) (mode : Mode) (ual : Text)
    (d : GraphScopedDescriptor) : Prop where
  scope : classifyGraphScopedCandidateScope view mode ual d.assertionGraph = .ok .inScope
  count : (quadsOf data d.assertionGraph).length = d.publicTripleCount
  root : ∃ root, imports.computeStructuredKCRoot (quadsOf data d.assertionGraph)
    d.privateRoot.toList = .ok root ∧ toHex root = d.claimedRootHex

/-- Only verified assets of the list are admitted or authenticated, and only their graphs are
marked as verified. -/
structure Sound (imports : Imports) (data view : List Quad) (mode : Mode)
    (cs : List (Text × GraphScopedDescriptor)) (fatal : Bool) (o : GraphScopedOutcome) : Prop where
  admitted : ∀ ual ∈ o.admittedMetadataUals, ∃ d, (ual, d) ∈ cs ∧
    Verified imports data view mode ual d
  authenticated : ∀ ual ∈ o.authenticatedMetadataUals, ∃ d, (ual, d) ∈ cs ∧
    Verified imports data view mode ual d
  graph : ∀ graph, JsMap.get? o.graphVerification graph = some true →
    ∃ ual d, (ual, d) ∈ cs ∧ d.assertionGraph = graph ∧ Verified imports data view mode ual d
  fatal : fatal = true → o.fatalUnscopedFailure = true

theorem computedRootHex_eq_some {hex : Text} (h : computedRootHex imports data d = .ok (some hex)) :
    (quadsOf data d.assertionGraph).length = d.publicTripleCount ∧
      ∃ root, imports.computeStructuredKCRoot (quadsOf data d.assertionGraph)
        d.privateRoot.toList = .ok root ∧ toHex root = hex := by
  simp only [computedRootHex] at h
  split_ifs at h with hcount
  · obtain ⟨root, hroot, h⟩ := bind_eq_ok.mp h
    simp only [pure_eq_ok, Option.some.injEq] at h
    exact ⟨hcount, root, hroot, h⟩
  · simp at h

/-- A candidate is verified and accepted, or nothing new counts as verified. -/
theorem verify_cases (hmode : mode.isHeld = false)
    (h : o.verify imports data view false mode c = .ok o') :
    (o' = o.accept c.1 c.2 ∧ Verified imports data view mode c.1 c.2) ∨
      (o'.admittedMetadataUals = o.admittedMetadataUals ∧
        o'.authenticatedMetadataUals = o.authenticatedMetadataUals ∧
        (∀ graph, JsMap.get? o'.graphVerification graph = some true →
          JsMap.get? o.graphVerification graph = some true) ∧
        (o.fatalUnscopedFailure = true → o'.fatalUnscopedFailure = true)) := by
  have hfalse : ∀ graph, JsMap.get? (JsMap.set o.graphVerification c.2.assertionGraph false) graph =
      some true → JsMap.get? o.graphVerification graph = some true := by
    intro graph hgraph
    rw [JsMap.get?_set] at hgraph
    split_ifs at hgraph
    · cases hgraph
    · exact hgraph
  simp only [GraphScopedOutcome.verify] at h
  split at h
  · cases h
    exact .inr ⟨rfl, rfl, fun _ hgraph => hgraph, fun _ => rfl⟩
  · rename_i hscope
    obtain ⟨computedHex, hcomputed, h⟩ := bind_eq_ok.mp h
    rw [pure_eq_ok] at h
    split_ifs at h with hclaimed
    · subst hclaimed
      obtain ⟨hcount, hroot⟩ := computedRootHex_eq_some hcomputed
      exact .inl ⟨h.symm, hscope, hcount, hroot⟩
    · subst h
      exact .inr ⟨rfl, rfl, hfalse, fun hfatal => by simp [GraphScopedOutcome.reject, hfatal]⟩
  · cases h
    have hheld : mode.heldDigest c.1 = none := by
      cases mode with
      | heldMetadata descriptors => cases hmode
      | _ => rfl
    refine .inr ⟨rfl, ?_, fun graph hgraph => ?_, id⟩
    · simp [GraphScopedOutcome.skip, hheld]
    · simp only [GraphScopedOutcome.skip] at hgraph
      split_ifs at hgraph
      · exact hfalse graph hgraph
      · exact hgraph

theorem Sound.verify {fatal : Bool} (hmode : mode.isHeld = false) (hc : c ∈ cs)
    (ho : Sound imports data view mode cs fatal o)
    (h : o.verify imports data view false mode c = .ok o') :
    Sound imports data view mode cs fatal o' := by
  rcases verify_cases hmode h with ⟨rfl, hverified⟩ | ⟨hadmitted, hauth, hgraph, hfatal⟩
  · refine ⟨fun ual hual => ?_, fun ual hual => ?_, fun graph hgraph => ?_, ho.fatal⟩
    · rcases JsSet.mem_add.mp hual with hual | rfl
      · exact ho.admitted ual hual
      · exact ⟨c.2, hc, hverified⟩
    · rcases JsSet.mem_add.mp hual with hual | rfl
      · exact ho.authenticated ual hual
      · exact ⟨c.2, hc, hverified⟩
    · simp only [GraphScopedOutcome.accept, JsMap.get?_set] at hgraph
      split_ifs at hgraph with heq
      · exact ⟨c.1, c.2, hc, heq.symm, hverified⟩
      · exact ho.graph graph hgraph
  · exact ⟨hadmitted ▸ ho.admitted, hauth ▸ ho.authenticated,
      fun graph h => ho.graph graph (hgraph graph h), fun h => hfatal (ho.fatal h)⟩

theorem Sound.verifyAll {fatal : Bool} {rest : List (Text × GraphScopedDescriptor)}
    (hmode : mode.isHeld = false) (hrest : ∀ c ∈ rest, c ∈ cs)
    (ho : Sound imports data view mode cs fatal o)
    (h : rest.foldlM (·.verify imports data view false mode) o = .ok o') :
    Sound imports data view mode cs fatal o' := by
  induction rest generalizing o with
  | nil =>
    simp only [foldlM_nil, pure_eq_ok] at h
    exact h ▸ ho
  | cons c rest ih =>
    simp only [foldlM_cons, bind_eq_ok] at h
    obtain ⟨next, hnext, h⟩ := h
    exact ih (fun c' hc' => hrest c' (mem_cons_of_mem c hc'))
      (ho.verify hmode (hrest c mem_cons_self) hnext) h

theorem sound_verifyGraphScopedCandidates {parsed : IntegrityMetadataRead}
    (hmode : mode.isHeld = false)
    (h : verifyGraphScopedCandidates imports data view false mode parsed = .ok o) :
    Sound imports data view mode (parsed.candidates.filterMap Candidate.graphScoped?)
      parsed.fatalUnscopedFailure o := by
  refine Sound.verifyAll hmode (fun _ hc => hc) ?_ h
  exact ⟨by simp, by simp, by simp, id⟩

end Verify

section Rows
variable {imports : Imports} {view metaQuads data : List Quad} {admitted authenticated : List Text}
  {q : Quad} {i : ℕ} {o : IntegrityVerificationOutcome}

theorem mem_selectRows {fate : Quad → RowFate} :
    i ∈ (selectRows (prepareDurableMeta metaQuads) fate).indexes ↔
      ∃ q, metaQuads[i]? = some q ∧ isAdmissible q = true ∧ fate q = .kept := by
  simp only [selectRows, prepareDurableMeta, mem_filter, mem_map, Prod.exists,
    mem_zipIdx_iff_getElem?]
  constructor
  · rintro ⟨⟨q, j, ⟨hq, hadmissible⟩, rfl⟩, hkept⟩
    rw [hq] at hkept
    exact ⟨q, hq, hadmissible, by simpa using hkept⟩
  · rintro ⟨q, hq, hadmissible, hkept⟩
    exact ⟨⟨q, i, ⟨hq, hadmissible⟩, rfl⟩, by simpa [hq] using hkept⟩

theorem mem_selectedData :
    i ∈ selectedData data o ↔ ∃ q, data[i]? = some q ∧ dataFate o q = .selected := by
  simp only [selectedData, mem_map, mem_filter, Prod.exists,
    mem_zipIdx_iff_getElem?, decide_eq_true_eq]
  constructor
  · rintro ⟨q, j, ⟨hq, hfate⟩, rfl⟩
    exact ⟨q, hq, hfate⟩
  · rintro ⟨q, hq, hfate⟩
    exact ⟨q, i, ⟨hq, hfate⟩, rfl⟩

/-- Without legacy assets, data is selected by its graph alone. -/
theorem dataFate_selected (hroots : o.kcRootEntities = []) (hgraph : o.hasGraphScopedCandidates) :
    dataFate o q = .selected ↔ JsMap.get? o.graphVerification q.graph = some true := by
  simp only [dataFate, hroots, flatMap_nil, hgraph, if_true]
  split
  · rename_i h
    simp [h]
  · rename_i h
    simp [h]
  · rename_i h
    have hnone : findLegacyRootOwner q.subject (JsSet.ofList []) = none := rfl
    rw [hnone, h]
    dsimp only [Option.filter_none]
    split_ifs <;> simp

/-- The subject states one version and one graph, as the rows of the asset do. -/
def RepeatsScope (view : List Quad) (subject ual : Text) : Prop :=
  ∃ version graph, integerObjects (rowsOf view subject) .assertionVersion
      "assertionVersion".toList = .ok [version] ∧
    integerObjects (rowsOf view ual) .assertionVersion "assertionVersion".toList = .ok [version] ∧
    (distinctObjects (rowsOf view subject) .assertionGraph).map stripLiteral = [graph] ∧
    (distinctObjects (rowsOf view ual) .assertionGraph).map stripLiteral = [graph]

theorem repeatsScope_true {subject ual : Text}
    (h : repeatsScope (rowsOf view subject) (rowsOf view ual) = .ok true) :
    RepeatsScope view subject ual := by
  simp only [repeatsScope, bind_eq_ok, pure_eq_ok, decide_eq_true_eq] at h
  obtain ⟨scopes, -, versions, hversions, versions', hversions', -, hone, -, rfl, hgraph, -,
    hsame⟩ := h
  obtain ⟨version, rfl⟩ := length_eq_one_iff.mp hone
  obtain ⟨graph, hgraph⟩ := length_eq_one_iff.mp hgraph
  exact ⟨version, graph, hversions, hversions', hgraph, hsame ▸ hgraph⟩

theorem kept_of_envelope (h : q.subject ∈ integritySubjects view)
    (hkept : metadataRowFate imports view admitted authenticated [] q = .kept) :
    q.subject ∈ admitted := by
  rw [metadataRowFate, if_pos (mem_integritySubjects.mp h), ownedRowFate] at hkept
  by_contra hnot
  rw [if_neg hnot] at hkept
  cases hkept

theorem authenticated_control (h : isAuthenticatedSyncControl view authenticated [] q = true) :
    ∃ ual ∈ authenticated, q.subject = ual ∨ RepeatsScope view q.subject ual := by
  simp only [isAuthenticatedSyncControl, JsMap.get?_nil, Option.filter_none, Option.any_none,
    Bool.false_eq_true, if_false] at h
  split_ifs at h with hsubject hbatch
  · exact ⟨q.subject, hsubject, .inl rfl⟩
  · split at h
    · rename_i owner _
      split_ifs at h with howner
      split at h
      · rename_i same hsame
        subst h
        exact ⟨owner, howner, .inr (repeatsScope_true hsame)⟩
      · cases h
    · cases h

/-- A cursor or routing row is kept for an asset that is itself kept, or that says the same. -/
theorem kept_of_control (hcontrol : q.predicate = .batchId ∨ q.predicate = .assertionGraph)
    (hkept : metadataRowFate imports view admitted authenticated [] q = .kept) :
    q.subject ∈ admitted ∨
      ∃ ual ∈ authenticated, q.subject = ual ∨ RepeatsScope view q.subject ual := by
  by_cases henvelope : q.subject ∈ integritySubjects view
  · exact .inl (kept_of_envelope henvelope hkept)
  · have hstandalone : isDurableSyncControlQuad imports view q false = true := by
      rcases hcontrol with h | h <;>
        simp [isDurableSyncControlQuad, isGraphSealDescriptiveVersion,
          DURABLE_SYNC_CONTROL_PREDICATES, h]
    rw [metadataRowFate, if_neg (fun h => henvelope (mem_integritySubjects.mpr h))] at hkept
    simp only [JsMap.get?_nil, Option.filter_none, standaloneRowFate, hstandalone] at hkept
    split_ifs at hkept with hauth
    exact .inr (authenticated_control (by simpa using hauth))

end Rows

section Batch
variable {imports : Imports} {data metaQuads : List Quad} {mode : Mode} {ual subject : Text}
  {d : GraphScopedDescriptor} {sel : DurableIntegritySelection} {q : Quad}

/-- An asset of the batch: alone in naming its graph, and verified by the quads of that graph. -/
structure VerifiedAsset (imports : Imports) (data metaQuads : List Quad) (mode : Mode) (ual : Text)
    (d : GraphScopedDescriptor) : Prop where
  describes : Describes imports (prepareDurableMeta metaQuads).verificationView ual d
  alone : ∀ ual' d', Describes imports (prepareDurableMeta metaQuads).verificationView ual' d' →
    d'.assertionGraph = d.assertionGraph → ual' = ual ∧ d' = d
  verified : Verified imports data (prepareDurableMeta metaQuads).verificationView mode ual d

/-- A Merkle root, or a content-scope marker on the name of a knowledge asset. -/
def CarriesEnvelope (metaQuads : List Quad) (subject : Text) : Prop :=
  ∃ q ∈ metaQuads, q.subject = subject ∧ (q.predicate = .merkleRoot ∨
    q.predicate = .contentScopeVersion ∧ isDeterministicKaMetadataSubject subject = true)

/-- The rows kept from a batch are those of verified assets, and rows that steer nothing. -/
structure SelectsVerified (imports : Imports) (data metaQuads : List Quad) (mode : Mode)
    (sel : DurableIntegritySelection) : Prop where
  payload : ∀ i ∈ sel.dataIndexes, ∃ q ual d, data[i]? = some q ∧ q.graph = d.assertionGraph ∧
    VerifiedAsset imports data metaQuads mode ual d ∧
    ∀ j q', data[j]? = some q' → q'.graph = q.graph → j ∈ sel.dataIndexes
  envelope : ∀ i ∈ sel.metaIndexes, ∃ q, metaQuads[i]? = some q ∧
    (CarriesEnvelope metaQuads q.subject →
      ∃ d, VerifiedAsset imports data metaQuads mode q.subject d)
  control : ∀ i ∈ sel.metaIndexes, ∃ q, metaQuads[i]? = some q ∧
    (q.predicate = .batchId ∨ q.predicate = .assertionGraph →
      ∃ ual d, VerifiedAsset imports data metaQuads mode ual d ∧ (q.subject = ual ∨
        RepeatsScope (prepareDurableMeta metaQuads).verificationView q.subject ual))

theorem mem_integritySubjects_of_carries (hq : isAdmissible q = true)
    (h : CarriesEnvelope metaQuads q.subject) :
    q.subject ∈ integritySubjects (prepareDurableMeta metaQuads).verificationView := by
  obtain ⟨q', hmem, hsubject, hpredicate⟩ := h
  have hview : q' ∈ (prepareDurableMeta metaQuads).verificationView := by
    refine mem_filter.mpr ⟨hmem, ?_⟩
    simp only [isAdmissible, Bool.decide_and, Bool.and_eq_true, decide_eq_true_eq] at hq ⊢
    refine ⟨hsubject ▸ hq.1, ?_⟩
    rcases hpredicate with h | ⟨h, -⟩ <;> rw [h] <;> decide
  refine mem_integritySubjects.mpr ?_
  rcases hpredicate with h | ⟨h, hname⟩
  · exact .inl (mem_merkleSubjects.mpr ⟨q', hview, h, hsubject⟩)
  · exact .inr (mem_markerSubjects.mpr ⟨q', hview, h, hsubject ▸ hname, hsubject⟩)

theorem selectsVerified_of_nil (hdata : sel.dataIndexes = []) (hmeta : sel.metaIndexes = []) :
    SelectsVerified imports data metaQuads mode sel :=
  ⟨by simp [hdata], by simp [hmeta], by simp [hmeta]⟩

theorem selectVerifiedQuads_cases {prepared : PreparedDurableMeta}
    (o : IntegrityVerificationOutcome) (hsel : selectVerifiedQuads imports data false prepared o = sel) :
    (sel.dataIndexes = [] ∧ sel.metaIndexes = []) ∨
      (o.fatalUnscopedFailure = false ∧ sel.dataIndexes = selectedData data o ∧
        sel.metaIndexes = (selectAdmittedMetadataIndexes imports o.admittedMetadataUals
          o.authenticatedMetadataUals o.kaToKc prepared).indexes) := by
  subst hsel
  unfold selectVerifiedQuads
  dsimp only
  rw [if_neg (by simp)]
  by_cases hfatal : o.fatalUnscopedFailure = true ∨
      0 < data.countP fun q => dataFate o q = .unbound
  · rw [if_pos hfatal]
    exact .inl ⟨rfl, rfl⟩
  · rw [if_neg hfatal]
    refine .inr ⟨?_, rfl, rfl⟩
    rw [not_or] at hfatal
    simpa using hfatal.1

theorem cleanRead_asset {r : IntegrityMetadataRead}
    (h : CleanRead imports (prepareDurableMeta metaQuads).verificationView r)
    (hmem : (ual, d) ∈ r.candidates.filterMap Candidate.graphScoped?)
    (hverified : Verified imports data (prepareDurableMeta metaQuads).verificationView mode ual d) :
    VerifiedAsset imports data metaQuads mode ual d := by
  have hdescribes := describes_of_mem h hmem
  refine ⟨hdescribes, fun ual' d' hd' hgraph => ?_, hverified⟩
  have hual := h.owner (fun _ => ne_nil_of_mem_integritySubjects) ual' d' ual d hd' hdescribes hgraph
  subst hual
  have heq := hd'.2.symm.trans hdescribes.2
  cases heq
  exact ⟨rfl, rfl⟩

theorem selectsVerified_verifyAndSelect (hmode : mode.isHeld = false)
    (hsubjects : integritySubjects (prepareDurableMeta metaQuads).verificationView ≠ [])
    (hlegacy : ∀ ual, .legacy ual ∉ (readIntegrityMetadata imports
      (prepareDurableMeta metaQuads).verificationView false).candidates)
    (hsel : verifyAndSelect imports data false mode (prepareDurableMeta metaQuads) = .ok sel) :
    SelectsVerified imports data metaQuads mode sel := by
  simp only [verifyAndSelect, bind_eq_ok, pure_eq_ok] at hsel
  obtain ⟨g, hg, hsel⟩ := hsel
  set view := (prepareDurableMeta metaQuads).verificationView
  set r := readIntegrityMetadata imports view false
  have hsound := sound_verifyGraphScopedCandidates hmode hg
  have hnone : r.candidates.filterMap Candidate.legacy? = [] := by
    rw [filterMap_eq_nil_iff]
    intro c hc
    cases c with
    | graphScoped => rfl
    | legacy ual => exact absurd hc (hlegacy ual)
  have hlegacyOutcome : verifyLegacyCandidates imports data view false mode r.candidates = {} := by
    rw [verifyLegacyCandidates, hnone]
    rfl
  rw [hlegacyOutcome] at hsel
  rcases selectVerifiedQuads_cases _ hsel with ⟨hdata, hmeta⟩ | ⟨hfatal, hdata, hmeta⟩
  · exact selectsVerified_of_nil hdata hmeta
  have hclean : CleanRead imports view r := by
    refine cleanRead ?_
    by_contra h
    simp only [combineOutcomes, Bool.or_eq_false_iff] at hfatal
    rw [hsound.fatal (by simpa using h)] at hfatal
    cases hfatal.1
  have hgraphs : (r.candidates.filterMap Candidate.graphScoped?).isEmpty = false := by
    obtain ⟨s, hs⟩ := exists_mem_of_ne_nil _ hsubjects
    obtain ⟨c, hc⟩ := hclean.read s hs
    have hmem : c ∈ r.candidates := by
      rw [hclean.candidates]
      exact mem_filterMap.mpr ⟨s, hs, by rw [hc]; rfl⟩
    cases c with
    | legacy ual => exact absurd hmem (hlegacy ual)
    | graphScoped ual d =>
      rw [isEmpty_eq_false_iff_exists_mem]
      exact ⟨(ual, d), mem_filterMap.mpr ⟨_, hmem, rfl⟩⟩
  rw [hgraphs] at hdata hmeta
  have hadmitted : ∀ ual ∈ (combineOutcomes true g {}).admittedMetadataUals,
      ∃ d, VerifiedAsset imports data metaQuads mode ual d := by
    intro ual hual
    obtain ⟨d, hmem, hverified⟩ := hsound.admitted ual (by simpa [combineOutcomes] using hual)
    exact ⟨d, cleanRead_asset hclean hmem hverified⟩
  have hauth : ∀ ual ∈ (combineOutcomes true g {}).authenticatedMetadataUals,
      ∃ d, VerifiedAsset imports data metaQuads mode ual d := by
    intro ual hual
    obtain ⟨d, hmem, hverified⟩ := hsound.authenticated ual (by simpa [combineOutcomes] using hual)
    exact ⟨d, cleanRead_asset hclean hmem hverified⟩
  refine ⟨fun i hi => ?_, fun i hi => ?_, fun i hi => ?_⟩
  · rw [hdata] at hi ⊢
    obtain ⟨q, hq, hfate⟩ := mem_selectedData.mp hi
    have hverified := (dataFate_selected rfl rfl).mp hfate
    obtain ⟨ual, d, hmem, hgraph, hasset⟩ := hsound.graph q.graph hverified
    refine ⟨q, ual, d, hq, hgraph.symm, cleanRead_asset hclean hmem hasset, ?_⟩
    intro j q' hq' hsame
    refine mem_selectedData.mpr ⟨q', hq', (dataFate_selected rfl rfl).mpr ?_⟩
    rw [hsame]
    exact hverified
  · rw [hmeta] at hi
    obtain ⟨q, hq, hadmissible, hkept⟩ := mem_selectRows.mp hi
    refine ⟨q, hq, fun hcarries => hadmitted q.subject ?_⟩
    exact kept_of_envelope (mem_integritySubjects_of_carries hadmissible hcarries) hkept
  · rw [hmeta] at hi
    obtain ⟨q, hq, -, hkept⟩ := mem_selectRows.mp hi
    refine ⟨q, hq, fun hcontrol => ?_⟩
    rcases kept_of_control hcontrol hkept with hual | ⟨ual, hual, hsame⟩
    · obtain ⟨d, hasset⟩ := hadmitted _ hual
      exact ⟨q.subject, d, hasset, .inl rfl⟩
    · obtain ⟨d, hasset⟩ := hauth ual hual
      exact ⟨ual, d, hasset, hsame⟩

/-- Without a subject that carries an envelope, the rows kept say nothing of data or routing. -/
theorem selectsVerified_of_no_subjects
    (hsubjects : integritySubjects (prepareDurableMeta metaQuads).verificationView = [])
    (hdata : sel.dataIndexes = [])
    (hmeta : sel.metaIndexes =
      (selectAdmittedMetadataIndexes imports [] [] [] (prepareDurableMeta metaQuads)).indexes) :
    SelectsVerified imports data metaQuads mode sel := by
  refine ⟨by simp [hdata], fun i hi => ?_, fun i hi => ?_⟩
  · rw [hmeta] at hi
    obtain ⟨q, hq, hadmissible, -⟩ := mem_selectRows.mp hi
    refine ⟨q, hq, fun hcarries => ?_⟩
    have hmem := mem_integritySubjects_of_carries hadmissible hcarries
    rw [hsubjects] at hmem
    cases hmem
  · rw [hmeta] at hi
    obtain ⟨q, hq, -, hkept⟩ := mem_selectRows.mp hi
    refine ⟨q, hq, fun hcontrol => ?_⟩
    rcases kept_of_control hcontrol hkept with hual | ⟨ual, hual, -⟩
    · cases hual
    · cases hual

/-- Peer data is kept only in the graph of one verified asset, whole; rows of a subject with an
envelope only if the subject is such an asset; cursor and routing rows only if it is, or repeats
the scope of one. -/
theorem peer_rows_verified (imports : Imports) (data metaQuads : List Quad) (mode : Mode)
    (sel : DurableIntegritySelection) (hmode : mode.isHeld = false)
    (hlegacy : ∀ ual, .legacy ual ∉ (readIntegrityMetadata imports
      (prepareDurableMeta metaQuads).verificationView false).candidates)
    (hsel : selectVerifiedDurableSyncQuads imports data false metaQuads mode = .ok sel) :
    SelectsVerified imports data metaQuads mode sel := by
  simp only [selectVerifiedDurableSyncQuads, bind_eq_ok] at hsel
  obtain ⟨-, -, hsel⟩ := hsel
  by_cases hmeta : metaQuads = []
  · rw [if_pos hmeta] at hsel
    by_cases hdata : data = []
    · rw [if_neg (by simp [hdata]), pure_eq_ok] at hsel
      subst hsel
      exact selectsVerified_of_nil (by simp [allIndexes, hdata]) rfl
    · rw [if_pos (by simp [hdata]), pure_eq_ok] at hsel
      subst hsel
      exact selectsVerified_of_nil rfl rfl
  · rw [if_neg hmeta] at hsel
    by_cases hsubjects : integritySubjects (prepareDurableMeta metaQuads).verificationView = []
    · rw [if_pos hsubjects] at hsel
      by_cases hdata : data = []
      · rw [if_neg (by simp [hdata]), pure_eq_ok] at hsel
        subst hsel
        exact selectsVerified_of_no_subjects hsubjects
          (by simp [DurableIntegritySelection.keep, allIndexes, hdata]) rfl
      · rw [if_pos (by simp [hdata]), pure_eq_ok] at hsel
        subst hsel
        exact selectsVerified_of_nil rfl rfl
    · rw [if_neg hsubjects] at hsel
      exact selectsVerified_verifyAndSelect hmode hsubjects hlegacy hsel

end Batch

/-! A batch of one asset with one quad, whose lifecycle subject repeats the content scope. -/

def assetName : Text := didDkg ++ ['n', '/', '0', 'x'] ++ replicate 40 '0' ++ ['/', '1']

def lifecycleName : Text := ['u', 'r', 'n', ':', 'l']

def oneQuadImports : Imports where
  parseGraphScopedDescriptor _ _ := .ok ⟨['g'], 1, none, ['0', '1'], []⟩
  computeStructuredKCRoot quads _ := .ok [UInt8.ofNat quads.length]
  parseGraphScopedAssertionSealCandidate _ _ := false
  skolemizeByEntity _ := []

def oneQuadData : List Quad := [⟨['s'], .other ['p'], ['o'], ['g']⟩]

def oneQuadMeta : List Quad :=
  [⟨assetName, .merkleRoot, ['0', '1'], ['m']⟩, ⟨assetName, .contentScopeVersion, ['2'], ['m']⟩,
    ⟨lifecycleName, .contentScopeVersion, ['2'], ['m']⟩]

theorem oneQuad_candidates :
    (readIntegrityMetadata oneQuadImports (prepareDurableMeta oneQuadMeta).verificationView
      false).candidates = [.graphScoped assetName ⟨['g'], 1, none, ['0', '1'], []⟩] := by
  decide

theorem peer_rows_verified_oneQuad :
    ∃ sel, selectVerifiedDurableSyncQuads oneQuadImports oneQuadData false oneQuadMeta
        .fullSnapshot = .ok sel ∧ sel.dataIndexes = [0] ∧
      SelectsVerified oneQuadImports oneQuadData oneQuadMeta .fullSnapshot sel := by
  refine ⟨_, rfl, by decide, peer_rows_verified _ _ _ _ _ rfl (fun ual h => ?_) rfl⟩
  rw [oneQuad_candidates] at h
  simp at h

/-- The marker row of a lifecycle subject is kept beside the verified asset. -/
theorem lifecycle_marker_kept :
    ∃ sel, selectVerifiedDurableSyncQuads oneQuadImports oneQuadData false oneQuadMeta
        .fullSnapshot = .ok sel ∧
      (readIntegrityMetadata oneQuadImports (prepareDurableMeta oneQuadMeta).verificationView
        false).candidates = [.graphScoped assetName ⟨['g'], 1, none, ['0', '1'], []⟩] ∧
      2 ∈ sel.metaIndexes ∧
      oneQuadMeta[2]? = some ⟨lifecycleName, .contentScopeVersion, ['2'], ['m']⟩ ∧
      ∀ d, ¬VerifiedAsset oneQuadImports oneQuadData oneQuadMeta .fullSnapshot lifecycleName d := by
  refine ⟨_, rfl, oneQuad_candidates, by decide, rfl, fun d h => ?_⟩
  have hmem := h.describes.1
  revert hmem
  decide

end Dkg.Sync
