import Dkg.KaChunk.Codec

/-!
Chunk proofs are complete and sound: what the builder makes is accepted and can be sent, and what
is accepted shows the chunk or a collision of SHA-256.
-/

namespace Dkg.KaChunk
open Revert Utf16 Json Wire OddMerkle List

section Complete
variable {N : Numbers} {sha256 : List UInt8 → Digest} {bundle : List UInt8} {i count : ℕ}

theorem checkIndexes_ok {indexes : List ℕ} (hsorted : indexes.Pairwise (· < ·))
    (hbelow : ∀ i ∈ indexes, i < count) {previous : ℤ} (hprevious : ∀ i ∈ indexes, previous < i) :
    checkIndexes count (indexes.map (↑)) previous = .ok () := by
  induction indexes generalizing previous with
  | nil => rfl
  | cons i indexes ih =>
    obtain ⟨hfirst, hsorted⟩ := pairwise_cons.mp hsorted
    obtain ⟨hi, hbelow⟩ := forall_mem_cons.mp hbelow
    obtain ⟨hprev, -⟩ := forall_mem_cons.mp hprevious
    rw [map_cons, checkIndexes, require_of (by omega), ok_bind]
    exact ih hsorted hbelow fun j hj => by exact_mod_cast hfirst j hj

theorem chunkAt_bounds (h : Admitted bundle) (hi : i < chunkCountOf bundle.length) :
    1 ≤ (chunkAt bundle i).length ∧
      (chunkAt bundle i).length ≤ KA_TRANSFER_CHUNK_SIZE_BYTES_V1 := by
  refine ⟨?_, chunkAt_length_le bundle i⟩
  have hpos : 0 < bundle.length := lt_of_lt_of_le (by decide) h.1
  rw [chunkAt_length hi hpos]
  unfold chunkCountOf KA_TRANSFER_CHUNK_SIZE_BYTES_V1 at *
  split <;> omega

theorem computeKaChunkLeafDigestV1_ok (sha256 : List UInt8 → Digest) (h : Admitted bundle)
    (hi : i < chunkCountOf bundle.length) :
    computeKaChunkLeafDigestV1 sha256 i (chunkAt bundle i) =
      .ok (sha256 (domains.leaf ++ leafBytes (i, chunkAt bundle i))) := by
  have hcount := (chunkCountOf_le h).2
  obtain ⟨hpos, hle⟩ := chunkAt_bounds h hi
  have hsize : (chunkAt bundle i).length < 2 ^ 64 := hle.trans_lt (by decide)
  have hindex : i < 2 ^ 64 := (hi.trans_le hcount).trans (by decide)
  rw [computeKaChunkLeafDigestV1, require_of (by omega), ok_bind, require_of (by omega), ok_bind,
    computeLeafDigestBytes_ok hindex hsize]

/-- The levels of the tree of a bundle. -/
def levelsOf (sha256 : List UInt8 → Digest) (bundle : List UInt8) : List (List Digest) :=
  levels (domains.hashes sha256).node (domains.hashes sha256).odd (leafDigests sha256 bundle)

/-- The proof that the builder makes for an index. -/
def proofOf (sha256 : List UInt8 → Digest) (bundle : List UInt8) (i : ℕ) : KaChunkProof :=
  ⟨digitsOf i, (path (levelsOf sha256 bundle) i).getD []⟩

/-- The steps of a proof lead from the leaf of its chunk to the root. -/
theorem proofOf_leads (sha256 : List UInt8 → Digest) (hi : i < chunkCountOf bundle.length) {r}
    (hr : root .node .odd ((chunksOf bundle).map OddMerkle.Tree.leaf) = some r) :
    path (levelsOf sha256 bundle) i = some (proofOf sha256 bundle i).steps ∧
      Leads i (chunkCountOf bundle.length) (proofOf sha256 bundle i).steps ∧
      walk (domains.hashes sha256).node (domains.hashes sha256).odd
          (sha256 (domains.leaf ++ leafBytes (i, chunkAt bundle i)))
          (proofOf sha256 bundle i).steps = r.digest (domains.hash sha256 leafBytes) := by
  have hleaf : (leafDigests sha256 bundle)[i]? =
      some (sha256 (domains.leaf ++ leafBytes (i, chunkAt bundle i))) := by
    rw [leafDigests, getElem?_map, chunksOf_getElem? hi]
    rfl
  obtain ⟨steps, hpath, hleads, hroot⟩ := exists_path (domains.hashes sha256).node
    (domains.hashes sha256).odd hleaf
  have hsteps : (proofOf sha256 bundle i).steps = steps := by
    rw [proofOf, levelsOf, hpath]
    rfl
  rw [leafDigests, domains.root_hashes, hr] at hroot
  rw [leafDigests, length_map, chunksOf_length] at hleads
  rw [hsteps]
  exact ⟨hpath, hleads, (Option.some.inj hroot).symm⟩

/-- The builder returns the proof of every index it is asked for. -/
theorem buildKaChunkProofsV1_ok (h : Admitted bundle) {indexes : List ℕ}
    (hsize : 1 ≤ indexes.length ∧ indexes.length ≤ MAX_KA_CHUNK_PROOFS_PER_REQUEST_V1)
    (hsorted : indexes.Pairwise (· < ·))
    (hbelow : ∀ i ∈ indexes, i < chunkCountOf bundle.length) :
    buildKaChunkProofsV1 sha256 bundle (indexes.map (↑)) =
      .ok (indexes.map (proofOf sha256 bundle)) := by
  obtain ⟨r, hr⟩ := exists_tree h
  obtain ⟨hmin, hmax⟩ := h
  have hcount := chunkCountOf_le ⟨hmin, hmax⟩
  have hproofs : ∀ j ∈ indexes.map ((↑) : ℕ → ℤ),
      proofAt (chunkCountOf bundle.length) (levelsOf sha256 bundle) j.toNat =
        .ok (proofOf sha256 bundle j.toNat) := by
    intro j hj
    obtain ⟨i, hi, rfl⟩ := mem_map.mp hj
    obtain ⟨hpath, hleads, -⟩ := proofOf_leads sha256 (hbelow i hi) hr
    have hshape := assertKaChunkProofV1_toValue (ν := ℕ) hcount (hbelow i hi) hleads
    rw [Int.toNat_natCast, proofAt, hpath]
    dsimp only
    rw [ok_bind, hshape]
    rfl
  have hleaves := mapM_leaves sha256 ⟨hmin, hmax⟩
    (fun index => computeKaChunkLeafDigestV1 sha256 index (chunkAt bundle index)) (by
      intro i hi
      have hlen := chunkAt_length_le bundle i
      rw [computeKaChunkLeafDigestV1_ok sha256 ⟨hmin, hmax⟩ hi, computeLeafDigestBytes_ok
        ((hi.trans_le hcount.2).trans (by decide)) (hlen.trans_lt (by decide))])
  rw [buildKaChunkProofsV1, require_of (by omega), ok_bind, expectedChunkCount, assertChunkCount]
  dsimp only
  rw [require_of (by omega), ok_bind, pure_bind, length_map, require_of (by omega), ok_bind,
    checkIndexes_ok hsorted hbelow (fun i _ => by omega), ok_bind, hleaves]
  change (indexes.map ((↑) : ℕ → ℤ)).mapM (fun j => proofAt (chunkCountOf bundle.length)
    (levelsOf sha256 bundle) j.toNat) = _
  rw [mapM_ok hproofs, map_map]
  rfl

/-- The verification accepts the proof of an index with the chunk at it. -/
theorem assertValidKaChunkProofV1_ok {ν : Type} (h : Admitted bundle)
    (hi : i < chunkCountOf bundle.length) {r}
    (hr : root .node .odd ((chunksOf bundle).map OddMerkle.Tree.leaf) = some r) :
    assertValidKaChunkProofV1 (ν := ν) sha256 (proofOf sha256 bundle i).toValue (chunkAt bundle i)
      bundle.length (digestToLowerHex (r.digest (domains.hash sha256 leafBytes))) = .ok () := by
  obtain ⟨-, hleads, hwalk⟩ := proofOf_leads sha256 hi hr
  have hcount := chunkCountOf_le h
  have hshape : assertKaChunkProofV1 (ν := ν) (proofOf sha256 bundle i).toValue
      (chunkCountOf bundle.length) = .ok (proofOf sha256 bundle i) :=
    assertKaChunkProofV1_toValue hcount hi hleads
  have hindex : (proofOf sha256 bundle i).chunkIndex = digitsOf i := rfl
  have hleaf := computeKaChunkLeafDigestV1_ok sha256 h hi
  have hlen := chunkAt_length hi (lt_of_lt_of_le (by decide) h.1)
  have hsmall : i ≤ MAX_DECIMAL_U64 := (hi.trans_le hcount.2).le.trans (by decide)
  obtain ⟨hmin, hmax⟩ := h
  have hroot := digestToLowerHex_isHex (r.digest (domains.hash sha256 leafBytes))
  rw [assertValidKaChunkProofV1, require_of (by omega), ok_bind, assertCanonicalDigest,
    require_of hroot, mapError_ok, ok_bind, expectedChunkCount, assertChunkCount]
  dsimp only
  rw [require_of (by omega), ok_bind, pure_bind, hshape, ok_bind, hindex,
    parseCanonicalDecimalU64_digitsOf _ hsmall, mapError_ok, ok_bind,
    require_of hlen, ok_bind, hleaf, mapError_ok, ok_bind]
  exact require_of (congrArg digestToLowerHex hwalk)

end Complete

section Sound
variable {ν : Type} {sha256 : List UInt8 → Digest} {bundle chunk : List UInt8} {i count : ℕ}
  {proof : Value ν} {p : KaChunkProof} {steps : List (Step Digest)}

theorem assertProofStep_kind {v : Value ν} {kind : Kind} {index : ℕ} {step : Step Digest}
    (hok : assertProofStep v kind index = .ok step) : step.kind = kind := by
  unfold assertProofStep at hok
  split at hok
  · obtain ⟨_, -, hok⟩ := bind_eq_ok.mp hok
    obtain ⟨_, -, hok⟩ := bind_eq_ok.mp hok
    cases kind with
    | left | right =>
      obtain ⟨d, -, hok⟩ := bind_eq_ok.mp hok
      cases hok
      rfl
    | odd =>
      cases hok
      rfl
  · cases hok

/-- Steps that pass the check lead from the position to the root. -/
theorem assertSteps_leads {vs : List (Value ν)} {position width index : ℕ}
    (hok : assertSteps vs position width index = .ok steps) : Leads position width steps := by
  induction vs generalizing position width index steps with
  | nil =>
    rw [assertSteps] at hok
    split at hok
    · cases hok
    · rename_i hwidth
      cases hok
      exact not_lt.mp hwidth
  | cons v vs ih =>
    rw [assertSteps] at hok
    split at hok
    · rename_i hwidth
      obtain ⟨first, hfirst, hok⟩ := bind_eq_ok.mp hok
      obtain ⟨rest, hrest, hok⟩ := bind_eq_ok.mp hok
      cases hok
      exact ⟨hwidth, assertProofStep_kind hfirst, ih hrest⟩
    · cases hok

theorem assertKaChunkProofV1_leads (hok : assertKaChunkProofV1 proof count = .ok p) :
    ∃ i, parseCanonicalDecimalU64 "chunkIndex" p.chunkIndex = .ok i ∧ i < count ∧
      Leads i count p.steps := by
  obtain ⟨_, -, hok⟩ := bind_eq_ok.mp hok
  split at hok
  · obtain ⟨_, -, hok⟩ := bind_eq_ok.mp hok
    split at hok
    · obtain ⟨i, hi, hok⟩ := bind_eq_ok.mp hok
      obtain ⟨_, hlt, hok⟩ := bind_eq_ok.mp hok
      split at hok
      · obtain ⟨_, -, hok⟩ := bind_eq_ok.mp hok
        obtain ⟨steps, hsteps, hok⟩ := bind_eq_ok.mp hok
        cases hok
        exact ⟨i, mapError_eq_ok.mp hi, not_le.mp (require_eq_ok.mp hlt), assertSteps_leads hsteps⟩
      · cases hok
    · cases hok
  · cases hok

/-- What an accepted verification has computed. -/
theorem assertValidKaChunkProofV1_inv {root : Text} {x : Unit}
    (hok : assertValidKaChunkProofV1 sha256 proof chunk bundle.length root = .ok x) :
    ∃ p i, assertKaChunkProofV1 proof (chunkCountOf bundle.length) = .ok p ∧
      parseCanonicalDecimalU64 "chunkIndex" p.chunkIndex = .ok i ∧
      i < chunkCountOf bundle.length ∧ Leads i (chunkCountOf bundle.length) p.steps ∧
      digestToLowerHex (walk (domains.hashes sha256).node (domains.hashes sha256).odd
        (sha256 (domains.leaf ++ leafBytes (i, chunk))) p.steps) = root := by
  obtain ⟨_, -, hok⟩ := bind_eq_ok.mp hok
  obtain ⟨_, -, hok⟩ := bind_eq_ok.mp hok
  obtain ⟨count, hcount, hok⟩ := bind_eq_ok.mp hok
  obtain ⟨_, hmax, hcount⟩ := bind_eq_ok.mp hcount
  obtain rfl := pure_eq_ok.mp hcount
  obtain ⟨p, hp, hok⟩ := bind_eq_ok.mp hok
  obtain ⟨i, hi, hok⟩ := bind_eq_ok.mp hok
  obtain ⟨_, -, hok⟩ := bind_eq_ok.mp hok
  obtain ⟨leaf, hleaf, hok⟩ := bind_eq_ok.mp hok
  have hi := mapError_eq_ok.mp hi
  obtain ⟨j, hj, hlt, hleads⟩ := assertKaChunkProofV1_leads hp
  obtain rfl := Except.ok.inj (hj.symm.trans hi)
  obtain ⟨_, hindex, hleaf⟩ := bind_eq_ok.mp (mapError_eq_ok.mp hleaf)
  obtain ⟨_, hlen, hleaf⟩ := bind_eq_ok.mp hleaf
  have hindex := not_le.mp (require_eq_ok.mp hindex)
  have hlen := require_eq_ok.mp hlen
  unfold MAX_KA_TRANSFER_CHUNKS_V1 at hindex
  unfold KA_TRANSFER_CHUNK_SIZE_BYTES_V1 at hlen
  rw [computeLeafDigestBytes_ok (by omega) (by omega)] at hleaf
  obtain rfl := Except.ok.inj hleaf
  exact ⟨p, j, hp, hi, hlt, hleads, require_eq_ok.mp hok⟩

/-- The verification run on digests that carry what was hashed. -/
def loggedWalk (sha256 : List UInt8 → Digest) (p : KaChunkProof) (i : ℕ) (chunk : List UInt8) :
    Logged :=
  walk (domains.logging sha256).node (domains.logging sha256).odd
    (domains.loggedLeaf sha256 (leafBytes (i, chunk))) (p.steps.map (Step.map (⟨·, []⟩)))

theorem walk_logging (sha256 : List UInt8 → Digest) (steps : List (Step Digest)) (acc : Logged) :
    acc.inputs ⊆ (walk (domains.logging sha256).node (domains.logging sha256).odd acc
        (steps.map (Step.map (⟨·, []⟩)))).inputs ∧
      ∀ a ∈ walkInputs (domains.hash sha256 leafBytes) acc.digest steps,
        domains.encode leafBytes a ∈ (walk (domains.logging sha256).node
          (domains.logging sha256).odd acc (steps.map (Step.map (⟨·, []⟩)))).inputs := by
  induction steps generalizing acc with
  | nil => exact ⟨List.Subset.refl _, nofun⟩
  | cons step steps ih =>
    have hstep : ∃ rest, acc.inputs ⊆ rest ∧
        climb (domains.logging sha256).node (domains.logging sha256).odd acc
          (step.map (⟨·, []⟩)) = ⟨domains.hash sha256 leafBytes (stepInput acc.digest step),
              domains.encode leafBytes (stepInput acc.digest step) :: rest⟩ := by
      cases step with
      | left s => exact ⟨[] ++ acc.inputs, List.Subset.refl _, rfl⟩
      | right s => exact ⟨acc.inputs ++ [], by simp, rfl⟩
      | odd => exact ⟨acc.inputs, List.Subset.refl _, rfl⟩
    obtain ⟨rest, hrest, hclimb⟩ := hstep
    have hwalk := ih (climb (domains.logging sha256).node (domains.logging sha256).odd acc
      (step.map (⟨·, []⟩)))
    rw [hclimb] at hwalk
    rw [map_cons, walk, foldl_cons, hclimb]
    refine ⟨fun x hx => hwalk.1 (mem_cons_of_mem _ (hrest hx)), ?_⟩
    exact forall_mem_cons.mpr ⟨hwalk.1 mem_cons_self, hwalk.2⟩

theorem leafBytes_injective {chunk' : List UInt8}
    (h : leafBytes (i, chunk) = leafBytes (i, chunk')) : chunk = chunk' := by
  unfold leafBytes at h
  rw [append_assoc, append_assoc] at h
  exact (append_inj (append_cancel_left h) rfl).2

/-- The byte strings given to SHA-256 for the root of a bundle. -/
def treeInputs (sha256 : List UInt8 → Digest) (bundle : List UInt8) : List (List UInt8) :=
  match root (domains.logging sha256).node (domains.logging sha256).odd
    ((chunksOf bundle).map fun leaf => domains.loggedLeaf sha256 (leafBytes leaf)) with
  | some logged => logged.inputs
  | none => []

/-- A walk that leads from a leaf to the root shows the chunk, or two inputs collide. -/
theorem chunk_eq_of_walk (hi : i < chunkCountOf bundle.length)
    (hleads : Leads i (chunkCountOf bundle.length) p.steps) {r}
    (hr : root .node .odd ((chunksOf bundle).map OddMerkle.Tree.leaf) = some r)
    (hwalk : walk (domains.hashes sha256).node (domains.hashes sha256).odd
      (sha256 (domains.leaf ++ leafBytes (i, chunk))) p.steps =
        r.digest (domains.hash sha256 leafBytes)) :
    chunk = chunkAt bundle i ∨ ∃ x ∈ (loggedWalk sha256 p i chunk).inputs,
      ∃ y ∈ treeInputs sha256 bundle, x ≠ y ∧ sha256 x = sha256 y := by
  have hinputs : treeInputs sha256 bundle =
      (r.inputs (domains.hash sha256 leafBytes)).map (domains.encode leafBytes) := by
    rw [treeInputs, domains.root_logging, hr]
    rfl
  have hlog := walk_logging sha256 p.steps (domains.loggedLeaf sha256 (leafBytes (i, chunk)))
  have hleaf : ((chunksOf bundle).map OddMerkle.Tree.leaf)[i]? =
      some (.leaf (i, chunkAt bundle i)) := by
    rw [getElem?_map, chunksOf_getElem? hi]
    rfl
  rw [hinputs]
  rcases walk_binding (domains.hash sha256 leafBytes) hleaf
    (by rwa [length_map, chunksOf_length]) hr hwalk with hdigest | ⟨a, ha, b, hb, hne, heq⟩
  · by_cases hbytes : domains.leaf ++ leafBytes (i, chunk) =
        domains.leaf ++ leafBytes (i, chunkAt bundle i)
    · exact .inl (leafBytes_injective (append_cancel_left hbytes))
    · have hmem := inputs_root (domains.hash sha256 leafBytes) hleaf hr mem_cons_self
      exact .inr ⟨_, hlog.1 mem_cons_self, _, mem_map_of_mem hmem, hbytes, hdigest⟩
  · refine .inr ⟨_, hlog.2 a ha, _, mem_map_of_mem hb, fun hbytes => hne ?_, heq⟩
    refine Domains.encode_injective (fun x _ hx => ?_) hbytes
    subst hx
    exact absurd ha (leaf_notMem_walkInputs _ _ _ x)

end Sound

variable (N : Numbers) (sha256 : List UInt8 → Digest)

/-- Proofs of an admitted bundle are accepted and survive the wire, and an accepted proof shows the
chunk at its index or a collision. -/
theorem kaChunkProofs_complete_and_sound {bundle : List UInt8} (h : Admitted bundle) :
    ∃ root, computeKaChunkTreeRootV1 sha256 bundle = .ok root ∧
      (∀ indexes : List ℕ, 1 ≤ indexes.length →
        indexes.length ≤ MAX_KA_CHUNK_PROOFS_PER_REQUEST_V1 → indexes.Pairwise (· < ·) →
        (∀ i ∈ indexes, i < chunkCountOf bundle.length) →
        ∃ proofs, buildKaChunkProofsV1 sha256 bundle (indexes.map (↑)) = .ok proofs ∧
          List.Forall₂ (fun i proof =>
            assertValidKaChunkProofV1 sha256 (proof.toValue (ν := N.Num)) (chunkAt bundle i)
                bundle.length root = .ok () ∧
              proof.steps.length ≤ MAX_KA_CHUNK_PROOF_STEPS_V1 ∧
              ∃ t, canonicalizeKaChunkProofV1 N proof.toValue (chunkCountOf bundle.length) =
                  .ok t ∧ (utf8 t).length ≤ MAX_KA_CHUNK_PROOF_BYTES_V1 ∧
                parseCanonicalKaChunkProofV1 N t (chunkCountOf bundle.length) ⟨none, none⟩ =
                  .ok proof) indexes proofs) ∧
      ∀ (proof : Value N.Num) (chunk : List UInt8),
        assertValidKaChunkProofV1 sha256 proof chunk bundle.length root = .ok () →
        ∃ p i, assertKaChunkProofV1 proof (chunkCountOf bundle.length) = .ok p ∧
          parseCanonicalDecimalU64 "chunkIndex" p.chunkIndex = .ok i ∧
          (chunk = chunkAt bundle i ∨ ∃ x ∈ (loggedWalk sha256 p i chunk).inputs,
            ∃ y ∈ treeInputs sha256 bundle, x ≠ y ∧ sha256 x = sha256 y) := by
  obtain ⟨r, hr⟩ := exists_tree h
  have hcount := chunkCountOf_le h
  refine ⟨_, computeKaChunkTreeRootV1_ok h hr, ?_, ?_⟩
  · intro indexes hpos hsize hsorted hbelow
    refine ⟨_, buildKaChunkProofsV1_ok h ⟨hpos, hsize⟩ hsorted hbelow, ?_⟩
    refine forall₂_map_right_iff.mpr (forall₂_same.mpr fun i hi => ?_)
    obtain ⟨-, hleads, -⟩ := proofOf_leads sha256 (hbelow i hi) hr
    exact ⟨assertValidKaChunkProofV1_ok h (hbelow i hi) hr,
      leads_length hleads (hcount.2.trans (by decide)), _,
      canonicalize_parse hcount (hbelow i hi) hleads⟩
  · intro proof chunk hok
    obtain ⟨p, i, hp, hindex, hi, hleads, hroot⟩ := assertValidKaChunkProofV1_inv hok
    exact ⟨p, i, hp, hindex, chunk_eq_of_walk hi hleads hr (digestToLowerHex_injective hroot)⟩

/-- Three chunks, the last of them short. -/
theorem kaChunkProofs_complete_and_sound_threeChunks :
    ∃ proofs, buildKaChunkProofsV1 (fun _ => ⟨replicate 32 0, rfl⟩)
      (replicate 600000 7) [0, 2] = .ok proofs ∧ proofs.length = 2 := by
  have hlen : (replicate 600000 (7 : UInt8)).length = 600000 := length_replicate
  have hadmitted : Admitted (replicate 600000 7) := by
    unfold Admitted
    rw [hlen]
    decide
  obtain ⟨root, -, hbuild, -⟩ := kaChunkProofs_complete_and_sound integerNumbers
    (fun _ => ⟨replicate 32 0, rfl⟩) hadmitted
  obtain ⟨proofs, hproofs, hall⟩ := hbuild [0, 2] (by decide) (by decide) (by decide) (by
    rw [hlen]
    decide)
  exact ⟨proofs, hproofs, hall.length_eq.symm⟩

end Dkg.KaChunk
