import Dkg.KaChunk.Proof

/-!
The shape of a chunk proof and its canonical form: a proof whose steps lead to the root passes the
shape check, its text is within the caps, and reading the text gives the proof back.
-/

namespace Dkg.KaChunk
open Revert Utf16 Json Wire OddMerkle List

section Shape
variable {ν : Type} {v : Value ν} {vs : List (Value ν)} {step : Step Digest}
  {steps : List (Step Digest)} {position width index i k count : ℕ}

/-- The object is read as the step. -/
def ReadsStep (v : Value ν) (step : Step Digest) : Prop :=
  ∀ index, assertProofStep v step.kind index = .ok step

theorem assertStepDigest_ok {members : List (Text × Value ν)} {d : Digest}
    (h : field members (text "digest") = some (.string (digestToLowerHex d))) :
    assertStepDigest members index = .ok d := by
  rw [assertStepDigest, h]
  dsimp only
  rw [digestFromLowerHex_toLowerHex]
  rfl

/-- Any object with the fields of a step. -/
theorem readsStep_of_fields {members : List (Text × Value ν)}
    (hkeys : exactKeys members
      (if step.kind = .odd then [text "kind"] else [text "digest", text "kind"]) = true)
    (hkind : field members (text "kind") = some (.string (kindText step.kind)))
    (hdigest : ∀ d, step = .left d ∨ step = .right d →
      field members (text "digest") = some (.string (digestToLowerHex d))) :
    ReadsStep (.object members) step := by
  intro index
  have hchecked : assertStepKind members step.kind index = .ok () := by
    rw [assertStepKind, hkind]
    exact require_of rfl
  simp only [assertProofStep, require_of hkeys, ok_bind, hchecked]
  cases step with
  | left d =>
    simp only [Step.kind, assertStepDigest_ok (hdigest d (.inl rfl))]
    rfl
  | right d =>
    simp only [Step.kind, assertStepDigest_ok (hdigest d (.inr rfl))]
    rfl
  | odd => rfl

theorem readsStep_stepValue (step : Step Digest) : ReadsStep (ν := ν) (stepValue step) step := by
  cases step <;> exact readsStep_of_fields rfl rfl (by rintro d (h | h) <;> cases h <;> rfl)

/-- The keys of a step in canonical order. -/
def sortedStepValue : Step Digest → Value ν
  | .left d => .object [(text "digest", .string (digestToLowerHex d)),
      (text "kind", .string (text "left"))]
  | .right d => .object [(text "digest", .string (digestToLowerHex d)),
      (text "kind", .string (text "right"))]
  | .odd => .object [(text "kind", .string (text "odd"))]

theorem readsStep_sorted (step : Step Digest) : ReadsStep (ν := ν) (sortedStepValue step) step := by
  cases step <;> exact readsStep_of_fields rfl rfl (by rintro d (h | h) <;> cases h <;> rfl)

theorem assertSteps_ok (h : List.Forall₂ ReadsStep vs steps) (hleads : Leads position width steps) :
    assertSteps vs position width index = .ok steps := by
  induction h generalizing position width index with
  | nil => exact if_neg (not_lt.mpr hleads)
  | cons hstep _ ih =>
    obtain ⟨hwidth, hkind, hleads⟩ := hleads
    rw [assertSteps, if_pos hwidth, ← hkind, hstep, ok_bind, ih hleads]
    rfl

/-- A path is no longer than the tree is high. -/
theorem leads_length (hleads : Leads position width steps) (hwidth : width ≤ 2 ^ k) :
    steps.length ≤ k := by
  induction steps generalizing position width k with
  | nil => exact Nat.zero_le k
  | cons step steps ih =>
    obtain ⟨hlt, -, hleads⟩ := hleads
    cases k with
    | zero => omega
    | succ k =>
      rw [pow_succ] at hwidth
      exact Nat.succ_le_succ (ih hleads (by omega))

theorem assertKaChunkProofV1_ok (hcount : 1 ≤ count ∧ count ≤ MAX_KA_TRANSFER_CHUNKS_V1)
    (hi : i < count) (h : List.Forall₂ ReadsStep vs steps) (hleads : Leads i count steps) :
    assertKaChunkProofV1 (.object [(text "chunkIndex", .string (digitsOf i)),
      (text "steps", .array vs)]) count = .ok ⟨digitsOf i, steps⟩ := by
  obtain ⟨hpos, hmax⟩ := hcount
  have hsmall : i ≤ MAX_DECIMAL_U64 := by
    unfold MAX_KA_TRANSFER_CHUNKS_V1 at hmax
    unfold MAX_DECIMAL_U64
    omega
  have hlen : ¬vs.length > MAX_KA_CHUNK_PROOF_STEPS_V1 := by
    rw [h.length_eq, not_lt]
    exact leads_length hleads (hmax.trans (by decide))
  rw [assertKaChunkProofV1, assertChunkCount, require_of (by omega), ok_bind]
  change ((parseCanonicalDecimalU64 "chunkIndex" (digitsOf i)).mapError _ >>= _) = _
  rw [parseCanonicalDecimalU64_digitsOf _ hsmall]
  change (require (¬i ≥ count) _ >>= _) = _
  rw [require_of (not_le.mpr hi), ok_bind]
  change (require (¬vs.length > _) _ >>= _) = _
  rw [require_of hlen, ok_bind, assertSteps_ok h hleads]
  rfl

theorem forall₂_stepValue {f : Step Digest → Value ν} (hf : ∀ step, ReadsStep (f step) step)
    (steps : List (Step Digest)) : List.Forall₂ ReadsStep (steps.map f) steps :=
  forall₂_map_left_iff.mpr (forall₂_same.mpr fun step _ => hf step)

/-- The proof of an index with the steps that lead to the root has the shape that is checked. -/
theorem assertKaChunkProofV1_toValue (hcount : 1 ≤ count ∧ count ≤ MAX_KA_TRANSFER_CHUNKS_V1)
    (hi : i < count) (hleads : Leads i count steps) :
    assertKaChunkProofV1 (ν := ν) (KaChunkProof.toValue ⟨digitsOf i, steps⟩) count =
      .ok ⟨digitsOf i, steps⟩ :=
  assertKaChunkProofV1_ok hcount hi (forall₂_stepValue readsStep_stepValue steps) hleads

end Shape

section Json
variable {N : Numbers} {i : ℕ} {step : Step Digest} {steps : List (Step Digest)}

theorem stepValue_normalize (step : Step Digest) :
    (stepValue (ν := N.Num) step).normalize = sortedStepValue step := by
  cases step <;> rfl

theorem toValue_normalize (proof : KaChunkProof) :
    (proof.toValue (ν := N.Num)).normalize =
      .object [(text "chunkIndex", .string proof.chunkIndex),
        (text "steps", .array (proof.steps.map sortedStepValue))] := by
  have hsteps : Value.normalizeItems (proof.steps.map (stepValue (ν := N.Num))) =
      proof.steps.map sortedStepValue := by
    rw [Value.normalizeItems_eq, map_map]
    exact map_congr_left fun step _ => stepValue_normalize step
  rw [← hsteps]
  rfl

/-- Units that are written as they are. -/
def Unescaped (t : Text) : Prop := ∀ u ∈ t, 0x23 ≤ u ∧ u ≤ 0x7a ∧ u ≠ 0x5c

instance (t : Text) : Decidable (Unescaped t) := inferInstanceAs (Decidable (∀ u ∈ t, _))

theorem Unescaped.wellFormed {t : Text} (h : Unescaped t) : WellFormed t :=
  .of_forall_lt fun u hu => by
    have hu := h u hu
    omega

theorem quote_unescaped {t : Text} (h : Unescaped t) : quote t = [0x22] ++ t ++ [0x22] := by
  have hunit : ∀ u ∈ t, escapeUnit u = [u] := by
    intro u hu
    obtain ⟨hlow, hhigh, hne⟩ := h u hu
    have hnone : escaped u = none := by
      unfold escaped
      rw [if_neg (by omega), if_neg hne, if_neg (by omega), if_neg (by omega), if_neg (by omega),
        if_neg (by omega), if_neg (by omega), if_neg (by omega)]
    rw [escapeUnit, hnone, Option.getD_none]
  have hall : t.flatMap escapeUnit = t := by
    rw [flatMap_congr hunit, flatMap_singleton']
  rw [quote, hall]

theorem unescaped_digitsOf (n : ℕ) : Unescaped (digitsOf n) := by
  intro u hu
  have hdigit := of_decide_eq_true (digitsOf_isDigit u hu)
  omega

theorem unescaped_hex (d : Digest) : Unescaped (digestToLowerHex d) := by
  obtain ⟨x, hx, -, hhex⟩ := isHexOf_iff.mp (digestToLowerHex_isHex d)
  rw [hx]
  refine forall_mem_append.mpr ⟨by decide, fun u hu => ?_⟩
  have := isLowerHex_iff.mp (hhex u hu)
  omega

theorem digestToLowerHex_length (d : Digest) : (digestToLowerHex d).length = 66 := by
  obtain ⟨x, hx, hlen, -⟩ := isHexOf_iff.mp (digestToLowerHex_isHex d)
  rw [hx, length_append, hlen]
  rfl

/-- The text of a member with unescaped key. -/
theorem memberText_length {key x : Text} (hkey : Unescaped key) :
    (memberText (key, x)).length = key.length + 3 + x.length := by
  rw [memberText, quote_unescaped hkey]
  simp only [length_append, length_singleton]
  omega

theorem quote_length {t : Text} (h : Unescaped t) : (quote t).length = t.length + 2 := by
  rw [quote_unescaped h]
  simp only [length_append, length_singleton]
  omega

/-- The text of a step that has a digest. -/
def pairText (d : Digest) (kind : Text) : Text :=
  [0x7b] ++ (memberText (text "digest", quote (digestToLowerHex d)) ++ [0x2c] ++
    memberText (text "kind", quote kind)) ++ [0x7d]

theorem pairText_length (d : Digest) {kind : Text} (hkind : Unescaped kind) :
    (pairText d kind).length = 89 + kind.length := by
  rw [pairText]
  simp only [length_append, length_singleton]
  rw [memberText_length (by decide), memberText_length (by decide), quote_length (unescaped_hex d),
    quote_length hkind, digestToLowerHex_length]
  simp only [text, length_map, String.length_toList]
  change 1 + (6 + 3 + (66 + 2) + 1 + (4 + 3 + (kind.length + 2))) + 1 = _
  omega

/-- The text of a step has at most 94 units. -/
theorem render_stepValue_length (step : Step Digest) :
    ((stepValue step).render N.stringify).length ≤ 94 := by
  cases step with
  | left d =>
    change (pairText d (text "left")).length ≤ 94
    rw [pairText_length d (by decide)]
    decide
  | right d =>
    change (pairText d (text "right")).length ≤ 94
    rw [pairText_length d (by decide)]
    decide
  | odd =>
    change ([0x7b] ++ memberText (text "kind", quote (text "odd")) ++ [0x7d]).length ≤ 94
    decide

theorem separated_length_le (parts : List Text) {n : ℕ} (h : ∀ x ∈ parts, x.length ≤ n) :
    (separated parts).length ≤ parts.length * (n + 1) := by
  induction parts with
  | nil => exact Nat.zero_le _
  | cons x parts ih =>
    obtain ⟨hx, hparts⟩ := forall_mem_cons.mp h
    have hrest := ih hparts
    cases parts with
    | nil =>
      rw [separated, length_singleton]
      omega
    | cons y parts =>
      rw [separated, length_append, length_append, length_singleton, length_cons, Nat.succ_mul]
      omega

/-- The canonical text of a proof. -/
def proofText (N : Numbers) (i : ℕ) (steps : List (Step Digest)) : Text :=
  [0x7b] ++ (memberText (text "chunkIndex", quote (digitsOf i)) ++ [0x2c] ++
    memberText (text "steps", [0x5b] ++ separated
      (Value.renderItems N.stringify (steps.map stepValue)) ++ [0x5d])) ++ [0x7d]

theorem render_toValue (i : ℕ) (steps : List (Step Digest)) :
    (KaChunkProof.toValue ⟨digitsOf i, steps⟩).render N.stringify = proofText N i steps := rfl

/-- The canonical text of a proof is within its cap. -/
theorem proofText_length {count : ℕ} (hcount : count ≤ MAX_KA_TRANSFER_CHUNKS_V1)
    (hi : i < count) (hleads : Leads i count steps) :
    (proofText N i steps).length ≤ 1172 := by
  have hsteps : steps.length ≤ 12 := leads_length hleads (hcount.trans (by decide))
  have hindex : (digitsOf i).length ≤ 4 := by
    refine (digitsOf_length_le (show i ≤ 4095 from ?_)).trans (by decide)
    unfold MAX_KA_TRANSFER_CHUNKS_V1 at hcount
    omega
  have hitems := separated_length_le
    (Value.renderItems N.stringify (steps.map stepValue)) (n := 94) (by
      rw [Value.renderItems_eq, map_map]
      intro x hx
      obtain ⟨step, -, rfl⟩ := mem_map.mp hx
      exact render_stepValue_length step)
  rw [Value.renderItems_eq, length_map, length_map] at hitems
  rw [proofText]
  simp only [length_append, length_singleton]
  rw [memberText_length (by decide), memberText_length (by decide),
    quote_length (unescaped_digitsOf i), Value.renderItems_eq]
  simp only [length_append, length_singleton]
  have hkeys : (text "chunkIndex").length = 10 ∧ (text "steps").length = 5 := by decide
  rw [hkeys.1, hkeys.2]
  omega

/-- Units of one byte. -/
def Ascii (t : Text) : Prop := ∀ u ∈ t, u < 0x80

theorem Ascii.append {s t : Text} (hs : Ascii s) (ht : Ascii t) : Ascii (s ++ t) :=
  forall_mem_append.mpr ⟨hs, ht⟩

theorem ascii_singleton {u : ℕ} (hu : u < 0x80) : Ascii [u] :=
  forall_mem_singleton.mpr hu

theorem ascii_quote {t : Text} (h : Unescaped t) : Ascii (quote t) := by
  rw [quote_unescaped h]
  refine ((ascii_singleton (by decide)).append fun u hu => ?_).append (ascii_singleton (by decide))
  have hu := h u hu
  omega

theorem ascii_memberText {k x : Text} (hk : Unescaped k) (hx : Ascii x) :
    Ascii (memberText (k, x)) :=
  ((ascii_quote hk).append (ascii_singleton (by decide))).append hx

theorem ascii_separated {parts : List Text} (h : ∀ x ∈ parts, Ascii x) : Ascii (separated parts) := by
  induction parts with
  | nil => exact nofun
  | cons x parts ih =>
    obtain ⟨hx, hparts⟩ := forall_mem_cons.mp h
    cases parts with
    | nil => exact hx
    | cons y parts => exact (hx.append (ascii_singleton (by decide))).append (ih hparts)

theorem ascii_pairText (d : Digest) {kind : Text} (hkind : Unescaped kind) :
    Ascii (pairText d kind) := by
  have hdigest := ascii_memberText (k := text "digest") (by decide) (ascii_quote (unescaped_hex d))
  have hkind := ascii_memberText (k := text "kind") (by decide) (ascii_quote hkind)
  exact ((ascii_singleton (by decide)).append
    ((hdigest.append (ascii_singleton (by decide))).append hkind)).append
    (ascii_singleton (by decide))

theorem ascii_stepValue (step : Step Digest) : Ascii ((stepValue step).render N.stringify) := by
  cases step with
  | left d | right d => exact ascii_pairText d (by decide)
  | odd =>
    change ∀ u ∈ [0x7b] ++ memberText (text "kind", quote (text "odd")) ++ [0x7d], u < 0x80
    decide

theorem ascii_proofText (i : ℕ) (steps : List (Step Digest)) : Ascii (proofText N i steps) := by
  have hitems : Ascii (separated (Value.renderItems N.stringify (steps.map stepValue))) := by
    refine ascii_separated ?_
    rw [Value.renderItems_eq, map_map]
    intro x hx
    obtain ⟨step, -, rfl⟩ := mem_map.mp hx
    exact ascii_stepValue step
  have hsteps := ascii_memberText (k := text "steps") (by decide)
    (((ascii_singleton (show 0x5b < 0x80 by decide)).append hitems).append
      (ascii_singleton (show 0x5d < 0x80 by decide)))
  have hindex := ascii_memberText (k := text "chunkIndex") (by decide)
    (ascii_quote (unescaped_digitsOf i))
  exact ((ascii_singleton (by decide)).append
    ((hindex.append (ascii_singleton (by decide))).append hsteps)).append
    (ascii_singleton (by decide))

theorem stepValue_valid (step : Step Digest) :
    (stepValue (ν := N.Num) step).Valid fun _ => False := by
  have hkey : ∀ {key : Text}, Unescaped key → WellFormed key := Unescaped.wellFormed
  have hnodup : [text "kind", text "digest"].Nodup := by decide
  cases step with
  | left d | right d => exact ⟨hnodup, hkey (by decide), hkey (by decide), hkey (by decide),
      hkey (unescaped_hex d), trivial⟩
  | odd => exact ⟨nodup_singleton _, hkey (by decide), hkey (by decide), trivial⟩

theorem toValue_valid (i : ℕ) (steps : List (Step Digest)) :
    (KaChunkProof.toValue (ν := N.Num) ⟨digitsOf i, steps⟩).Valid fun _ => False := by
  have hkey : ∀ {key : Text}, Unescaped key → WellFormed key := Unescaped.wellFormed
  have hnodup : [text "chunkIndex", text "steps"].Nodup := by decide
  refine ⟨hnodup, hkey (by decide), hkey (unescaped_digitsOf i), hkey (by decide), ?_, trivial⟩
  refine Value.validItems_iff.mpr fun v hv => ?_
  obtain ⟨step, -, rfl⟩ := mem_map.mp hv
  exact stepValue_valid step

theorem toValue_depth (i : ℕ) (steps : List (Step Digest)) :
    (KaChunkProof.toValue (ν := N.Num) ⟨digitsOf i, steps⟩).depth ≤ 3 := by
  have hitems : Value.depthItems (steps.map (stepValue (ν := N.Num))) ≤ 1 := by
    refine Value.depthItems_le.mpr fun v hv => ?_
    obtain ⟨step, -, rfl⟩ := mem_map.mp hv
    cases step <;> exact le_rfl
  change max 0 (max (Value.depthItems (steps.map stepValue) + 1) 0) + 1 ≤ 3
  omega

/-- The canonical form of a proof is within the caps and is read back as the proof. -/
theorem canonicalize_parse {count : ℕ} (hcount : 1 ≤ count ∧ count ≤ MAX_KA_TRANSFER_CHUNKS_V1)
    (hi : i < count) (hleads : Leads i count steps) :
    canonicalizeKaChunkProofV1 N (KaChunkProof.toValue ⟨digitsOf i, steps⟩) count =
        .ok (proofText N i steps) ∧
      (utf8 (proofText N i steps)).length ≤ MAX_KA_CHUNK_PROOF_BYTES_V1 ∧
      parseCanonicalKaChunkProofV1 N (proofText N i steps) count ⟨none, none⟩ =
        .ok ⟨digitsOf i, steps⟩ := by
  have hlen := proofText_length (N := N) hcount.2 hi hleads
  have hbytes := utf8_ascii (ascii_proofText (N := N) i steps)
  have hlimits : resolveLimits ⟨some MAX_KA_CHUNK_PROOF_BYTES_V1,
      some MAX_KA_CHUNK_PROOF_DEPTH_V1⟩ = .ok ⟨1280, 3⟩ := rfl
  have hfits : Fits (N := N) ⟨1280, 3⟩ (KaChunkProof.toValue ⟨digitsOf i, steps⟩) := by
    refine ⟨?_, toValue_depth i steps⟩
    rw [render_toValue, hbytes]
    exact hlen.trans (by decide)
  have hvalid := toValue_valid (N := N) i steps
  refine ⟨?_, ?_, ?_⟩
  · rw [canonicalizeKaChunkProofV1, assertKaChunkProofV1_toValue hcount hi hleads, ok_bind,
      mapError_eq_ok]
    exact (canonicalizeJson_iff (writable_none N) hlimits hvalid).mpr ⟨rfl, hfits⟩
  · rw [hbytes]
    exact hlen.trans (by decide)
  · have hwire : ¬wireByteLength (proofText N i steps) > MAX_KA_CHUNK_PROOF_BYTES_V1 := by
      unfold wireByteLength MAX_KA_CHUNK_PROOF_BYTES_V1
      rw [hbytes]
      split <;> omega
    have hparse := parseCanonicalJson_render (writable_none N) hlimits hvalid hfits
    rw [render_toValue] at hparse
    rw [parseCanonicalKaChunkProofV1, require_of hwire, ok_bind]
    change (Except.mapError Err.json (parseCanonicalJson N (proofText N i steps)
      ⟨some MAX_KA_CHUNK_PROOF_BYTES_V1, some MAX_KA_CHUNK_PROOF_DEPTH_V1⟩) >>= _) = _
    rw [hparse, toValue_normalize]
    exact assertKaChunkProofV1_ok hcount hi (forall₂_stepValue readsStep_sorted steps) hleads

end Json

end Dkg.KaChunk
