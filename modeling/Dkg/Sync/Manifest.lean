import Dkg.Wire.LengthPrefixed

/-!
The manifest of a durable snapshot: the ordered descriptors of its assertion graphs. An offset into
the rows is a checkpoint if it lies on a boundary between graphs, and is bound to the descriptors
before it by a digest.
-/

namespace Dkg.DurableManifest
open Utf16 Json Wire List

/-- What the parser reads of one asset; it takes no count that is not a safe integer. -/
structure GraphScopedDescriptor where
  ual : Text
  contentScopeVersion : Text
  assertionVersion : Text
  contextGraphId : Text
  subGraphName : Option Text
  assertionGraph : Text
  publicTripleCount : ℕ
  privateTripleCount : ℕ
  privateRoot : Option (List UInt8)
  claimedRootHex : Text
  metadataDigestHex : Text
  publicTripleCount_safe : publicTripleCount ≤ MAX_SAFE_INTEGER := by decide
  privateTripleCount_safe : privateTripleCount ≤ MAX_SAFE_INTEGER := by decide
deriving DecidableEq

def toHex (bytes : List UInt8) : Text := bytes.flatMap hexByte

/-- The parser keeps the hexadecimal form beside the bytes. -/
def GraphScopedDescriptor.privateRootHex (d : GraphScopedDescriptor) : Option Text :=
  d.privateRoot.map toHex

structure GraphScopedDurableManifestPlan where
  contextGraphId : Text
  manifestDigest : Text
  descriptors : List GraphScopedDescriptor
  manifestRowCount : ℕ
deriving DecidableEq

structure GraphScopedDurableManifestPrefix where
  offset : ℤ
  descriptorCount : ℕ
  prefixDigest : Text
deriving DecidableEq

def DURABLE_MANIFEST_DIGEST_DOMAIN : Text := text "origintrail.dkg.durable-data-manifest"
def DURABLE_MANIFEST_DIGEST_VERSION : ℕ := 3
def DURABLE_MANIFEST_PREFIX_DIGEST_DOMAIN : Text :=
  text "origintrail.dkg.durable-data-manifest-prefix"

/-- The strings of one descriptor, in the order they are appended. -/
def descriptorParts (d : GraphScopedDescriptor) : List Text :=
  [d.ual, d.contentScopeVersion, d.assertionVersion, d.contextGraphId, d.subGraphName.getD [],
    d.assertionGraph, digitsOf d.publicTripleCount, d.claimedRootHex, digitsOf d.privateTripleCount,
    d.privateRootHex.getD [], d.metadataDigestHex]

def manifestParts (contextGraphId : Text) (descriptors : List GraphScopedDescriptor)
    (domain : Text) (version : ℕ) : List Text :=
  [domain, digitsOf version, contextGraphId, digitsOf descriptors.length] ++
    descriptors.flatMap descriptorParts

def encodeGraphScopedDurableManifest (contextGraphId : Text)
    (descriptors : List GraphScopedDescriptor) (domain : Text) (version : ℕ) : List UInt8 :=
  lengthPrefixed (manifestParts contextGraphId descriptors domain version)

section Plan
variable (sha256 : List UInt8 → Digest)

def digestText (canonical : List UInt8) : Text := text "sha256:" ++ toHex (sha256 canonical).1

/-- The sum of the rows, as long as it is a safe integer. -/
def countRows : List GraphScopedDescriptor → ℕ → Option ℕ
  | [], manifestRowCount => some manifestRowCount
  | d :: ds, manifestRowCount =>
    if manifestRowCount + d.publicTripleCount > MAX_SAFE_INTEGER then none
    else countRows ds (manifestRowCount + d.publicTripleCount)

/-- The plan of descriptors that were parsed from metadata, valid, ordered and of distinct
graphs. -/
def createGraphScopedDurableManifestPlan (descriptors : List GraphScopedDescriptor)
    (contextGraphId : Text) : Option GraphScopedDurableManifestPlan :=
  if descriptors.any fun d => d.contextGraphId ≠ contextGraphId then none
  else
    (countRows descriptors 0).map fun manifestRowCount =>
      ⟨contextGraphId, digestText sha256 (encodeGraphScopedDurableManifest contextGraphId descriptors
        DURABLE_MANIFEST_DIGEST_DOMAIN DURABLE_MANIFEST_DIGEST_VERSION), descriptors,
        manifestRowCount⟩

/-- How many descriptors without rows stand at the front. -/
def leadingEmpty : List GraphScopedDescriptor → ℕ
  | [] => 0
  | d :: ds => if d.publicTripleCount = 0 then leadingEmpty ds + 1 else 0

/-- The loop of `graphScopedDurableManifestPrefixAtOffset` over the descriptors that are left: the
rows and descriptors passed when it ends. -/
def scanPrefix (offset : ℕ) : List GraphScopedDescriptor → ℕ → ℕ → Option (ℕ × ℕ)
  | [], rowCount, descriptorCount => some (rowCount, descriptorCount)
  | d :: ds, rowCount, descriptorCount =>
    let nextRowCount := rowCount + d.publicTripleCount
    if nextRowCount > MAX_SAFE_INTEGER then none
    else if nextRowCount > offset then none
    else if nextRowCount = offset then some (nextRowCount, descriptorCount + 1 + leadingEmpty ds)
    else scanPrefix offset ds nextRowCount (descriptorCount + 1)

def isOffset (offset : ℤ) : Bool := decide (0 ≤ offset ∧ offset ≤ MAX_SAFE_INTEGER)

def graphScopedDurableManifestPrefixAtOffset (manifest : GraphScopedDurableManifestPlan)
    (offset : ℤ) : Option GraphScopedDurableManifestPrefix :=
  if ¬isOffset offset then none
  else
    let scanned := if offset = 0 then some (0, leadingEmpty manifest.descriptors)
      else scanPrefix offset.toNat manifest.descriptors 0 0
    match scanned with
    | none => none
    | some (rowCount, descriptorCount) =>
      if rowCount ≠ offset then none
      else some ⟨offset, descriptorCount, digestText sha256 (encodeGraphScopedDurableManifest
        manifest.contextGraphId (manifest.descriptors.take descriptorCount)
        DURABLE_MANIFEST_PREFIX_DIGEST_DOMAIN DURABLE_MANIFEST_DIGEST_VERSION)⟩

/-- The loop of `isGraphScopedDurableManifestBoundary`. -/
def scanBoundary (offset : ℕ) : List GraphScopedDescriptor → ℕ → Bool
  | [], _ => false
  | d :: ds, boundary =>
    let boundary := boundary + d.publicTripleCount
    if boundary > MAX_SAFE_INTEGER then false
    else if offset = boundary then true
    else if offset < boundary then false
    else scanBoundary offset ds boundary

def isGraphScopedDurableManifestBoundary (manifest : GraphScopedDurableManifestPlan)
    (offset : ℤ) : Bool :=
  if ¬isOffset offset then false
  else if offset = 0 then true
  else scanBoundary offset.toNat manifest.descriptors 0

end Plan

section Boundary
variable {ds : List GraphScopedDescriptor} {offset rows count rowCount descriptorCount k : ℕ}

/-- The rows of descriptors. -/
def rowsOf (ds : List GraphScopedDescriptor) : ℕ := (ds.map (·.publicTripleCount)).sum

/-- A list that is empty or starts with a descriptor that has rows. -/
def StartsWithRows (ds : List GraphScopedDescriptor) : Prop :=
  ∀ d ∈ ds.head?, 0 < d.publicTripleCount

theorem rowsOf_cons (d : GraphScopedDescriptor) (ds : List GraphScopedDescriptor) :
    rowsOf (d :: ds) = d.publicTripleCount + rowsOf ds := by
  rw [rowsOf, map_cons, sum_cons]
  rfl

theorem leadingEmpty_spec (ds : List GraphScopedDescriptor) :
    leadingEmpty ds ≤ ds.length ∧ rowsOf (ds.take (leadingEmpty ds)) = 0 ∧
      StartsWithRows (ds.drop (leadingEmpty ds)) := by
  induction ds with
  | nil => exact ⟨le_rfl, rfl, nofun⟩
  | cons d ds ih =>
    obtain ⟨hle, hrows, hstart⟩ := ih
    rw [leadingEmpty]
    split_ifs with hzero
    · refine ⟨Nat.succ_le_succ hle, ?_, hstart⟩
      rw [take_succ_cons, rowsOf_cons, hzero, hrows]
    · refine ⟨Nat.zero_le _, rfl, ?_⟩
      rintro d' ⟨⟩
      exact Nat.pos_of_ne_zero hzero

/-- What the scan for a prefix finds: as many descriptors as have the rows before the offset, and
all that have none after them. -/
theorem scanPrefix_some (h : scanPrefix offset ds rows count = some (rowCount, descriptorCount))
    (hoffset : rowCount = offset) (hlt : rows < offset) :
    ∃ k ≤ ds.length, descriptorCount = count + k ∧ rows + rowsOf (ds.take k) = offset ∧
      StartsWithRows (ds.drop k) := by
  induction ds generalizing rows count with
  | nil =>
    cases h
    omega
  | cons d ds ih =>
    rw [scanPrefix] at h
    split at h
    · cases h
    · split at h
      · cases h
      · split_ifs at h with heq
        · cases h
          obtain ⟨hle, hrows, hstart⟩ := leadingEmpty_spec ds
          refine ⟨leadingEmpty ds + 1, Nat.succ_le_succ hle, by omega, ?_, hstart⟩
          rw [take_succ_cons, rowsOf_cons, hrows]
          omega
        · obtain ⟨k, hk, hcount, hrows, hstart⟩ := ih h (by omega)
          refine ⟨k + 1, Nat.succ_le_succ hk, by omega, ?_, hstart⟩
          rw [take_succ_cons, rowsOf_cons]
          omega

/-- Both scans find an offset behind some descriptors. -/
theorem scans_of_boundary (count : ℕ) (hk : rows + rowsOf (ds.take k) = offset) (hlt : rows < offset)
    (hsafe : offset ≤ MAX_SAFE_INTEGER) :
    (∃ n, scanPrefix offset ds rows count = some (offset, n)) ∧
      scanBoundary offset ds rows = true := by
  induction ds generalizing rows count k with
  | nil =>
    rw [take_nil] at hk
    exact absurd hk (by change rows + 0 ≠ offset; omega)
  | cons d ds ih =>
    cases k with
    | zero => exact absurd hk (by change rows + 0 ≠ offset; omega)
    | succ k =>
      rw [take_succ_cons, rowsOf_cons] at hk
      have hsum : ¬rows + d.publicTripleCount > MAX_SAFE_INTEGER := by omega
      have hle : ¬rows + d.publicTripleCount > offset := by omega
      rw [scanPrefix, scanBoundary, if_neg hsum, if_neg hle, if_neg hsum]
      by_cases heq : rows + d.publicTripleCount = offset
      · rw [if_pos heq, if_pos heq.symm, heq]
        exact ⟨⟨_, rfl⟩, rfl⟩
      · rw [if_neg heq, if_neg (Ne.symm heq), if_neg (by omega)]
        exact ih (count + 1) (k := k) (by omega) (by omega)

theorem boundary_of_scan (h : scanBoundary offset ds rows = true) :
    ∃ k, rows + rowsOf (ds.take k) = offset := by
  induction ds generalizing rows with
  | nil => cases h
  | cons d ds ih =>
    rw [scanBoundary] at h
    split at h
    · cases h
    · split at h
      · next heq =>
        refine ⟨1, ?_⟩
        rw [take_succ_cons, rowsOf_cons, take_zero]
        exact heq.symm
      · split at h
        · cases h
        · obtain ⟨k, hk⟩ := ih h
          refine ⟨k + 1, ?_⟩
          rw [take_succ_cons, rowsOf_cons]
          omega

/-- The rows of leading descriptors end on a boundary. -/
theorem isBoundary_of_rows {manifest : GraphScopedDurableManifestPlan}
    (hsafe : rowsOf (manifest.descriptors.take k) ≤ MAX_SAFE_INTEGER) :
    isGraphScopedDurableManifestBoundary manifest (rowsOf (manifest.descriptors.take k)) = true := by
  have hoffset : isOffset (rowsOf (manifest.descriptors.take k)) = true := by
    apply decide_eq_true
    omega
  rw [isGraphScopedDurableManifestBoundary, if_neg (not_not.mpr hoffset)]
  split_ifs with hne
  · rfl
  · rw [Int.toNat_natCast]
    exact (scans_of_boundary 0 (Nat.zero_add _) (by omega) hsafe).2

end Boundary

section Digest
variable {sha256 : List UInt8 → Digest} {manifest manifest' : GraphScopedDurableManifestPlan}
  {offset offset' : ℤ} {p p' : GraphScopedDurableManifestPrefix} {t t' : Text}
  {d d' : GraphScopedDescriptor} {ds ds' : List GraphScopedDescriptor}

/-- The bytes that are hashed for a checkpoint behind `descriptorCount` descriptors. -/
def prefixInput (manifest : GraphScopedDurableManifestPlan) (descriptorCount : ℕ) : List UInt8 :=
  encodeGraphScopedDurableManifest manifest.contextGraphId
    (manifest.descriptors.take descriptorCount) DURABLE_MANIFEST_PREFIX_DIGEST_DOMAIN
    DURABLE_MANIFEST_DIGEST_VERSION

/-- The checkpoint at an offset, if there is one. -/
theorem prefixAtOffset_some
    (h : graphScopedDurableManifestPrefixAtOffset sha256 manifest offset = some p) :
    isOffset offset = true ∧ p.descriptorCount ≤ manifest.descriptors.length ∧
      (rowsOf (manifest.descriptors.take p.descriptorCount) : ℤ) = offset ∧
      StartsWithRows (manifest.descriptors.drop p.descriptorCount) ∧
      p.prefixDigest = digestText sha256 (prefixInput manifest p.descriptorCount) := by
  unfold graphScopedDurableManifestPrefixAtOffset at h
  split at h
  · cases h
  · next hoffset =>
    have hoffset := not_not.mp hoffset
    have hrange := of_decide_eq_true hoffset
    dsimp only at h
    split at h
    · cases h
    · next rowCount descriptorCount hscan =>
      split at h
      · cases h
      · next hrow =>
        have hrow := not_not.mp hrow
        cases h
        by_cases hzero : offset = 0
        · rw [if_pos hzero] at hscan
          cases hscan
          obtain ⟨hle, hrows, hstart⟩ := leadingEmpty_spec manifest.descriptors
          exact ⟨hoffset, hle, by rw [hrows, hzero]; rfl, hstart, rfl⟩
        · rw [if_neg hzero] at hscan
          obtain ⟨k, hk, hcount, hrows, hstart⟩ := scanPrefix_some hscan (by omega) (by omega)
          rw [Nat.zero_add] at hcount hrows
          subst hcount
          exact ⟨hoffset, hk, by dsimp only; omega, hstart, rfl⟩

/-- A checkpoint is exactly an offset that the boundary check accepts. -/
theorem prefixAtOffset_isSome :
    (graphScopedDurableManifestPrefixAtOffset sha256 manifest offset).isSome =
      isGraphScopedDurableManifestBoundary manifest offset := by
  rw [Bool.eq_iff_iff]
  constructor
  · intro h
    obtain ⟨p, hp⟩ := Option.isSome_iff_exists.mp h
    obtain ⟨hoffset, -, hrows, -, -⟩ := prefixAtOffset_some hp
    have hrange := of_decide_eq_true hoffset
    rw [← hrows]
    exact isBoundary_of_rows (by omega)
  · intro h
    unfold isGraphScopedDurableManifestBoundary at h
    unfold graphScopedDurableManifestPrefixAtOffset
    split at h
    · cases h
    · next hoffset =>
      have hrange := of_decide_eq_true (not_not.mp hoffset)
      rw [if_neg hoffset]
      split_ifs at h with hzero
      · subst hzero
        rfl
      · obtain ⟨k, hk⟩ := boundary_of_scan h
        obtain ⟨⟨n, hn⟩, -⟩ := scans_of_boundary 0 hk (by omega) (by omega)
        dsimp only
        rw [if_neg hzero, hn]
        dsimp only
        rw [if_neg (by omega)]
        rfl

/-- A descriptor with well-formed strings and without an empty name or root. -/
structure GraphScopedDescriptor.Wf (d : GraphScopedDescriptor) : Prop where
  parts : ∀ t ∈ descriptorParts d, Encodable t
  subGraphName : d.subGraphName ≠ some []
  privateRoot : d.privateRoot ≠ some []

/-- A plan with such descriptors, no more of them than an array can hold. -/
structure GraphScopedDurableManifestPlan.Wf (manifest : GraphScopedDurableManifestPlan) : Prop where
  contextGraphId : Encodable manifest.contextGraphId
  descriptors : ∀ d ∈ manifest.descriptors, d.Wf
  length_lt : manifest.descriptors.length < 2 ^ 32

theorem toHex_inj {a b : List UInt8} (h : toHex a = toHex b) : a = b := by
  rw [← hexBytes_flatMap a, ← hexBytes_flatMap b]
  exact congrArg hexBytes h

theorem getD_inj {α : Type} {x y : Option (List α)} (hx : x ≠ some []) (hy : y ≠ some [])
    (h : x.getD [] = y.getD []) : x = y := by
  cases x with
  | none =>
    cases y with
    | none => rfl
    | some b => exact absurd (congrArg some h).symm hy
  | some a =>
    cases y with
    | none => exact absurd (congrArg some h) hx
    | some b => exact congrArg some h

/-- The strings of a descriptor determine it. -/
theorem descriptorParts_inj (h : d.Wf) (h' : d'.Wf) (heq : descriptorParts d = descriptorParts d') :
    d = d' := by
  have hname := h.subGraphName
  have hname' := h'.subGraphName
  have hroot := h.privateRoot
  have hroot' := h'.privateRoot
  obtain ⟨ual, scope, version, context, name, graph, publics, privates, root, claimed, digest⟩ := d
  obtain ⟨ual', scope', version', context', name', graph', publics', privates', root', claimed',
    digest'⟩ := d'
  simp only [descriptorParts, GraphScopedDescriptor.privateRootHex, cons.injEq] at heq
  obtain ⟨rfl, rfl, rfl, rfl, hnames, rfl, hpublics, rfl, hprivates, hroots, rfl, -⟩ := heq
  cases getD_inj hname hname' hnames
  cases digitsOf_inj hpublics
  cases digitsOf_inj hprivates
  have hrootHex : root = root' := by
    refine Option.map_injective (fun _ _ => toHex_inj) (getD_inj ?_ ?_ hroots)
    · rintro hnil
      obtain ⟨bytes, rfl, hbytes⟩ := Option.map_eq_some_iff.mp hnil
      exact hroot (congrArg some (toHex_inj (b := []) hbytes))
    · rintro hnil
      obtain ⟨bytes, rfl, hbytes⟩ := Option.map_eq_some_iff.mp hnil
      exact hroot' (congrArg some (toHex_inj (b := []) hbytes))
  cases hrootHex
  rfl

/-- The strings of a list of descriptors determine it, eleven for each. -/
theorem flatMap_descriptorParts_inj (h : ∀ d ∈ ds, d.Wf) (h' : ∀ d ∈ ds', d.Wf)
    (heq : ds.flatMap descriptorParts = ds'.flatMap descriptorParts) : ds = ds' := by
  refine LengthPrefix.flatMap_inj (fun d => cons_ne_nil _ _) (fun hd hd' hx => ?_) h h' heq
  obtain ⟨hparts, rfl⟩ := append_inj hx rfl
  exact ⟨descriptorParts_inj hd hd' hparts, rfl⟩

theorem manifestParts_encodable {domain : Text} {version : ℕ} (hdomain : Encodable domain)
    (hversion : version ≤ MAX_SAFE_INTEGER) (ht : Encodable t) (hds : ∀ d ∈ ds, d.Wf)
    (hlen : ds.length < 2 ^ 32) : ∀ x ∈ manifestParts t ds domain version, Encodable x := by
  have hcount : Encodable (digitsOf ds.length) := encodable_digitsOf (hlen.le.trans (by decide))
  simp only [manifestParts, forall_mem_append, forall_mem_cons]
  refine ⟨⟨hdomain, encodable_digitsOf hversion, ht, hcount, nofun⟩, fun x hx => ?_⟩
  obtain ⟨d, hd, hx⟩ := mem_flatMap.mp hx
  exact (hds d hd).parts x hx

/-- The bytes of a manifest determine its graph and its descriptors. -/
theorem encode_inj {domain : Text} {version : ℕ} (hdomain : Encodable domain)
    (hversion : version ≤ MAX_SAFE_INTEGER) (ht : Encodable t) (ht' : Encodable t')
    (hds : ∀ d ∈ ds, d.Wf) (hds' : ∀ d ∈ ds', d.Wf) (hlen : ds.length < 2 ^ 32)
    (hlen' : ds'.length < 2 ^ 32)
    (heq : encodeGraphScopedDurableManifest t ds domain version =
      encodeGraphScopedDurableManifest t' ds' domain version) : t = t' ∧ ds = ds' := by
  have hparts := manifestParts_encodable hdomain hversion ht hds hlen
  have hparts' := manifestParts_encodable hdomain hversion ht' hds' hlen'
  have hmap := lengthPrefixed_inj hparts hparts' heq
  obtain ⟨hhead, hrest⟩ := append_inj hmap rfl
  simp only [cons.injEq] at hhead
  exact ⟨hhead.2.2.1, flatMap_descriptorParts_inj hds hds' hrest⟩

theorem digestText_inj {x y : List UInt8} (h : digestText sha256 x = digestText sha256 y) :
    sha256 x = sha256 y :=
  Subtype.ext (toHex_inj (append_cancel_left h))

end Digest

/-- The bytes that are hashed for a whole plan. -/
def manifestInput (manifest : GraphScopedDurableManifestPlan) : List UInt8 :=
  encodeGraphScopedDurableManifest manifest.contextGraphId manifest.descriptors
    DURABLE_MANIFEST_DIGEST_DOMAIN DURABLE_MANIFEST_DIGEST_VERSION

theorem createPlan_some {sha256 : List UInt8 → Digest} {ds : List GraphScopedDescriptor} {t : Text}
    {manifest : GraphScopedDurableManifestPlan}
    (h : createGraphScopedDurableManifestPlan sha256 ds t = some manifest) :
    manifest.manifestDigest = digestText sha256 (manifestInput manifest) ∧
      countRows manifest.descriptors 0 = some manifest.manifestRowCount := by
  unfold createGraphScopedDurableManifestPlan at h
  split at h
  · cases h
  · obtain ⟨n, hn, rfl⟩ := Option.map_eq_some_iff.mp h
    exact ⟨rfl, hn⟩

variable (sha256 : List UInt8 → Digest)

/-- With well-formed strings a checkpoint digest pins its graph, its descriptors and its offset, or
its input collides; a checkpoint ends before rows or at the end, and is where the boundary check
says; and the digest of a plan pins the plan. -/
theorem prefixDigest_pins :
    (∀ manifest manifest' offset offset' p p', manifest.Wf → manifest'.Wf →
      graphScopedDurableManifestPrefixAtOffset sha256 manifest offset = some p →
      graphScopedDurableManifestPrefixAtOffset sha256 manifest' offset' = some p' →
      p.prefixDigest = p'.prefixDigest →
      (manifest.contextGraphId = manifest'.contextGraphId ∧
        manifest.descriptors.take p.descriptorCount =
          manifest'.descriptors.take p'.descriptorCount ∧ offset = offset') ∨
      (prefixInput manifest p.descriptorCount ≠ prefixInput manifest' p'.descriptorCount ∧
        sha256 (prefixInput manifest p.descriptorCount) =
          sha256 (prefixInput manifest' p'.descriptorCount))) ∧
    (∀ manifest offset p, graphScopedDurableManifestPrefixAtOffset sha256 manifest offset = some p →
      p.descriptorCount ≤ manifest.descriptors.length ∧
        StartsWithRows (manifest.descriptors.drop p.descriptorCount)) ∧
    (∀ manifest offset, (graphScopedDurableManifestPrefixAtOffset sha256 manifest offset).isSome =
      isGraphScopedDurableManifestBoundary manifest offset) ∧
    ∀ ds ds' t t' manifest manifest', manifest.Wf → manifest'.Wf →
      createGraphScopedDurableManifestPlan sha256 ds t = some manifest →
      createGraphScopedDurableManifestPlan sha256 ds' t' = some manifest' →
      manifest.manifestDigest = manifest'.manifestDigest →
      manifest = manifest' ∨ (manifestInput manifest ≠ manifestInput manifest' ∧
        sha256 (manifestInput manifest) = sha256 (manifestInput manifest')) := by
  have hdomain : Encodable DURABLE_MANIFEST_PREFIX_DIGEST_DOMAIN := .of_ascii (by decide) (by decide)
  have hdomain' : Encodable DURABLE_MANIFEST_DIGEST_DOMAIN := .of_ascii (by decide) (by decide)
  refine ⟨?_, ?_, fun _ _ => prefixAtOffset_isSome, ?_⟩
  · intro manifest manifest' offset offset' p p' hwf hwf' hp hp' hdigest
    obtain ⟨-, -, hrows, -, hd⟩ := prefixAtOffset_some hp
    obtain ⟨-, -, hrows', -, hd'⟩ := prefixAtOffset_some hp'
    rw [hd, hd'] at hdigest
    by_cases heq : prefixInput manifest p.descriptorCount = prefixInput manifest' p'.descriptorCount
    · obtain ⟨hgraph, hds⟩ := encode_inj hdomain (by decide) hwf.contextGraphId hwf'.contextGraphId
        (fun d hd => hwf.descriptors d (mem_of_mem_take hd))
        (fun d hd => hwf'.descriptors d (mem_of_mem_take hd))
        ((length_take_le' _ _).trans_lt hwf.length_lt)
        ((length_take_le' _ _).trans_lt hwf'.length_lt) heq
      exact .inl ⟨hgraph, hds, by rw [← hrows, ← hrows', hds]⟩
    · exact .inr ⟨heq, digestText_inj hdigest⟩
  · intro manifest offset p hp
    obtain ⟨-, hle, -, hstart, -⟩ := prefixAtOffset_some hp
    exact ⟨hle, hstart⟩
  · intro ds ds' t t' manifest manifest' hwf hwf' hplan hplan' hdigest
    obtain ⟨hd, hrows⟩ := createPlan_some hplan
    obtain ⟨hd', hrows'⟩ := createPlan_some hplan'
    by_cases heq : manifestInput manifest = manifestInput manifest'
    · obtain ⟨hgraph, hds⟩ := encode_inj hdomain' (by decide) hwf.contextGraphId hwf'.contextGraphId
        hwf.descriptors hwf'.descriptors hwf.length_lt hwf'.length_lt heq
      rw [hds, hrows'] at hrows
      obtain ⟨graph, digest, descriptors, rows⟩ := manifest
      obtain ⟨graph', digest', descriptors', rows'⟩ := manifest'
      cases hgraph
      cases hds
      cases hdigest
      cases hrows
      exact .inl rfl
    · rw [hd, hd'] at hdigest
      exact .inr ⟨heq, digestText_inj hdigest⟩

/-- A private asset of a graph. -/
def privateAsset (contextGraphId : Text) : GraphScopedDescriptor where
  ual := text "did:dkg:base:1/0x1/1"
  contentScopeVersion := text "2"
  assertionVersion := text "1"
  contextGraphId := contextGraphId
  subGraphName := none
  assertionGraph := contextGraphId ++ text "/1"
  publicTripleCount := 0
  privateTripleCount := 1
  privateRoot := some [7]
  claimedRootHex := text "07"
  metadataDigestHex := text "08"

/-- Two ids that each are one stray surrogate are encoded alike, so their plans have one
checkpoint digest and one manifest digest whatever the hash is. -/
theorem prefixDigest_straySurrogate : ([0xd800] : Text) ≠ [0xd801] ∧
    ∀ sha256 : List UInt8 → Digest, ∃ manifest manifest' p p',
      createGraphScopedDurableManifestPlan sha256 [privateAsset [0xd800]] [0xd800] = some manifest ∧
      createGraphScopedDurableManifestPlan sha256 [privateAsset [0xd801]] [0xd801] = some manifest' ∧
      graphScopedDurableManifestPrefixAtOffset sha256 manifest 0 = some p ∧
      graphScopedDurableManifestPrefixAtOffset sha256 manifest' 0 = some p' ∧
      p.prefixDigest = p'.prefixDigest ∧ manifest.manifestDigest = manifest'.manifestDigest ∧
      prefixInput manifest p.descriptorCount = prefixInput manifest' p'.descriptorCount ∧
      manifestInput manifest = manifestInput manifest' ∧
      manifest.contextGraphId = [0xd800] ∧ manifest'.contextGraphId = [0xd801] := by
  refine ⟨by decide, fun sha256 => ?_⟩
  have hbytes : ∀ domain : Text,
      encodeGraphScopedDurableManifest [0xd800] [privateAsset [0xd800]] domain 3 =
        encodeGraphScopedDurableManifest [0xd801] [privateAsset [0xd801]] domain 3 :=
    fun domain => rfl
  refine ⟨_, _, _, _, rfl, rfl, rfl, rfl, ?_, ?_, hbytes _, hbytes _, rfl, rfl⟩
  · exact congrArg (digestText sha256) (hbytes _)
  · exact congrArg (digestText sha256) (hbytes _)

/-- A plan with one private asset. -/
def privatePlan (contextGraphId : Text) : GraphScopedDurableManifestPlan :=
  ⟨contextGraphId, [], [privateAsset contextGraphId], 0⟩

/-- Under a hash that maps all to one digest two plans have one checkpoint digest and differ. -/
theorem prefixDigest_pins_constant :
    (privatePlan (text "g")).Wf ∧ (privatePlan (text "h")).Wf ∧
      prefixInput (privatePlan (text "g")) 1 ≠ prefixInput (privatePlan (text "h")) 1 := by
  have hwf : ∀ t ∈ [text "g", text "h"], (privatePlan t).Wf := by
    intro t ht
    have hascii : ∀ t ∈ [text "g", text "h"], ∀ x ∈ t :: descriptorParts (privateAsset t),
        (∀ u ∈ x, u < 0x80) ∧ x.length < 2 ^ 32 := by decide
    obtain ⟨hid, hparts⟩ := forall_mem_cons.mp (hascii t ht)
    refine ⟨.of_ascii hid.1 hid.2, ?_, (by decide : 1 < 2 ^ 32)⟩
    exact forall_mem_singleton.mpr ⟨fun x hx => .of_ascii (hparts x hx).1 (hparts x hx).2,
      nofun, nofun⟩
  obtain ⟨hg, hh, -⟩ := forall_mem_cons.mp hwf |>.imp id forall_mem_cons.mp
  refine ⟨hg, hh, ?_⟩
  rcases (prefixDigest_pins fun _ => ⟨replicate 32 0, rfl⟩).1 (privatePlan (text "g"))
    (privatePlan (text "h")) 0 0 _ _ hg hh rfl rfl rfl with hsame | hdiffer
  · exact absurd hsame.1 (by decide)
  · exact hdiffer.1

end Dkg.DurableManifest
