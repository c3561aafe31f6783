import Dkg.FinalizedVm.Rows
import Dkg.Wire.Hashing

/-!
The accumulator of a finalized VM set. Its frontier computes the Merkle root over the levels, and
the root binds the rows unless SHA-256 collides on inputs of the computation.
-/

namespace Dkg.FinalizedVm
open Revert Utf16 Json Wire List

def LEAF_DOMAIN_BYTES : List UInt8 := utf8Bytes (text "dkg-finalized-vm-set-leaf-v1\n")
def NODE_DOMAIN_BYTES : List UInt8 := utf8Bytes (text "dkg-finalized-vm-set-node-v1\n")
def ODD_DOMAIN_BYTES : List UInt8 := utf8Bytes (text "dkg-finalized-vm-set-odd-v1\n")
def EMPTY_DOMAIN_BYTES : List UInt8 := utf8Bytes (text "dkg-finalized-vm-set-empty-v1\n")

def domains : Domains where
  leaf := LEAF_DOMAIN_BYTES
  node := NODE_DOMAIN_BYTES
  odd := ODD_DOMAIN_BYTES
  empty := EMPTY_DOMAIN_BYTES
  position := 21
  inside := by decide
  differ := by decide

/-- `FinalizedVmSetMerkleFrontier`. -/
structure Frontier (δ : Type) where
  levels : List (Option δ)
  finalRoot : Option δ

namespace Frontier
variable {δ : Type} (H : Hashes δ)

def new : Frontier δ := ⟨[], none⟩

def append (f : Frontier δ) (leafDigest : δ) : Except Err (Frontier δ) := do
  require (f.finalRoot.isNone = true) .frontierFinalized
  return { f with levels := OddMerkle.push H.node f.levels leafDigest }

def finalizeRoot (f : Frontier δ) : δ × Frontier δ :=
  match f.finalRoot with
  | some root => (root, f)
  | none =>
    let root := (OddMerkle.finish H.node H.odd f.levels 0 none).getD H.empty
    (root, { f with finalRoot := some root })

theorem foldlM_append (f : Frontier δ) (hf : f.finalRoot = none) (leaves : List δ) :
    leaves.foldlM (append H) f =
      .ok { f with levels := leaves.foldl (OddMerkle.push H.node) f.levels } := by
  induction leaves generalizing f with
  | nil => rfl
  | cons leaf leaves ih =>
    have happend : append H f leaf =
        .ok { f with levels := OddMerkle.push H.node f.levels leaf } := by
      rw [append, require_of (by rw [hf]; rfl)]
      rfl
    rw [foldlM_cons, happend, ok_bind]
    exact ih { f with levels := _ } hf

/-- The root over the levels: neighbours are paired, and a last node without one is promoted. -/
def levelRoot (leaves : List δ) : δ := (OddMerkle.root H.node H.odd leaves).getD H.empty

theorem finalizeRoot_levels (leaves : List δ) :
    (finalizeRoot H ⟨leaves.foldl (OddMerkle.push H.node) [], none⟩).1 = levelRoot H leaves :=
  congrArg (Option.getD · H.empty) (OddMerkle.finish_foldl leaves)

end Frontier

variable (N : Numbers) (sha256 : List UInt8 → Digest)

def canonicalizeJsonBytes (row : Row) : Except Json.Err (List UInt8) := do
  let text ← canonicalizeJson N (row.toValue N.Num) ⟨some (2 * 1024), some 2⟩
  return utf8Bytes text

def computeFinalizedVmSetLeafDigestBytesV1 (row : Row) : Except Err Digest := do
  let bytes ← (canonicalizeJsonBytes N row).mapError .json
  return digestBytes sha256 LEAF_DOMAIN_BYTES [bytes]

/-- `FinalizedVmSetEvidenceV1`. -/
structure Evidence where
  scope : Scope
  rootDigest : Text
  rowCount : Text
  highestFinalizedOrdinal : Option Text
deriving DecidableEq

/-- `FinalizedVmSetAccumulatorV1`. -/
structure Accumulator where
  scope : Scope
  frontier : Frontier Digest
  rowCount : ℕ
  highestFinalizedOrdinal : Option Text
  highestOrdinalValue : Option ℕ
  finalEvidence : Option Evidence

namespace Accumulator

def new (scope : Scope) : Except Err Accumulator := do
  let scope ← snapshotFinalizedVmSetScopeV1 scope
  return ⟨scope, .new, 0, none, none, none⟩

def append (acc : Accumulator) (rowInput : Row) : Except Err Accumulator := do
  require (acc.finalEvidence.isNone = true) .appendAfterFinalize
  require (¬acc.rowCount ≥ MAX_DECIMAL_U64) .rowCountExceeds
  let (row, ordinalValue) ← snapshotFinalizedVmSetRowForScopeV1 acc.scope rowInput
  require (∀ highest ∈ acc.highestOrdinalValue, ¬ordinalValue ≤ highest) .order
  let leaf ← computeFinalizedVmSetLeafDigestBytesV1 N sha256 row
  let frontier ← acc.frontier.append (domains.hashes sha256) leaf
  return { acc with
    frontier
    rowCount := acc.rowCount + 1
    highestOrdinalValue := some ordinalValue
    highestFinalizedOrdinal := some row.ordinal }

def finalize (acc : Accumulator) : Evidence × Accumulator :=
  match acc.finalEvidence with
  | some evidence => (evidence, acc)
  | none =>
    let (root, frontier) := acc.frontier.finalizeRoot (domains.hashes sha256)
    let evidence : Evidence :=
      { scope := acc.scope
        rootDigest := digestToLowerHex root
        rowCount := digitsOf acc.rowCount
        highestFinalizedOrdinal := acc.highestFinalizedOrdinal }
    (evidence, { acc with frontier, finalEvidence := some evidence })

end Accumulator

def computeFinalizedVmSetEvidenceV1 (scope : Scope) (rows : List Row) : Except Err Evidence := do
  let accumulator ← Accumulator.new scope
  let accumulator ← rows.foldlM (Accumulator.append N sha256) accumulator
  return (accumulator.finalize sha256).1

section Leaves
variable {N} {row row' : Row}

/-- The JSON text of a row. -/
def rowText (N : Numbers) (row : Row) : Text := (row.toValue N.Num).render N.stringify

theorem members_keys (row row' : Row) :
    row.members.map Prod.fst = row'.members.map Prod.fst := rfl

theorem members_nodup (row : Row) : (row.members.map Prod.fst).Nodup := by
  rw [members_keys row ⟨[], [], [], [], [], [], [], [], [], []⟩]
  decide

theorem members_injective (h : row.members = row'.members) : row = row' := by
  cases row
  cases row'
  simpa [Row.members] using h

theorem toValue_valid (h : row.Ascii) : (row.toValue N.Num).Valid fun _ => False := by
  have hkeys : ∀ m ∈ row.members, ∀ u ∈ m.1, u < 0x80 := by
    have hall : ∀ key ∈ row.members.map Prod.fst, ∀ u ∈ key, u < 0x80 := by
      rw [members_keys row ⟨[], [], [], [], [], [], [], [], [], []⟩]
      decide
    exact fun m hm => hall m.1 (mem_map_of_mem hm)
  have hascii : ∀ {t : Text}, (∀ u ∈ t, u < 0x80) → WellFormed t := fun ht =>
    .of_forall_lt fun u hu => (ht u hu).trans (by decide)
  refine ⟨?_, Value.validMembers_iff.mpr fun m hm => ?_⟩
  · rw [map_map]
    exact members_nodup row
  · obtain ⟨m, hmem, rfl⟩ := mem_map.mp hm
    exact ⟨hascii (hkeys m hmem), hascii (h m hmem)⟩

theorem rowText_wellFormed (h : row.Ascii) : WellFormed (rowText N row) :=
  (writes_encode 0 (fun _ hfalse => hfalse.elim) _ (toValue_valid h) 0).wellFormed

/-- The bytes of a row say which row it is. -/
theorem rowText_injective (h : row.Ascii) (h' : row'.Ascii)
    (heq : utf8Bytes (rowText N row) = utf8Bytes (rowText N row')) : row = row' := by
  have htext := utf8Bytes_injective (rowText_wellFormed h) (rowText_wellFormed h') heq
  have hnum : ReadsNumbers (toNumber N) N.stringify fun _ => False := fun _ hfalse => hfalse.elim
  have hvalue := Value.normalize_eq_of_render hnum (toValue_valid h) (toValue_valid h') htext
  have hmembers : ∀ row : Row, (row.toValue N.Num).normalize =
      .object (sortMembers (row.members.map fun m => (m.1, .string m.2))) := by
    intro row
    rw [Row.toValue, Value.normalize, Value.normalizeMembers_eq, map_map]
    rfl
  rw [hmembers, hmembers] at hvalue
  have hkeys : ((row.members.map fun m => (m.1, Value.string (ν := N.Num) m.2)).map
      Prod.fst).Nodup := by
    rw [map_map]
    exact members_nodup row
  have hperm := (Value.sortMembers_eq_iff hkeys).mp (Value.object.inj hvalue)
  have hlist := Value.eq_of_perm_of_keys hkeys (by
    rw [map_map, map_map]
    exact members_keys row row') hperm
  refine members_injective (map_injective_iff.mpr ?_ hlist)
  rintro ⟨k, t⟩ ⟨k', t'⟩ hkt
  simpa using hkt

theorem canonicalizeJsonBytes_ok (h : row.Ascii) {bytes : List UInt8}
    (hok : canonicalizeJsonBytes N row = .ok bytes) : bytes = utf8Bytes (rowText N row) := by
  obtain ⟨t, ht, hok⟩ := bind_eq_ok.mp hok
  cases hok
  have hlimits : resolveLimits ⟨some (2 * 1024), some 2⟩ = .ok ⟨2048, 2⟩ := rfl
  have htext := (canonicalizeJson_ok (fun _ hfalse => hfalse.elim) (toValue_valid h) hlimits t).mp ht
  rw [htext.1]
  rfl

end Leaves

section Runs
variable {N sha256} {scope : Scope} {acc acc' : Accumulator} {row : Row} {rows rows' : List Row}

/-- The bytes of a leaf after its domain. -/
def rowBytes (N : Numbers) (row : Row) : List UInt8 := utf8Bytes (rowText N row)

/-- The rows are ASCII and have a canonical text within the limits. -/
def Hashable (N : Numbers) (row : Row) : Prop :=
  row.Ascii ∧ canonicalizeJsonBytes N row = .ok (rowBytes N row)

theorem append_ok (hscope : ∀ u ∈ acc.scope.networkId, u < 0x80)
    (hok : acc.append N sha256 row = .ok acc') :
    Hashable N row ∧ acc'.scope = acc.scope ∧ acc'.finalEvidence = none ∧
      acc'.frontier = { acc.frontier with
        levels := OddMerkle.push (domains.hashes sha256).node acc.frontier.levels
          (sha256 (domains.leaf ++ rowBytes N row)) } := by
  obtain ⟨_, hopen, hok⟩ := bind_eq_ok.mp hok
  obtain ⟨_, -, hok⟩ := bind_eq_ok.mp hok
  obtain ⟨⟨row', ordinalValue⟩, hrow, hok⟩ := bind_eq_ok.mp hok
  obtain ⟨_, -, hok⟩ := bind_eq_ok.mp hok
  obtain ⟨leaf, hleaf, hok⟩ := bind_eq_ok.mp hok
  obtain ⟨frontier, hfrontier, hok⟩ := bind_eq_ok.mp hok
  obtain rfl := pure_eq_ok.mp hok
  obtain ⟨rfl, hascii⟩ := snapshotFinalizedVmSetRowForScopeV1_ok hscope hrow
  obtain ⟨bytes, hbytes, hleaf⟩ := bind_eq_ok.mp hleaf
  have hbytes := mapError_eq_ok.mp hbytes
  have htext := canonicalizeJsonBytes_ok hascii hbytes
  rw [htext] at hbytes hleaf
  obtain rfl := pure_eq_ok.mp hleaf
  obtain ⟨_, -, hfrontier⟩ := bind_eq_ok.mp hfrontier
  obtain rfl := pure_eq_ok.mp hfrontier
  refine ⟨⟨hascii, hbytes⟩, rfl, ?_, ?_⟩
  · exact Option.isNone_iff_eq_none.mp (require_eq_ok.mp hopen)
  · rw [digestBytes, flatten_singleton]
    rfl

/-- The frontier after rows holds their leaves. -/
theorem foldlM_append_ok (hscope : ∀ u ∈ acc.scope.networkId, u < 0x80)
    (hopen : acc.finalEvidence = none)
    (hok : rows.foldlM (Accumulator.append N sha256) acc = .ok acc') :
    (∀ row ∈ rows, Hashable N row) ∧ acc'.finalEvidence = none ∧
      acc'.frontier = { acc.frontier with
        levels := (rows.map fun row => sha256 (domains.leaf ++ rowBytes N row)).foldl
          (OddMerkle.push (domains.hashes sha256).node) acc.frontier.levels } := by
  induction rows generalizing acc with
  | nil =>
    cases hok
    exact ⟨nofun, hopen, rfl⟩
  | cons row rows ih =>
    obtain ⟨acc₁, hrow, hok⟩ := bind_eq_ok.mp hok
    obtain ⟨hhash, hscope₁, hopen₁, hfrontier⟩ := append_ok hscope hrow
    obtain ⟨hall, hopen', hfrontier'⟩ := ih (by rwa [hscope₁]) hopen₁ hok
    refine ⟨forall_mem_cons.mpr ⟨hhash, hall⟩, hopen', ?_⟩
    rw [hfrontier', hfrontier]
    rfl

/-- The evidence of rows: their leaves were hashed, and the root is the one over the levels. -/
theorem computeFinalizedVmSetEvidenceV1_ok {e : Evidence}
    (hok : computeFinalizedVmSetEvidenceV1 N sha256 scope rows = .ok e) :
    (∀ row ∈ rows, Hashable N row) ∧
      e.rootDigest = digestToLowerHex (Frontier.levelRoot (domains.hashes sha256)
        (rows.map fun row => sha256 (domains.leaf ++ rowBytes N row))) := by
  obtain ⟨acc, hnew, hok⟩ := bind_eq_ok.mp hok
  obtain ⟨acc', hrows, hok⟩ := bind_eq_ok.mp hok
  cases hok
  obtain ⟨scope', hscope, hnew⟩ := bind_eq_ok.mp hnew
  cases hnew
  obtain ⟨rfl, hnetwork⟩ := snapshotFinalizedVmSetScopeV1_ok hscope
  obtain ⟨hall, hopen, hfrontier⟩ := foldlM_append_ok hnetwork rfl hrows
  refine ⟨hall, ?_⟩
  rw [Accumulator.finalize, hopen]
  dsimp only
  rw [hfrontier]
  exact congrArg digestToLowerHex (Frontier.finalizeRoot_levels _ _)

variable (N sha256) in
/-- The byte strings given to SHA-256 for the evidence of rows: the frontier run on leaves that
carry what was hashed. -/
def hashedInputs (rows : List Row) : List (List UInt8) :=
  let leaves := rows.filterMap fun row =>
    (canonicalizeJsonBytes N row).toOption.map (domains.loggedLeaf sha256)
  match leaves.foldlM (Frontier.append (domains.logging sha256)) .new with
  | .ok f => (f.finalizeRoot (domains.logging sha256)).1.inputs
  | .error _ => []

/-- What is hashed for rows is what is hashed for their tree. -/
theorem hashedInputs_eq (h : ∀ row ∈ rows, Hashable N row) :
    hashedInputs N sha256 rows =
      (OddMerkle.rootInputs (domains.hash sha256 (rowBytes N)) rows).map
        (domains.encode (rowBytes N)) := by
  have hleaves : (rows.filterMap fun row =>
      (canonicalizeJsonBytes N row).toOption.map (domains.loggedLeaf sha256)) =
        rows.map fun row => domains.loggedLeaf sha256 (rowBytes N row) := by
    rw [← filterMap_eq_map]
    refine filterMap_congr fun row hrow => ?_
    rw [(h row hrow).2]
    rfl
  rw [hashedInputs, hleaves, Frontier.foldlM_append _ _ rfl]
  dsimp only [Frontier.new]
  rw [Frontier.finalizeRoot_levels, Frontier.levelRoot, domains.root_logging, OddMerkle.rootInputs]
  cases OddMerkle.root .node .odd (rows.map OddMerkle.Tree.leaf) <;> rfl

theorem levelRoot_eq (rows : List Row) :
    Frontier.levelRoot (domains.hashes sha256)
        (rows.map fun row => sha256 (domains.leaf ++ rowBytes N row)) =
      OddMerkle.rootDigest (domains.hash sha256 (rowBytes N)) rows := by
  rw [Frontier.levelRoot, domains.root_hashes, OddMerkle.rootDigest]
  cases OddMerkle.root .node .odd (rows.map OddMerkle.Tree.leaf) <;> rfl

/-- Equal roots come from equal rows, or two inputs of the computations collide. -/
theorem rows_eq_of_root (h : ∀ row ∈ rows, Hashable N row) (h' : ∀ row ∈ rows', Hashable N row)
    (hroot : OddMerkle.rootDigest (domains.hash sha256 (rowBytes N)) rows =
      OddMerkle.rootDigest (domains.hash sha256 (rowBytes N)) rows') :
    rows = rows' ∨ ∃ x ∈ hashedInputs N sha256 rows, ∃ y ∈ hashedInputs N sha256 rows',
      x ≠ y ∧ sha256 x = sha256 y := by
  rw [hashedInputs_eq h, hashedInputs_eq h']
  rcases OddMerkle.eq_of_rootDigest _ hroot with heq | ⟨a, ha, b, hb, hne, hdigest⟩
  · exact .inl heq
  · refine .inr ⟨_, mem_map_of_mem ha, _, mem_map_of_mem hb, fun hbytes => hne ?_, hdigest⟩
    refine Domains.encode_injective (fun x y hx hy hxy => ?_) hbytes
    subst hx hy
    exact rowText_injective (h x (OddMerkle.leaf_mem_of_rootInputs _ ha)).1
      (h' y (OddMerkle.leaf_mem_of_rootInputs _ hb)).1 hxy

end Runs

/-- The streaming frontier computes the root over the levels, and the root of accepted rows binds
them: other rows with the same root make SHA-256 collide. -/
theorem finalizedVmSet_root_binds :
    (∀ leaves : List Digest, ∃ f,
      leaves.foldlM (Frontier.append (domains.hashes sha256)) .new = .ok f ∧
        (f.finalizeRoot (domains.hashes sha256)).1 =
          Frontier.levelRoot (domains.hashes sha256) leaves) ∧
    ∀ scope rows rows' e e', computeFinalizedVmSetEvidenceV1 N sha256 scope rows = .ok e →
      computeFinalizedVmSetEvidenceV1 N sha256 scope rows' = .ok e' →
      e.rootDigest = e'.rootDigest →
      (rows = rows' ∧ e.rowCount = e'.rowCount ∧
        e.highestFinalizedOrdinal = e'.highestFinalizedOrdinal) ∨
      ∃ x ∈ hashedInputs N sha256 rows, ∃ y ∈ hashedInputs N sha256 rows',
        x ≠ y ∧ sha256 x = sha256 y := by
  refine ⟨fun leaves => ⟨_, Frontier.foldlM_append _ _ rfl leaves,
    Frontier.finalizeRoot_levels _ leaves⟩, fun scope rows rows' e e' hok hok' hroot => ?_⟩
  obtain ⟨hrows, hdigest⟩ := computeFinalizedVmSetEvidenceV1_ok hok
  obtain ⟨hrows', hdigest'⟩ := computeFinalizedVmSetEvidenceV1_ok hok'
  rw [levelRoot_eq] at hdigest hdigest'
  have heq := digestToLowerHex_injective (hdigest.symm.trans (hroot.trans hdigest'))
  rcases rows_eq_of_root hrows hrows' heq with rfl | hcollide
  · cases hok.symm.trans hok'
    exact .inl ⟨rfl, rfl, rfl⟩
  · exact .inr hcollide

section Sample

theorem length_zeros : (replicate 32 (0 : UInt8)).length = 32 := rfl

def zeroDigest : Digest := ⟨replicate 32 0, length_zeros⟩

def sampleScope : Scope :=
  ⟨text "base:8453", text "8453", text "0x" ++ replicate 40 0x61⟩

/-- A row of the scope; the other fields do not vary. -/
def sampleRow (ordinal : String) : Row where
  chainId := text "8453"
  contractAddress := text "0x" ++ replicate 40 0x61
  ordinal := text ordinal
  ual := text "did:dkg:base:8453/0x" ++ replicate 40 0x62 ++ text "/7"
  authorAddress := text "0x" ++ replicate 40 0x62
  assertionVersion := text "1"
  assertionRoot := text "0x" ++ replicate 64 0x63
  finalizedBlockNumber := text "100"
  finalizedBlockHash := text "0x" ++ replicate 64 0x64
  placementEvidenceDigest := text "0x" ++ replicate 64 0x65

/-- With one digest for everything, two rows and none have one root, and inputs collide. -/
theorem finalizedVmSet_root_binds_constant :
    ∃ x ∈ hashedInputs integerNumbers (fun _ => zeroDigest)
        [sampleRow "3", sampleRow "18446744073709551615"],
      ∃ y ∈ hashedInputs integerNumbers (fun _ => zeroDigest) [],
        x ≠ y ∧ zeroDigest = zeroDigest := by
  have hroots : ∀ rows ∈ [[sampleRow "3", sampleRow "18446744073709551615"], []],
      (computeFinalizedVmSetEvidenceV1 integerNumbers (fun _ => zeroDigest) sampleScope
        rows).toOption.map Evidence.rootDigest = some (digestToLowerHex zeroDigest) := by
    decide +kernel
  obtain ⟨e, he, hroot⟩ := Option.map_eq_some_iff.mp (hroots _ mem_cons_self)
  obtain ⟨e', he', hroot'⟩ :=
    Option.map_eq_some_iff.mp (hroots _ (mem_cons_of_mem _ mem_cons_self))
  rcases (finalizedVmSet_root_binds integerNumbers fun _ => zeroDigest).2 sampleScope _ _ e e'
    (toOption_eq_some.mp he) (toOption_eq_some.mp he') (hroot.trans hroot'.symm) with
    ⟨hrows, -⟩ | hcollide
  · exact absurd (congrArg length hrows) (by decide)
  · exact hcollide

end Sample

end Dkg.FinalizedVm
