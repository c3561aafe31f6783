import Dkg.Epochs.ValueLedger
import Dkg.Sampling.Descent
import Dkg.Sampling.ProofMaterial

/-!
The value-weighted draw of `RandomSampling`: a context graph by its cached weight, a knowledge
asset of it, and a leaf of the asset. A graph without an asset to challenge is excluded and
the draw repeated; the production draw also settles the weight of such a graph to its value
in the ledger.
-/

namespace Dkg.Sampling
open Revert
open Merkle (Bytes Bytes32)

def MAX_KA_RETRIES : ℕ := 10
def MAX_CG_RETRIES : ℕ := 5

inductive Err where
  | noEligibleContextGraph
  | noEligibleKnowledgeAsset
  /-- A revert inside `CGWeightTreeStorage`. -/
  | tree (e : WeightTree.Err)
  /-- A revert inside `ContextGraphValueStorage`. -/
  | values (e : ValueLedger.Err)
  deriving DecidableEq, Repr

/-- What the draw reads of `ContextGraphStorage` and `DKGKnowledgeAssets`. -/
structure Graphs where
  active : ℕ → Bool
  isCurated : ℕ → Bool
  samplingKAList : ℕ → List ℕ
  endEpoch : ℕ → ℕ
  merkleLeafCount : ℕ → UInt32
  catalogLeafCount : ℕ → UInt32
  latestMerkleRoot : ℕ → Bytes32
  catalogRoot : ℕ → Bytes32

structure World where
  tree : WeightTree.Tree
  values : ValueLedger.Storage
  graphs : Graphs

/-- `uint256` of a word. -/
def uint256 (b : Bytes32) : ℕ := b.val.foldl (fun n x => 256 * n + x.toNat) 0

namespace World

/-- Values before the current epoch are final before the graph is read. -/
def finalizeBefore (values : ValueLedger.Storage) (currentEpoch cg : ℕ) :
    Except ValueLedger.Err ValueLedger.Storage :=
  if currentEpoch > 0 then
    ValueLedger.finalizeCGValueUpTo values currentEpoch cg (currentEpoch - 1)
  else .ok values

/-- `CGWeightTreeStorage.settle`, with the ledger it reads. -/
def settle (w : World) (currentEpoch cg : ℕ) : Except Err World := do
  let values ← (finalizeBefore w.values currentEpoch cg).mapError .values
  let truth ← (ValueLedger.getCGValueAtEpoch values cg currentEpoch).mapError .values
  let tree ← (WeightTree.settle ⟨currentEpoch, fun _ => some truth⟩ w.tree cg).mapError .tree
  return { w with values, tree }

end World

section Draw
variable (keccak256 : Bytes → Bytes32)

/-- The leaves of an asset that can be challenged. -/
def Graphs.leafCount (g : Graphs) (curated : Bool) (ka : ℕ) : ℕ :=
  if curated then (g.catalogLeafCount ka).toNat else (g.merkleLeafCount ka).toNat

/-- The loop of `_pickKa`: at most `n` more attempts to find an asset that is neither expired
nor without leaves. -/
def pickKaLoop (g : Graphs) (curated : Bool) (kas : List ℕ) (currentEpoch : ℕ) :
    ℕ → ℕ → Bytes32 → Option (ℕ × ℕ)
  | 0, _, _ => none
  | n + 1, attempt, kaSeed =>
    let kaSeed := keccak256 (kaSeed.val ++ [UInt8.ofNat attempt])
    let candidate := kas.getD (uint256 kaSeed % kas.length) 0
    if g.endEpoch candidate < currentEpoch then
      pickKaLoop g curated kas currentEpoch n (attempt + 1) kaSeed
    else if curated ∧ g.catalogLeafCount candidate = 0 then
      pickKaLoop g curated kas currentEpoch n (attempt + 1) kaSeed
    else if g.leafCount curated candidate = 0 then
      pickKaLoop g curated kas currentEpoch n (attempt + 1) kaSeed
    else some (candidate, uint256 kaSeed % g.leafCount curated candidate)

/-- The asset and the leaf, `none` for a graph without an asset to challenge. -/
def pickKa (g : Graphs) (chosenCg : ℕ) (cgSeed : Bytes32) (currentEpoch : ℕ) : Option (ℕ × ℕ) :=
  if g.active chosenCg = false then none
  else if (g.samplingKAList chosenCg).length > 0 then
    pickKaLoop keccak256 g (g.isCurated chosenCg) (g.samplingKAList chosenCg) currentEpoch
      MAX_KA_RETRIES 0 cgSeed
  else none

structure Attempt where
  workingTotal : ℕ
  chosenCg : ℕ
  picked : Option (ℕ × ℕ)

def drawAttempt (w : World) (cgSeed : Bytes32) (currentEpoch : ℕ) (exhausted : List ℕ) :
    Except Err Attempt := do
  let total ← (WeightTree.workingTotal w.tree exhausted).mapError .tree
  if total = 0 then return ⟨0, 0, none⟩
  else do
    let r := uint256 cgSeed % total
    let chosenCg ← (WeightTree.findStrictGtExcluding w.tree r exhausted).mapError .tree
    return ⟨total, chosenCg, pickKa keccak256 w.graphs chosenCg cgSeed currentEpoch⟩

/-- The variables of the loops over graphs. -/
structure Round where
  world : World
  cgAttempt : ℕ
  exhausted : List ℕ
  cgSeed : Bytes32

/-- A round ends the loop with a graph, an asset and a leaf, or excludes a graph. -/
inductive Outcome where
  | picked (cg ka chunk : ℕ)
  | missed (next : Round)

/-- The body of the loops; they differ in what they do to the world on a miss. -/
def round (onMiss : World → ℕ → Except Err World) (currentEpoch : ℕ) (r : Round) :
    Except Err Outcome := do
  let a ← drawAttempt keccak256 r.world r.cgSeed currentEpoch r.exhausted
  if a.workingTotal = 0 then
    .error (if r.cgAttempt = 0 then .noEligibleContextGraph else .noEligibleKnowledgeAsset)
  else match a.picked with
    | some (ka, chunk) => return .picked a.chosenCg ka chunk
    | none => do
      let world ← onMiss r.world a.chosenCg
      return .missed
        { world
          cgAttempt := r.cgAttempt + 1
          exhausted := r.exhausted.set r.cgAttempt a.chosenCg
          cgSeed := keccak256
            (r.cgSeed.val ++ "cgRetry".toUTF8.toList ++ [UInt8.ofNat r.cgAttempt]) }

def pickLoop (onMiss : World → ℕ → Except Err World) (currentEpoch : ℕ) :
    ℕ → Round → Except Err (World × ℕ × ℕ × ℕ)
  | 0, _ => .error .noEligibleKnowledgeAsset
  | n + 1, r =>
    match round keccak256 onMiss currentEpoch r with
    | .error e => .error e
    | .ok (.picked cg ka chunk) => .ok (r.world, cg, ka, chunk)
    | .ok (.missed next) => pickLoop onMiss currentEpoch n next

/-- The rounds the loop goes through. -/
def rounds (onMiss : World → ℕ → Except Err World) (currentEpoch : ℕ) : ℕ → Round → List Round
  | 0, _ => []
  | n + 1, r =>
    r :: match round keccak256 onMiss currentEpoch r with
      | .ok (.missed next) => rounds onMiss currentEpoch n next
      | _ => []

def firstRound (w : World) (seed : Bytes32) : Round :=
  ⟨w, 0, List.replicate MAX_CG_RETRIES 0, seed⟩

/-- The loop behind `previewChallengeForSeed` leaves the world alone. -/
def keepOnMiss (w : World) (_ : ℕ) : Except Err World := .ok w

def pickWeightedChallengeView (w : World) (seed : Bytes32) (currentEpoch : ℕ) :
    Except Err (ℕ × ℕ × ℕ) := do
  let (_, picked) ← pickLoop keccak256 keepOnMiss currentEpoch MAX_CG_RETRIES (firstRound w seed)
  return picked

def settleOnMiss (currentEpoch : ℕ) (w : World) (cg : ℕ) : Except Err World :=
  w.settle currentEpoch cg

/-- The production draw. -/
def pickWeightedChallengeFull (w : World) (seed : Bytes32) (currentEpoch : ℕ) :
    Except Err (World × ℕ × ℕ × ℕ) :=
  pickLoop keccak256 (settleOnMiss currentEpoch) currentEpoch MAX_CG_RETRIES (firstRound w seed)

def previewChallengeForSeed (w : World) (seed : Bytes32) (currentEpoch : ℕ) :
    Except Err (ℕ × ℕ × ℕ) :=
  pickWeightedChallengeView keccak256 w seed currentEpoch

end Draw

section Runs
variable (keccak256 : Bytes → Bytes32)

inductive Op where
  | values (op : ValueLedger.Op)
  | seed (cg weight : ℕ)
  | seedMany (cgs weights : List ℕ)
  | finishBackfill
  | settle (cg : ℕ)
  | settleMany (cgs : List ℕ)
  /-- Any change to the context graphs and their assets. -/
  | graphs (g : Graphs)
  /-- The draw of a challenge. -/
  | draw (seed : Bytes32)

/-- A call, at the epoch the clock contract reports; epochs count from 1. -/
structure Call where
  currentEpoch : ℕ
  epoch_pos : 1 ≤ currentEpoch
  op : Op

def World.onTree (w : World) (call : WeightTree.Call) : Except Err World := do
  let tree ← (WeightTree.step w.tree call).mapError .tree
  return { w with tree }

def step (w : World) (c : Call) : Except Err World :=
  match c.op with
  | .values op => do
    let values ← (ValueLedger.step w.values ⟨c.currentEpoch, c.epoch_pos, op⟩).mapError .values
    return { w with values }
  | .seed cg weight => w.onTree (.seed cg weight)
  | .seedMany cgs weights => w.onTree (.seedMany cgs weights)
  | .finishBackfill => w.onTree .finishBackfill
  | .settle cg => w.settle c.currentEpoch cg
  | .settleMany cgs => cgs.foldlM (fun w cg => w.settle c.currentEpoch cg) w
  | .graphs g => .ok { w with graphs := g }
  | .draw seed => do
    let (w, _) ← pickWeightedChallengeFull keccak256 w seed c.currentEpoch
    return w

/-- After deployment over `2 ^ k` graphs. -/
def World.deployed (k : ℕ) (g : Graphs) : World := ⟨WeightTree.empty (2 ^ k), ValueLedger.empty, g⟩

end Runs

end Dkg.Sampling
