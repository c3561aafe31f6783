import Dkg.Lib.Checked
import Dkg.Lib.DiffArray

/-!
`EpochStorage`: per-shard token pools over epochs, kept as a difference array whose
prefix is frozen lazily, and the publishing allocations of the nodes per epoch.
-/

namespace Dkg.EpochStorage
open Revert Function

inductive Err where
  /-- Checked arithmetic. -/
  | panic
  deriving DecidableEq, Repr

structure Shard where
  lastFinalizedEpoch : ℕ
  accumulatedRemainder : ℕ
  diff : ℕ → ℤ
  cumulative : ℕ → ℕ
  distributed : ℕ → ℕ

structure Storage where
  shards : ℕ → Shard
  /-- By node, shard and epoch. -/
  nodesPaidOut : ℕ → ℕ → ℕ → ℕ
  /-- By node and epoch. -/
  nodesEpochPublishingAllocation : ℕ → ℕ → ℕ
  epochPublishingAllocation : ℕ → ℕ
  epochNodeMaxPublishingAllocation : ℕ → ℕ

def empty : Storage where
  shards := fun _ =>
    { lastFinalizedEpoch := 0
      accumulatedRemainder := 0
      diff := fun _ => 0
      cumulative := fun _ => 0
      distributed := fun _ => 0 }
  nodesPaidOut := fun _ _ _ => 0
  nodesEpochPublishingAllocation := fun _ _ => 0
  epochPublishingAllocation := fun _ => 0
  epochNodeMaxPublishingAllocation := fun _ => 0

/-- `uint96(int96(prev) + diff)`. -/
def fold (prev : ℕ) (d : ℤ) : Except Err ℕ := do
  let v ← Checked.addInt 96 (Checked.toInt 96 prev) d .panic
  return Checked.toUint 96 v

/-- The loop of `_finalizeEpochsUpTo`: `n` rounds from epoch `e`. -/
def finalizeLoop (diff : ℕ → ℤ) : ℕ → ℕ → (ℕ → ℕ) → Except Err (ℕ → ℕ)
  | 0, _, cumulative => .ok cumulative
  | n + 1, e, cumulative => do
    let v ← fold (if e > 1 then cumulative (e - 1) else 0) (diff e)
    finalizeLoop diff n (e + 1) (update cumulative e v)

def Shard.finalizeEpochsUpTo (s : Shard) (epoch : ℕ) : Except Err Shard := do
  let cumulative ← finalizeLoop s.diff (epoch - s.lastFinalizedEpoch) (s.lastFinalizedEpoch + 1)
    s.cumulative
  return { s with cumulative, lastFinalizedEpoch := epoch }

/-- Both writers freeze the epochs before the current one. -/
def Shard.finalizePast (s : Shard) (currentEpoch : ℕ) : Except Err Shard :=
  if currentEpoch > 1 then s.finalizeEpochsUpTo (currentEpoch - 1) else .ok s

/-- The clamp of `addTokensToEpochRange`: the range starts at the first epoch that is
not frozen yet. -/
def Shard.clamp (s : Shard) (startEpoch endEpoch : ℕ) : ℕ × ℕ :=
  let firstOpenEpoch := s.lastFinalizedEpoch + 1
  if startEpoch < firstOpenEpoch then
    (firstOpenEpoch, if endEpoch < firstOpenEpoch then firstOpenEpoch else endEpoch)
  else (startEpoch, endEpoch)

def Shard.addTokensToEpochRange (s : Shard) (currentEpoch startEpoch endEpoch tokenAmount : ℕ) :
    Except Err Shard := do
  let (startEpoch, endEpoch) := s.clamp startEpoch endEpoch
  let span ← Checked.sub endEpoch startEpoch .panic
  let numEpochs ← Checked.add 256 span 1 .panic
  let totalTokens ← Checked.add 96 tokenAmount s.accumulatedRemainder .panic
  let tokensPerEpoch := Checked.toInt 96 (totalTokens / numEpochs)
  let remainder := totalTokens % numEpochs
  let atStart ← Checked.addInt 96 (s.diff startEpoch) tokensPerEpoch .panic
  let diff := update s.diff startEpoch atStart
  let afterEnd ← Checked.add 256 endEpoch 1 .panic
  let atEnd ← Checked.addInt 96 (diff afterEnd) (-tokensPerEpoch) .panic
  let diff := update diff afterEnd atEnd
  Shard.finalizePast { s with accumulatedRemainder := remainder, diff } currentEpoch

/-- The loop of `_simulateEpochFinalization`. -/
def simulateLoop (diff : ℕ → ℤ) : ℕ → ℕ → ℕ → Except Err ℕ
  | 0, _, simulated => .ok simulated
  | n + 1, e, simulated => do
    let v ← fold simulated (diff e)
    simulateLoop diff n (e + 1) v

def Shard.simulateEpochFinalization (s : Shard) (epoch : ℕ) : Except Err ℕ :=
  if epoch ≤ s.lastFinalizedEpoch then .ok (s.cumulative epoch)
  else simulateLoop s.diff (epoch - s.lastFinalizedEpoch) (s.lastFinalizedEpoch + 1)
    (if s.lastFinalizedEpoch > 0 then s.cumulative s.lastFinalizedEpoch else 0)

def Shard.getEpochPool (s : Shard) (epoch : ℕ) : Except Err ℕ :=
  if epoch ≤ s.lastFinalizedEpoch then .ok (s.cumulative epoch)
  else s.simulateEpochFinalization epoch

/-- The finalized part of `getEpochRangePool`: `n` rounds from epoch `e`. -/
def rangeFinalizedLoop (cumulative : ℕ → ℕ) : ℕ → ℕ → ℕ → Except Err ℕ
  | 0, _, totalPool => .ok totalPool
  | n + 1, e, totalPool => do
    let totalPool ← Checked.add 96 totalPool (cumulative e) .panic
    rangeFinalizedLoop cumulative n (e + 1) totalPool

def Shard.rangeFinalized (s : Shard) (startEpoch endEpoch : ℕ) : Except Err ℕ :=
  if startEpoch ≤ s.lastFinalizedEpoch then
    rangeFinalizedLoop s.cumulative (min s.lastFinalizedEpoch endEpoch + 1 - startEpoch)
      startEpoch 0
  else .ok 0

def addFrom (startEpoch e totalPool v : ℕ) : Except Err ℕ :=
  if e ≥ startEpoch then Checked.add 96 totalPool v .panic else .ok totalPool

/-- The simulated part of `getEpochRangePool`. -/
def rangeSimulatedLoop (diff : ℕ → ℤ) (startEpoch : ℕ) : ℕ → ℕ → ℕ → ℕ → Except Err ℕ
  | 0, _, _, totalPool => .ok totalPool
  | n + 1, e, simulated, totalPool => do
    let v ← fold simulated (diff e)
    let totalPool ← addFrom startEpoch e totalPool v
    rangeSimulatedLoop diff startEpoch n (e + 1) v totalPool

def Shard.getEpochRangePool (s : Shard) (startEpoch endEpoch : ℕ) : Except Err ℕ := do
  let totalPool ← s.rangeFinalized startEpoch endEpoch
  let lastFinalized := s.lastFinalizedEpoch
  let simulated := if lastFinalized > 0 then s.cumulative lastFinalized else s.cumulative 1
  rangeSimulatedLoop s.diff startEpoch (endEpoch - lastFinalized) (lastFinalized + 1) simulated
    totalPool

def addTokensToEpochRange (s : Storage) (currentEpoch shardId startEpoch endEpoch tokenAmount : ℕ) :
    Except Err Storage := do
  let shard ←
    (s.shards shardId).addTokensToEpochRange currentEpoch startEpoch endEpoch tokenAmount
  return { s with shards := update s.shards shardId shard }

def payOutEpochTokens (s : Storage) (currentEpoch shardId epoch identityId amount : ℕ) :
    Except Err Storage := do
  let shard ← (s.shards shardId).finalizePast currentEpoch
  let distributed ← Checked.add 96 (shard.distributed epoch) amount .panic
  let paidOut ← Checked.add 96 (s.nodesPaidOut identityId shardId epoch) amount .panic
  return { s with
    shards := update s.shards shardId
      { shard with distributed := update shard.distributed epoch distributed }
    nodesPaidOut := update s.nodesPaidOut identityId (update (s.nodesPaidOut identityId) shardId
        (update (s.nodesPaidOut identityId shardId) epoch paidOut)) }

def getEpochPool (s : Storage) (shardId epoch : ℕ) : Except Err ℕ :=
  (s.shards shardId).getEpochPool epoch

def getEpochRangePool (s : Storage) (shardId startEpoch endEpoch : ℕ) : Except Err ℕ :=
  (s.shards shardId).getEpochRangePool startEpoch endEpoch

/-- The write of a node's allocation in an epoch, with the high-water mark. -/
def setNodeAllocation (s : Storage) (identityId epoch amount : ℕ) : Storage :=
  { s with
    nodesEpochPublishingAllocation := update s.nodesEpochPublishingAllocation identityId
      (update (s.nodesEpochPublishingAllocation identityId) epoch amount)
    epochNodeMaxPublishingAllocation :=
      if amount > s.epochNodeMaxPublishingAllocation epoch then
        update s.epochNodeMaxPublishingAllocation epoch amount
      else s.epochNodeMaxPublishingAllocation }

def addEpochPublishingAllocation (s : Storage) (identityId epoch amount : ℕ) :
    Except Err Storage := do
  let node ← Checked.add 96 (s.nodesEpochPublishingAllocation identityId epoch) amount .panic
  let total ← Checked.add 96 (s.epochPublishingAllocation epoch) amount .panic
  return setNodeAllocation
    { s with epochPublishingAllocation := update s.epochPublishingAllocation epoch total }
    identityId epoch node

def moveEpochPublishingAllocation (s : Storage) (fromId toId epoch amount : ℕ) :
    Except Err Storage := do
  let left ← Checked.sub (s.nodesEpochPublishingAllocation fromId epoch) amount .panic
  let s := { s with
    nodesEpochPublishingAllocation := update s.nodesEpochPublishingAllocation fromId
      (update (s.nodesEpochPublishingAllocation fromId) epoch left) }
  let right ← Checked.add 96 (s.nodesEpochPublishingAllocation toId epoch) amount .panic
  return setNodeAllocation s toId epoch right

inductive Op where
  | addTokensToEpochRange (shardId startEpoch endEpoch tokenAmount : ℕ)
  | payOutEpochTokens (shardId epoch identityId amount : ℕ)
  | addEpochPublishingAllocation (identityId epoch amount : ℕ)
  | moveEpochPublishingAllocation (fromId toId epoch amount : ℕ)

/-- A call, at the epoch the clock contract reports. -/
structure Call where
  currentEpoch : ℕ
  op : Op

def step (s : Storage) (c : Call) : Except Err Storage :=
  match c.op with
  | .addTokensToEpochRange shardId startEpoch endEpoch tokenAmount =>
    addTokensToEpochRange s c.currentEpoch shardId startEpoch endEpoch tokenAmount
  | .payOutEpochTokens shardId epoch identityId amount =>
    payOutEpochTokens s c.currentEpoch shardId epoch identityId amount
  | .addEpochPublishingAllocation identityId epoch amount =>
    addEpochPublishingAllocation s identityId epoch amount
  | .moveEpochPublishingAllocation fromId toId epoch amount =>
    moveEpochPublishingAllocation s fromId toId epoch amount

/-- What a call adds to a shard. -/
def Call.amountTo (shardId : ℕ) (c : Call) : ℕ :=
  match c.op with
  | .addTokensToEpochRange id _ _ tokenAmount => if id = shardId then tokenAmount else 0
  | _ => 0

end Dkg.EpochStorage
