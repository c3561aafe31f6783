import Dkg.Lib.Checked

/-!
`ShardingTable` over `ShardingTableStorage`: the nodes in an array ordered by their position on
the hash ring, with every node knowing its index.
-/

namespace Dkg.Sharding
open Revert

/-- `ShardingTableLib.NULL`. -/
def NULL : ℕ := 0

structure Node where
  hashRingPosition : ℕ
  nodeId : List UInt8
  index : ℕ
  identityId : ℕ
deriving DecidableEq, Inhabited

/-- The value of a mapping entry that was never written, or deleted. -/
def Node.empty : Node := ⟨0, [], 0, 0⟩

inductive Err where
  | panic
  | outOfGas
  | shardingTableIsFull (nodesCount sizeLimit : ℕ)
  | nodeAlreadyInTheShardingTable (identityId : ℕ)
  | invalidIndexWithRespectToPreviousNode (identityId hashRingPosition prevHashRingPosition : ℕ)
  | invalidIndexWithRespectToNextNode (identityId hashRingPosition nextHashRingPosition : ℕ)
deriving DecidableEq

structure Storage where
  nodesCount : ℕ
  nodes : ℕ → Node
  indexToIdentityId : ℕ → ℕ

namespace Storage

def initial : Storage := ⟨0, fun _ => .empty, fun _ => NULL⟩

def incrementNodesCount (s : Storage) : Except Err Storage := do
  let count ← Checked.add 72 s.nodesCount 1 .panic
  return { s with nodesCount := count }

def decrementNodesCount (s : Storage) : Except Err Storage := do
  let count ← Checked.sub s.nodesCount 1 .panic
  return { s with nodesCount := count }

def setNode (s : Storage) (identityId : ℕ) (n : Node) : Storage :=
  { s with nodes := Function.update s.nodes identityId n }

def createNodeObject (s : Storage) (hashRingPosition : ℕ) (nodeId : List UInt8)
    (identityId index : ℕ) : Storage :=
  s.setNode identityId { hashRingPosition, index, nodeId, identityId }

def deleteNodeObject (s : Storage) (identityId : ℕ) : Storage := s.setNode identityId .empty

def nodeExists (s : Storage) (identityId : ℕ) : Prop := (s.nodes identityId).identityId ≠ 0

instance (s : Storage) (identityId : ℕ) : Decidable (s.nodeExists identityId) :=
  inferInstanceAs (Decidable (_ ≠ _))

def incrementNodeIndex (s : Storage) (identityId : ℕ) : Except Err Storage := do
  let index ← Checked.add 72 (s.nodes identityId).index 1 .panic
  return s.setNode identityId { s.nodes identityId with index := index }

def decrementNodeIndex (s : Storage) (identityId : ℕ) : Except Err Storage := do
  let index ← Checked.sub (s.nodes identityId).index 1 .panic
  return s.setNode identityId { s.nodes identityId with index := index }

def setIdentityId (s : Storage) (index identityId : ℕ) : Storage :=
  { s with indexToIdentityId := Function.update s.indexToIdentityId index identityId }

def getNodeByIndex (s : Storage) (index : ℕ) : Node := s.nodes (s.indexToIdentityId index)

def getHashRingPositionByIndex (s : Storage) (index : ℕ) : ℕ :=
  (s.getNodeByIndex index).hashRingPosition

/-- The loop of `_binarySearchForIndex`, both bounds included. -/
def searchLoop (s : Storage) (hashRingPosition : ℕ) : ℕ → ℕ → ℕ → Except Err ℕ
  | 0, _, _ => .error .outOfGas
  | gas + 1, left, right =>
    if left ≤ right then do
      let sum ← Checked.add 72 left right .panic
      let mid := sum / 2
      let currentHashRingPosition := s.getHashRingPositionByIndex mid
      if hashRingPosition > currentHashRingPosition then do
        let left ← Checked.add 72 mid 1 .panic
        searchLoop s hashRingPosition gas left right
      else if hashRingPosition < currentHashRingPosition then
        if mid = 0 then return 0
        else do
          let right ← Checked.sub mid 1 .panic
          searchLoop s hashRingPosition gas left right
      else return mid
    else return left

/-- `_binarySearchForIndex`. -/
def binarySearchForIndex (s : Storage) (hashRingPosition : ℕ) : Except Err ℕ :=
  if s.nodesCount = 0 then .ok 0
  else do
    let right ← Checked.sub s.nodesCount 1 .panic
    s.searchLoop hashRingPosition (s.nodesCount + 1) 0 right

def requireAfterPrevious (s : Storage) (index identityId hashRingPosition : ℕ) :
    Except Err Unit :=
  if index ≠ 0 then
    let prev := s.getHashRingPositionByIndex (index - 1)
    require (¬hashRingPosition < prev)
      (.invalidIndexWithRespectToPreviousNode identityId hashRingPosition prev)
  else .ok ()

/-- The loop of `_insertNode`: the pointer at the next index is read before it is overwritten. -/
def shiftUp : ℕ → Storage → ℕ → ℕ → Except Err Storage
  | gas, s, index, nextIdentityId =>
    if nextIdentityId = NULL then .ok s
    else match gas with
      | 0 => .error .outOfGas
      | gas + 1 => do
        let index := (index + 1) % 2 ^ 72
        let currentIdentityId := nextIdentityId
        let nextIdentityId := s.indexToIdentityId index
        let s ← s.incrementNodeIndex currentIdentityId
        shiftUp gas (s.setIdentityId index currentIdentityId) index nextIdentityId

/-- `_insertNode`. -/
def insertNodeAt (s : Storage) (sizeLimit index identityId : ℕ) (nodeId : List UInt8)
    (newNodeHashRingPosition : ℕ) : Except Err Storage := do
  require (s.nodesCount < sizeLimit) (.shardingTableIsFull s.nodesCount sizeLimit)
  require (¬s.nodeExists identityId) (.nodeAlreadyInTheShardingTable identityId)
  s.requireAfterPrevious index identityId newNodeHashRingPosition
  let nextNode := s.getNodeByIndex index
  require (¬(nextNode.identityId ≠ NULL ∧ newNodeHashRingPosition > nextNode.hashRingPosition))
    (.invalidIndexWithRespectToNextNode identityId newNodeHashRingPosition
      nextNode.hashRingPosition)
  let s := s.createNodeObject newNodeHashRingPosition nodeId identityId index
  let s := s.setIdentityId index identityId
  let s ← s.incrementNodesCount
  shiftUp s.nodesCount s index nextNode.identityId

/-- The loop of `removeNode`, with the index it ends at. -/
def shiftDown : ℕ → Storage → ℕ → ℕ → Except Err (Storage × ℕ)
  | gas, s, index, nextIdentityId =>
    if nextIdentityId = NULL then .ok (s, index)
    else match gas with
      | 0 => .error .outOfGas
      | gas + 1 => do
        let s ← s.decrementNodeIndex nextIdentityId
        let s := s.setIdentityId index nextIdentityId
        let index := (index + 1) % 2 ^ 72
        let next ← Checked.add 72 index 1 .panic
        shiftDown gas s index (s.indexToIdentityId next)

def removeNode (s : Storage) (identityId : ℕ) : Except Err Storage := do
  let nodeToRemove := s.nodes identityId
  let next ← Checked.add 72 nodeToRemove.index 1 .panic
  let (s, index) ← shiftDown s.nodesCount s nodeToRemove.index (s.indexToIdentityId next)
  let s := s.deleteNodeObject identityId
  let s := s.setIdentityId index NULL
  s.decrementNodesCount

/-- The node identifier is what the profile of the identity holds, and `sha256` places it. -/
def insertNode (s : Storage) (sha256 : List UInt8 → ℕ) (sizeLimit identityId : ℕ)
    (nodeId : List UInt8) : Except Err Storage := do
  let newNodeHashRingPosition := sha256 nodeId
  let index ← s.binarySearchForIndex newNodeHashRingPosition
  s.insertNodeAt sizeLimit index identityId nodeId newNodeHashRingPosition

end Storage

/-- A call, with the size limit and the profile it reads. -/
inductive Call where
  | insertNode (sizeLimit : UInt16) (identityId : ℕ) (nodeId : List UInt8)
  | removeNode (identityId : ℕ)

def step (sha256 : List UInt8 → ℕ) (s : Storage) : Call → Except Err Storage
  | .insertNode sizeLimit identityId nodeId =>
    s.insertNode sha256 sizeLimit.toNat identityId nodeId
  | .removeNode identityId => s.removeNode identityId

/-- Identities are not zero, and only nodes of the table are removed. -/
def Allowed (s : Storage) : Call → Prop
  | .insertNode _ identityId _ => identityId ≠ NULL
  | .removeNode identityId => s.nodeExists identityId

instance (s : Storage) (call : Call) : Decidable (Allowed s call) := by
  cases call with
  | insertNode => exact inferInstanceAs (Decidable (_ ≠ _))
  | removeNode => exact inferInstanceAs (Decidable (Storage.nodeExists _ _))

end Dkg.Sharding
