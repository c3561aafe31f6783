import Dkg.Changelog.Reader
import Dkg.Lib.JsMap

/-!
The delta lane: pages of the changelog for one context graph, each graph with its last change and
under a budget of bytes, and a requester that follows them to the head.
-/

namespace Dkg.Changelog

open List

variable {Graph Rows Era : Type}

/-- What the responder knows of the context graph. -/
structure Scope (Graph Rows : Type) where
  isCandidateGraph : Graph → Bool
  isAdmitted : Graph → Bool
  /-- The rows of a graph as they are sent. -/
  readRows : Graph → Rows
  length : Rows → ℕ

structure DeltaRecord (Graph Rows : Type) where
  seq : ℕ
  graph : Graph
  op : ChangeOp
  quads : Option Rows
  deriving DecidableEq, Repr

section Page

/-- A drop goes out alone, an upsert with the rows of its graph. -/
def Scope.record (scope : Scope Graph Rows) (r : ChangeRecord Graph) : DeltaRecord Graph Rows :=
  ⟨r.seq, r.graph, r.op, if r.op = .drop then none else some (scope.readRows r.graph)⟩

/-- The records that fit, and whether the budget stopped the page. -/
def Scope.emit (scope : Scope Graph Rows) (budget : ℕ) :
    List (ChangeRecord Graph) → List (DeltaRecord Graph Rows) → ℕ →
      List (DeltaRecord Graph Rows) × Bool
  | [], records, _ => (records, false)
  | r :: rest, records, bytes =>
    if scope.isAdmitted r.graph = false then scope.emit budget rest records bytes
    else if r.op = .drop then scope.emit budget rest (records ++ [scope.record r]) bytes
    else
      let size := scope.length (scope.readRows r.graph)
      if records ≠ [] ∧ bytes + size > budget then (records, true)
      else scope.emit budget rest (records ++ [scope.record r]) (bytes + size)

variable [DecidableEq Graph]

/-- The last change of each candidate graph. -/
def Scope.lastOp (scope : Scope Graph Rows) (raw : List (ChangeRecord Graph)) :
    List (Graph × ℕ × ChangeOp) :=
  raw.foldl (fun m r =>
    if scope.isCandidateGraph r.graph then JsMap.set m r.graph (r.seq, r.op) else m) []

def Scope.ordered (scope : Scope Graph Rows) (raw : List (ChangeRecord Graph)) :
    List (ChangeRecord Graph) :=
  ((scope.lastOp raw).map fun entry => ⟨entry.2.1, entry.1, entry.2.2⟩).insertionSort
    fun a b => a.seq ≤ b.seq

variable [DecidableEq Era]

end Page

section Records
variable {scope : Scope Graph Rows} {raw : List (ChangeRecord Graph)}

variable [DecidableEq Graph]

end Records

section Following
variable [DecidableEq Graph] {log : Log Graph} {scope : Scope Graph Rows} {era : Era}
  {seq since limit next : ℕ} {raw : List (ChangeRecord Graph)}
  {records : List (DeltaRecord Graph Rows)}

variable [DecidableEq Era]

end Following

end Dkg.Changelog
