import Dkg.Lib.Timeline
import Mathlib.Data.List.Dedup
import Mathlib.Data.List.Perm.Basic
import Mathlib.Data.List.Sort

/-!
The changelog: markers with sequence numbers, kept as quads of a reserved graph and read back by
a query over the entry of each number.
-/

namespace Dkg.Changelog

open List

inductive ChangeOp where
  | upsert
  | drop
  deriving DecidableEq, Repr

structure ChangeRecord (Graph : Type) where
  seq : ℕ
  graph : Graph
  op : ChangeOp
  deriving DecidableEq, Repr

variable {Graph : Type}

/-- `headSeq`, the highest number in the log. -/
abbrev headSeq (markers : List (ChangeRecord Graph)) : ℕ := Timeline.top ChangeRecord.seq markers

/-- The records of one write, numbered from after `seq`. -/
def allocate (seq : ℕ) : List (Graph × ChangeOp) → List (ChangeRecord Graph)
  | [] => []
  | (graph, op) :: specs => ⟨seq + 1, graph, op⟩ :: allocate (seq + 1) specs

theorem mem_allocate {seq : ℕ} {specs : List (Graph × ChangeOp)} {r : ChangeRecord Graph}
    (h : r ∈ allocate seq specs) : seq < r.seq ∧ r.seq ≤ seq + specs.length := by
  induction specs generalizing seq with
  | nil => cases h
  | cons spec specs ih =>
    rw [length_cons]
    rcases List.mem_cons.mp h with rfl | h
    · exact ⟨Nat.lt_succ_self seq, by dsimp only; omega⟩
    · have hih := ih h
      omega

theorem headSeq_allocate {seq : ℕ} {specs : List (Graph × ChangeOp)} (h : specs ≠ []) :
    headSeq (allocate seq specs) = seq + specs.length := by
  induction specs generalizing seq with
  | nil => exact absurd rfl h
  | cons spec specs ih =>
    obtain ⟨graph, op⟩ := spec
    change max (seq + 1) (headSeq (allocate (seq + 1) specs)) = seq + (specs.length + 1)
    cases specs with
    | nil => rfl
    | cons spec specs =>
      rw [ih (cons_ne_nil _ _)]
      omega

section Quads

/-- Predicate and object of a quad of the reserved graph. -/
inductive Term (Graph : Type) where
  | seq (seq : ℕ)
  | graph (graph : Graph)
  | op (op : ChangeOp)
  deriving DecidableEq, Repr

/-- The subject is `entryIri` of the number. -/
structure Quad (Graph : Type) where
  entry : ℕ
  term : Term Graph
  deriving DecidableEq, Repr

def markerQuads (r : ChangeRecord Graph) : List (Quad Graph) :=
  [⟨r.seq, .seq r.seq⟩, ⟨r.seq, .graph r.graph⟩, ⟨r.seq, .op r.op⟩]

def Term.seq? : Term Graph → Option ℕ
  | .seq n => some n
  | _ => none

def Term.graph? : Term Graph → Option Graph
  | .graph g => some g
  | _ => none

def Term.op? : Term Graph → Option ChangeOp
  | .op o => some o
  | _ => none

/-- The values that a property of an entry has; the quads are a set. -/
def objects {α : Type} [DecidableEq α] (object : Term Graph → Option α)
    (quads : List (Quad Graph)) (entry : ℕ) : List α :=
  (quads.filterMap fun q => if q.entry = entry then object q.term else none).dedup

variable [DecidableEq Graph]

/-- The solutions for one entry: every value of each of its three properties with every value
of the others. -/
def solutionsAt (quads : List (Quad Graph)) (entry : ℕ) : List (ChangeRecord Graph) :=
  (objects Term.seq? quads entry).flatMap fun seq =>
    (objects Term.graph? quads entry).flatMap fun graph =>
      (objects Term.op? quads entry).map fun op => ⟨seq, graph, op⟩

def solutions (quads : List (Quad Graph)) (entries : List ℕ) : List (ChangeRecord Graph) :=
  entries.flatMap (solutionsAt quads)

/-- A durable log: the markers appended, and the answers of the store to the query for some
entries, in the order of their numbers and otherwise in any order. -/
structure Log (Graph : Type) [DecidableEq Graph] where
  markers : List (ChangeRecord Graph)
  select : List ℕ → List (ChangeRecord Graph)
  select_perm : ∀ entries, (select entries).Perm (solutions (markers.flatMap markerQuads) entries)
  select_sorted : ∀ entries, (select entries).Pairwise fun a b => a.seq ≤ b.seq

variable {markers : List (ChangeRecord Graph)} {entry : ℕ} {r : ChangeRecord Graph}

end Quads

end Dkg.Changelog
