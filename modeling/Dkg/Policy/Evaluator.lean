import Mathlib.Data.List.Dedup
import Mathlib.Data.List.Sort
import Mathlib.Data.Rat.Defs
import Mathlib.Logic.Function.Basic
import Mathlib.Algebra.Order.Ring.Rat

/-!
`CclEvaluator`: the rules and decisions of a CCL policy over a list of facts. A policy is taken
as validated, with variables by their names without the `$`.
-/

namespace Dkg.Ccl

open Function

/-- An argument of a fact; `undefined` is what a binding holds of a variable it has not bound. -/
inductive Value where
  | str (s : String)
  | bool (b : Bool)
  | int (n : ℤ)
  | undefined
  deriving DecidableEq, Repr

abbrev Tuple := List Value

inductive Term where
  | var (name : String)
  | const (value : Value)
  /-- A constant of another type, strictly equal to no argument of a fact. -/
  | foreign
  deriving DecidableEq, Repr

inductive Op where
  | ge
  | gt
  | eq
  | le
  | lt
  deriving DecidableEq, Repr

inductive Condition where
  | atom (pred : String) (args : List Term)
  | existsWhere (conditions : List Condition)
  | notExists (conditions : List Condition)
  | countDistinct (vars : List String) (conditions : List Condition) (op : Op) (value : ℚ)

/-- A rule or a decision. -/
structure Rule where
  name : String
  params : List String
  all : List Condition

structure Policy where
  rules : List Rule
  decisions : List Rule

structure Fact where
  pred : String
  args : Tuple
  deriving DecidableEq, Repr

inductive Err where
  /-- CCL fixpoint did not converge. -/
  | didNotConverge
  deriving DecidableEq, Repr

/-- A relation is keyed by the text of its tuples, which tells tuples apart. -/
abbrev Relations := String → List Tuple

abbrev Binding := String → Option Value

/-- `relation.set(tupleKey(tuple), tuple)`. -/
def insertTuple (relation : List Tuple) (tuple : Tuple) : List Tuple :=
  if tuple ∈ relation then relation else relation ++ [tuple]

/-- The relations the constructor makes of the facts. -/
def ofFacts (facts : List Fact) : Relations :=
  facts.foldl (fun relations fact => update relations fact.pred
    (insertTuple (relations fact.pred) fact.args)) fun _ => []

def compareInts (left : ℕ) (op : Op) (right : ℚ) : Bool :=
  match op with
  | .ge => right ≤ left
  | .gt => right < left
  | .eq => (left : ℚ) = right
  | .le => left ≤ right
  | .lt => left < right

/-- One term of an atom against one argument of a tuple. -/
def matchTerm (binding : Binding) (value : Value) : Term → Option Binding
  | .var name =>
    match binding name with
    | some bound => if bound = value then some binding else none
    | none => some (update binding name (some value))
  | .const c => if c = value then some binding else none
  | .foreign => none

/-- The loop over the arguments; a tuple of another length does not match. -/
def matchArgs : Binding → List Term → Tuple → Option Binding
  | binding, [], [] => some binding
  | binding, term :: args, value :: tuple =>
    (matchTerm binding value term).bind fun binding => matchArgs binding args tuple
  | _, _, _ => none

section Evaluation
-- The order of `compareTuples`, by `localeCompare`.
variable (le : Tuple → Tuple → Bool)

def sortedTuples (relation : List Tuple) : List Tuple :=
  relation.insertionSort fun left right => le left right = true

def matchAtom (relations : Relations) (pred : String) (args : List Term) (binding : Binding) :
    List Binding :=
  (sortedTuples le (relations pred)).filterMap (matchArgs binding args)

/-- `binding[name]`. -/
def valueOf (binding : Binding) (name : String) : Value := (binding name).getD .undefined

mutual

def evaluateConditions (relations : Relations) : List Condition → List Binding → List Binding
  | [], bindings => bindings
  | condition :: conditions, bindings =>
    evaluateConditions relations conditions
      (bindings.flatMap (evaluateCondition relations condition))

def evaluateCondition (relations : Relations) : Condition → Binding → List Binding
  | .atom pred args, binding => matchAtom le relations pred args binding
  | .existsWhere conditions, binding =>
    if (evaluateConditions relations conditions [binding]).length > 0 then [binding] else []
  | .notExists conditions, binding =>
    if (evaluateConditions relations conditions [binding]).length = 0 then [binding] else []
  | .countDistinct vars conditions op value, binding =>
    let projection := ((evaluateConditions relations conditions [binding]).map fun found =>
      vars.map (valueOf found)).dedup
    if compareInts projection.length op value then [binding] else []

end

/-- `evaluateRule`, and the tuples of a decision. -/
def evaluateRule (relations : Relations) (rule : Rule) : List Tuple :=
  sortedTuples le (((evaluateConditions le relations rule.all [fun _ => none]).map fun binding =>
    rule.params.map (valueOf binding)).foldl insertTuple [])

/-- One rule of a round: its tuples are added to the relation of its name. -/
def applyRule (relations : Relations) (rule : Rule) : Relations :=
  update relations rule.name
    ((evaluateRule le relations rule).foldl insertTuple (relations rule.name))

/-- A round over the rules in listing order, and whether a relation has grown. -/
def round : List Rule → Relations → Relations × Bool
  | [], relations => (relations, false)
  | rule :: rules, relations =>
    let before := (relations rule.name).length
    let relations := applyRule le relations rule
    let rest := round rules relations
    (rest.1, (relations rule.name).length ≠ before || rest.2)

/-- At most `fuel` rounds. -/
def deriveFixpoint (rules : List Rule) : ℕ → Relations → Except Err Relations
  | 0, _ => .error .didNotConverge
  | fuel + 1, relations =>
    let r := round le rules relations
    if r.2 then deriveFixpoint rules fuel r.1 else .ok r.1

/-- A record of the results by name. -/
abbrev Results := String → Option (List Tuple)

structure EvaluationResult where
  derived : Results
  decisions : Results

/-- A later decision of the same name takes the place of an earlier one. -/
def evaluateDecisions (relations : Relations) (decisions : List Rule) : Results :=
  decisions.foldl (fun results decision => update results decision.name
    (some (evaluateRule le relations decision))) fun _ => none

def derivedOf (relations : Relations) (rules : List Rule) : Results :=
  rules.foldl (fun results rule => update results rule.name
    (some (sortedTuples le (relations rule.name)))) fun _ => none

/-- `run` of an evaluator made of a policy and facts. -/
def run (policy : Policy) (facts : List Fact) : Except Err EvaluationResult := do
  let relations ← deriveFixpoint le policy.rules 64 (ofFacts facts)
  return ⟨derivedOf le relations policy.rules, evaluateDecisions le relations policy.decisions⟩

end Evaluation

end Dkg.Ccl
