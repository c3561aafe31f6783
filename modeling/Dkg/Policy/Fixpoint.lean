import Dkg.Policy.Solutions

/-!
The rounds of the evaluator against the model of the policy. A round in listing order reads
relations that may still grow, and what it derives stays, so the result is the model only if
nothing is derived too early.
-/

namespace Dkg.Ccl

open List Function

section Listing

/-- A rule mentions only predicates of no higher rank, of a lower one if a rule from it on defines
them. What it negates or counts has rank 0 and is defined before it, and so has all that it
depends on. -/
def InOrder (rank : String → ℕ) : List Rule → Prop
  | [] => True
  | rule :: rules =>
    (∀ p ∈ predsOf rule.all, rank p ≤ rank rule.name ∧
      ((∃ r ∈ rule :: rules, r.name = p) → rank p < rank rule.name)) ∧
    (∀ p ∈ negatedOf rule.all, rank p = 0 ∧ ∀ r ∈ rule :: rules, r.name ≠ p) ∧
    InOrder rank rules

/-- The rank of a predicate is the number of rounds after the first that it waits for. -/
def Policy.Listed (policy : Policy) : Prop :=
  ∃ rank, InOrder rank policy.rules ∧ ∀ rule ∈ policy.rules, rank rule.name ≤ 62

end Listing

section Relations
variable {le : Tuple → Tuple → Bool} {R : Relations} {rule : Rule} {rules : List Rule}

theorem mem_applyRule (hsafe : rule.Safe) {pred : String} {tuple : Tuple} :
    tuple ∈ applyRule le R rule pred ↔
      tuple ∈ R pred ∨ pred = rule.name ∧ Derives (interp R) rule tuple := by
  unfold applyRule
  by_cases hp : pred = rule.name
  · subst hp
    rw [update_self, mem_foldl_insertTuple, mem_evaluateRule hsafe]
    simp
  · rw [update_of_ne hp]
    simp [hp]

end Relations

section Rounds
variable {le : Tuple → Tuple → Bool} {policy : Policy} {facts : List Fact} {M : Interpretation}
  {R : Relations} {rule : Rule} {rules : List Rule} {rank : String → ℕ} {k : ℕ}

/-- The relations after some rounds. -/
def rounds (le : Tuple → Tuple → Bool) (rules : List Rule) : ℕ → Relations → Relations
  | 0, R => R
  | k + 1, R => rounds le rules k (round le rules R).1

/-- The relations hold the facts and nothing outside the model. -/
structure Sound (facts : List Fact) (M : Interpretation) (R : Relations) : Prop where
  sound : ∀ pred tuple, tuple ∈ R pred → M pred tuple
  facts : ∀ pred tuple, ⟨pred, tuple⟩ ∈ facts → tuple ∈ R pred

/-- Everything that a rule yields in the model is there. -/
def Done (M : Interpretation) (R : Relations) (rule : Rule) : Prop :=
  ∀ tuple, Derives M rule tuple → tuple ∈ R rule.name

theorem Done.apply {rule' : Rule} (hsafe : rule.Safe) (h : Done M R rule') :
    Done M (applyRule le R rule) rule' :=
  fun tuple ht => (mem_applyRule hsafe).mpr (.inl (h tuple ht))

theorem Sound.apply (hM : IsModel policy facts M) (hR : Sound facts M R)
    (hrule : rule ∈ policy.rules) (hsafe : rule.Safe)
    (h : ∀ tuple, Derives (interp R) rule tuple → Derives M rule tuple) :
    Sound facts M (applyRule le R rule) where
  sound pred tuple ht := by
    rcases (mem_applyRule hsafe).mp ht with ht | ⟨rfl, hd⟩
    · exact hR.sound pred tuple ht
    · exact (hM rule.name tuple).mpr (.inr ⟨rule, hrule, rfl, h tuple hd⟩)
  facts pred tuple hfact := (mem_applyRule hsafe).mpr (.inl (hR.facts pred tuple hfact))

variable (hM : IsModel policy facts M) (hsafe : ∀ rule ∈ policy.rules, rule.Safe)
include hM hsafe

end Rounds

section Runs
variable {le : Tuple → Tuple → Bool} {policy : Policy} {facts : List Fact} {M : Interpretation}

/-- What is listed is an entry, and an entry is an item. -/
def listed : Rule where
  name := "listed"
  params := ["x"]
  all := [.atom "entry" [.var "x"]]

def entry : Rule where
  name := "entry"
  params := ["x"]
  all := [.atom "item" [.var "x"]]

/-- At least two items are approved. -/
def accept : Rule where
  name := "accept"
  params := []
  all := [.countDistinct ["x"] [.atom "approved" [.var "x"]] .ge 2]

end Runs

end Dkg.Ccl
