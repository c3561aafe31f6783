import Dkg.Policy.Evaluator
import Mathlib.Data.Set.Card
import Mathlib.Order.WellFoundedSet

/-!
What a policy means: relations that contain the facts and exactly what the rules derive from
them, where a condition is read over whole relations and total valuations of its variables. A
policy without recursion has exactly one such model.
-/

namespace Dkg.Ccl

open Finset

section Occurrences

def Term.vars : Term → Finset String
  | .var name => {name}
  | _ => ∅

def argVars (args : List Term) : Finset String := args.foldr (fun t vars => t.vars ∪ vars) ∅

/-- The variables of the positive atoms of a body. -/
def atomVars : List Condition → Finset String
  | [] => ∅
  | .atom _ args :: conditions => argVars args ∪ atomVars conditions
  | _ :: conditions => atomVars conditions

mutual

/-- The variables that occur in a condition, at any depth. -/
def Condition.vars : Condition → Finset String
  | .atom _ args => argVars args
  | .existsWhere conditions => varsOf conditions
  | .notExists conditions => varsOf conditions
  | .countDistinct vars conditions _ _ => vars.toFinset ∪ varsOf conditions

def varsOf : List Condition → Finset String
  | [] => ∅
  | condition :: conditions => condition.vars ∪ varsOf conditions

end

mutual

/-- The predicates that a condition mentions, at any depth. -/
def Condition.preds : Condition → Finset String
  | .atom pred _ => {pred}
  | .existsWhere conditions => predsOf conditions
  | .notExists conditions => predsOf conditions
  | .countDistinct _ conditions _ _ => predsOf conditions

def predsOf : List Condition → Finset String
  | [] => ∅
  | condition :: conditions => condition.preds ∪ predsOf conditions

end

mutual

/-- The predicates mentioned where more tuples need not mean more solutions. -/
def Condition.negated : Condition → Finset String
  | .atom _ _ => ∅
  | .existsWhere conditions => negatedOf conditions
  | .notExists conditions => predsOf conditions
  | .countDistinct _ conditions _ _ => predsOf conditions

def negatedOf : List Condition → Finset String
  | [] => ∅
  | condition :: conditions => condition.negated ∪ negatedOf conditions

end

end Occurrences

abbrev Valuation := String → Value

abbrev Interpretation := String → Tuple → Prop

section Satisfaction

def Term.eval (θ : Valuation) : Term → Option Value
  | .var name => some (θ name)
  | .const value => some value
  | .foreign => none

/-- The variables that a block shares with the bodies around it have one value, the others are
its own. -/
def Shares (outer vars : Finset String) (θ θ' : Valuation) : Prop :=
  ∀ x ∈ vars, x ∈ outer → θ' x = θ x

/-- What a block counts of a solution: the values of the variables that an atom binds. -/
def project (bound : Finset String) (vars : List String) (θ : Valuation) : Tuple :=
  vars.map fun x => if x ∈ bound then θ x else .undefined

mutual

/-- A condition of a body holds; `outer` are the variables of the atoms of the bodies it is
in. -/
def Sat (M : Interpretation) (outer : Finset String) (θ : Valuation) : Condition → Prop
  | .atom pred args => ∃ tuple, args.mapM (Term.eval θ) = some tuple ∧ M pred tuple
  | .existsWhere conditions =>
    ∃ θ', Shares outer (varsOf conditions) θ θ' ∧
      SatAll M (outer ∪ atomVars conditions) θ' conditions
  | .notExists conditions =>
    ¬∃ θ', Shares outer (varsOf conditions) θ θ' ∧
      SatAll M (outer ∪ atomVars conditions) θ' conditions
  | .countDistinct vars conditions op value =>
    compareInts (Set.ncard {tuple | ∃ θ', Shares outer (vars.toFinset ∪ varsOf conditions) θ θ' ∧
      SatAll M (outer ∪ atomVars conditions) θ' conditions ∧
      tuple = project (outer ∪ atomVars conditions) vars θ'}) op value = true

def SatAll (M : Interpretation) (outer : Finset String) (θ : Valuation) : List Condition → Prop
  | [] => True
  | condition :: conditions => Sat M outer θ condition ∧ SatAll M outer θ conditions

end

/-- A rule or a decision yields a tuple. -/
def Derives (M : Interpretation) (rule : Rule) (tuple : Tuple) : Prop :=
  ∃ θ, SatAll M (atomVars rule.all) θ rule.all ∧ tuple = rule.params.map θ

/-- The model of a policy: the facts, and what the rules derive from the complete relations. -/
def IsModel (policy : Policy) (facts : List Fact) (M : Interpretation) : Prop :=
  ∀ pred tuple, M pred tuple ↔ ⟨pred, tuple⟩ ∈ facts ∨
    ∃ rule ∈ policy.rules, rule.name = pred ∧ Derives M rule tuple

end Satisfaction

section Dependence
variable {M M' : Interpretation} {outer : Finset String} {θ θ' : Valuation} {c : Condition}
  {cs : List Condition} {rule : Rule} {tuple : Tuple}

theorem eval_congr {term : Term} (h : ∀ x ∈ term.vars, θ x = θ' x) :
    term.eval θ = term.eval θ' := by
  cases term with
  | var name => exact congrArg some (h name (by simp [Term.vars]))
  | const value => rfl
  | foreign => rfl

theorem mapM_eval_congr {args : List Term} (h : ∀ x ∈ argVars args, θ x = θ' x) :
    args.mapM (Term.eval θ) = args.mapM (Term.eval θ') := by
  induction args with
  | nil => rfl
  | cons t args ih =>
    have hterm : t.eval θ = t.eval θ' := eval_congr fun x hx => h x (mem_union_left _ hx)
    have hargs := ih fun x hx => h x (mem_union_right _ hx)
    rw [List.mapM_cons, List.mapM_cons, hterm, hargs]

theorem shares_congr {vars : Finset String} (h : ∀ x ∈ vars, x ∈ outer → θ x = θ' x)
    (θ'' : Valuation) : Shares outer vars θ θ'' ↔ Shares outer vars θ' θ'' := by
  refine forall₂_congr fun x hx => forall_congr' fun ho => ?_
  rw [h x hx ho]

/-- A condition depends on the variables that it shares with the bodies it is in. -/
theorem sat_congr_valuation (hatom : atomVars [c] ⊆ outer)
    (h : ∀ x ∈ c.vars, x ∈ outer → θ x = θ' x) : Sat M outer θ c ↔ Sat M outer θ' c := by
  cases c with
  | atom pred args =>
    have hargs : ∀ x ∈ argVars args, θ x = θ' x := fun x hx =>
      h x hx (hatom (by simp [atomVars, hx]))
    simp only [Sat, mapM_eval_congr hargs]
  | existsWhere conditions | notExists conditions | countDistinct vars conditions op value =>
    simp only [Condition.vars] at h
    simp only [Sat, shares_congr h]

theorem atomVars_cons (c : Condition) (cs : List Condition) :
    atomVars (c :: cs) = atomVars [c] ∪ atomVars cs := by
  cases c <;> simp [atomVars]

theorem satAll_congr_valuation (hatom : atomVars cs ⊆ outer)
    (h : ∀ x ∈ varsOf cs, x ∈ outer → θ x = θ' x) :
    SatAll M outer θ cs ↔ SatAll M outer θ' cs := by
  induction cs with
  | nil => rfl
  | cons c cs ih =>
    rw [atomVars_cons] at hatom
    simp only [varsOf, mem_union] at h
    have hfirst := union_subset_left hatom
    rw [SatAll, SatAll, sat_congr_valuation hfirst fun x hx => h x (.inl hx),
      ih (union_subset_right hatom) fun x hx => h x (.inr hx)]

mutual

theorem sat_congr : ∀ {c : Condition} {outer : Finset String} {θ : Valuation},
    (∀ p ∈ c.preds, M p = M' p) → (Sat M outer θ c ↔ Sat M' outer θ c)
  | .atom pred args, _, _, h => by
    simp only [Sat, h pred (by simp [Condition.preds])]
  | .existsWhere conditions, _, _, h => by
    have hpreds : ∀ p ∈ predsOf conditions, M p = M' p := h
    simp only [Sat, satAll_congr hpreds]
  | .notExists conditions, _, _, h => by
    have hpreds : ∀ p ∈ predsOf conditions, M p = M' p := h
    simp only [Sat, satAll_congr hpreds]
  | .countDistinct vars conditions op value, _, _, h => by
    have hpreds : ∀ p ∈ predsOf conditions, M p = M' p := h
    simp only [Sat, satAll_congr hpreds]

/-- A body depends on the predicates it mentions. -/
theorem satAll_congr : ∀ {cs : List Condition} {outer : Finset String} {θ : Valuation},
    (∀ p ∈ predsOf cs, M p = M' p) → (SatAll M outer θ cs ↔ SatAll M' outer θ cs)
  | [], _, _, _ => Iff.rfl
  | c :: cs, _, _, h => by
    simp only [predsOf, mem_union] at h
    rw [SatAll, SatAll, sat_congr fun p hp => h p (.inl hp), satAll_congr fun p hp => h p (.inr hp)]

end

mutual

theorem sat_mono (hle : ∀ p t, M p t → M' p t) : ∀ {c : Condition} {outer : Finset String}
    {θ : Valuation}, (∀ p ∈ c.negated, M p = M' p) → Sat M outer θ c → Sat M' outer θ c
  | .atom pred args, _, _, _, hsat => by
    obtain ⟨tuple, htuple, hmem⟩ := hsat
    exact ⟨tuple, htuple, hle pred tuple hmem⟩
  | .existsWhere conditions, _, _, h, hsat => by
    obtain ⟨θ', hshares, hall⟩ := hsat
    exact ⟨θ', hshares, satAll_mono hle h hall⟩
  | .notExists conditions, _, _, h, hsat => by
    have hpreds : ∀ p ∈ (Condition.notExists conditions).preds, M p = M' p := h
    exact (sat_congr hpreds).mp hsat
  | .countDistinct vars conditions op value, _, _, h, hsat => by
    have hpreds : ∀ p ∈ (Condition.countDistinct vars conditions op value).preds, M p = M' p := h
    exact (sat_congr hpreds).mp hsat

/-- More tuples mean more solutions, if no block that negates or counts sees them. -/
theorem satAll_mono (hle : ∀ p t, M p t → M' p t) : ∀ {cs : List Condition}
    {outer : Finset String} {θ : Valuation}, (∀ p ∈ negatedOf cs, M p = M' p) →
    SatAll M outer θ cs → SatAll M' outer θ cs
  | [], _, _, _, _ => trivial
  | c :: cs, _, _, h, hsat => by
    simp only [negatedOf, mem_union] at h
    exact ⟨sat_mono hle (fun p hp => h p (.inl hp)) hsat.1,
      satAll_mono hle (fun p hp => h p (.inr hp)) hsat.2⟩

end

theorem derives_congr (h : ∀ p ∈ predsOf rule.all, M p = M' p) :
    Derives M rule tuple ↔ Derives M' rule tuple := by
  simp only [Derives, satAll_congr h]

end Dependence

section Existence
variable {policy : Policy} {facts : List Fact}

/-- A rule that defines `p` mentions `q`. -/
def Mentions (policy : Policy) (q p : String) : Prop :=
  ∃ rule ∈ policy.rules, rule.name = p ∧ q ∈ predsOf rule.all

/-- Two models agree, by induction along the mentions. -/
theorem IsModel.unique {M M' : Interpretation} (hwf : WellFounded (Mentions policy))
    (h : IsModel policy facts M) (h' : IsModel policy facts M') : M = M' := by
  funext pred
  induction pred using hwf.induction with
  | _ pred ih =>
    funext tuple
    rw [h pred tuple, h' pred tuple]
    refine propext (or_congr Iff.rfl (exists_congr fun rule => and_congr_right fun hrule =>
      and_congr_right fun hname => derives_congr fun q hq => ?_))
    exact ih q ⟨rule, hrule, hname, hq⟩

end Existence

end Dkg.Ccl
