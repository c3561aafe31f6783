import Dkg.Policy.Model

/-!
The bindings that the evaluator finds for a safe body are its solutions over the relations it
looks at, restricted to the variables of the atoms.
-/

namespace Dkg.Ccl

open List Function

section Safety

mutual

/-- Every variable that a block shares with the bodies around it is bound when the block is
reached; `bound` are the variables of the atoms before. -/
def SafeCondition (outer bound : Finset String) : Condition → Prop
  | .atom _ _ => True
  | .existsWhere conditions =>
    (∀ x ∈ varsOf conditions, x ∈ outer → x ∈ bound) ∧
      SafeBody (outer ∪ atomVars conditions) bound conditions
  | .notExists conditions =>
    (∀ x ∈ varsOf conditions, x ∈ outer → x ∈ bound) ∧
      SafeBody (outer ∪ atomVars conditions) bound conditions
  | .countDistinct vars conditions _ _ =>
    (∀ x ∈ vars.toFinset ∪ varsOf conditions, x ∈ outer → x ∈ bound) ∧
      SafeBody (outer ∪ atomVars conditions) bound conditions

def SafeBody (outer bound : Finset String) : List Condition → Prop
  | [] => True
  | condition :: conditions =>
    SafeCondition outer bound condition ∧ SafeBody outer (bound ∪ atomVars [condition]) conditions

end

/-- The parameters are bound by atoms of the body as well. -/
def Rule.Safe (rule : Rule) : Prop :=
  (∀ x ∈ rule.params, x ∈ atomVars rule.all) ∧ SafeBody (atomVars rule.all) ∅ rule.all

end Safety

section Bindings
variable {θ θ' : Valuation} {D : Finset String} {b : Binding}

/-- The binding of some variables by a valuation. -/
def restrict (θ : Valuation) (D : Finset String) : Binding :=
  fun x => if x ∈ D then some (θ x) else none

theorem restrict_congr (h : ∀ x ∈ D, θ' x = θ x) : restrict θ' D = restrict θ D := by
  funext x
  unfold restrict
  split_ifs with hx
  · rw [h x hx]
  · rfl

theorem matchTerm_iff {term : Term} {value : Value} :
    matchTerm (restrict θ D) value term = some b ↔
      ∃ θ' : Valuation, (∀ x ∈ D, θ' x = θ x) ∧ term.eval θ' = some value ∧
        b = restrict θ' (D ∪ term.vars) := by
  cases term with
  | foreign => simp [matchTerm, Term.eval]
  | const c =>
    simp only [matchTerm, Term.eval, Term.vars, Finset.union_empty, Option.some.injEq]
    constructor
    · intro h
      split at h
      · rename_i hc
        exact ⟨θ, fun _ _ => rfl, hc, (Option.some.inj h).symm⟩
      · cases h
    · rintro ⟨θ', hagree, rfl, rfl⟩
      rw [if_pos rfl, restrict_congr hagree]
  | var name =>
    simp only [matchTerm, Term.eval, Term.vars, Option.some.injEq]
    by_cases hname : name ∈ D
    · have hbound : restrict θ D name = some (θ name) := if_pos hname
      have hunion : D ∪ {name} = D := by simpa using hname
      rw [hbound, hunion]
      dsimp only
      constructor
      · intro h
        split at h
        · rename_i hv
          exact ⟨θ, fun _ _ => rfl, hv, (Option.some.inj h).symm⟩
        · cases h
      · rintro ⟨θ', hagree, rfl, rfl⟩
        rw [if_pos (hagree name hname).symm, restrict_congr hagree]
    · have hfree : restrict θ D name = none := if_neg hname
      rw [hfree]
      dsimp only
      have hupdate : ∀ θ' : Valuation, (∀ x ∈ D, θ' x = θ x) →
          update (restrict θ D) name (some (θ' name)) = restrict θ' (D ∪ {name}) := by
        intro θ' hagree
        funext x
        by_cases hx : x = name
        · subst hx
          simp [restrict]
        · rw [update_of_ne hx, ← restrict_congr hagree]
          simp [restrict, hx]
      constructor
      · intro h
        refine ⟨update θ name value, fun x hx => ?_, update_self .., ?_⟩
        · exact update_of_ne (ne_of_mem_of_not_mem hx hname) ..
        · rw [← hupdate _ fun x hx => update_of_ne (ne_of_mem_of_not_mem hx hname) ..,
            update_self]
          exact (Option.some.inj h).symm
      · rintro ⟨θ', hagree, rfl, rfl⟩
        rw [hupdate θ' hagree]

/-- An atom binds its variables as some valuation does that agrees with what is bound. -/
theorem matchArgs_iff {args : List Term} {tuple : Tuple} :
    matchArgs (restrict θ D) args tuple = some b ↔
      ∃ θ' : Valuation, (∀ x ∈ D, θ' x = θ x) ∧ args.mapM (Term.eval θ') = some tuple ∧
        b = restrict θ' (D ∪ argVars args) := by
  induction args generalizing θ D tuple with
  | nil =>
    cases tuple with
    | nil =>
      simp only [matchArgs, Option.some.injEq, mapM_nil, argVars, foldr_nil, Finset.union_empty]
      constructor
      · rintro rfl
        exact ⟨θ, fun _ _ => rfl, rfl, rfl⟩
      · rintro ⟨θ', hagree, -, rfl⟩
        exact (restrict_congr hagree).symm
    | cons value tuple => simp [matchArgs]
  | cons term args ih =>
    have hvars : argVars (term :: args) = term.vars ∪ argVars args := rfl
    cases tuple with
    | nil => simp [matchArgs, Option.bind_eq_some_iff]
    | cons value tuple =>
      simp only [matchArgs, Option.bind_eq_some_iff, matchTerm_iff, hvars]
      constructor
      · rintro ⟨_, ⟨θ₁, h₁, hterm, rfl⟩, hrest⟩
        obtain ⟨θ₂, h₂, hargs, rfl⟩ := ih.mp hrest
        refine ⟨θ₂, fun x hx => ?_, ?_, by rw [Finset.union_assoc]⟩
        · rw [h₂ x (Finset.mem_union_left _ hx), h₁ x hx]
        · have heval : term.eval θ₂ = some value :=
            (eval_congr fun x hx => h₂ x (Finset.mem_union_right _ hx)).trans hterm
          simp [mapM_cons, heval, hargs]
      · rintro ⟨θ', hagree, heval, rfl⟩
        simp only [mapM_cons, Option.bind_eq_bind, Option.bind_eq_some_iff, Option.pure_def,
          Option.some.injEq, cons.injEq] at heval
        obtain ⟨_, hterm, _, hargs, rfl, rfl⟩ := heval
        refine ⟨_, ⟨θ', hagree, hterm, rfl⟩, ih.mpr ⟨θ', fun _ _ => rfl, hargs, ?_⟩⟩
        rw [Finset.union_assoc]

end Bindings

section Blocks
variable {outer vars D : Finset String} {θ : Valuation}

/-- A block that reads `vars` only has a solution that agrees with the bindings exactly if it
has one that agrees on the shared variables. -/
theorem exists_agree_iff {Q : Valuation → Prop} (hD : D ⊆ outer)
    (hsafe : ∀ x ∈ vars, x ∈ outer → x ∈ D)
    (hQ : ∀ θ₁ θ₂ : Valuation, (∀ x ∈ vars, θ₁ x = θ₂ x) → Q θ₁ → Q θ₂) :
    (∃ θ' : Valuation, (∀ x ∈ D, θ' x = θ x) ∧ Q θ') ↔ ∃ θ', Shares outer vars θ θ' ∧ Q θ' := by
  constructor
  · rintro ⟨θ', hagree, hq⟩
    exact ⟨θ', fun x hx hout => hagree x (hsafe x hx hout), hq⟩
  · rintro ⟨θ', hshares, hq⟩
    refine ⟨fun x => if x ∈ vars then θ' x else θ x, fun x hx => ?_, hQ θ' _ (fun x hx => ?_) hq⟩
    · dsimp only
      split_ifs with hmem
      · exact hshares x hmem (hD hx)
      · rfl
    · rw [if_pos hx]

theorem dedup_length_eq_ncard {α : Type} [DecidableEq α] {l : List α} {S : Set α}
    (h : ∀ a, a ∈ l ↔ a ∈ S) : l.dedup.length = S.ncard := by
  have hS : S = ↑l.toFinset := by
    ext a
    rw [← h a, Finset.mem_coe, mem_toFinset]
  rw [hS, Set.ncard_coe_finset, card_toFinset]

end Blocks

section Solutions
variable {le : Tuple → Tuple → Bool} {R : Relations} {outer D : Finset String} {θ : Valuation}
  {b : Binding} {c : Condition} {cs : List Condition}

/-- The relations as an interpretation. -/
def interp (R : Relations) : Interpretation := fun pred tuple => tuple ∈ R pred

theorem mem_sortedTuples {relation : List Tuple} {tuple : Tuple} :
    tuple ∈ sortedTuples le relation ↔ tuple ∈ relation :=
  (perm_insertionSort _ relation).mem_iff

theorem evaluateConditions_flatMap (cs : List Condition) (bs : List Binding) :
    evaluateConditions le R cs bs = bs.flatMap fun b => evaluateConditions le R cs [b] := by
  induction cs generalizing bs with
  | nil => simp [evaluateConditions]
  | cons c cs ih =>
    simp only [evaluateConditions, flatMap_cons, flatMap_nil, append_nil]
    rw [ih, flatMap_assoc]
    exact flatMap_congr fun b _ => (ih _).symm

theorem mem_evaluateConditions_cons {b' : Binding} :
    b' ∈ evaluateConditions le R (c :: cs) [b] ↔
      ∃ b₁ ∈ evaluateCondition le R c b, b' ∈ evaluateConditions le R cs [b₁] := by
  rw [evaluateConditions, flatMap_cons, flatMap_nil, append_nil,
    evaluateConditions_flatMap, mem_flatMap]

theorem mem_atom {pred : String} {args : List Term} :
    b ∈ evaluateCondition le R (.atom pred args) (restrict θ D) ↔
      ∃ θ' : Valuation, (∀ x ∈ D, θ' x = θ x) ∧ Sat (interp R) outer θ' (.atom pred args) ∧
        b = restrict θ' (D ∪ argVars args) := by
  simp only [evaluateCondition, matchAtom, mem_filterMap, mem_sortedTuples, matchArgs_iff,
    Sat, interp]
  constructor
  · rintro ⟨tuple, hmem, θ', hagree, hargs, hb⟩
    exact ⟨θ', hagree, ⟨tuple, hargs, hmem⟩, hb⟩
  · rintro ⟨θ', hagree, ⟨tuple, hargs, hmem⟩, hb⟩
    exact ⟨tuple, hmem, θ', hagree, hargs, hb⟩

/-- A condition that binds nothing filters. -/
theorem filter_iff {M : Interpretation} {p : Prop} [Decidable p]
    (hsafe : ∀ x ∈ c.vars, x ∈ outer → x ∈ D) (hatom : atomVars [c] = ∅)
    (h : p ↔ Sat M outer θ c) :
    (b ∈ if p then [restrict θ D] else []) ↔
      ∃ θ' : Valuation, (∀ x ∈ D, θ' x = θ x) ∧ Sat M outer θ' c ∧
        b = restrict θ' (D ∪ atomVars [c]) := by
  have hsub : atomVars [c] ⊆ outer := by simp [hatom]
  rw [hatom, Finset.union_empty]
  constructor
  · intro hb
    split_ifs at hb with hp
    · exact ⟨θ, fun _ _ => rfl, h.mp hp, mem_singleton.mp hb⟩
    · cases hb
  · rintro ⟨θ', hagree, hsat, rfl⟩
    have hp : p := h.mpr ((sat_congr_valuation hsub fun x hx hout =>
      hagree x (hsafe x hx hout)).mp hsat)
    rw [if_pos hp, restrict_congr hagree]
    exact mem_singleton_self _

/-- After a safe condition, what it shares with the bodies around it is bound. -/
theorem bound_of_safe {x : String} (hsafe : SafeCondition outer D c) (hx : x ∈ c.vars)
    (hout : x ∈ outer) : x ∈ D ∪ atomVars [c] := by
  cases c with
  | atom pred args =>
    have hargs : x ∈ argVars args := hx
    simp [atomVars, hargs]
  | existsWhere cs | notExists cs | countDistinct vars cs op value =>
    exact Finset.mem_union_left _ (hsafe.1 x hx hout)

section Block
variable {cs : List Condition} (θ : Valuation) (hD : D ⊆ outer)
  (h : ∀ b, b ∈ evaluateConditions le R cs [restrict θ D] ↔
    ∃ θ' : Valuation, (∀ x ∈ D, θ' x = θ x) ∧
      SatAll (interp R) (outer ∪ atomVars cs) θ' cs ∧ b = restrict θ' (D ∪ atomVars cs))
include hD h

/-- The block of a condition has a solution. -/
theorem block_iff (hsafe : ∀ x ∈ varsOf cs, x ∈ outer → x ∈ D) :
    (evaluateConditions le R cs [restrict θ D]).length > 0 ↔
      ∃ θ', Shares outer (varsOf cs) θ θ' ∧ SatAll (interp R) (outer ∪ atomVars cs) θ' cs := by
  rw [← exists_agree_iff hD hsafe fun θ₁ θ₂ hvars hsat =>
    (satAll_congr_valuation Finset.subset_union_right fun x hx _ => hvars x hx).mp hsat]
  rw [gt_iff_lt, length_pos_iff_exists_mem]
  constructor
  · rintro ⟨b, hb⟩
    obtain ⟨θ', hagree, hsat, -⟩ := (h b).mp hb
    exact ⟨θ', hagree, hsat⟩
  · rintro ⟨θ', hagree, hsat⟩
    exact ⟨_, (h _).mpr ⟨θ', hagree, hsat, rfl⟩⟩

/-- What is counted are the projections of the solutions of the block. -/
theorem mem_projections_iff {vars : List String}
    (hsafe : ∀ x ∈ vars.toFinset ∪ varsOf cs, x ∈ outer → x ∈ D) (tuple : Tuple) :
    tuple ∈ (evaluateConditions le R cs [restrict θ D]).map (fun b => vars.map (valueOf b)) ↔
      ∃ θ', Shares outer (vars.toFinset ∪ varsOf cs) θ θ' ∧
        SatAll (interp R) (outer ∪ atomVars cs) θ' cs ∧
        tuple = project (outer ∪ atomVars cs) vars θ' := by
  have hproject : ∀ θ' : Valuation, vars.map (valueOf (restrict θ' (D ∪ atomVars cs))) =
      project (outer ∪ atomVars cs) vars θ' := by
    intro θ'
    refine map_congr_left fun x hx => ?_
    have hmem : x ∈ D ∪ atomVars cs ↔ x ∈ outer ∪ atomVars cs := by
      have hx' := hsafe x (by simp [hx])
      simp only [Finset.mem_union]
      exact or_congr_left ⟨fun hin => hD hin, hx'⟩
    by_cases hin : x ∈ outer ∪ atomVars cs
    · rw [if_pos hin, valueOf, restrict, if_pos (hmem.mpr hin)]
      rfl
    · rw [if_neg hin, valueOf, restrict, if_neg (mt hmem.mp hin)]
      rfl
  rw [← exists_agree_iff hD hsafe fun θ₁ θ₂ hvars hsat => ?_]
  · simp only [mem_map, h]
    constructor
    · rintro ⟨_, ⟨θ', hagree, hsat, rfl⟩, rfl⟩
      exact ⟨θ', hagree, hsat, hproject θ'⟩
    · rintro ⟨θ', hagree, hsat, rfl⟩
      exact ⟨_, ⟨θ', hagree, hsat, rfl⟩, hproject θ'⟩
  · refine ⟨(satAll_congr_valuation Finset.subset_union_right fun x hx _ =>
      hvars x (Finset.mem_union_right _ hx)).mp hsat.1, hsat.2.trans ?_⟩
    refine map_congr_left fun x hx => ?_
    rw [hvars x (by simp [hx])]

end Block

mutual

theorem mem_evaluateCondition : ∀ {c : Condition} {outer D : Finset String} {θ : Valuation}
    {b : Binding}, D ⊆ outer → SafeCondition outer D c →
    (b ∈ evaluateCondition le R c (restrict θ D) ↔
      ∃ θ' : Valuation, (∀ x ∈ D, θ' x = θ x) ∧ Sat (interp R) outer θ' c ∧
        b = restrict θ' (D ∪ atomVars [c]))
  | .atom pred args, outer, D, θ, b, hD, hsafe => by
    have hvars : atomVars [.atom pred args] = argVars args := by simp [atomVars]
    rw [hvars]
    exact mem_atom
  | .existsWhere cs, outer, D, θ, b, hD, hsafe => by
    rw [evaluateCondition]
    refine filter_iff hsafe.1 rfl (block_iff θ hD (fun b => ?_) hsafe.1)
    exact mem_evaluateConditions (hD.trans Finset.subset_union_left) Finset.subset_union_right
      hsafe.2
  | .notExists cs, outer, D, θ, b, hD, hsafe => by
    rw [evaluateCondition]
    have hblock := block_iff θ hD (fun b => mem_evaluateConditions
      (hD.trans Finset.subset_union_left) Finset.subset_union_right hsafe.2) hsafe.1
    refine filter_iff hsafe.1 rfl ?_
    rw [Sat, ← hblock]
    omega
  | .countDistinct vars cs op value, outer, D, θ, b, hD, hsafe => by
    rw [evaluateCondition]
    refine filter_iff hsafe.1 rfl ?_
    have hmem := mem_projections_iff θ hD (fun b => mem_evaluateConditions
      (hD.trans Finset.subset_union_left) Finset.subset_union_right hsafe.2) hsafe.1
    rw [Sat, dedup_length_eq_ncard hmem]
    rfl

/-- The bindings found for a safe body are its solutions on the variables of the atoms. -/
theorem mem_evaluateConditions : ∀ {cs : List Condition} {outer D : Finset String}
    {θ : Valuation} {b : Binding}, D ⊆ outer → atomVars cs ⊆ outer → SafeBody outer D cs →
    (b ∈ evaluateConditions le R cs [restrict θ D] ↔
      ∃ θ' : Valuation, (∀ x ∈ D, θ' x = θ x) ∧ SatAll (interp R) outer θ' cs ∧
        b = restrict θ' (D ∪ atomVars cs))
  | [], outer, D, θ, b, hD, hatom, hsafe => by
    simp only [evaluateConditions, mem_singleton, SatAll, atomVars, Finset.union_empty]
    constructor
    · rintro rfl
      exact ⟨θ, fun _ _ => rfl, trivial, rfl⟩
    · rintro ⟨θ', hagree, -, rfl⟩
      exact restrict_congr hagree
  | c :: cs, outer, D, θ, b, hD, hatom, hsafe => by
    rw [atomVars_cons] at hatom
    have hfirst := Finset.union_subset_left hatom
    have hrest := Finset.union_subset_right hatom
    have hD' : D ∪ atomVars [c] ⊆ outer := Finset.union_subset hD hfirst
    simp only [mem_evaluateConditions_cons, mem_evaluateCondition hD hsafe.1, atomVars_cons c cs]
    constructor
    · rintro ⟨_, ⟨θ₁, h₁, hsat₁, rfl⟩, hb⟩
      obtain ⟨θ₂, h₂, hsat₂, rfl⟩ := (mem_evaluateConditions hD' hrest hsafe.2).mp hb
      refine ⟨θ₂, fun x hx => ?_, ⟨?_, hsat₂⟩, by rw [Finset.union_assoc]⟩
      · rw [h₂ x (Finset.mem_union_left _ hx), h₁ x hx]
      · exact (sat_congr_valuation hfirst fun x hx hout =>
          h₂ x (bound_of_safe hsafe.1 hx hout)).mpr hsat₁
    · rintro ⟨θ', hagree, ⟨hsat₁, hsat₂⟩, rfl⟩
      refine ⟨_, ⟨θ', hagree, hsat₁, rfl⟩, ?_⟩
      refine (mem_evaluateConditions hD' hrest hsafe.2).mpr ⟨θ', fun _ _ => rfl, hsat₂, ?_⟩
      rw [Finset.union_assoc]

end

theorem mem_insertTuple {relation : List Tuple} {t tuple : Tuple} :
    tuple ∈ insertTuple relation t ↔ tuple ∈ relation ∨ tuple = t := by
  unfold insertTuple
  split_ifs with ht
  · exact ⟨.inl, fun h => h.elim id fun heq => heq ▸ ht⟩
  · rw [mem_append, mem_singleton]

theorem mem_foldl_insertTuple {relation tuples : List Tuple} {tuple : Tuple} :
    tuple ∈ tuples.foldl insertTuple relation ↔ tuple ∈ relation ∨ tuple ∈ tuples := by
  induction tuples generalizing relation with
  | nil => simp
  | cons t tuples ih => rw [foldl_cons, ih, mem_insertTuple, mem_cons, or_assoc]

/-- A safe rule is evaluated to what it derives from the relations as they are. -/
theorem mem_evaluateRule {rule : Rule} (hsafe : rule.Safe) {tuple : Tuple} :
    tuple ∈ evaluateRule le R rule ↔ Derives (interp R) rule tuple := by
  have hempty : (fun _ => none : Binding) = restrict (fun _ => .undefined) ∅ := by
    funext x
    simp [restrict]
  have hparams : ∀ θ : Valuation,
      rule.params.map (valueOf (restrict θ (atomVars rule.all))) = rule.params.map θ := by
    intro θ
    refine map_congr_left fun x hx => ?_
    rw [valueOf, restrict, if_pos (hsafe.1 x hx)]
    rfl
  rw [evaluateRule, mem_sortedTuples, mem_foldl_insertTuple, hempty]
  simp only [not_mem_nil, false_or, mem_map,
    mem_evaluateConditions (Finset.empty_subset _) (Finset.Subset.refl _) hsafe.2,
    Finset.empty_union]
  constructor
  · rintro ⟨_, ⟨θ, -, hsat, rfl⟩, rfl⟩
    exact ⟨θ, hsat, hparams θ⟩
  · rintro ⟨θ, hsat, rfl⟩
    exact ⟨_, ⟨θ, by simp, hsat, rfl⟩, hparams θ⟩

end Solutions

end Dkg.Ccl
