import Mathlib.Data.List.Basic
import Mathlib.Logic.Encodable.Basic
import Mathlib.Logic.Relation

/-!
Triples over blank and ground nodes, up to renaming of the blank ones, and labellings of blank
nodes that depend on the triples up to renaming only. Such a labelling is fixed up to the
symmetries of the triples, so a second graph that shares nodes with the first can be labelled
after it only if those symmetries carry over.
-/

namespace BlankGraph

open List

inductive Node (B G : Type*) where
  | blank (b : B)
  | ground (g : G)
  deriving DecidableEq, Repr

structure Triple (B G : Type*) where
  subject : Node B G
  predicate : G
  object : Node B G
  deriving DecidableEq, Repr

variable {B B' B'' C G : Type*}

def Node.subst (f : B → Node B' G) : Node B G → Node B' G
  | .blank b => f b
  | .ground g => .ground g

def Triple.subst (f : B → Node B' G) (t : Triple B G) : Triple B' G :=
  ⟨t.subject.subst f, t.predicate, t.object.subst f⟩

/-- The blank node is in one of the triples. -/
def Occurs (b : B) (ts : List (Triple B G)) : Prop :=
  ∃ t ∈ ts, t.subject = .blank b ∨ t.object = .blank b

/-- Nodes that are the same but for the names of blank ones. -/
def Node.Rel (R : B → B' → Prop) : Node B G → Node B' G → Prop
  | .blank b, .blank b' => R b b'
  | .ground g, .ground g' => g = g'
  | _, _ => False

structure Triple.Rel (R : B → B' → Prop) (t : Triple B G) (t' : Triple B' G) : Prop where
  subject : t.subject.Rel R t'.subject
  predicate : t.predicate = t'.predicate
  object : t.object.Rel R t'.object

structure OneToOne (R : B → B' → Prop) : Prop where
  left : ∀ {a b b'}, R a b → R a b' → b = b'
  right : ∀ {a a' b}, R a b → R a' b → a = a'

/-- The triples of each list have a counterpart in the other. -/
structure Corresponds (R : B → B' → Prop) (ts : List (Triple B G)) (ts' : List (Triple B' G)) :
    Prop where
  forth : ∀ t ∈ ts, ∃ t' ∈ ts', t.Rel R t'
  back : ∀ t' ∈ ts', ∃ t ∈ ts, t.Rel R t'

/-- The same triples but for the names of blank nodes, order and repetition. -/
def Isomorphic (ts : List (Triple B G)) (ts' : List (Triple B' G)) : Prop :=
  ∃ R : B → B' → Prop, OneToOne R ∧ Corresponds R ts ts'

section Relations
variable {R : B → B' → Prop} {S : B' → B'' → Prop} {ts : List (Triple B G)}
  {ts' : List (Triple B' G)} {ts'' : List (Triple B'' G)}

theorem OneToOne.flip (h : OneToOne R) : OneToOne (flip R) :=
  ⟨fun hab hab' => h.right hab hab', fun hab ha'b => h.left hab ha'b⟩

theorem OneToOne.comp (hR : OneToOne R) (hS : OneToOne S) : OneToOne (Relation.Comp R S) where
  left := by
    rintro a b b' ⟨x, hx, hxb⟩ ⟨y, hy, hyb⟩
    obtain rfl := hR.left hx hy
    exact hS.left hxb hyb
  right := by
    rintro a a' b ⟨x, hx, hxb⟩ ⟨y, hy, hyb⟩
    obtain rfl := hS.right hxb hyb
    exact hR.right hx hy

theorem Node.Rel.flip {n : Node B G} {n' : Node B' G} (h : n.Rel R n') : n'.Rel (flip R) n := by
  cases n <;> cases n'
  · exact h
  · cases h
  · cases h
  · exact Eq.symm h

theorem Node.Rel.comp {n : Node B G} {n' : Node B' G} {n'' : Node B'' G} (h : n.Rel R n')
    (h' : n'.Rel S n'') : n.Rel (Relation.Comp R S) n'' := by
  cases n <;> cases n' <;> cases n'' <;> first | exact ⟨_, h, h'⟩ | exact Eq.trans h h' | trivial

theorem Triple.Rel.flip {t : Triple B G} {t' : Triple B' G} (h : t.Rel R t') :
    t'.Rel (flip R) t :=
  ⟨h.subject.flip, h.predicate.symm, h.object.flip⟩

theorem Triple.Rel.comp {t : Triple B G} {t' : Triple B' G} {t'' : Triple B'' G}
    (h : t.Rel R t') (h' : t'.Rel S t'') : t.Rel (Relation.Comp R S) t'' :=
  ⟨h.subject.comp h'.subject, h.predicate.trans h'.predicate, h.object.comp h'.object⟩

theorem Corresponds.flip (h : Corresponds R ts ts') : Corresponds (flip R) ts' ts where
  forth t ht := by
    obtain ⟨t', ht', hrel⟩ := h.back t ht
    exact ⟨t', ht', hrel.flip⟩
  back t ht := by
    obtain ⟨t', ht', hrel⟩ := h.forth t ht
    exact ⟨t', ht', hrel.flip⟩

theorem Corresponds.comp (h : Corresponds R ts ts') (h' : Corresponds S ts' ts'') :
    Corresponds (Relation.Comp R S) ts ts'' where
  forth t ht := by
    obtain ⟨t', ht', hrel⟩ := h.forth t ht
    obtain ⟨t'', ht'', hrel'⟩ := h'.forth t' ht'
    exact ⟨t'', ht'', hrel.comp hrel'⟩
  back t'' ht'' := by
    obtain ⟨t', ht', hrel'⟩ := h'.back t'' ht''
    obtain ⟨t, ht, hrel⟩ := h.back t' ht'
    exact ⟨t, ht, hrel.comp hrel'⟩

theorem Isomorphic.refl (ts : List (Triple B G)) : Isomorphic ts ts := by
  have hnode : ∀ n : Node B G, n.Rel Eq n := fun n => by cases n <;> rfl
  exact ⟨Eq, ⟨fun h h' => h.symm.trans h', fun h h' => h.trans h'.symm⟩,
    ⟨fun t ht => ⟨t, ht, hnode _, rfl, hnode _⟩, fun t ht => ⟨t, ht, hnode _, rfl, hnode _⟩⟩⟩

theorem Isomorphic.symm (h : Isomorphic ts ts') : Isomorphic ts' ts := by
  obtain ⟨R, hone, hts⟩ := h
  exact ⟨flip R, hone.flip, hts.flip⟩

theorem Isomorphic.trans (h : Isomorphic ts ts') (h' : Isomorphic ts' ts'') :
    Isomorphic ts ts'' := by
  obtain ⟨R, hR, hts⟩ := h
  obtain ⟨S, hS, hts'⟩ := h'
  exact ⟨Relation.Comp R S, hR.comp hS, hts.comp hts'⟩

/-- A blank node in one list has its counterpart in the other. -/
theorem Corresponds.occurs (h : Corresponds R ts ts') {b : B} (hb : Occurs b ts) :
    ∃ b', R b b' ∧ Occurs b' ts' := by
  obtain ⟨t, ht, hnode⟩ := hb
  obtain ⟨t', ht', hrel⟩ := h.forth t ht
  rcases hnode with hnode | hnode
  · have hsubject := hrel.subject
    cases hn : t'.subject with
    | blank b' =>
      rw [hnode, hn] at hsubject
      exact ⟨b', hsubject, t', ht', .inl hn⟩
    | ground g =>
      rw [hnode, hn] at hsubject
      cases hsubject
  · have hobject := hrel.object
    cases hn : t'.object with
    | blank b' =>
      rw [hnode, hn] at hobject
      exact ⟨b', hobject, t', ht', .inr hn⟩
    | ground g =>
      rw [hnode, hn] at hobject
      cases hobject

end Relations

section Labels
variable {canon : List (Triple B G) → B → Option C}

/-- The triples with labels in place of blank nodes. -/
def relabel (canon : List (Triple B G) → B → Option C) (ts : List (Triple B G)) :
    List (Triple (Option C) G) :=
  ts.map (Triple.subst fun b => .blank (canon ts b))

/-- A labelling that tells the blank nodes of its input apart and gives isomorphic inputs the
same labelled triples. -/
structure Canonical (canon : List (Triple B G) → B → Option C) : Prop where
  assigned : ∀ {ts b}, Occurs b ts → ∃ c, canon ts b = some c
  injective : ∀ {ts b b'}, Occurs b ts → Occurs b' ts → canon ts b = canon ts b' → b = b'
  invariant : ∀ {ts ts'}, Isomorphic ts ts' → ∀ t, t ∈ relabel canon ts ↔ t ∈ relabel canon ts'

/-- Blank nodes of two lists with one label. -/
def SameLabel (canon : List (Triple B G) → B → Option C) (ts ts' : List (Triple B G))
    (b b' : B) : Prop :=
  Occurs b ts ∧ Occurs b' ts' ∧ canon ts b = canon ts' b'

theorem Canonical.oneToOne (h : Canonical canon) (ts ts' : List (Triple B G)) :
    OneToOne (SameLabel canon ts ts') where
  left hab hab' := h.injective hab.2.1 hab'.2.1 (hab.2.2.symm.trans hab'.2.2)
  right hab ha'b := h.injective hab.1 ha'b.1 (hab.2.2.trans ha'b.2.2.symm)

theorem Node.rel_of_subst_eq {ts ts' : List (Triple B G)} {n n' : Node B G}
    (hn : ∀ b, n = .blank b → Occurs b ts) (hn' : ∀ b, n' = .blank b → Occurs b ts')
    (h : n.subst (fun b => .blank (canon ts b)) =
      n'.subst fun b => (.blank (canon ts' b) : Node (Option C) G)) :
    n.Rel (SameLabel canon ts ts') n' := by
  cases n with
  | blank b =>
    cases n' with
    | blank b' => exact ⟨hn b rfl, hn' b' rfl, Node.blank.inj h⟩
    | ground g' => cases h
  | ground g =>
    cases n' with
    | blank b' => cases h
    | ground g' => exact Node.ground.inj h

theorem Triple.rel_of_subst_eq {ts ts' : List (Triple B G)} {t t' : Triple B G} (ht : t ∈ ts)
    (ht' : t' ∈ ts') (h : t.subst (fun b => .blank (canon ts b)) =
      t'.subst fun b => (.blank (canon ts' b) : Node (Option C) G)) :
    t.Rel (SameLabel canon ts ts') t' where
  subject := Node.rel_of_subst_eq (fun _ hb => ⟨t, ht, .inl hb⟩) (fun _ hb => ⟨t', ht', .inl hb⟩)
    (congrArg Triple.subject h)
  predicate := by
    have hpredicate := congrArg Triple.predicate h
    exact hpredicate
  object := Node.rel_of_subst_eq (fun _ hb => ⟨t, ht, .inr hb⟩) (fun _ hb => ⟨t', ht', .inr hb⟩)
    (congrArg Triple.object h)

/-- Labels match the blank nodes of isomorphic lists. -/
theorem Canonical.corresponds (h : Canonical canon) {ts ts' : List (Triple B G)}
    (hiso : Isomorphic ts ts') : Corresponds (SameLabel canon ts ts') ts ts' where
  forth t ht := by
    obtain ⟨t', ht', heq⟩ := mem_map.mp
      ((h.invariant hiso _).mp (mem_map_of_mem (f := Triple.subst _) ht))
    exact ⟨t', ht', Triple.rel_of_subst_eq ht ht' heq.symm⟩
  back t' ht' := by
    obtain ⟨t, ht, heq⟩ := mem_map.mp
      ((h.invariant hiso _).mpr (mem_map_of_mem (f := Triple.subst _) ht'))
    exact ⟨t, ht, Triple.rel_of_subst_eq ht ht' heq⟩

end Labels

section Grounding
variable {canon : List (Triple B G) → B → Option C}

/-- Some blank nodes made ground. -/
def Node.groundBy (f : B → Option G) (b : B) : Node B G :=
  match f b with
  | some g => .ground g
  | none => .blank b

/-- The blank nodes of a list get ground names after their labels, the others none. -/
structure NamesBlanks (canon : List (Triple B G) → B → Option C) (name : C → G)
    (ts : List (Triple B G)) (f : B → Option G) : Prop where
  named : ∀ b, Occurs b ts → f b = (canon ts b).map name
  unnamed : ∀ b, ¬Occurs b ts → f b = none

/-- Every symmetry of the first list can be completed to one of the second. -/
def SymmetriesExtend (ts us : List (Triple B G)) : Prop :=
  ∀ A : B → B → Prop, OneToOne A → Corresponds A ts ts →
    ∃ A' : B → B → Prop, OneToOne A' ∧ Corresponds A' us us ∧ ∀ x y, Occurs x ts → A x y → A' x y

variable {ts ts' us us' : List (Triple B G)} {R : B → B → Prop} {f f' : B → Option G}

theorem Node.Rel.ground {n n' : Node B G} (h : n.Rel R n') (hf : ∀ b b', R b b' → f b = f' b') :
    (n.subst (Node.groundBy f)).Rel R (n'.subst (Node.groundBy f')) := by
  cases n with
  | ground g =>
    cases n' with
    | blank b' => cases h
    | ground g' => exact h
  | blank b =>
    cases n' with
    | ground g' => cases h
    | blank b' =>
      change (Node.groundBy f b).Rel R (Node.groundBy f' b')
      rw [Node.groundBy, Node.groundBy, hf b b' h]
      cases f' b' with
      | none => exact h
      | some g => exact Eq.refl g

theorem Corresponds.ground (h : Corresponds R us us') (hf : ∀ b b', R b b' → f b = f' b') :
    Corresponds R (us.map (Triple.subst (Node.groundBy f)))
      (us'.map (Triple.subst (Node.groundBy f'))) where
  forth t ht := by
    obtain ⟨u, hu, rfl⟩ := mem_map.mp ht
    obtain ⟨u', hu', hrel⟩ := h.forth u hu
    exact ⟨_, mem_map_of_mem hu', hrel.subject.ground hf, hrel.predicate, hrel.object.ground hf⟩
  back t' ht' := by
    obtain ⟨u', hu', rfl⟩ := mem_map.mp ht'
    obtain ⟨u, hu, hrel⟩ := h.back u' hu'
    exact ⟨_, mem_map_of_mem hu, hrel.subject.ground hf, hrel.predicate, hrel.object.ground hf⟩

/-- Two lists renamed alike stay isomorphic in their second part when the blank nodes of the
first are named after their labels, provided the symmetries of the first extend. -/
theorem Canonical.ground_isomorphic (h : Canonical canon) {name : C → G} (hR : OneToOne R)
    (hts : Corresponds R ts ts') (hus : Corresponds R us us') (hext : SymmetriesExtend ts us)
    (hf : NamesBlanks canon name ts f) (hf' : NamesBlanks canon name ts' f') :
    Isomorphic (us.map (Triple.subst (Node.groundBy f)))
      (us'.map (Triple.subst (Node.groundBy f'))) := by
  -- renaming there and coming back by labels is a symmetry of the first list
  have hA := hts.comp (h.corresponds ⟨R, hR, hts⟩).flip
  obtain ⟨A, hone, hsymm, hextends⟩ := hext _ (hR.comp (h.oneToOne ts ts').flip) hA
  refine ⟨Relation.Comp (flip A) R, hone.flip.comp hR, (hsymm.flip.comp hus).ground ?_⟩
  rintro u v ⟨b, hbu, hbv⟩
  by_cases hu : Occurs u ts
  · obtain ⟨x, hx, hxts⟩ := hA.flip.occurs hu
    obtain rfl := hone.right (hextends x u hxts hx) hbu
    obtain ⟨x', hxx', -, hx'ts, hlabel⟩ := hx
    obtain rfl := hR.left hxx' hbv
    rw [hf.named u hu, hf'.named x' hx'ts, hlabel]
  · have hv : ¬Occurs v ts' := by
      intro hv
      obtain ⟨x, hx, hxts⟩ := hts.flip.occurs hv
      obtain rfl := hR.right hx hbv
      obtain ⟨y, hy, hyts⟩ := hA.occurs hxts
      obtain rfl := hone.left (hextends x y hxts hy) hbu
      exact hu hyts
    rw [hf.unnamed u hu, hf'.unnamed v hv]

end Grounding

section Choice
variable (B G)

def isomorphicSetoid : Setoid (List (Triple B G)) :=
  ⟨Isomorphic, Isomorphic.refl, Isomorphic.symm, Isomorphic.trans⟩

variable {B G}

/-- One list out of those isomorphic to a list. -/
noncomputable def representative (ts : List (Triple B G)) : List (Triple B G) :=
  (Quotient.mk (isomorphicSetoid B G) ts).out

theorem isomorphic_representative (ts : List (Triple B G)) : Isomorphic ts (representative ts) :=
  Isomorphic.symm (Quotient.mk_out (s := isomorphicSetoid B G) ts)

theorem representative_eq {ts ts' : List (Triple B G)} (h : Isomorphic ts ts') :
    representative ts = representative ts' :=
  congrArg Quotient.out (Quotient.sound (s := isomorphicSetoid B G) h)

variable [Encodable B]

open Classical in
/-- The labelling by the names in the representative. -/
noncomputable def labelByRepresentative (ts : List (Triple B G)) (b : B) : Option ℕ :=
  if h : ∃ b', Classical.choose (isomorphic_representative ts) b b' then
    some (Encodable.encode (Classical.choose h))
  else none

theorem labelByRepresentative_eq {ts : List (Triple B G)} {b b' : B}
    (h : Classical.choose (isomorphic_representative ts) b b') :
    labelByRepresentative ts b = some (Encodable.encode b') := by
  have hsome : ∃ b', Classical.choose (isomorphic_representative ts) b b' := ⟨b', h⟩
  rw [labelByRepresentative, dif_pos hsome]
  have hone := (Classical.choose_spec (isomorphic_representative ts)).1
  rw [hone.left (Classical.choose_spec hsome) h]

theorem mem_relabel_iff (ts : List (Triple B G)) (t : Triple (Option ℕ) G) :
    t ∈ relabel labelByRepresentative ts ↔
      t ∈ (representative ts).map (Triple.subst fun b => .blank (some (Encodable.encode b))) := by
  have hcorr := (Classical.choose_spec (isomorphic_representative ts)).2
  have hnode : ∀ n n' : Node B G, n.Rel (Classical.choose (isomorphic_representative ts)) n' →
      n.subst (fun b => (.blank (labelByRepresentative ts b) : Node (Option ℕ) G)) =
        n'.subst fun b => .blank (some (Encodable.encode b)) := by
    intro n n' hrel
    cases n with
    | blank b =>
      cases n' with
      | blank b' => exact congrArg Node.blank (labelByRepresentative_eq hrel)
      | ground g => cases hrel
    | ground g =>
      cases n' with
      | blank b' => cases hrel
      | ground g' => exact congrArg Node.ground hrel
  have htriple : ∀ u u' : Triple B G, u.Rel (Classical.choose (isomorphic_representative ts)) u' →
      u.subst (fun b => (.blank (labelByRepresentative ts b) : Node (Option ℕ) G)) =
        u'.subst fun b => .blank (some (Encodable.encode b)) := by
    intro u u' hrel
    simp only [Triple.subst, hnode _ _ hrel.subject, hrel.predicate, hnode _ _ hrel.object]
  simp only [relabel, mem_map]
  constructor
  · rintro ⟨u, hu, rfl⟩
    obtain ⟨u', hu', hrel⟩ := hcorr.forth u hu
    exact ⟨u', hu', (htriple u u' hrel).symm⟩
  · rintro ⟨u', hu', rfl⟩
    obtain ⟨u, hu, hrel⟩ := hcorr.back u' hu'
    exact ⟨u, hu, htriple u u' hrel⟩

/-- There is such a labelling. -/
theorem canonical_labelByRepresentative :
    Canonical (labelByRepresentative : List (Triple B G) → B → Option ℕ) where
  assigned {ts b} hb := by
    obtain ⟨b', hb', -⟩ := (Classical.choose_spec (isomorphic_representative ts)).2.occurs hb
    exact ⟨_, labelByRepresentative_eq hb'⟩
  injective {ts b b'} hb hb' heq := by
    obtain ⟨hone, hcorr⟩ := Classical.choose_spec (isomorphic_representative ts)
    obtain ⟨c, hc, -⟩ := hcorr.occurs hb
    obtain ⟨c', hc', -⟩ := hcorr.occurs hb'
    rw [labelByRepresentative_eq hc, labelByRepresentative_eq hc', Option.some.injEq] at heq
    obtain rfl := Encodable.encode_injective heq
    exact hone.right hc hc'
  invariant {ts ts'} hiso t := by
    rw [mem_relabel_iff, mem_relabel_iff, representative_eq hiso]

end Choice

end BlankGraph
