import Dkg.Skolem.Parts

/-!
`skolemizeByEntity`: the blank nodes get IRIs below the root entity that owns them, and the quads
are grouped by root entity.
-/

namespace Dkg.Skolem.ByEntity

open List Function

/-- `/.well-known/genid/` -/
def GENID_SEGMENT : Text :=
  ['/', '.', 'w', 'e', 'l', 'l', '-', 'k', 'n', 'o', 'w', 'n', '/', 'g', 'e', 'n', 'i', 'd', '/']

/-- `String.prototype.indexOf`, with `none` for -1. -/
def indexOf (pattern : Text) : Text → Option ℕ
  | [] => if pattern = [] then some 0 else none
  | c :: rest =>
    if pattern.isPrefixOf (c :: rest) then some 0 else (indexOf pattern rest).map (· + 1)

def isSkolemizedUri (uri : Text) : Bool := (indexOf GENID_SEGMENT uri).isSome

def rootEntityFromSkolemized (uri : Text) : Option Text :=
  (indexOf GENID_SEGMENT uri).map fun idx => uri.take idx

def genid (rootEntity bn : Text) : Text := rootEntity ++ GENID_SEGMENT ++ bn.drop 2

def skolemize (rootEntity : Text) (quads : List Quad) : List Quad :=
  let blankNodes := blankNodesOf quads
  if blankNodes = [] then quads
  else
    let mapping := fun t => if t ∈ blankNodes then some (genid rootEntity t) else none
    quads.map fun q => { q with
      subject := (mapping q.subject).getD q.subject
      object := (mapping q.object).getD q.object }

/-- A `Set` keeps the order in which its values are added. -/
def addRoot (rootEntities : List Text) (q : Quad) : List Text :=
  if isBlankNode q.subject = false ∧ isSkolemizedUri q.subject = false ∧
      q.subject ∉ rootEntities then
    rootEntities ++ [q.subject]
  else rootEntities

def rootEntitiesOf (quads : List Quad) : List Text := quads.foldl addRoot []

abbrev Owners := Text → Option Text

/-- A link from a root entity; the last one wins. -/
def link (rootEntities : List Text) (blankToRoot : Owners) (q : Quad) : Owners :=
  if q.subject ∈ rootEntities ∧ isBlankNode q.object = true then
    update blankToRoot q.object (some q.subject)
  else blankToRoot

def directOwners (rootEntities : List Text) (quads : List Quad) : Owners :=
  quads.foldl (link rootEntities) fun _ => none

/-- A link that the propagation follows. -/
def Open (blankToRoot : Owners) (q : Quad) : Prop :=
  isBlankNode q.subject = true ∧ (blankToRoot q.subject).isSome = true ∧
    isBlankNode q.object = true ∧ blankToRoot q.object = none

instance (blankToRoot : Owners) (q : Quad) : Decidable (Open blankToRoot q) :=
  inferInstanceAs (Decidable (_ ∧ _ ∧ _ ∧ _))

def visit (state : Owners × Bool) (q : Quad) : Owners × Bool :=
  if Open state.1 q then
    (update state.1 q.object (state.1 q.subject), true)
  else state

/-- The `while (changed)` loop, for at most as many passes as `fuel`. -/
def propagate (quads : List Quad) : ℕ → Owners → Owners
  | 0, blankToRoot => blankToRoot
  | fuel + 1, blankToRoot =>
    let pass := quads.foldl visit (blankToRoot, false)
    if pass.2 then propagate quads fuel pass.1 else pass.1

def blankToRootOf (rootEntities : List Text) (quads : List Quad) : Owners :=
  propagate quads (quads.length + 1) (directOwners rootEntities quads)

/-- The root entity whose group a quad is put in before the renaming. -/
def ownerOf (rootEntities : List Text) (blankToRoot : Owners) (q : Quad) : Option Text :=
  if q.subject ∈ rootEntities then some q.subject
  else if isBlankNode q.subject then blankToRoot q.subject
  else none

/-- The root entity whose group a quad with a skolemized subject is put in. -/
def skolemizedOwnerOf (rootEntities : List Text) (q : Quad) : Option Text :=
  if isSkolemizedUri q.subject then
    (rootEntityFromSkolemized q.subject).filter fun root => root ≠ [] ∧ root ∈ rootEntities
  else none

def push (groups : Text → List Quad) (root : Option Text) (q : Quad) : Text → List Quad :=
  match root with
  | some root => update groups root (groups root ++ [q])
  | none => groups

def skolemizeByEntity (quads : List Quad) : List (Text × List Quad) :=
  let rootEntities := rootEntitiesOf quads
  let blankToRoot := blankToRootOf rootEntities quads
  let rootQuads := quads.foldl (fun groups q => push groups (ownerOf rootEntities blankToRoot q) q)
    fun _ => []
  let groups := quads.foldl (fun groups q => push groups (skolemizedOwnerOf rootEntities q) q)
    fun root => skolemize root (rootQuads root)
  rootEntities.map fun root => (root, groups root)

/-- All groups, one after the other. -/
def regrouped (quads : List Quad) : List Quad := (skolemizeByEntity quads).flatMap (·.2)

/-! ### What is said of it -/

def IsRoot (quads : List Quad) (root : Text) : Prop :=
  (∃ q ∈ quads, q.subject = root) ∧ isBlankNode root = false ∧ isSkolemizedUri root = false

/-- A chain of links from the root entity to the blank node, through blank nodes. -/
inductive Reaches (quads : List Quad) (root : Text) : Text → Prop
  | direct (q : Quad) : q ∈ quads → q.subject = root → isBlankNode q.object = true →
      Reaches quads root q.object
  | through (q : Quad) : q ∈ quads → Reaches quads root q.subject → isBlankNode q.object = true →
      Reaches quads root q.object

def image (σ : Text → Text) (q : Quad) : Quad :=
  { q with
    subject := if isBlankNode q.subject then σ q.subject else q.subject
    object := if isBlankNode q.object then σ q.object else q.object }

/-- One injective renaming, to IRIs that do not occur, accounts for all groups, and the groups of
the result are the same. -/
def Renamed (quads : List Quad) : Prop :=
  ∃ σ : Text → Text, (∀ b ∈ blankNodesOf quads, ∀ b' ∈ blankNodesOf quads, σ b = σ b' → b = b') ∧
    (∀ b ∈ blankNodesOf quads, isBlankNode (σ b) = false ∧
      ∀ q ∈ quads, σ b ∉ [q.subject, q.predicate, q.object, q.graph]) ∧
    (regrouped quads).Perm (quads.map (image σ)) ∧
    (∀ root, root ∈ (skolemizeByEntity (regrouped quads)).map Prod.fst ↔
      root ∈ (skolemizeByEntity quads).map Prod.fst) ∧
    ∀ root l l', (root, l) ∈ skolemizeByEntity quads →
      (root, l') ∈ skolemizeByEntity (regrouped quads) → l'.Perm l

/-- Every blank node is below a root entity, and so is every skolemized subject. -/
def Rooted (quads : List Quad) : Prop :=
  (∀ b ∈ blankNodesOf quads, ∃ root, IsRoot quads root ∧ Reaches quads root b) ∧
  ∀ q ∈ quads, isSkolemizedUri q.subject = true →
    ∃ root, rootEntityFromSkolemized q.subject = some root ∧ IsRoot quads root

/-- What keeps the renamings of the groups from disagreeing, and the new IRIs apart from the old
ones and below their own roots. -/
structure Separated (quads : List Quad) : Prop where
  one : ∀ b root root', IsRoot quads root → IsRoot quads root' → Reaches quads root b →
    Reaches quads root' b → root = root'
  linked : ∀ q ∈ quads, isSkolemizedUri q.subject = true → isBlankNode q.object = false
  named : ∀ root, IsRoot quads root → (∃ b, Reaches quads root b) ∨
    (∃ q ∈ quads, rootEntityFromSkolemized q.subject = some root) → root ≠ []
  readable : ∀ b root, IsRoot quads root → Reaches quads root b → ¬GENID_SEGMENT.dropLast <:+ root
  fresh : ∀ b root, IsRoot quads root → Reaches quads root b →
    ∀ q ∈ quads, genid root b ∉ [q.subject, q.predicate, q.object, q.graph]

section Terms
variable {root term : Text}

/-- The segment overlaps itself only in its slash. -/
theorem indexOf_genid (hroot : isSkolemizedUri root = false)
    (hend : ¬GENID_SEGMENT.dropLast <:+ root) (label : Text) :
    indexOf GENID_SEGMENT (root ++ (GENID_SEGMENT ++ label)) = some root.length := by
  induction root with
  | nil => simp [GENID_SEGMENT, indexOf]
  | cons c root ih =>
    have hindex : ¬GENID_SEGMENT <+: c :: root ∧ isSkolemizedUri root = false := by
      unfold isSkolemizedUri indexOf at hroot
      split at hroot
      · cases hroot
      · simp_all [isSkolemizedUri, isPrefixOf_iff_prefix]
    have hno : ¬GENID_SEGMENT <+: (c :: root) ++ (GENID_SEGMENT ++ label) := by
      intro hprefix
      by_cases hlong : 19 ≤ (c :: root).length
      · exact hindex.1 (prefix_of_prefix_length_le hprefix (prefix_append _ _) hlong)
      have hshort := prefix_of_prefix_length_le (prefix_append _ _) hprefix
        (show (c :: root).length ≤ GENID_SEGMENT.length by simp [GENID_SEGMENT] at hlong ⊢; omega)
      obtain ⟨rest, hrest⟩ := hshort
      rw [← hrest, prefix_append_right_inj] at hprefix
      have hover := prefix_of_prefix_length_le hprefix (prefix_append _ _) (by simp; omega)
      rw [hrest] at hover
      have hlen := congrArg length hrest
      have hcut := congrArg (drop (c :: root).length) hrest
      have hhead := congrArg (take (c :: root).length) hrest
      rw [drop_left] at hcut
      rw [take_left] at hhead
      generalize hn : (c :: root).length = n at *
      have hbound : 0 < n ∧ n < 19 := by
        simp at hn
        omega
      have honly : n = 18 := by
        have : ∀ n < 19, 0 < n → drop n GENID_SEGMENT <+: GENID_SEGMENT → n = 18 := by decide
        exact this n hbound.2 hbound.1 (hcut ▸ hover)
      apply hend
      rw [hhead, honly]
      exact suffix_rfl
    rw [cons_append, indexOf, if_neg (by rwa [ isPrefixOf_iff_prefix]), ih hindex.2
      fun hsuffix => hend (hsuffix.trans (suffix_cons _ _))]
    rfl

theorem rootEntityFromSkolemized_genid (hroot : isSkolemizedUri root = false)
    (hend : ¬GENID_SEGMENT.dropLast <:+ root) (bn : Text) :
    rootEntityFromSkolemized (genid root bn) = some root := by
  rw [rootEntityFromSkolemized, genid, append_assoc, indexOf_genid hroot hend]
  simp

theorem isBlankNode_iff : isBlankNode term = true ↔ ∃ label, term = '_' :: ':' :: label := by
  rw [isBlankNode, isPrefixOf_iff_prefix]
  exact exists_congr fun label => eq_comm

theorem isBlankNode_genid (hroot : isBlankNode root = false) (bn : Text) :
    isBlankNode (genid root bn) = false := by
  rcases root with _ | ⟨c, _ | ⟨d, root⟩⟩
  · rfl
  · simp [genid, GENID_SEGMENT, isBlankNode, isPrefixOf]
  · exact hroot

/-- The root entity of a blank node that reads as skolemized would be blank. -/
theorem isBlankNode_rootEntity (hblank : isBlankNode term = true)
    (h : rootEntityFromSkolemized term = some root) : isBlankNode root = true := by
  obtain ⟨label, rfl⟩ := isBlankNode_iff.mp hblank
  have hindex : indexOf GENID_SEGMENT ('_' :: ':' :: label) =
      (indexOf GENID_SEGMENT label).map (· + 2) := by
    simp [indexOf, GENID_SEGMENT, isPrefixOf, comp_def]
  rw [rootEntityFromSkolemized, hindex, Option.map_map, Option.map_eq_some_iff] at h
  obtain ⟨i, -, rfl⟩ := h
  rfl

end Terms

def owners (quads : List Quad) : Owners := blankToRootOf (rootEntitiesOf quads) quads

def owner (quads : List Quad) : Quad → Option Text := ownerOf (rootEntitiesOf quads) (owners quads)

section Owners
variable {quads : List Quad} {root b : Text} {m : Owners} {q : Quad}

theorem mem_rootEntitiesOf : root ∈ rootEntitiesOf quads ↔ IsRoot quads root := by
  have h : ∀ (l : List Quad) (roots : List Text),
      root ∈ l.foldl addRoot roots ↔ root ∈ roots ∨ IsRoot l root := by
    intro l
    induction l with
    | nil => simp [IsRoot]
    | cons q l ih =>
      intro roots
      rw [foldl_cons, ih]
      simp only [IsRoot, addRoot]
      grind
  exact (h quads []).trans (by simp)

theorem nodup_rootEntitiesOf : (rootEntitiesOf quads).Nodup := by
  refine foldlRecOn quads _ nodup_nil fun roots h q _ => ?_
  unfold addRoot
  split
  · refine List.Nodup.append h (nodup_singleton _) ?_
    simp_all
  · exact h

theorem Reaches.blank (h : Reaches quads root b) : isBlankNode b = true := by
  cases h <;> assumption

/-- The owners so far are roots that reach what they own. -/
def Owns (quads : List Quad) (m : Owners) : Prop :=
  ∀ b root, m b = some root → IsRoot quads root ∧ Reaches quads root b

theorem Owns.update (h : Owns quads m) {b' root' : Text} (hroot : IsRoot quads root')
    (hb : Reaches quads root' b') : Owns quads (update m b' (some root')) := by
  intro b root hm
  rw [update_apply] at hm
  split at hm
  · subst b
    cases hm
    exact ⟨hroot, hb⟩
  · exact h b root hm

theorem owns_directOwners : Owns quads (directOwners (rootEntitiesOf quads) quads) := by
  refine foldlRecOn quads _ (fun b root h => ?_) fun m h q hq => ?_
  · cases h
  unfold link
  split_ifs with hlink
  · exact h.update (mem_rootEntitiesOf.mp hlink.1) (.direct q hq rfl hlink.2)
  · exact h

theorem directOwners_isSome (hq : q ∈ quads) (hroot : IsRoot quads q.subject)
    (hb : isBlankNode q.object = true) :
    (directOwners (rootEntitiesOf quads) quads q.object).isSome = true := by
  rw [← mem_rootEntitiesOf] at hroot
  have h : ∀ (l : List Quad) (m : Owners), (m q.object).isSome = true ∨ q ∈ l →
      (l.foldl (link (rootEntitiesOf quads)) m q.object).isSome = true := by
    intro l
    induction l with
    | nil => simp
    | cons q' l ih =>
      intro m hm
      apply ih
      rcases hm with hm | hm
      · left
        unfold link
        split
        · rw [update_apply]
          split <;> simp [hm]
        · exact hm
      · rcases mem_cons.mp hm with rfl | hm
        · exact .inl (by simp [link, hroot, hb])
        · exact .inr hm
  exact h quads _ (.inr hq)

theorem owns_foldl_visit {l : List Quad} (hl : l ⊆ quads) {state : Owners × Bool}
    (h : Owns quads state.1) : Owns quads (l.foldl visit state).1 := by
  induction l generalizing state with
  | nil => exact h
  | cons q l ih =>
  refine ih (fun q' hq' => hl (mem_cons_of_mem _ hq')) ?_
  have hq := mem_cons_self (a := q) (l := l)
  unfold visit
  split_ifs with hopen
  · obtain ⟨r, hr⟩ := Option.isSome_iff_exists.mp hopen.2.1
    obtain ⟨hroot, hreach⟩ := h _ _ hr
    simpa only [hr] using h.update hroot (.through q (hl hq) hreach hopen.2.2.1)
  · exact h

/-- One pass over the quads: owners stay, and it reports whether it found one. -/
theorem foldl_visit (l : List Quad) (state : Owners × Bool) :
    (∀ b root, state.1 b = some root → (l.foldl visit state).1 b = some root) ∧
    ((l.foldl visit state).2 = false → state.2 = false ∧ (l.foldl visit state).1 = state.1 ∧
      ∀ q ∈ l, ¬Open state.1 q) ∧
    ((l.foldl visit state).2 = true → state.2 = true ∨
      ∃ q ∈ l, state.1 q.object = none ∧ (l.foldl visit state).1 q.object ≠ none) := by
  induction l generalizing state with
  | nil => simp
  | cons q l ih =>
    rw [foldl_cons]
    by_cases hopen : Open state.1 q
    · rw [visit, if_pos hopen]
      obtain ⟨-, hsome, -, hnone⟩ := hopen
      obtain ⟨hkeep, hstop, -⟩ := ih (update state.1 q.object (state.1 q.subject), true)
      obtain ⟨r, hr⟩ := Option.isSome_iff_exists.mp hsome
      have hnew := hkeep q.object r (by simp [hr])
      refine ⟨fun b root hb => hkeep b root ?_, fun hfalse => ?_, fun _ => .inr ⟨q, ?_⟩⟩
      · exact (update_of_ne (by rintro rfl; simp_all) _ _).trans hb
      · cases (hstop hfalse).1
      · simp [hnone, hnew]
    · rw [visit, if_neg hopen]
      obtain ⟨hkeep, hstop, hmore⟩ := ih state
      refine ⟨hkeep, fun hfalse => ?_, fun htrue => ?_⟩
      · simpa [hopen] using hstop hfalse
      · exact (hmore htrue).imp_right fun ⟨q', hq', h⟩ => ⟨q', mem_cons_of_mem _ hq', h⟩

/-- The loop ends with no link left to follow. -/
theorem propagate_spec (fuel : ℕ) (h : Owns quads m)
    (hfuel : (quads.toFinset.filter fun q => m q.object = none).card < fuel) :
    Owns quads (propagate quads fuel m) ∧ (∀ q ∈ quads, ¬Open (propagate quads fuel m) q) ∧
      ∀ b, (m b).isSome = true → (propagate quads fuel m b).isSome = true := by
  induction fuel generalizing m with
  | zero => omega
  | succ fuel ih =>
    obtain ⟨hkeep, hstop, hmore⟩ := foldl_visit quads (m, false)
    have howns : Owns quads (quads.foldl visit (m, false)).1 :=
      owns_foldl_visit (List.Subset.refl quads) h
    have hsome : ∀ b, (m b).isSome = true → ((quads.foldl visit (m, false)).1 b).isSome = true := by
      intro b hb
      obtain ⟨r, hr⟩ := Option.isSome_iff_exists.mp hb
      simp [hkeep b r hr]
    unfold propagate
    dsimp only
    split_ifs with hchanged
    · obtain ⟨q, hq, hnone, hnew⟩ := (hmore hchanged).resolve_left (by simp)
      have hless : (quads.toFinset.filter fun q =>
          (quads.foldl visit (m, false)).1 q.object = none).card <
            (quads.toFinset.filter fun q => m q.object = none).card := by
        refine Finset.card_lt_card (Finset.ssubset_iff_of_subset ?_ |>.mpr ⟨q, ?_, ?_⟩)
        · intro q' hq'
          rw [Finset.mem_filter] at hq' ⊢
          refine ⟨hq'.1, ?_⟩
          by_contra hm
          have := hsome q'.object (Option.isSome_iff_ne_none.mpr hm)
          simp [hq'.2] at this
        · simpa [hq] using hnone
        · simp [hnew]
      obtain ⟨h1, h2, h3⟩ := ih howns (by omega)
      exact ⟨h1, h2, fun b hb => h3 b (hsome b hb)⟩
    · obtain ⟨-, heq, hclosed⟩ := hstop (by simpa using hchanged)
      rw [heq]
      exact ⟨h, hclosed, fun _ hb => hb⟩

theorem owners_spec :
    Owns quads (owners quads) ∧ ∀ b root, IsRoot quads root → Reaches quads root b →
        (owners quads b).isSome = true := by
  have hfuel : (quads.toFinset.filter fun q =>
      directOwners (rootEntitiesOf quads) quads q.object = none).card < quads.length + 1 :=
    Nat.lt_succ_of_le ((Finset.card_filter_le _ _).trans (toFinset_card_le _))
  obtain ⟨howns, hclosed, hkeep⟩ := propagate_spec _ owns_directOwners hfuel
  refine ⟨howns, fun b root hroot hreach => ?_⟩
  induction hreach with
  | direct q hq hsubject hb => exact hkeep _ (directOwners_isSome hq (hsubject ▸ hroot) hb)
  | through q hq hreach hb ih =>
    by_contra hnone
    exact hclosed q hq ⟨hreach.blank, ih, hb, Option.not_isSome_iff_eq_none.mp hnone⟩

end Owners

section Groups
variable {quads : List Quad} {root b : Text} {q : Quad}

theorem foldl_push (f : Quad → Option Text) (l : List Quad) (groups : Text → List Quad) :
    l.foldl (fun groups q => push groups (f q) q) groups root =
      groups root ++ l.filter fun q => f q = some root := by
  induction l generalizing groups with
  | nil => simp
  | cons q l ih =>
    rw [foldl_cons, ih, filter_cons]
    cases f q with
    | none => simp [push]
    | some r =>
      by_cases hr : root = r
      · simp [push, hr]
      · simp [push, update_of_ne hr, Ne.symm hr]

theorem skolemize_eq (root : Text) (quads : List Quad) :
    skolemize root quads = quads.map (image (genid root)) := by
  have hmem : ∀ q ∈ quads, (q.subject ∈ blankNodesOf quads ↔ isBlankNode q.subject = true) ∧
      (q.object ∈ blankNodesOf quads ↔ isBlankNode q.object = true) := by
    intro q hq
    simp only [mem_blankNodesOf]
    grind
  unfold skolemize
  dsimp only
  split_ifs with hnil
  · refine (map_id quads).symm.trans (map_congr_left fun q hq => ?_)
    have := hmem q hq
    simp_all [image]
  · refine map_congr_left fun q hq => ?_
    obtain ⟨hsubject, hobject⟩ := hmem q hq
    simp only [image, hsubject, hobject]
    split <;> split <;> rfl

/-- The root entity in whose group a quad ends. -/
def home (quads : List Quad) (q : Quad) : Option Text :=
  (owner quads q).or (skolemizedOwnerOf (rootEntitiesOf quads) q)

/-- The IRI of a blank node. -/
def iri (quads : List Quad) (b : Text) : Text :=
  genid ((owners quads b).getD []) b

def groupOf (quads : List Quad) (root : Text) : List Quad :=
  (quads.filter fun q => owner quads q = some root).map (image (genid root)) ++
  quads.filter fun q => skolemizedOwnerOf (rootEntitiesOf quads) q = some root

theorem skolemizeByEntity_eq (quads : List Quad) :
    skolemizeByEntity quads =
      (rootEntitiesOf quads).map fun root => (root, groupOf quads root) := by
  refine map_congr_left fun root _ => ?_
  rw [foldl_push, skolemize_eq, foldl_push, nil_append]
  rfl

theorem perm_groups {α β : Type*} [DecidableEq β] (f : α → Option β) (l : List α) (keys : List β)
    (hkeys : keys.Nodup) (h : ∀ a ∈ l, ∃ k ∈ keys, f a = some k) :
    (keys.flatMap fun k => l.filter fun a => f a = some k).Perm l := by
  induction keys generalizing l with
  | nil => simpa [eq_nil_iff_forall_not_mem] using h
  | cons k keys ih =>
    obtain ⟨hk, hkeys⟩ := nodup_cons.mp hkeys
    have hrest := ih (l.filter fun a => ¬f a = some k) hkeys (by grind)
    have hsame : ∀ k' ∈ keys, (l.filter fun a => ¬f a = some k).filter (fun a => f a = some k') =
        l.filter fun a => f a = some k' := by
      intro k' hk'
      rw [filter_filter]
      refine filter_congr fun a _ => ?_
      grind
    rw [flatMap_congr hsame] at hrest
    rw [flatMap_cons]
    refine (hrest.append_left _).trans ?_
    simpa using filter_append_perm (fun a => decide (f a = some k)) l

theorem isSkolemizedUri_eq_true {t : Text} :
    isSkolemizedUri t = true ↔ ∃ root, rootEntityFromSkolemized t = some root := by
  simp [isSkolemizedUri, rootEntityFromSkolemized, Option.isSome_iff_exists]

section
variable (hsep : Separated quads)
include hsep

theorem owners_eq_some :
    owners quads b = some root ↔ IsRoot quads root ∧ Reaches quads root b := by
  obtain ⟨howns, hsome⟩ := @owners_spec quads
  refine ⟨howns b root, fun ⟨hroot, hreach⟩ => ?_⟩
  obtain ⟨r, hr⟩ := Option.isSome_iff_exists.mp (hsome b root hroot hreach)
  obtain ⟨hroot', hreach'⟩ := howns b r hr
  rw [hr, hsep.one b r root hroot' hroot hreach' hreach]

theorem iri_of_reaches (hroot : IsRoot quads root) (h : Reaches quads root b) :
    iri quads b = genid root b := by
  rw [iri, (owners_eq_some hsep).mpr ⟨hroot, h⟩, Option.getD_some]

theorem rootEntityFromSkolemized_iri (hroot : IsRoot quads root) (h : Reaches quads root b) :
    rootEntityFromSkolemized (iri quads b) = some root := by
  rw [iri_of_reaches hsep hroot h]
  exact rootEntityFromSkolemized_genid hroot.2.2 (hsep.readable b root hroot h) b

end

variable (hrooted : Rooted quads) (hsep : Separated quads)
include hrooted

theorem not_blank_of_skolemized (hq : q ∈ quads) (h : isSkolemizedUri q.subject = true) :
    isBlankNode q.subject = false := by
  obtain ⟨root, hroot, hisRoot⟩ := hrooted.2 q hq h
  by_contra hblank
  have := isBlankNode_rootEntity (by simpa using hblank) hroot
  rw [hisRoot.2.1] at this
  cases this

include hsep

theorem home_eq_some (hq : q ∈ quads) :
    home quads q = some root ↔ IsRoot quads root ∧ (q.subject = root ∨
      Reaches quads root q.subject ∨ rootEntityFromSkolemized q.subject = some root) := by
  unfold home
  cases hskolem : isSkolemizedUri q.subject with
  | true =>
    have hblank := not_blank_of_skolemized hrooted hq hskolem
    have hroot : ¬IsRoot quads q.subject := fun h => by cases hskolem.symm.trans h.2.2
    have howner : owner quads q = none := by
      simp [owner, ownerOf, mem_rootEntitiesOf, hroot, hblank]
    rw [howner, Option.none_or, skolemizedOwnerOf, if_pos hskolem, Option.filter_eq_some_iff]
    simp only [mem_rootEntitiesOf, decide_eq_true_eq]
    constructor
    · rintro ⟨hentity, -, hisRoot⟩
      exact ⟨hisRoot, .inr (.inr hentity)⟩
    · rintro ⟨hisRoot, rfl | hreach | hentity⟩
      · exact absurd hisRoot hroot
      · cases hblank.symm.trans hreach.blank
      · exact ⟨hentity, hsep.named root hisRoot (.inr ⟨q, hq, hentity⟩), hisRoot⟩
  | false =>
    have hentity : rootEntityFromSkolemized q.subject ≠ some root := fun h => by
      rw [isSkolemizedUri_eq_true.mpr ⟨root, h⟩] at hskolem
      cases hskolem
    simp only [skolemizedOwnerOf, hskolem, Bool.false_eq_true, if_false, Option.or_none, hentity,
      or_false]
    cases hblank : isBlankNode q.subject with
    | true =>
      have hroot : ¬IsRoot quads q.subject := fun h => by cases hblank.symm.trans h.2.1
      rw [owner, ownerOf, if_neg (by rwa [mem_rootEntitiesOf]), if_pos hblank, owners_eq_some hsep]
      refine and_congr_right fun hisRoot => ⟨.inr, ?_⟩
      rintro (rfl | hreach)
      · exact absurd hisRoot hroot
      · exact hreach
    | false =>
      have hroot : IsRoot quads q.subject := ⟨⟨q, hq, rfl⟩, hblank, hskolem⟩
      rw [owner, ownerOf, if_pos (by rwa [mem_rootEntitiesOf]), Option.some_inj]
      constructor
      · rintro rfl
        exact ⟨hroot, .inl rfl⟩
      · rintro ⟨-, rfl | hreach⟩
        · rfl
        · cases hblank.symm.trans hreach.blank

theorem home_isSome (hq : q ∈ quads) : ∃ root, IsRoot quads root ∧ home quads q = some root := by
  suffices h : ∃ root, IsRoot quads root ∧ (q.subject = root ∨ Reaches quads root q.subject ∨
      rootEntityFromSkolemized q.subject = some root) by
    obtain ⟨root, hroot, h⟩ := h
    exact ⟨root, hroot, (home_eq_some hrooted hsep hq).mpr ⟨hroot, h⟩⟩
  cases hskolem : isSkolemizedUri q.subject with
  | true =>
    obtain ⟨root, hentity, hroot⟩ := hrooted.2 q hq hskolem
    exact ⟨root, hroot, .inr (.inr hentity)⟩
  | false =>
    cases hblank : isBlankNode q.subject with
    | true =>
      obtain ⟨root, hroot, h⟩ := hrooted.1 _ (mem_blankNodesOf.mpr ⟨hblank, q, hq, .inl rfl⟩)
      exact ⟨root, hroot, .inr (.inl h)⟩
    | false => exact ⟨_, ⟨⟨q, hq, rfl⟩, hblank, hskolem⟩, .inl rfl⟩

theorem image_of_owner (hq : q ∈ quads)
    (h : owner quads q = some root) : image (genid root) q = image (iri quads) q := by
  have hhome : home quads q = some root := by rw [home, h, Option.some_or]
  obtain ⟨hroot, hsubject⟩ := (home_eq_some hrooted hsep hq).mp hhome
  have hreaches : isBlankNode q.subject = true → Reaches quads root q.subject := by
    intro hblank
    rcases hsubject with rfl | hreach | hentity
    · cases hblank.symm.trans hroot.2.1
    · exact hreach
    · cases (isBlankNode_rootEntity hblank hentity).symm.trans hroot.2.1
  have hobject : isBlankNode q.object = true → Reaches quads root q.object := by
    intro hblank
    rcases hsubject with rfl | hreach | hentity
    · exact .direct q hq rfl hblank
    · exact .through q hq hreach hblank
    · cases hblank.symm.trans (hsep.linked q hq (isSkolemizedUri_eq_true.mpr ⟨root, hentity⟩))
  unfold image
  congr 1
  · split
    · rw [iri_of_reaches hsep hroot (hreaches ‹_›)]
    · rfl
  · split
    · rw [iri_of_reaches hsep hroot (hobject ‹_›)]
    · rfl

theorem skolemized_of_owner (hq : q ∈ quads)
    (h : skolemizedOwnerOf (rootEntitiesOf quads) q = some root) :
    owner quads q = none ∧ image (iri quads) q = q := by
  unfold skolemizedOwnerOf at h
  obtain ⟨hskolem, -⟩ := Option.ite_none_right_eq_some.mp h
  have hblank := not_blank_of_skolemized hrooted hq hskolem
  have hroot : ¬IsRoot quads q.subject := fun h => by cases hskolem.symm.trans h.2.2
  constructor
  · simp [owner, ownerOf, mem_rootEntitiesOf, hroot, hblank]
  · simp [image, hblank, hsep.linked q hq hskolem]

/-- Within its group, a quad is renamed as everywhere. -/
theorem groupOf_perm (root : Text) :
    (groupOf quads root).Perm
      ((quads.filter fun q => home quads q = some root).map (image (iri quads))) := by
  have hsame := filter_append_perm (fun q => decide (owner quads q = some root))
    (quads.filter fun q => home quads q = some root)
  rw [filter_filter, filter_filter] at hsame
  have hown := map_congr_left (f := image (genid root)) (g := image (iri quads))
    (l := quads.filter fun q => owner quads q = some root)
    fun q hq => image_of_owner hrooted hsep (mem_filter.mp hq).1
      (of_decide_eq_true (mem_filter.mp hq).2)
  have hskolem := map_congr_left (f := image (iri quads)) (g := id)
    (l := quads.filter fun q => skolemizedOwnerOf (rootEntitiesOf quads) q = some root)
    fun q hq => (skolemized_of_owner hrooted hsep (mem_filter.mp hq).1
      (of_decide_eq_true (mem_filter.mp hq).2)).2
  rw [map_id] at hskolem
  rw [groupOf, hown, ← hskolem, ← map_append]
  refine List.Perm.map _ (.trans (.of_eq ?_) hsame)
  congr 1 <;> refine filter_congr fun q hq => ?_
  · by_cases h : owner quads q = some root <;> simp [home, h]
  · cases howner : owner quads q with
    | none => simp [home, howner]
    | some r =>
      have hne : skolemizedOwnerOf (rootEntitiesOf quads) q ≠ some root := fun h => by
        cases howner.symm.trans (skolemized_of_owner hrooted hsep hq h).1
      simp [home, howner, hne]

theorem regrouped_perm : (regrouped quads).Perm (quads.map (image (iri quads))) := by
  have hgroups := perm_groups (home quads) quads (rootEntitiesOf quads) nodup_rootEntitiesOf
    fun q hq => by
      obtain ⟨root, hroot, hhome⟩ := home_isSome hrooted hsep hq
      exact ⟨root, mem_rootEntitiesOf.mpr hroot, hhome⟩
  rw [regrouped, skolemizeByEntity_eq, flatMap_map]
  refine (List.Perm.flatMap_left _ fun root _ => groupOf_perm hrooted hsep root).trans ?_
  rw [← map_flatMap]
  exact hgroups.map _

theorem exists_iri (hb : b ∈ blankNodesOf quads) : ∃ root, IsRoot quads root ∧
    Reaches quads root b ∧ iri quads b = genid root b := by
  obtain ⟨root, hroot, h⟩ := hrooted.1 b hb
  exact ⟨root, hroot, h, iri_of_reaches hsep hroot h⟩

theorem iri_injective {b' : Text} (hb : b ∈ blankNodesOf quads) (hb' : b' ∈ blankNodesOf quads)
    (h : iri quads b = iri quads b') : b = b' := by
  obtain ⟨root, hroot, hreach, heq⟩ := exists_iri hrooted hsep hb
  obtain ⟨root', hroot', hreach', heq'⟩ := exists_iri hrooted hsep hb'
  have hentity := rootEntityFromSkolemized_iri hsep hroot hreach
  rw [h, rootEntityFromSkolemized_iri hsep hroot' hreach'] at hentity
  cases hentity
  rw [heq, heq', genid, genid, append_cancel_left_eq] at h
  obtain ⟨label, rfl⟩ := isBlankNode_iff.mp hreach.blank
  obtain ⟨label', rfl⟩ := isBlankNode_iff.mp hreach'.blank
  simpa using h

theorem iri_not_blank (hb : b ∈ blankNodesOf quads) : isBlankNode (iri quads b) = false := by
  obtain ⟨root, hroot, -, heq⟩ := exists_iri hrooted hsep hb
  rw [heq]
  exact isBlankNode_genid hroot.2.1 b

theorem iri_skolemized (hb : b ∈ blankNodesOf quads) : isSkolemizedUri (iri quads b) = true := by
  obtain ⟨root, hroot, hreach, -⟩ := exists_iri hrooted hsep hb
  exact isSkolemizedUri_eq_true.mpr ⟨root, rootEntityFromSkolemized_iri hsep hroot hreach⟩

/-! ### The second pass -/

theorem mem_regrouped {q' : Quad} :
    q' ∈ regrouped quads ↔ ∃ q ∈ quads, image (iri quads) q = q' := by
  rw [(regrouped_perm hrooted hsep).mem_iff, mem_map]

theorem isRoot_regrouped : IsRoot (regrouped quads) root ↔ IsRoot quads root := by
  refine and_congr_left fun ⟨hblank, hskolem⟩ => ⟨?_, ?_⟩
  · rintro ⟨q', hq', rfl⟩
    obtain ⟨q, hq, rfl⟩ := (mem_regrouped hrooted hsep).mp hq'
    cases hb : isBlankNode q.subject with
    | true =>
      have := iri_skolemized hrooted hsep (mem_blankNodesOf.mpr ⟨hb, q, hq, .inl rfl⟩)
      simp [image, hb, this] at hskolem
    | false => exact ⟨q, hq, by simp [image, hb]⟩
  · rintro ⟨q, hq, rfl⟩
    exact ⟨_, (mem_regrouped hrooted hsep).mpr ⟨q, hq, rfl⟩, by simp [image, hblank]⟩

theorem not_blank_regrouped {q' : Quad} (hq' : q' ∈ regrouped quads) :
    isBlankNode q'.subject = false ∧ isBlankNode q'.object = false := by
  obtain ⟨q, hq, rfl⟩ := (mem_regrouped hrooted hsep).mp hq'
  have hiri := fun b hb => iri_not_blank hrooted hsep (b := b) hb
  simp only [image]
  grind [mem_blankNodesOf]

theorem not_reaches_regrouped : ¬Reaches (regrouped quads) root b := by
  intro h
  cases h with
  | direct q hq _ hb | through q hq _ hb =>
    cases hb.symm.trans (not_blank_regrouped hrooted hsep hq).2

theorem rooted_regrouped : Rooted (regrouped quads) := by
  refine ⟨fun b hb => ?_, fun q' hq' hskolem => ?_⟩
  · obtain ⟨hblank, q', hq', rfl | rfl⟩ := mem_blankNodesOf.mp hb
    · cases hblank.symm.trans (not_blank_regrouped hrooted hsep hq').1
    · cases hblank.symm.trans (not_blank_regrouped hrooted hsep hq').2
  · obtain ⟨q, hq, rfl⟩ := (mem_regrouped hrooted hsep).mp hq'
    simp only [isRoot_regrouped hrooted hsep]
    cases hb : isBlankNode q.subject with
    | true =>
      obtain ⟨root, hroot, hreach⟩ := hrooted.1 _ (mem_blankNodesOf.mpr ⟨hb, q, hq, .inl rfl⟩)
      refine ⟨root, ?_, hroot⟩
      simpa [image, hb] using rootEntityFromSkolemized_iri hsep hroot hreach
    | false =>
      simp only [image, hb, Bool.false_eq_true, if_false] at hskolem ⊢
      exact hrooted.2 q hq hskolem

theorem separated_regrouped : Separated (regrouped quads) where
  one _ _ _ _ _ h := absurd h (not_reaches_regrouped hrooted hsep)
  linked _ hq' _ := (not_blank_regrouped hrooted hsep hq').2
  named root hroot hbelow := by
    have hroot := (isRoot_regrouped hrooted hsep).mp hroot
    rcases hbelow with ⟨b, h⟩ | ⟨q', hq', hentity⟩
    · exact absurd h (not_reaches_regrouped hrooted hsep)
    obtain ⟨q, hq, rfl⟩ := (mem_regrouped hrooted hsep).mp hq'
    cases hb : isBlankNode q.subject with
    | true =>
      obtain ⟨root', hroot', hreach⟩ := hrooted.1 _ (mem_blankNodesOf.mpr ⟨hb, q, hq, .inl rfl⟩)
      have hiri := rootEntityFromSkolemized_iri hsep hroot' hreach
      simp only [image, hb, if_true, hiri, Option.some_inj] at hentity
      exact hsep.named root hroot (.inl ⟨_, hentity ▸ hreach⟩)
    | false =>
      simp only [image, hb, Bool.false_eq_true, if_false] at hentity
      exact hsep.named root hroot (.inr ⟨q, hq, hentity⟩)
  readable _ _ _ h := absurd h (not_reaches_regrouped hrooted hsep)
  fresh _ _ _ h := absurd h (not_reaches_regrouped hrooted hsep)

theorem home_regrouped (hq : q ∈ quads) :
    home (regrouped quads) (image (iri quads) q) = home quads q := by
  refine Option.ext fun root => ?_
  rw [home_eq_some (rooted_regrouped hrooted hsep)
    (separated_regrouped hrooted hsep) ((mem_regrouped hrooted hsep).mpr ⟨q, hq, rfl⟩),
    home_eq_some hrooted hsep hq, isRoot_regrouped hrooted hsep]
  refine and_congr_right fun hroot => ?_
  simp only [not_reaches_regrouped hrooted hsep, false_or]
  cases hb : isBlankNode q.subject with
  | true =>
    obtain ⟨root', hroot', hreach⟩ := hrooted.1 _ (mem_blankNodesOf.mpr ⟨hb, q, hq, .inl rfl⟩)
    have hentity := rootEntityFromSkolemized_iri hsep hroot' hreach
    have hskolem := isSkolemizedUri_eq_true.mpr ⟨_, hentity⟩
    simp only [image, hb, if_true, hentity, Option.some_inj]
    constructor
    · rintro (rfl | rfl)
      · cases hskolem.symm.trans hroot.2.2
      · exact .inr (.inl hreach)
    · rintro (rfl | h | h)
      · cases hb.symm.trans hroot.2.1
      · exact .inr (hsep.one _ _ _ hroot' hroot hreach h)
      · cases (isBlankNode_rootEntity hb h).symm.trans hroot.2.1
  | false =>
    have hnot : ¬Reaches quads root q.subject := fun h => by cases hb.symm.trans h.blank
    simp only [image, hb, Bool.false_eq_true, if_false, hnot, false_or]

theorem groupOf_regrouped (root : Text) :
    (groupOf (regrouped quads) root).Perm (groupOf quads root) := by
  have hid : ∀ q' ∈ (regrouped quads).filter fun q => home (regrouped quads) q = some root,
      image (iri (regrouped quads)) q' = id q' := by
    intro q' hq'
    obtain ⟨hsubject, hobject⟩ := not_blank_regrouped hrooted hsep (mem_filter.mp hq').1
    simp [image, hsubject, hobject]
  have hsecond := groupOf_perm (rooted_regrouped hrooted hsep) (separated_regrouped hrooted hsep)
    root
  rw [map_congr_left hid, map_id] at hsecond
  refine hsecond.trans (((regrouped_perm hrooted hsep).filter _).trans ?_)
  refine .trans (.of_eq ?_) (groupOf_perm hrooted hsep root).symm
  rw [filter_map]
  congr 1
  refine filter_congr fun q hq => ?_
  simp [home_regrouped hrooted hsep hq]

/-- Grouping by entity is one renaming of the blank nodes, and stable. -/
theorem skolemizeByEntity_renamed : Renamed quads := by
  refine ⟨iri quads, fun b hb b' hb' => iri_injective hrooted hsep hb hb', fun b hb => ?_,
    regrouped_perm hrooted hsep, fun root => ?_, fun root l l' hl hl' => ?_⟩
  · obtain ⟨root, hroot, hreach, heq⟩ := exists_iri hrooted hsep hb
    exact ⟨iri_not_blank hrooted hsep hb, heq ▸ hsep.fresh b root hroot hreach⟩
  · simp only [skolemizeByEntity_eq, map_map, comp_def, map_id_fun', id_eq, mem_rootEntitiesOf]
    exact isRoot_regrouped hrooted hsep
  · rw [skolemizeByEntity_eq] at hl hl'
    simp only [mem_map, Prod.mk.injEq] at hl hl'
    obtain ⟨_, -, rfl, rfl⟩ := hl
    obtain ⟨_, -, rfl, rfl⟩ := hl'
    exact groupOf_regrouped hrooted hsep _

end Groups

section Inputs
variable {quads : List Quad}

theorem rooted_of_direct
    (hblank : ∀ b ∈ blankNodesOf quads,
      ∃ q ∈ quads, q.subject ∈ rootEntitiesOf quads ∧ q.object = b)
    (hskolem : ∀ q ∈ quads, isSkolemizedUri q.subject = true →
      ∃ root ∈ rootEntitiesOf quads, rootEntityFromSkolemized q.subject = some root) :
    Rooted quads := by
  refine ⟨fun b hb => ?_, fun q hq h => ?_⟩
  · obtain ⟨q, hq, hroot, rfl⟩ := hblank b hb
    exact ⟨_, mem_rootEntitiesOf.mp hroot, .direct q hq rfl (mem_blankNodesOf.mp hb).1⟩
  · obtain ⟨root, hroot, h⟩ := hskolem q hq h
    exact ⟨root, h, mem_rootEntitiesOf.mp hroot⟩

/-- A link from the root `a` to the blank node `_:x`. -/
def linkQuad (a : Text) : Quad := ⟨a, [], ['_', ':', 'x'], []⟩

/-- What the blank node says. -/
def blankQuad : Quad := ⟨['_', ':', 'x'], [], [], []⟩

theorem skolemizeByEntity_renamed_link :
    Rooted [linkQuad ['a'], blankQuad] ∧ Separated [linkQuad ['a'], blankQuad] ∧
      Renamed [linkQuad ['a'], blankQuad] := by
  have hroot : ∀ root, IsRoot [linkQuad ['a'], blankQuad] root → root = ['a'] := by
    intro root h
    have hroots : rootEntitiesOf [linkQuad ['a'], blankQuad] = [['a']] := by decide +kernel
    simpa [hroots] using mem_rootEntitiesOf.mpr h
  have hblank : ∀ root b, Reaches [linkQuad ['a'], blankQuad] root b → b = ['_', ':', 'x'] := by
    intro root b h
    have hb := h.blank
    rcases h with ⟨q, hq, -, -⟩ | ⟨q, hq, -, -⟩ <;> revert q <;> decide +kernel
  have hrooted : Rooted [linkQuad ['a'], blankQuad] :=
    rooted_of_direct (by decide +kernel) (by decide +kernel)
  have hsep : Separated [linkQuad ['a'], blankQuad] := by
    refine ⟨fun b r r' h h' _ _ => (hroot r h).trans (hroot r' h').symm, by decide +kernel,
      fun r h _ => ?_, fun b r h _ => ?_, fun b r h hb => ?_⟩
    · rw [hroot r h]
      decide +kernel
    · rw [hroot r h]
      decide +kernel
    · rw [hroot r h, hblank r b hb]
      decide +kernel
  exact ⟨hrooted, hsep, skolemizeByEntity_renamed hrooted hsep⟩

/-- Inputs that are not renamed consistently or not stable: a blank node below two roots, one with
a link from a skolemized subject, one whose IRI is there already, and roots whose skolemized IRIs
do not lead back to them. -/
theorem skolemizeByEntity_inconsistent :
    (Rooted [linkQuad ['a'], linkQuad ['b']] ∧ ¬Renamed [linkQuad ['a'], linkQuad ['b']]) ∧
    (Rooted [linkQuad ['a'], linkQuad (genid ['a'] [])] ∧
      ¬Renamed [linkQuad ['a'], linkQuad (genid ['a'] [])]) ∧
    (Rooted [linkQuad ['a'], ⟨['a'], [], genid ['a'] ['_', ':', 'x'], []⟩] ∧
      ¬Renamed [linkQuad ['a'], ⟨['a'], [], genid ['a'] ['_', ':', 'x'], []⟩]) ∧
    (Rooted [linkQuad GENID_SEGMENT.dropLast, blankQuad] ∧
      ¬Renamed [linkQuad GENID_SEGMENT.dropLast, blankQuad]) ∧
    (Rooted [linkQuad [], blankQuad] ∧ ¬Renamed [linkQuad [], blankQuad]) := by
  refine ⟨⟨rooted_of_direct (by decide +kernel) (by decide +kernel), ?_⟩,
    ⟨rooted_of_direct (by decide +kernel) (by decide +kernel), ?_⟩,
    ⟨rooted_of_direct (by decide +kernel) (by decide +kernel), ?_⟩,
    ⟨rooted_of_direct (by decide +kernel) (by decide +kernel), ?_⟩,
    rooted_of_direct (by decide +kernel) (by decide +kernel), ?_⟩
  · rintro ⟨σ, -, -, hperm, -⟩
    have hgroups : regrouped [linkQuad ['a'], linkQuad ['b']] =
        [⟨['a'], [], genid ['a'] ['_', ':', 'x'], []⟩,
          ⟨['b'], [], genid ['b'] ['_', ':', 'x'], []⟩] := by decide +kernel
    rw [hgroups] at hperm
    have ha := hperm.mem_iff.mp (mem_cons_self ..)
    have hb := hperm.mem_iff.mp (mem_cons_of_mem _ (mem_cons_self ..))
    simp [image, linkQuad, isBlankNode, isPrefixOf] at ha hb
    rw [← ha] at hb
    revert hb
    decide +kernel
  · rintro ⟨σ, -, hnew, hperm, -⟩
    have hkept : linkQuad (genid ['a'] []) ∈
        regrouped [linkQuad ['a'], linkQuad (genid ['a'] [])] := by decide +kernel
    have hiri := (hnew ['_', ':', 'x'] (by decide +kernel)).1
    obtain ⟨q, hq, heq⟩ := mem_map.mp (hperm.mem_iff.mp hkept)
    have hobject : ∀ q ∈ [linkQuad ['a'], linkQuad (genid ['a'] [])],
        q.object = ['_', ':', 'x'] := by decide +kernel
    have hsame := congrArg Quad.object heq
    simp only [image, hobject q hq, linkQuad] at hsame
    rw [show σ ['_', ':', 'x'] = ['_', ':', 'x'] from hsame] at hiri
    cases hiri
  · rintro ⟨σ, -, hnew, hperm, -⟩
    have hgroups : regrouped [linkQuad ['a'], ⟨['a'], [], genid ['a'] ['_', ':', 'x'], []⟩] =
        [⟨['a'], [], genid ['a'] ['_', ':', 'x'], []⟩,
          ⟨['a'], [], genid ['a'] ['_', ':', 'x'], []⟩] := by decide +kernel
    rw [hgroups] at hperm
    have ha := hperm.mem_iff.mpr (mem_cons_self ..)
    have hsame : σ ['_', ':', 'x'] = genid ['a'] ['_', ':', 'x'] := by
      simpa [image, linkQuad, isBlankNode, isPrefixOf] using ha
    exact (hnew ['_', ':', 'x'] (by decide +kernel)).2 _
      (mem_cons_of_mem _ (mem_cons_self ..)) (by simp [hsame])
  · rintro ⟨σ, -, -, -, -, hsame⟩
    have h := hsame GENID_SEGMENT.dropLast
      [⟨GENID_SEGMENT.dropLast, [], genid GENID_SEGMENT.dropLast ['_', ':', 'x'], []⟩,
        ⟨genid GENID_SEGMENT.dropLast ['_', ':', 'x'], [], [], []⟩]
      [⟨GENID_SEGMENT.dropLast, [], genid GENID_SEGMENT.dropLast ['_', ':', 'x'], []⟩]
      (by decide +kernel) (by decide +kernel)
    cases h.length_eq
  · rintro ⟨σ, -, -, -, -, hsame⟩
    have h := hsame []
      [⟨[], [], genid [] ['_', ':', 'x'], []⟩, ⟨genid [] ['_', ':', 'x'], [], [], []⟩]
      [⟨[], [], genid [] ['_', ':', 'x'], []⟩] (by decide +kernel) (by decide +kernel)
    cases h.length_eq

end Inputs

end Dkg.Skolem.ByEntity
