import Mathlib.Data.List.Basic

/-!
RDF terms as texts: blank nodes, IRIs with or without brackets, literals, and the reserved IRIs
that stand for blank nodes of a knowledge asset.
-/

namespace Dkg.Skolem

open List

abbrev Text := List Char

instance lawfulText : LawfulBEq Text := inferInstance

/-- The double quote and the backslash. -/
def quote : Char := Char.ofNat 34

def backslash : Char := Char.ofNat 92

def isBlankNode (term : Text) : Bool := ['_', ':'].isPrefixOf term

def isLiteral (term : Text) : Bool := term.head? = some quote

def unwrapIri (term : Text) : Text :=
  if term.head? = some '<' ∧ term.getLast? = some '>' then (term.drop 1).dropLast else term

def isLineTerminator (c : Char) : Bool :=
  c = '\n' ∨ c = '\r' ∨ c = Char.ofNat 0x2028 ∨ c = Char.ofNat 0x2029

/-- A quoted string after its opening quote, up to the closing one, and what follows. -/
def quotedBody : Text → Option (Text × Text)
  | [] => none
  | c :: rest =>
    if c = quote then some ([c], rest)
    else if c = backslash then
      match rest with
      | [] => none
      | d :: rest =>
        if isLineTerminator d then none
        else (quotedBody rest).map fun (body, after) => (c :: d :: body, after)
    else (quotedBody rest).map fun (body, after) => (c :: body, after)

/-- `bareDatatype`: a literal whose datatype has no brackets, cut before the datatype. -/
def bareDatatype (term : Text) : Option (Text × Text) :=
  match term with
  | [] => none
  | c :: rest =>
    if c = quote then
      match quotedBody rest with
      | some (body, '^' :: '^' :: datatype) =>
        if datatype = [] ∨ datatype.head? = some '<' ∨ datatype.any isLineTerminator then none
        else some (c :: body, datatype)
      | _ => none
    else none

def bracket (iri : Text) : Text := '<' :: iri ++ ['>']

def normalizeObject (term : Text) : Text :=
  if isLiteral term then
    match bareDatatype term with
    | some (literal, datatype) => literal ++ ['^', '^'] ++ bracket (unwrapIri datatype)
    | none => term
  else unwrapIri term

/-- `urn:dkg:ka-skolem:` -/
def KNOWLEDGE_ASSET_SKOLEM_PREFIX : Text :=
  ['u', 'r', 'n', ':', 'd', 'k', 'g', ':', 'k', 'a', '-', 's', 'k', 'o', 'l', 'e', 'm', ':']

/-- `private:` -/
def privateSegment : Text := ['p', 'r', 'i', 'v', 'a', 't', 'e', ':']

def KNOWLEDGE_ASSET_PRIVATE_SKOLEM_PREFIX : Text := KNOWLEDGE_ASSET_SKOLEM_PREFIX ++ privateSegment

/-- The identifiers that RDFC-1.0 assigns. -/
def canonicalId (n : ℕ) : Text := ['c', '1', '4', 'n'] ++ Nat.toDigits 10 n

/-- `CANONICAL_KA_SKOLEM_RE`. -/
def isCanonicalSkolemIri (iri : Text) : Bool :=
  let local' := iri.drop KNOWLEDGE_ASSET_SKOLEM_PREFIX.length
  let id := if privateSegment.isPrefixOf local' then local'.drop privateSegment.length else local'
  KNOWLEDGE_ASSET_SKOLEM_PREFIX.isPrefixOf iri && ['c', '1', '4', 'n'].isPrefixOf id &&
    !(id.drop 4).isEmpty && (id.drop 4).all Char.isDigit

def isCanonicalSkolemTerm (term : Text) : Bool := isCanonicalSkolemIri (unwrapIri term)

section Lemmas
variable {term : Text} {n m : ℕ}

theorem unwrapIri_of_head (h : term.head? ≠ some '<') : unwrapIri term = term := by
  rw [unwrapIri, if_neg fun hwrapped => h hwrapped.1]

@[simp] theorem unwrapIri_bracket (iri : Text) : unwrapIri (bracket iri) = iri := by
  have hlast : (bracket iri).getLast? = some '>' := by
    rw [bracket, getLast?_append]
    rfl
  rw [unwrapIri, if_pos ⟨rfl, hlast⟩, bracket, cons_append, drop_one, tail_cons, dropLast_concat]

theorem head_of_isBlankNode (h : isBlankNode term = true) : term.head? = some '_' := by
  cases term with
  | nil => cases h
  | cons c rest =>
    simp only [isBlankNode, isPrefixOf, Bool.and_eq_true, beq_iff_eq] at h
    rw [head?_cons, h.1]

theorem head_of_isLiteral (h : isLiteral term = true) : term.head? = some quote := of_decide_eq_true h

theorem unwrapIri_of_literal (h : isLiteral term = true) : unwrapIri term = term :=
  unwrapIri_of_head (by rw [head_of_isLiteral h]; decide)

theorem not_isBlankNode_of_literal (h : isLiteral term = true) : isBlankNode term = false := by
  by_contra hblank
  have hhead := head_of_isBlankNode (show isBlankNode term = true by simpa using hblank)
  rw [head_of_isLiteral h] at hhead
  revert hhead
  decide

theorem quotedBody_append {text body after : Text} (more : Text)
    (h : quotedBody text = some (body, after)) :
    text = body ++ after ∧ quotedBody (body ++ more) = some (body, more) := by
  fun_induction quotedBody text generalizing body after with
  | case1 => cases h
  | case2 rest =>
    cases h
    refine ⟨rfl, ?_⟩
    rw [cons_append, quotedBody.eq_def]
    simp
  | case3 hne | case4 d rest hline hne => simp at h
  | case5 d rest hline hne ih | case6 c rest hline hne ih =>
    obtain ⟨⟨body', after'⟩, hbody, heq⟩ := Option.map_eq_some_iff.mp h
    cases heq
    obtain ⟨htext, hmore⟩ := ih hbody
    refine ⟨by rw [htext]; rfl, ?_⟩
    simp only [cons_append]
    rw [quotedBody.eq_def]
    simp [hline, hne, hmore]

theorem bareDatatype_eq {literal datatype : Text} (h : bareDatatype term = some (literal, datatype)) :
    isLiteral literal = true ∧ ∀ iri, bareDatatype (literal ++ ['^', '^'] ++ bracket iri) = none := by
  cases term with
  | nil => cases h
  | cons c rest =>
    rw [bareDatatype] at h
    split_ifs at h with hquote
    subst hquote
    split at h
    · rename_i body datatype' hbody
      split_ifs at h
      cases h
      refine ⟨rfl, fun iri => ?_⟩
      obtain ⟨-, hmore⟩ := quotedBody_append (['^', '^'] ++ bracket iri) hbody
      rw [append_assoc, cons_append, bareDatatype, if_pos rfl, hmore]
      simp [bracket]
    · cases h

theorem isLiteral_normalizeObject (h : isLiteral term = true) :
    isLiteral (normalizeObject term) = true := by
  rw [normalizeObject, if_pos h]
  split
  · rename_i literal datatype hbare
    have hliteral := head_of_isLiteral (bareDatatype_eq hbare).1
    rw [isLiteral, append_assoc, head?_append, hliteral]
    rfl
  · exact h

theorem normalizeObject_normalizeObject (h : isLiteral term = true) :
    normalizeObject (normalizeObject term) = normalizeObject term := by
  have hliteral := isLiteral_normalizeObject h
  rw [normalizeObject, if_pos hliteral]
  have hnone : bareDatatype (normalizeObject term) = none := by
    rw [normalizeObject, if_pos h]
    split
    · rename_i literal datatype hbare
      exact (bareDatatype_eq hbare).2 _
    · assumption
  rw [hnone]

theorem normalizeObject_of_not_literal (h : isLiteral term = false) :
    normalizeObject term = unwrapIri term := by
  rw [normalizeObject, if_neg (by simp [h])]

theorem canonicalId_injective : Function.Injective canonicalId := by
  intro n m h
  have hdigits : Nat.toDigits 10 n = Nat.toDigits 10 m := append_cancel_left h
  rw [← Nat.ofDigitChars_ten_toDigits (n := n), hdigits, Nat.ofDigitChars_ten_toDigits]

/-- The IRI for a canonical identifier, of the public or the private part. -/
theorem isCanonicalSkolemIri_public (n : ℕ) :
    isCanonicalSkolemIri (KNOWLEDGE_ASSET_SKOLEM_PREFIX ++ canonicalId n) = true := by
  have hdigits : (Nat.toDigits 10 n).all Char.isDigit = true :=
    all_eq_true.mpr fun c hc => Nat.isDigit_of_mem_toDigits (by decide) (by decide) hc
  simp [isCanonicalSkolemIri, KNOWLEDGE_ASSET_SKOLEM_PREFIX, canonicalId, privateSegment,
    isPrefixOf, hdigits, Nat.toDigits_ne_nil]

theorem isCanonicalSkolemIri_private (n : ℕ) :
    isCanonicalSkolemIri (KNOWLEDGE_ASSET_PRIVATE_SKOLEM_PREFIX ++ canonicalId n) = true := by
  have hdigits : (Nat.toDigits 10 n).all Char.isDigit = true :=
    all_eq_true.mpr fun c hc => Nat.isDigit_of_mem_toDigits (by decide) (by decide) hc
  simp [isCanonicalSkolemIri, KNOWLEDGE_ASSET_PRIVATE_SKOLEM_PREFIX, KNOWLEDGE_ASSET_SKOLEM_PREFIX,
    canonicalId, privateSegment, isPrefixOf, hdigits, Nat.toDigits_ne_nil]

end Lemmas

end Dkg.Skolem
