import Mathlib

/-!
Texts as lists of UTF-16 code units, the well-formed ones, and their UTF-8 bytes.
-/

namespace Utf16

open List

abbrev Text := List ℕ

instance lawfulText : LawfulBEq Text := inferInstance

def IsHigh (u : ℕ) : Prop := 0xd800 ≤ u ∧ u ≤ 0xdbff

def IsLow (u : ℕ) : Prop := 0xdc00 ≤ u ∧ u ≤ 0xdfff

instance (u : ℕ) : Decidable (IsHigh u) := inferInstanceAs (Decidable (_ ∧ _))
instance (u : ℕ) : Decidable (IsLow u) := inferInstanceAs (Decidable (_ ∧ _))

/-- A code unit that is a character by itself. -/
def IsScalar (u : ℕ) : Prop := u < 0x10000 ∧ ¬IsHigh u ∧ ¬IsLow u

instance (u : ℕ) : Decidable (IsScalar u) := inferInstanceAs (Decidable (_ ∧ _))

/-- The values are code units. -/
def IsText (t : Text) : Prop := ∀ u ∈ t, u < 0x10000

/-- Every surrogate is half of a pair. -/
inductive WellFormed : Text → Prop
  | nil : WellFormed []
  | scalar {u : ℕ} {t : Text} : IsScalar u → WellFormed t → WellFormed (u :: t)
  | pair {h l : ℕ} {t : Text} : IsHigh h → IsLow l → WellFormed t → WellFormed (h :: l :: t)

variable {s t : Text} {u h l : ℕ}

theorem IsText.of_suffix (ht : IsText t) (h : s <:+ t) : IsText s :=
  fun u hu => ht u (h.subset hu)

theorem IsScalar.of_lt (hu : u < 0xd800) : IsScalar u := by
  unfold IsScalar IsHigh IsLow
  omega

theorem WellFormed.append (hs : WellFormed s) (ht : WellFormed t) : WellFormed (s ++ t) := by
  induction hs with
  | nil => exact ht
  | scalar hu _ ih => exact .scalar hu ih
  | pair hh hl _ ih => exact .pair hh hl ih

theorem WellFormed.of_forall_lt (h : ∀ u ∈ t, u < 0xd800) : WellFormed t := by
  induction t with
  | nil => exact .nil
  | cons u t ih =>
    exact .scalar (.of_lt (h u mem_cons_self)) (ih fun w hw => h w (mem_cons_of_mem u hw))

/-- The bytes of a code unit that is not half of a pair; a stray surrogate is replaced. -/
def utf8Unit (u : ℕ) : List ℕ :=
  if u < 0x80 then [u]
  else if u < 0x800 then [0xc0 + u / 0x40, 0x80 + u % 0x40]
  else if IsHigh u ∨ IsLow u then [0xef, 0xbf, 0xbd]
  else [0xe0 + u / 0x1000, 0x80 + u / 0x40 % 0x40, 0x80 + u % 0x40]

def utf8Pair (h l : ℕ) : List ℕ :=
  let c := 0x10000 + (h - 0xd800) * 0x400 + (l - 0xdc00)
  [0xf0 + c / 0x40000, 0x80 + c / 0x1000 % 0x40, 0x80 + c / 0x40 % 0x40, 0x80 + c % 0x40]

/-- The UTF-8 bytes of a text. -/
def utf8 : Text → List ℕ
  | [] => []
  | [u] => utf8Unit u
  | u :: w :: t => if IsHigh u ∧ IsLow w then utf8Pair u w ++ utf8 t else utf8Unit u ++ utf8 (w :: t)

theorem utf8_scalar (hu : IsScalar u) (t : Text) : utf8 (u :: t) = utf8Unit u ++ utf8 t := by
  cases t with
  | nil => exact (append_nil _).symm
  | cons w t => exact if_neg fun hpair => hu.2.1 hpair.1

theorem utf8_pair (hh : IsHigh h) (hl : IsLow l) (t : Text) :
    utf8 (h :: l :: t) = utf8Pair h l ++ utf8 t :=
  if_pos ⟨hh, hl⟩

theorem utf8_append (hs : WellFormed s) (t : Text) : utf8 (s ++ t) = utf8 s ++ utf8 t := by
  induction hs with
  | nil => rfl
  | scalar hu _ ih =>
    rw [cons_append, utf8_scalar hu, utf8_scalar hu, ih, append_assoc]
  | pair hh hl _ ih =>
    rw [cons_append, cons_append, utf8_pair hh hl, utf8_pair hh hl, ih, append_assoc]

theorem utf8_ascii (ht : ∀ u ∈ t, u < 0x80) : utf8 t = t := by
  induction t with
  | nil => rfl
  | cons u t ih =>
    have hu := ht u mem_cons_self
    rw [utf8_scalar (.of_lt (by omega)), ih fun w hw => ht w (mem_cons_of_mem u hw), utf8Unit,
      if_pos hu]
    rfl

/-- What a character starts with says how long it is, and its bytes which it is. -/
theorem utf8Unit_append_inj {w : ℕ} (hu : IsScalar u) (hw : IsScalar w) {x y : List ℕ}
    (heq : utf8Unit u ++ x = utf8Unit w ++ y) : u = w ∧ x = y := by
  obtain ⟨hu, huh, hul⟩ := hu
  obtain ⟨hw, hwh, hwl⟩ := hw
  have hus : ¬(IsHigh u ∨ IsLow u) := not_or.mpr ⟨huh, hul⟩
  have hws : ¬(IsHigh w ∨ IsLow w) := not_or.mpr ⟨hwh, hwl⟩
  unfold utf8Unit at heq
  rw [if_neg hus, if_neg hws] at heq
  split_ifs at heq <;>
    simp only [cons_append, nil_append, cons.injEq] at heq <;>
    (refine ⟨by omega, ?_⟩; first | exact heq.2 | exact heq.2.2 | exact heq.2.2.2 | omega)

theorem utf8Pair_append_inj {h' l' : ℕ} (hh : IsHigh h) (hl : IsLow l) (hh' : IsHigh h')
    (hl' : IsLow l') {x y : List ℕ} (heq : utf8Pair h l ++ x = utf8Pair h' l' ++ y) :
    h = h' ∧ l = l' ∧ x = y := by
  unfold IsHigh IsLow at *
  simp only [utf8Pair, cons_append, nil_append, cons.injEq] at heq
  obtain ⟨h₁, h₂, h₃, h₄, hxy⟩ := heq
  exact ⟨by omega, by omega, hxy⟩

theorem utf8Unit_ne_pair (hu : IsScalar u) (h l : ℕ) {x y : List ℕ} :
    utf8Unit u ++ x ≠ utf8Pair h l ++ y := by
  obtain ⟨hu, huh, hul⟩ := hu
  have hus : ¬(IsHigh u ∨ IsLow u) := not_or.mpr ⟨huh, hul⟩
  intro heq
  unfold utf8Unit utf8Pair at heq
  rw [if_neg hus] at heq
  split_ifs at heq <;> simp only [cons_append, nil_append, cons.injEq] at heq <;>
    omega

theorem utf8Unit_ne_nil (u : ℕ) : utf8Unit u ≠ [] := by
  unfold utf8Unit
  split_ifs <;> exact cons_ne_nil _ _

/-- Well-formed texts have distinct bytes. -/
theorem utf8_injective (hs : WellFormed s) (ht : WellFormed t) (heq : utf8 s = utf8 t) : s = t := by
  induction hs generalizing t with
  | nil =>
    cases ht with
    | nil => rfl
    | scalar hu _ =>
      rw [utf8_scalar hu] at heq
      exact absurd (append_eq_nil_iff.mp heq.symm).1 (utf8Unit_ne_nil _)
    | pair hh hl _ =>
      rw [utf8_pair hh hl] at heq
      exact absurd heq.symm (cons_ne_nil _ _)
  | scalar hu _ ih =>
    rw [utf8_scalar hu] at heq
    cases ht with
    | nil => exact absurd (append_eq_nil_iff.mp heq).1 (utf8Unit_ne_nil _)
    | scalar hw ht =>
      rw [utf8_scalar hw] at heq
      obtain ⟨rfl, hrest⟩ := utf8Unit_append_inj hu hw heq
      rw [ih ht hrest]
    | pair hh hl _ =>
      rw [utf8_pair hh hl] at heq
      exact absurd heq (utf8Unit_ne_pair hu _ _)
  | pair hh hl _ ih =>
    rw [utf8_pair hh hl] at heq
    cases ht with
    | nil => exact absurd heq (cons_ne_nil _ _)
    | scalar hw _ =>
      rw [utf8_scalar hw] at heq
      exact absurd heq.symm (utf8Unit_ne_pair hw _ _)
    | pair hh' hl' ht =>
      rw [utf8_pair hh' hl'] at heq
      obtain ⟨rfl, rfl, hrest⟩ := utf8Pair_append_inj hh hl hh' hl' heq
      rw [ih ht hrest]

theorem utf8Unit_lt (hu : u < 0x10000) : ∀ b ∈ utf8Unit u, b < 256 := by
  unfold utf8Unit
  split_ifs <;> simp only [forall_mem_cons] <;> simp <;> omega

theorem utf8Pair_lt (hh : IsHigh h) (hl : IsLow l) : ∀ b ∈ utf8Pair h l, b < 256 := by
  unfold IsHigh IsLow at *
  simp only [utf8Pair, forall_mem_cons]
  simp
  omega

theorem utf8_lt (ht : WellFormed t) : ∀ b ∈ utf8 t, b < 256 := by
  induction ht with
  | nil => exact nofun
  | scalar hu _ ih =>
    rw [utf8_scalar hu, forall_mem_append]
    exact ⟨utf8Unit_lt hu.1, ih⟩
  | pair hh hl _ ih =>
    rw [utf8_pair hh hl, forall_mem_append]
    exact ⟨utf8Pair_lt hh hl, ih⟩

/-- The bytes that an encoder returns. -/
def utf8Bytes (t : Text) : List UInt8 := (utf8 t).map UInt8.ofNat

theorem utf8Bytes_injective (hs : WellFormed s) (ht : WellFormed t)
    (heq : utf8Bytes s = utf8Bytes t) : s = t := by
  have hback : ∀ {t : Text}, WellFormed t → (utf8Bytes t).map UInt8.toNat = utf8 t := by
    intro t ht
    rw [utf8Bytes, map_map]
    refine (map_congr_left fun b hb => ?_).trans (map_id _)
    exact UInt8.toNat_ofNat_of_lt' (utf8_lt ht b hb)
  refine utf8_injective hs ht ?_
  rw [← hback hs, heq, hback ht]

end Utf16
