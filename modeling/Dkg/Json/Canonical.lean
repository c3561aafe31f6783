import Dkg.Json.KeyOrder

/-!
Canonical JSON is a bijective encoding of the values whose numbers are safe integers.
-/

namespace Dkg.Json
open Revert Utf16 List

/-- The decimal digits, as code units. -/
def digitsOf (n : ℕ) : Text :=
  if n = 0 then [0x30] else (Nat.digits 10 n).reverse.map (0x30 + ·)

def decimal (i : ℤ) : Text := if i < 0 then 0x2d :: digitsOf i.natAbs else digitsOf i.natAbs

/-- A safe integer. -/
def InRange (i : ℤ) : Prop := i.natAbs ≤ 2 ^ 53 - 1

instance (i : ℤ) : Decidable (InRange i) := inferInstanceAs (Decidable (_ ≤ _))

/-- The exponent of a token, 0 when it has none. -/
def exponentValue : Option Text → ℤ
  | none => 0
  | some raw =>
    let (sign, digits) := scanExponentSign raw
    if sign = [0x2d] then -decimalNumber digits else decimalNumber digits

/-- The number a token stands for. -/
def tokenValue (token : Text) : ℚ :=
  let parts := splitDecimal token
  let digits := decimalNumber (parts.integerDigits ++ parts.fractionDigits)
  (if parts.negative then -1 else 1) * digits *
    (10 : ℚ) ^ (exponentValue parts.exponent - parts.fractionDigits.length)

/-- What the engine does with safe integers: they are finite, are written in decimal, and a token
that stands for one is read as it. -/
structure Integers (N : Numbers) where
  ofInt : ℤ → N.Num
  isFinite_ofInt : ∀ i, InRange i → N.isFinite (ofInt i) = true
  stringify_ofInt : ∀ i, InRange i → N.stringify (ofInt i) = decimal i
  number_decimal : ∀ i, InRange i → N.number (decimal i) = ofInt i
  number_token : ∀ token i, IsToken token → InRange i → tokenValue token = i →
    N.isFinite (N.number token) = true ∧ N.stringify (N.number token) = decimal i

section Decimal
variable {n : ℕ} {i : ℤ} {u : ℕ} {rest : Text}

theorem digitsOf_isDigit : ∀ u ∈ digitsOf n, isDigit u = true := by
  intro u hu
  unfold digitsOf at hu
  unfold isDigit
  split at hu
  · cases mem_singleton.mp hu
    rfl
  · obtain ⟨d, hd, rfl⟩ := mem_map.mp hu
    have hlt := Nat.digits_lt_base (by decide : 1 < 10) (mem_reverse.mp hd)
    exact decide_eq_true ⟨by omega, by omega⟩

/-- Zero is one digit, and other numbers do not start with it. -/
theorem digitsOf_cases (n : ℕ) : digitsOf n = [0x30] ∨ ∃ u x, digitsOf n = u :: x ∧ u ≠ 0x30 := by
  unfold digitsOf
  split_ifs with hn
  · exact .inl rfl
  · refine .inr ?_
    have hne : Nat.digits 10 n ≠ [] := Nat.digits_ne_nil_iff_ne_zero.mpr hn
    refine ⟨0x30 + (Nat.digits 10 n).getLast hne,
      (Nat.digits 10 n).dropLast.reverse.map (0x30 + ·), ?_, ?_⟩
    · conv_lhs => rw [← dropLast_append_getLast hne]
      rw [reverse_append, map_append]
      rfl
    · have hlast := Nat.getLast_digit_ne_zero 10 hn
      omega

theorem decimalNumber_digitsOf (n : ℕ) : decimalNumber (digitsOf n) = n := by
  have hfold : ∀ l : List ℕ, decimalNumber (l.reverse.map (0x30 + ·)) = Nat.ofDigits 10 l := by
    intro l
    induction l with
    | nil => rfl
    | cons d l ih =>
      unfold decimalNumber at ih ⊢
      rw [reverse_cons, map_append, foldl_append, ih, Nat.ofDigits_cons]
      simp
      omega
  unfold digitsOf
  split_ifs with hn
  · rw [hn]
    rfl
  · rw [hfold, Nat.ofDigits_digits]

theorem span_digits {x : Text} (hx : ∀ u ∈ x, isDigit u = true)
    (hrest : ∀ u, rest.head? = some u → isDigit u = false) :
    (x ++ rest).takeWhile isDigit = x ∧ (x ++ rest).dropWhile isDigit = rest := by
  have hnone : rest.takeWhile isDigit = [] ∧ rest.dropWhile isDigit = rest := by
    cases rest with
    | nil => exact ⟨rfl, rfl⟩
    | cons u rest =>
      have hu := hrest u rfl
      exact ⟨takeWhile_cons_of_neg (by simp [hu]), dropWhile_cons_of_neg (by simp [hu])⟩
  constructor
  · rw [takeWhile_append_of_pos hx, hnone.1, append_nil]
  · rw [dropWhile_append_of_pos hx, hnone.2]

theorem scanSign_of_ne (hu : u ≠ 0x2d) (rest : Text) :
    scanSign (u :: rest) = ([], u :: rest) := by
  unfold scanSign
  split
  · rename_i heq
    cases heq
    exact absurd rfl hu
  · rfl

theorem scanInteger_digitsOf (hrest : Follow rest) :
    scanInteger (digitsOf n ++ rest) = .ok (digitsOf n, rest) := by
  rcases digitsOf_cases n with hzero | ⟨u, x, hux, hu⟩
  · rw [hzero]
    rfl
  · have hdigits : ∀ w ∈ u :: x, isDigit w = true := hux ▸ digitsOf_isDigit (n := n)
    obtain ⟨htake, hdrop⟩ := span_digits hdigits fun w hw => (hrest w hw).1
    have hscan : scanInteger (u :: x ++ rest) = scanDigits (u :: x ++ rest) := by
      unfold scanInteger
      split
      · rename_i heq
        cases heq
        exact absurd rfl hu
      · rfl
    rw [hux, hscan, cons_append, scanDigits, if_pos (hdigits u mem_cons_self),
      ← cons_append, htake, hdrop]

theorem scanFraction_follow (hrest : Follow rest) : scanFraction rest = .ok ([], rest) := by
  unfold scanFraction
  split
  · exact absurd rfl (hrest _ rfl).2.1
  · rfl

theorem scanExponent_follow (hrest : Follow rest) : scanExponent rest = .ok ([], rest) := by
  unfold scanExponent
  split
  · rw [if_neg (not_or.mpr (hrest _ rfl).2.2)]
  · rfl

/-- The sign and the digits of a decimal. -/
theorem scanSign_decimal (i : ℤ) (rest : Text) :
    scanSign (decimal i ++ rest) = (if i < 0 then [0x2d] else [], digitsOf i.natAbs ++ rest) := by
  unfold decimal
  split
  · rfl
  · have hhead : ∀ u x, digitsOf i.natAbs = u :: x → u ≠ 0x2d := by
      intro u x hux heq
      have hdigit := digitsOf_isDigit (n := i.natAbs) u (hux ▸ mem_cons_self)
      rw [heq] at hdigit
      cases hdigit
    rcases digitsOf_cases i.natAbs with hzero | ⟨u, x, hux, -⟩
    · rw [hzero]
      exact scanSign_of_ne (hhead _ _ hzero) _
    · rw [hux]
      exact scanSign_of_ne (hhead _ _ hux) _

theorem scanNumber_decimal (hrest : Follow rest) :
    scanNumber (decimal i ++ rest) = .ok (decimal i, rest) := by
  rw [scanNumber, scanSign_decimal]
  dsimp only
  rw [scanInteger_digitsOf hrest, ok_bind, scanFraction_follow hrest, ok_bind,
    scanExponent_follow hrest, ok_bind, append_nil, append_nil, decimal]
  split <;> rfl

theorem splitDecimal_decimal (i : ℤ) :
    splitDecimal (decimal i) = ⟨decide (i < 0), digitsOf i.natAbs, [], none⟩ := by
  have hsign := scanSign_decimal i []
  obtain ⟨htake, hdrop⟩ := span_digits (digitsOf_isDigit (n := i.natAbs))
    (fun u (hu : ([] : Text).head? = some u) => by cases hu)
  rw [append_nil, append_nil] at hsign
  rw [append_nil] at htake hdrop
  rw [splitDecimal, hsign]
  dsimp only
  rw [span_eq_takeWhile_dropWhile, htake, hdrop]
  dsimp only
  by_cases hi : i < 0
  · simp [hi]
  · simp [hi]

theorem sameExactDecimalValue_decimal (i : ℤ) :
    sameExactDecimalValue (decimal i) (decimal i) = true := by
  have hsome : ∃ d, normalizeDecimalToken (decimal i) = some d := by
    rw [normalizeDecimalToken, splitDecimal_decimal]
    dsimp only
    split
    · exact ⟨_, rfl⟩
    · exact ⟨_, rfl⟩
  obtain ⟨d, hd⟩ := hsome
  rw [sameExactDecimalValue, hd]
  exact decide_eq_true rfl

/-- The decimal of an integer stands for it. -/
theorem tokenValue_decimal (i : ℤ) : tokenValue (decimal i) = i := by
  rw [tokenValue, splitDecimal_decimal]
  simp only [append_nil, decimalNumber_digitsOf, exponentValue, length_nil,
    Nat.cast_zero, sub_zero, zpow_zero, mul_one]
  by_cases hi : i < 0
  · have habs : ((i.natAbs : ℤ) : ℚ) = -i := by
      rw [Int.ofNat_natAbs_of_nonpos (by omega)]
      push_cast
      rfl
    rw [if_pos (decide_eq_true hi), ← Int.cast_natCast, habs]
    ring
  · rw [if_neg (by simpa using hi), ← Int.cast_natCast, Int.natAbs_of_nonneg (by omega), one_mul]

theorem decimal_ascii (i : ℤ) : ∀ u ∈ decimal i, u < 0x80 := by
  have hdigits : ∀ u ∈ digitsOf i.natAbs, u < 0x80 := by
    intro u hu
    have hdigit := of_decide_eq_true (digitsOf_isDigit u hu)
    omega
  unfold decimal
  split
  · exact forall_mem_cons.mpr ⟨by decide, hdigits⟩
  · exact hdigits

theorem decimal_head (i : ℤ) : ∃ u x, decimal i = u :: x ∧ (u = 0x2d ∨ 0x30 ≤ u ∧ u ≤ 0x39) := by
  unfold decimal
  split
  · exact ⟨_, _, rfl, .inl rfl⟩
  · have hhead : ∀ u x, digitsOf i.natAbs = u :: x → 0x30 ≤ u ∧ u ≤ 0x39 := fun u x hux =>
      of_decide_eq_true (digitsOf_isDigit (n := i.natAbs) u (hux ▸ mem_cons_self))
    rcases digitsOf_cases i.natAbs with hzero | ⟨u, x, hux, -⟩
    · exact ⟨_, _, hzero, .inr (hhead _ _ hzero)⟩
    · exact ⟨u, x, hux, .inr (hhead _ _ hux)⟩

end Decimal

section Numbers
variable {N : Numbers} (I : Integers N)

/-- The number is a safe integer. -/
def IsInteger (n : N.Num) : Prop := ∃ i, InRange i ∧ n = I.ofInt i

theorem toNumber_number (N : Numbers) (token : Text) (n : N.Num) (hok : toNumber N token = .ok n) :
    N.number token = n := by
  obtain ⟨_, -, hok⟩ := bind_eq_ok.mp hok
  obtain ⟨_, -, hok⟩ := bind_eq_ok.mp hok
  exact Except.ok.inj hok

theorem isInteger_writable (n : N.Num) (hn : IsInteger I n) :
    N.isFinite n = true ∧ ∀ u ∈ N.stringify n, u < 0x80 := by
  obtain ⟨i, hi, rfl⟩ := hn
  rw [I.stringify_ofInt i hi]
  exact ⟨I.isFinite_ofInt i hi, decimal_ascii i⟩

theorem readsNumbers : ReadsNumbers (toNumber N) N.stringify (IsInteger I) := by
  rintro n ⟨i, hi, rfl⟩
  rw [I.stringify_ofInt i hi]
  refine ⟨decimal_head i, fun rest hrest => ?_⟩
  have hconvert : toNumber N (decimal i) = .ok (I.ofInt i) := by
    rw [toNumber, I.number_decimal i hi, require_of (I.isFinite_ofInt i hi), ok_bind, I.stringify_ofInt i hi,
      require_of (sameExactDecimalValue_decimal i), ok_bind]
    rfl
  rw [parseNumber, scanNumber_decimal hrest, ok_bind]
  dsimp only
  rw [hconvert]
  rfl

end Numbers

/-- Numbers with the property are written in ASCII and read back. -/
structure Writable (N : Numbers) (p : N.Num → Prop) : Prop where
  writes : ∀ n, p n → N.isFinite n = true ∧ ∀ u ∈ N.stringify n, u < 0x80
  reads : ReadsNumbers (toNumber N) N.stringify p

/-- Values without numbers need nothing. -/
theorem writable_none (N : Numbers) : Writable N fun _ => False :=
  ⟨fun _ h => h.elim, fun _ h => h.elim⟩

theorem writable_integers {N : Numbers} (I : Integers N) : Writable N (IsInteger I) :=
  ⟨isInteger_writable I, readsNumbers I⟩

section Codec
variable {N : Numbers} {options : Options} {limits : Limits} {v w : Value N.Num} {t : Text}
  {p : N.Num → Prop}

/-- The canonical text is short enough, and the containers are not nested too deep. -/
def Fits (limits : Limits) (v : Value N.Num) : Prop :=
  (utf8 (v.render N.stringify)).length ≤ limits.maxBytes ∧ v.depth ≤ limits.maxDepth

theorem canonicalizeJson_iff (hp : Writable N p) (hlimits : resolveLimits options = .ok limits)
    (hv : v.Valid p) :
    canonicalizeJson N v options = .ok t ↔ t = v.render N.stringify ∧ Fits limits v :=
  canonicalizeJson_ok hp.writes hv hlimits t

theorem parseJsonStrict_render (hp : Writable N p) (hlimits : resolveLimits options = .ok limits)
    (hv : v.Valid p) (hfits : Fits limits v) :
    parseJsonStrict N (v.render N.stringify) options = .ok v.normalize := by
  obtain ⟨u, rest, hopen, hu, -⟩ := render_opens hp.reads hv
  have hmark : (v.render N.stringify).head? ≠ some 0xfeff := by
    rw [hopen, head?_cons]
    intro heq
    cases heq
    exact absurd hu (by decide)
  rw [parseJsonStrict, hlimits, ok_bind, require_of (not_lt.mpr hfits.1), ok_bind,
    require_of hmark, ok_bind]
  exact parseText_render hp.reads hv hfits.2

theorem fits_normalize (hv : v.Valid p) (hfits : Fits limits v) : Fits limits v.normalize := by
  unfold Fits
  rw [Value.render_normalize hv, Value.depth_normalize]
  exact hfits

theorem parseCanonicalJson_render (hp : Writable N p)
    (hlimits : resolveLimits options = .ok limits) (hv : v.Valid p) (hfits : Fits limits v) :
    parseCanonicalJson N (v.render N.stringify) options = .ok v.normalize := by
  have htext := (canonicalizeJson_iff hp hlimits (Value.valid_normalize hv)).mpr
    ⟨rfl, fits_normalize hv hfits⟩
  rw [Value.render_normalize hv] at htext
  rw [parseCanonicalJson, parseJsonStrict_render hp hlimits hv hfits, ok_bind, htext, ok_bind,
    require_of rfl]
  rfl

/-- Reading the text of a value that was read gives it again. -/
theorem normalize_normalize (hp : Writable N p) (hv : v.Valid p) :
    v.normalize.normalize = v.normalize :=
  (Value.normalize_eq_of_render hp.reads hv (Value.valid_normalize hv)
    (Value.render_normalize hv).symm).symm

end Codec

section Integers
variable {N : Numbers} (I : Integers N) {options : Options} {limits : Limits} {v w : Value N.Num}
  {t : Text}

/-- A JSON value whose numbers are safe integers. -/
def Plain (v : Value N.Num) : Prop := v.Valid (IsInteger I)

/-- The number tokens of the text are safe integers. -/
def IntegerTokens (maxDepth : ℕ) (t : Text) : Prop :=
  ∀ tree, parseText keep maxDepth t = .ok tree →
    ∀ token ∈ tree.numbers, ∃ i : ℤ, InRange i ∧ tokenValue token = i

variable (hlimits : resolveLimits options = .ok limits)
include hlimits

/-- What `parseCanonicalJson` accepts is the text of a value, when its numbers are integers. -/
theorem parseCanonicalJson_plain (ht : IsText t) (htokens : IntegerTokens limits.maxDepth t)
    (hok : parseCanonicalJson N t options = .ok v) :
    ∃ w, Plain I w ∧ canonicalizeJson N w options = .ok t := by
  obtain ⟨v', hparse, hok⟩ := bind_eq_ok.mp hok
  obtain ⟨text, hcanonical, hok⟩ := bind_eq_ok.mp hok
  obtain ⟨_, heq, -⟩ := bind_eq_ok.mp hok
  cases require_eq_ok.mp heq
  rw [parseJsonStrict, hlimits, ok_bind] at hparse
  obtain ⟨_, -, hparse⟩ := bind_eq_ok.mp hparse
  obtain ⟨_, -, hparse⟩ := bind_eq_ok.mp hparse
  obtain ⟨tree, htree, rfl⟩ := parseText_ofTokens (toNumber_number N) hparse
  have hvalid : tree.Valid IsToken := by
    have hkeep : Converts IsToken keep := by
      intro token n htoken hn
      cases hn
      exact htoken
    have hgood := parseText_good hkeep limits.maxDepth ht
    rw [htree] at hgood
    exact hgood
  have hread : ∀ token ∈ tree.numbers, InRange (tokenValue token).num ∧
      N.isFinite (N.number token) = true ∧
        N.stringify (N.number token) = decimal (tokenValue token).num := by
    intro token hmem
    obtain ⟨i, hi, hvalue⟩ := htokens tree htree token hmem
    rw [hvalue, Rat.num_intCast]
    exact ⟨hi, I.number_token token i (hvalid.numbers token hmem) hi hvalue⟩
  have hwritable : (tree.map N.number).Valid fun n =>
      N.isFinite n = true ∧ ∀ u ∈ N.stringify n, u < 0x80 := by
    refine Value.valid_map hvalid fun token hmem => ?_
    obtain ⟨-, hfinite, htext⟩ := hread token hmem
    rw [htext]
    exact ⟨hfinite, decimal_ascii _⟩
  obtain ⟨htext, hfits⟩ := (canonicalizeJson_ok (fun _ h => h) hwritable hlimits t).mp hcanonical
  -- the integers the tokens stand for
  have hplain : Plain I (tree.map fun token => I.ofInt (tokenValue token).num) :=
    Value.valid_map hvalid fun token hmem => ⟨_, (hread token hmem).1, rfl⟩
  have hrender : (tree.map fun token => I.ofInt (tokenValue token).num).render N.stringify =
      (tree.map N.number).render N.stringify := by
    rw [Value.render_map, Value.render_map]
    refine Value.render_congr fun token hmem => ?_
    obtain ⟨hrange, -, htext⟩ := hread token hmem
    exact (I.stringify_ofInt _ hrange).trans htext.symm
  refine ⟨_, hplain, (canonicalizeJson_iff (writable_integers I) hlimits hplain).mpr ⟨?_, ?_⟩⟩
  · rw [hrender, htext]
  · rw [Fits, hrender, Value.depth_map, ← Value.depth_map]
    exact hfits

/-- Canonical JSON encodes the values with safe integers bijectively, up to the order of keys. -/
theorem canonicalizeJson_bijective :
    (∀ v, Plain I v → ((∃ t, canonicalizeJson N v options = .ok t) ↔ Fits limits v) ∧
      ∀ t, canonicalizeJson N v options = .ok t → t = v.render N.stringify ∧
        ∃ w, parseJsonStrict N t options = .ok w ∧ parseCanonicalJson N t options = .ok w ∧
          w.Same v) ∧
    (∀ v w t t', Plain I v → Plain I w → canonicalizeJson N v options = .ok t →
      canonicalizeJson N w options = .ok t' → (t = t' ↔ v.Same w)) ∧
    ∀ t, IsText t → IntegerTokens limits.maxDepth t →
      ((∃ v, parseCanonicalJson N t options = .ok v) ↔
        ∃ v, Plain I v ∧ canonicalizeJson N v options = .ok t) := by
  have hp := writable_integers I
  refine ⟨fun v hv => ⟨?_, fun t ht => ?_⟩, fun v w t t' hv hw ht ht' => ?_,
    fun t ht htokens => ⟨?_, ?_⟩⟩
  · simp only [canonicalizeJson_iff hp hlimits hv, exists_eq_left]
  · obtain ⟨rfl, hfits⟩ := (canonicalizeJson_iff hp hlimits hv).mp ht
    exact ⟨rfl, v.normalize, parseJsonStrict_render hp hlimits hv hfits,
      parseCanonicalJson_render hp hlimits hv hfits,
      (Value.normalize_eq_iff (Value.valid_normalize hv) hv).mp (normalize_normalize hp hv)⟩
  · obtain ⟨rfl, hfits⟩ := (canonicalizeJson_iff hp hlimits hv).mp ht
    obtain ⟨rfl, hfits'⟩ := (canonicalizeJson_iff hp hlimits hw).mp ht'
    rw [← Value.normalize_eq_iff hv hw]
    constructor
    · intro heq
      have hread := parseJsonStrict_render hp hlimits hv hfits
      rw [heq, parseJsonStrict_render hp hlimits hw hfits'] at hread
      exact (Except.ok.inj hread).symm
    · intro heq
      rw [← Value.render_normalize hv, heq, Value.render_normalize hw]
  · rintro ⟨v, hv⟩
    exact parseCanonicalJson_plain I hlimits ht htokens hv
  · rintro ⟨v, hv, hok⟩
    obtain ⟨rfl, hfits⟩ := (canonicalizeJson_iff hp hlimits hv).mp hok
    exact ⟨_, parseCanonicalJson_render hp hlimits hv hfits⟩

end Integers

/-- The integers as the engine's numbers. -/
def integerNumbers : Numbers where
  Num := ℤ
  number token := (tokenValue token).num
  isFinite _ := true
  stringify := decimal

def integerNumbersLaws : Integers integerNumbers where
  ofInt := id
  isFinite_ofInt _ _ := rfl
  stringify_ofInt _ _ := rfl
  number_decimal i _ := by
    show (tokenValue (decimal i)).num = i
    rw [tokenValue_decimal, Rat.num_intCast]
  number_token token i _ _ hvalue := by
    refine ⟨rfl, ?_⟩
    show decimal (tokenValue token).num = decimal i
    rw [hvalue, Rat.num_intCast]

/-- An object with keys `b` and `a` in either order. -/
def twoKeys (swapped : Bool) : Value ℤ :=
  let b : Text × Value ℤ := ([0x62], .array [.number (-12), .number 7])
  let a : Text × Value ℤ := ([0x61], .string [0x0a])
  .object (if swapped then [a, b] else [b, a])

theorem twoKeys_plain (swapped : Bool) : Plain integerNumbersLaws (twoKeys swapped) := by
  have hnumbers : IsInteger integerNumbersLaws (-12 : ℤ) ∧ IsInteger integerNumbersLaws (7 : ℤ) :=
    ⟨⟨-12, by decide, rfl⟩, ⟨7, by decide, rfl⟩⟩
  have htext : ∀ u < 0x80, WellFormed [u] := fun u hu =>
    .of_forall_lt (by simpa using (by omega : u < 0xd800))
  cases swapped with
  | false => exact ⟨by decide, htext _ (by decide), ⟨hnumbers.1, hnumbers.2, trivial⟩,
      htext _ (by decide), htext _ (by decide), trivial⟩
  | true => exact ⟨by decide, htext _ (by decide), htext _ (by decide),
      htext _ (by decide), ⟨hnumbers.1, hnumbers.2, trivial⟩, trivial⟩

theorem twoKeys_fits (swapped : Bool) : Fits (N := integerNumbers) ⟨64, 2⟩ (twoKeys swapped) := by
  cases swapped with
  | false | true => exact ⟨by decide +kernel, by decide⟩

theorem canonicalizeJson_bijective_twoKeys :
    ∃ t, (canonicalizeJson integerNumbers (twoKeys false) ⟨some 64, some 2⟩ = .ok t ∧
      canonicalizeJson integerNumbers (twoKeys true) ⟨some 64, some 2⟩ = .ok t) ∧
      ∃ w, parseCanonicalJson integerNumbers t ⟨some 64, some 2⟩ = .ok w ∧
        w.Same (twoKeys false) := by
  have hlimits : resolveLimits ⟨some 64, some 2⟩ = .ok ⟨64, 2⟩ := rfl
  obtain ⟨hencode, hsame, -⟩ := canonicalizeJson_bijective integerNumbersLaws hlimits
  obtain ⟨t, ht⟩ := (hencode _ (twoKeys_plain false)).1.mpr (twoKeys_fits false)
  obtain ⟨t', ht'⟩ := (hencode _ (twoKeys_plain true)).1.mpr (twoKeys_fits true)
  obtain ⟨-, w, -, hread, hw⟩ := (hencode _ (twoKeys_plain false)).2 t ht
  have heq : t = t' := (hsame _ _ t t' (twoKeys_plain false) (twoKeys_plain true) ht ht').mpr
    ⟨_, .swap _ _ _, rfl, ⟨rfl, rfl, trivial⟩, rfl, rfl, trivial⟩
  exact ⟨t, ⟨ht, heq ▸ ht'⟩, w, hread, hw⟩

end Dkg.Json
