import Dkg.Json.RoundTrip

/-!
What the parser accepts: strings are well-formed, keys distinct, every call has fuel enough, and
the values are those of the tokens.
-/

namespace Dkg.Json
open Revert Utf16 List

/-- The rest of a text after at least one unit. -/
def Shorter (rest text : Text) : Prop := rest <:+ text ∧ rest.length < text.length

section Shorter
variable {u : ℕ} {r s t : Text}

theorem shorter_cons (h : r <:+ t) : Shorter r (u :: t) :=
  ⟨h.trans (suffix_cons u t), Nat.lt_succ_of_le h.length_le⟩

theorem Shorter.trans_suffix (h : Shorter r s) (hst : s <:+ t) : Shorter r t :=
  ⟨h.1.trans hst, h.2.trans_le hst.length_le⟩

theorem Shorter.of_suffix (hrs : r <:+ s) (h : Shorter s t) : Shorter r t :=
  ⟨hrs.trans h.1, hrs.length_le.trans_lt h.2⟩

theorem skipWhitespace_suffix (t : Text) : skipWhitespace t <:+ t := dropWhile_suffix _

end Shorter

theorem at_ne {problem : Problem} {n : ℕ} : Err.at problem n ≠ .outOfFuel := nofun

/-- The result has the property; it is not that the fuel ran out. -/
abbrev Halts {α : Type} (P : α → Prop) : Except Err α → Prop := Ends (· ≠ .outOfFuel) P

/-- The same, with fuel enough. -/
abbrev HaltsWith {α : Type} (need fuel : ℕ) (P : α → Prop) : Except Err α → Prop :=
  Ends (fun e => need ≤ fuel → e ≠ .outOfFuel) P

section Halts
variable {α : Type} {need need' fuel fuel' : ℕ} {P : α → Prop} {x : Except Err α}

theorem Halts.with (h : Halts P x) : HaltsWith need fuel P x := h.imp fun _ he _ => he

theorem HaltsWith.of_le (h : HaltsWith need fuel P x) (hle : need' ≤ fuel' → need ≤ fuel) :
    HaltsWith need' fuel' P x :=
  h.imp fun _ he hfuel => he (hle hfuel)

theorem haltsWith_zero (h : 0 < need) : HaltsWith need 0 P (.error .outOfFuel) :=
  fun hfuel => absurd hfuel (Nat.not_le.mpr h)

end Halts

section Strings
variable {b : StringBuffer} {u : ℕ} {s rest rest' : Text}

/-- The string read so far is well-formed; a pending surrogate comes right after it. -/
structure StringBuffer.Good (b : StringBuffer) : Prop where
  wellFormed : WellFormed b.text
  pending : ∀ h, b.pendingHighSurrogate = some h → IsHigh h ∧ b.raw = []

theorem StringBuffer.Good.flushRaw (hb : b.Good) : b.flushRaw.Good := by
  refine ⟨by rw [b.flushRaw_text]; exact hb.wellFormed, fun h hh => ?_⟩
  rw [b.flushRaw_pending] at hh
  exact ⟨(hb.pending h hh).1, b.flushRaw_raw⟩

theorem StringBuffer.Good.append (hb : b.Good) (hraw : b.raw = []) {x : Text}
    (hx : WellFormed x) : WellFormed (b.appendPart x).text := by
  rw [text, appendPart_copied, appendPart_raw, hraw, append_nil]
  have hcopied := hb.wellFormed
  rw [text, hraw, append_nil] at hcopied
  exact hcopied.append hx

theorem StringBuffer.Good.appendCodeUnit (hb : b.Good) (hraw : b.raw = []) (hu : u < 0x10000)
    (rest : Text) :
    Halts (fun b' => b'.Good ∧ b'.raw = []) (b.appendCodeUnit u rest) := by
  unfold StringBuffer.appendCodeUnit
  cases hp : b.pendingHighSurrogate with
  | some h =>
    dsimp only
    split
    · exact at_ne
    · rename_i hlow
      have hpair := WellFormed.pair (hb.pending h hp).1 (not_not.mp hlow) .nil
      exact ⟨⟨hb.append hraw hpair, nofun⟩, (appendPart_raw b _).trans hraw⟩
  | none =>
    dsimp only
    split
    · rename_i hhigh
      refine ⟨⟨hb.wellFormed, fun h hh => ?_⟩, hraw⟩
      cases hh
      exact ⟨hhigh, hraw⟩
    · split
      · exact at_ne
      · rename_i hhigh hlow
        refine ⟨⟨hb.append hraw (.scalar ⟨hu, hhigh, hlow⟩ .nil), fun h hh => ?_⟩,
          (appendPart_raw b _).trans hraw⟩
        rw [appendPart_pending, hp] at hh
        cases hh

theorem hexNibble_lt {n : ℕ} (h : hexNibble u = some n) : n < 16 := by
  unfold hexNibble at h
  split_ifs at h <;> cases h <;> omega

/-- Each unit is a factor of sixteen. -/
theorem foldlM_lt {f : ℕ → ℕ → Except Err ℕ}
    (hf : ∀ value unit, Halts (· < (value + 1) * 16) (f value unit))
    (units : Text) {value bound : ℕ} (h : value < bound) :
    Halts (· < bound * 16 ^ units.length) (units.foldlM f value) := by
  induction units generalizing value bound with
  | nil =>
    rw [length_nil, Nat.pow_zero, Nat.mul_one]
    exact h
  | cons unit units ih =>
    rw [foldlM_cons, length_cons, Nat.pow_succ', ← Nat.mul_assoc]
    exact (hf value unit).bind fun next hnext => ih (by omega)

theorem parseEscapedHexCodeUnit_lt (rest : Text) :
    Halts (· < 0x10000) (parseEscapedHexCodeUnit rest) := by
  unfold parseEscapedHexCodeUnit
  split_ifs with hlen
  · exact at_ne
  · refine (foldlM_lt (fun value unit => ?_) (rest.take 4) Nat.one_pos).mono fun v hv => ?_
    · split
      · rename_i nibble hn
        have hlt := hexNibble_lt hn
        show value * 16 + nibble < (value + 1) * 16
        omega
      · exact at_ne
    · rw [length_take, min_eq_left (not_lt.mp hlen)] at hv
      exact hv

theorem simpleEscape_lt {e : ℕ} (he : simpleEscape e = some u) : u < 0x10000 := by
  unfold simpleEscape at he
  split_ifs at he <;> cases he <;> omega

/-- The loop ends before the text does, with a well-formed string. -/
theorem parseStringLoop_good (hb : b.Good) (ht : IsText rest) :
    Halts (fun r => WellFormed r.1 ∧ Shorter r.2 rest)
      (parseStringLoop b rest) := by
  fun_induction parseStringLoop b rest with
  | case1 | case2 => exact at_ne
  | case3 b rest hp =>
    exact ⟨by rw [b.join_eq]; exact hb.wellFormed, shorter_cons suffix_rfl⟩
  | case4 => exact at_ne
  | case5 b code rest _ _ _ hp ih =>
    have hcode : code < 0x10000 := ht code mem_cons_self
    refine (hb.flushRaw.appendCodeUnit b.flushRaw_raw hcode _).bind fun b' hb' => ?_
    exact (ih b' hb'.1 (ht.of_suffix (suffix_cons _ _))).mono fun r hr =>
      ⟨hr.1, shorter_cons hr.2.1⟩
  | case6 b code _ _ _ hp hhigh next rest hlow ih =>
    refine (ih ⟨?_, fun h hh => absurd hh ?_⟩ (ht.of_suffix (suffix_append [_, _] _))).mono
      fun r hr => ⟨hr.1, shorter_cons (hr.2.1.trans (suffix_cons _ _))⟩
    · rw [StringBuffer.text, ← append_assoc]
      exact hb.wellFormed.append (.pair hhigh hlow .nil)
    · rw [not_not.mp hp]
      exact (Option.some_ne_none h).symm
  | case7 b code _ _ _ hp hhigh next rest hlow ih | case8 b code _ _ _ hp hhigh ih =>
    refine (ih ⟨?_, fun h hh => ?_⟩ (ht.of_suffix (suffix_cons _ _))).mono
      fun r hr => ⟨hr.1, shorter_cons hr.2.1⟩
    · exact b.flushRaw_text.symm ▸ hb.wellFormed
    · cases hh
      exact ⟨hhigh, b.flushRaw_raw⟩
  | case9 => exact at_ne
  | case10 b code rest _ _ _ hp hhigh hlow ih =>
    have hcode : code < 0x10000 := ht code mem_cons_self
    refine (ih ⟨?_, fun h hh => absurd hh ?_⟩ (ht.of_suffix (suffix_cons _ _))).mono
      fun r hr => ⟨hr.1, shorter_cons hr.2.1⟩
    · rw [StringBuffer.text, ← append_assoc]
      exact hb.wellFormed.append (.scalar ⟨hcode, hhigh, hlow⟩ .nil)
    · rw [not_not.mp hp]
      exact (Option.some_ne_none h).symm
  | case11 => exact at_ne
  | case12 b code _ _ _ b' escape rest unit hunit ih =>
    refine (hb.flushRaw.appendCodeUnit b.flushRaw_raw (simpleEscape_lt hunit) _).bind
      fun b' hb' => ?_
    exact (ih b' hb'.1 (ht.of_suffix (suffix_append [_, _] _))).mono fun r hr =>
      ⟨hr.1, shorter_cons (hr.2.1.trans (suffix_cons _ _))⟩
  | case13 b code _ _ _ b' rest _ ih =>
    have hdrop : rest.drop 4 <:+ code :: 0x75 :: rest :=
      (drop_suffix 4 rest).trans (suffix_append [_, _] _)
    refine (parseEscapedHexCodeUnit_lt rest).bind fun unit hunit => ?_
    refine (hb.flushRaw.appendCodeUnit b.flushRaw_raw hunit _).bind fun b' hb' => ?_
    exact (ih b' hb'.1 (ht.of_suffix hdrop)).mono fun r hr => ⟨hr.1, hr.2.trans_suffix hdrop⟩
  | case14 => exact at_ne

theorem good_empty : StringBuffer.empty.Good := ⟨.nil, nofun⟩

theorem parseString_good (ht : IsText rest) :
    Halts (fun r => WellFormed r.1 ∧ Shorter r.2 rest) (parseString rest) := by
  have hdrop := drop_suffix 1 rest
  exact (parseStringLoop_good good_empty (ht.of_suffix hdrop)).mono fun r hr =>
    ⟨hr.1, hr.2.trans_suffix hdrop⟩

end Strings

section Numbers
variable {rest : Text}

theorem scanDigits_good (rest : Text) :
    Halts (fun r => Shorter r.2 rest) (scanDigits rest) := by
  unfold scanDigits
  cases rest with
  | nil => exact at_ne
  | cons u rest =>
    dsimp only
    split_ifs with hu
    · show Shorter (dropWhile isDigit (u :: rest)) (u :: rest)
      rw [dropWhile_cons_of_pos hu]
      exact shorter_cons (dropWhile_suffix _)
    · exact at_ne

theorem scanInteger_good (rest : Text) :
    Halts (fun r => Shorter r.2 rest) (scanInteger rest) := by
  unfold scanInteger
  split
  · exact shorter_cons suffix_rfl
  · exact scanDigits_good _

theorem scanFraction_good (rest : Text) :
    Halts (fun r => r.2 <:+ rest) (scanFraction rest) := by
  unfold scanFraction
  split
  · exact (scanDigits_good _).bind fun r hr => hr.1.trans (suffix_cons _ _)
  · exact suffix_rfl

theorem scanExponentSign_suffix (rest : Text) : (scanExponentSign rest).2 <:+ rest := by
  unfold scanExponentSign
  split
  · exact suffix_cons _ _
  · exact suffix_cons _ _
  · exact suffix_rfl

theorem scanExponent_good (rest : Text) :
    Halts (fun r => r.2 <:+ rest) (scanExponent rest) := by
  unfold scanExponent
  split
  · split
    · exact (scanDigits_good _).bind fun r hr =>
        (hr.1.trans (scanExponentSign_suffix _)).trans (suffix_cons _ _)
    · exact suffix_rfl
  · exact suffix_rfl

theorem scanNumber_good (rest : Text) :
    Halts (fun r => Shorter r.2 rest) (scanNumber rest) := by
  have hsign : (scanSign rest).2 <:+ rest := by
    unfold scanSign
    split
    · exact suffix_cons _ _
    · exact suffix_rfl
  refine (scanInteger_good _).bind fun r hr => ?_
  refine (scanFraction_good _).bind fun r' hr' => ?_
  refine (scanExponent_good _).bind fun r'' hr'' => ?_
  exact .of_suffix (hr''.trans hr') (hr.trans_suffix hsign)

end Numbers

section Values
variable {ν : Type} {convert : Text → Except Problem ν} {maxDepth fuel depth : ℕ} {rest : Text}
  {p : ν → Prop}

/-- A text that the parser scans as a number. -/
def IsToken (token : Text) : Prop := ∃ text rest, scanNumber text = .ok (token, rest)

/-- The numbers that the conversion gives have the property. -/
def Converts (p : ν → Prop) (convert : Text → Except Problem ν) : Prop :=
  ∀ token n, IsToken token → convert token = .ok n → p n

/-- Strings well-formed and keys distinct, and some of the text read. -/
def Accepted (p : ν → Prop) (rest : Text) (r : Value ν × Text) : Prop :=
  r.1.Valid p ∧ Shorter r.2 rest

theorem Accepted.mono {t : Text} {r : Value ν × Text} (h : Accepted p rest r) (ht : rest <:+ t) :
    Accepted p t r :=
  ⟨h.1, h.2.trans_suffix ht⟩

theorem parseNumber_good (hp : Converts p convert) (rest : Text) :
    Halts (Accepted p rest) (parseNumber convert rest) := by
  have hgood := scanNumber_good rest
  unfold parseNumber
  cases hscan : scanNumber rest with
  | error e =>
    rw [hscan] at hgood
    exact hgood
  | ok r =>
    rw [hscan] at hgood
    rw [ok_bind]
    dsimp only
    cases hconvert : convert r.1 with
    | ok n => exact ⟨hp _ _ ⟨_, _, hscan⟩ hconvert, hgood⟩
    | error problem => exact at_ne

theorem parseLiteral_good {token : Text} (htoken : token ≠ []) (rest : Text) :
    Halts (fun r => Shorter r rest) (parseLiteral token rest) := by
  unfold parseLiteral
  split_ifs with htake
  · have hpos := length_pos_iff.mpr htoken
    have hlen := congrArg length htake
    rw [length_take] at hlen
    refine ⟨drop_suffix _ _, ?_⟩
    rw [length_drop]
    omega
  · exact at_ne

theorem expect_good (u : ℕ) (rest : Text) :
    Halts (fun r => Shorter r rest) (expect u rest) := by
  unfold expect
  split
  · split
    · exact shorter_cons suffix_rfl
    · exact at_ne
  · exact at_ne

/-- The members read so far. -/
def MembersOk (p : ν → Prop) (members : List (Text × Value ν)) : Prop :=
  (Value.object members).Valid p

/-- What each function of the parser does with the fuel. -/
structure Parses (p : ν → Prop) (convert : Text → Except Problem ν) (maxDepth fuel : ℕ) :
    Prop where
  value : ∀ depth rest, IsText rest → HaltsWith (3 * rest.length + 1) fuel (Accepted p rest)
    (parseValue convert maxDepth fuel depth rest)
  object : ∀ depth rest, IsText rest → HaltsWith (3 * rest.length + 3) fuel (Accepted p rest)
    (parseObject convert maxDepth fuel depth rest)
  members : ∀ depth before rest, MembersOk p before → IsText rest →
    HaltsWith (3 * rest.length + 2) fuel (Accepted p rest)
      (parseMembers convert maxDepth fuel depth before rest)
  array : ∀ depth rest, IsText rest → HaltsWith (3 * rest.length + 3) fuel (Accepted p rest)
    (parseArray convert maxDepth fuel depth rest)
  items : ∀ depth before rest, Value.ValidItems p before → IsText rest →
    HaltsWith (3 * rest.length + 2) fuel (Accepted p rest)
      (parseItems convert maxDepth fuel depth before rest)

theorem parseItems_good (ih : Parses p convert maxDepth fuel) {before : List (Value ν)}
    (hbefore : Value.ValidItems p before) (ht : IsText rest) :
    HaltsWith (3 * rest.length + 2) (fuel + 1) (Accepted p rest)
      (parseItems convert maxDepth (fuel + 1) depth before rest) := by
  rw [parseItems]
  refine ((ih.value depth rest ht).of_le (by omega)).bind fun r hr => ?_
  have hitems : Value.ValidItems p (before ++ [r.1]) := by
    rw [Value.validItems_iff] at hbefore ⊢
    rw [forall_mem_append]
    exact ⟨hbefore, by simpa using hr.1⟩
  have hskip : Shorter (skipWhitespace r.2) rest := .of_suffix (skipWhitespace_suffix _) hr.2
  dsimp only
  split
  · rename_i heq
    rw [heq] at hskip
    exact ⟨hitems, .of_suffix (suffix_cons _ _) hskip⟩
  · refine (expect_good 0x2c _).with.bind fun r' hr' => ?_
    have hnext := (skipWhitespace_suffix r').trans (hr'.1.trans hskip.1)
    have hlen := (skipWhitespace_suffix r').length_le
    have hlen' := hr'.2
    have hlen'' := hskip.2
    exact ((ih.items depth _ _ hitems (ht.of_suffix hnext)).of_le (by omega)).mono
      fun x hx => hx.mono hnext

theorem MembersOk.append {before : List (Text × Value ν)} {key : Text} {v : Value ν}
    (h : MembersOk p before) (hkey : WellFormed key) (hnew : key ∉ before.map Prod.fst)
    (hv : v.Valid p) : MembersOk p (before ++ [(key, v)]) := by
  obtain ⟨hnodup, hmembers⟩ := h
  refine ⟨?_, ?_⟩
  · rw [map_append, nodup_append]
    refine ⟨hnodup, nodup_singleton _, fun a ha b hb hab => hnew ?_⟩
    rw [map_singleton, mem_singleton] at hb
    have hkb : b = key := hb
    rwa [← hkb, ← hab]
  · rw [Value.validMembers_iff] at hmembers ⊢
    rw [forall_mem_append]
    exact ⟨hmembers, by simpa using ⟨hkey, hv⟩⟩

theorem parseMembers_good (ih : Parses p convert maxDepth fuel) {before : List (Text × Value ν)}
    (hbefore : MembersOk p before) (ht : IsText rest) :
    HaltsWith (3 * rest.length + 2) (fuel + 1) (Accepted p rest)
      (parseMembers convert maxDepth (fuel + 1) depth before rest) := by
  rw [parseMembers]
  split
  · exact fun _ => at_ne
  · refine (parseString_good ht).with.bind fun k hk => ?_
    dsimp only
    split_ifs with hnew
    · exact fun _ => at_ne
    · refine (expect_good 0x3a _).with.bind fun r hr => ?_
      -- the rest after the colon, and after the value
      have hcolon : Shorter (skipWhitespace r) rest :=
        .of_suffix ((skipWhitespace_suffix r).trans (hr.1.trans (skipWhitespace_suffix _))) hk.2
      have hlen := hcolon.2
      refine ((ih.value depth _ (ht.of_suffix hcolon.1)).of_le (by omega)).bind fun x hx => ?_
      have hmembers := hbefore.append hk.1 hnew hx.1
      have hskip : Shorter (skipWhitespace x.2) rest :=
        .of_suffix (skipWhitespace_suffix _) (hx.2.trans_suffix hcolon.1)
      split
      · rename_i heq
        rw [heq] at hskip
        exact ⟨hmembers, .of_suffix (suffix_cons _ _) hskip⟩
      · refine (expect_good 0x2c _).with.bind fun r' hr' => ?_
        have hnext := (skipWhitespace_suffix r').trans (hr'.1.trans hskip.1)
        have hlen₁ := (skipWhitespace_suffix r').length_le
        have hlen₂ := hr'.2
        have hlen₃ := hskip.2
        exact ((ih.members depth _ _ hmembers (ht.of_suffix hnext)).of_le (by omega)).mono
          fun y hy => hy.mono hnext

theorem parseArray_good (ih : Parses p convert maxDepth fuel) (ht : IsText rest) :
    HaltsWith (3 * rest.length + 3) (fuel + 1) (Accepted p rest)
      (parseArray convert maxDepth (fuel + 1) depth rest) := by
  have hskip := skipWhitespace_suffix rest
  have hlen := hskip.length_le
  rw [parseArray]
  split
  · exact fun _ => at_ne
  · split
    · rename_i heq
      rw [heq] at hskip
      exact ⟨trivial, (shorter_cons suffix_rfl).trans_suffix hskip⟩
    · exact ((ih.items depth [] _ trivial (ht.of_suffix hskip)).of_le (by omega)).mono
        fun x hx => hx.mono hskip

theorem parseObject_good (ih : Parses p convert maxDepth fuel) (ht : IsText rest) :
    HaltsWith (3 * rest.length + 3) (fuel + 1) (Accepted p rest)
      (parseObject convert maxDepth (fuel + 1) depth rest) := by
  have hskip := skipWhitespace_suffix rest
  have hlen := hskip.length_le
  rw [parseObject]
  split
  · exact fun _ => at_ne
  · split
    · rename_i heq
      rw [heq] at hskip
      exact ⟨⟨nodup_nil, trivial⟩, (shorter_cons suffix_rfl).trans_suffix hskip⟩
    · exact ((ih.members depth [] _ ⟨nodup_nil, trivial⟩ (ht.of_suffix hskip)).of_le
        (by omega)).mono fun x hx => hx.mono hskip

theorem parseValue_good (hp : Converts p convert) (ih : Parses p convert maxDepth fuel)
    (ht : IsText rest) :
    HaltsWith (3 * rest.length + 1) (fuel + 1) (Accepted p rest)
      (parseValue convert maxDepth (fuel + 1) depth rest) := by
  rcases Nat.lt_or_ge maxDepth depth with hdeep | hd
  · rw [parseValue.eq_def]
    dsimp only
    rw [if_pos hdeep]
    exact fun _ => at_ne
  · cases rest with
    | nil =>
      rw [parseValue, if_neg (not_lt.mpr hd)]
      exact fun _ => at_ne
    | cons u rest =>
      have hrest : IsText rest := ht.of_suffix (suffix_cons _ _)
      have hopen : ∀ {x : Except Err (Value ν × Text)},
          HaltsWith (3 * rest.length + 3) fuel (Accepted p rest) x →
          HaltsWith (3 * (u :: rest).length + 1) (fuel + 1) (Accepted p (u :: rest)) x := fun h =>
        (h.of_le (by rw [length_cons]; omega)).mono fun y hy => hy.mono (suffix_cons _ _)
      have hliteral : ∀ {token : Text} {w : Value ν}, token ≠ [] → w.Valid p →
          HaltsWith (3 * (u :: rest).length + 1) (fuel + 1) (Accepted p (u :: rest))
            (parseLiteral token (u :: rest) >>= fun r => .ok (w, r)) := fun htoken hw =>
        (parseLiteral_good htoken _).with.bind fun r hr => ⟨hw, hr⟩
      rw [parseValue_cons hd]
      split_ifs
      · exact (parseString_good ht).with.bind fun r hr => hr
      · exact hopen (ih.object _ rest hrest)
      · exact hopen (ih.array _ rest hrest)
      · exact hliteral (cons_ne_nil _ _) trivial
      · exact hliteral (cons_ne_nil _ _) trivial
      · exact hliteral (cons_ne_nil _ _) trivial
      · exact (parseNumber_good hp _).with
      · exact fun _ => at_ne

theorem parses (hp : Converts p convert) (maxDepth fuel : ℕ) :
    Parses p convert maxDepth fuel := by
  induction fuel with
  | zero =>
    constructor <;> intros <;>
      simp only [parseValue, parseObject, parseMembers, parseArray, parseItems] <;>
      exact haltsWith_zero (Nat.succ_pos _)
  | succ fuel ih =>
    exact ⟨fun _ _ => parseValue_good hp ih, fun _ _ => parseObject_good ih,
      fun _ _ _ => parseMembers_good ih, fun _ _ => parseArray_good ih,
      fun _ _ _ => parseItems_good ih⟩

/-- The fuel of `parse` never runs out, and what it returns has well-formed strings and distinct
keys. -/
theorem parseText_good (hp : Converts p convert) (maxDepth : ℕ) {text : Text}
    (ht : IsText text) :
    Halts (Value.Valid p) (parseText convert maxDepth text) := by
  have hskip := skipWhitespace_suffix text
  have hlen := hskip.length_le
  refine (((parses hp maxDepth _).value 0 _ (ht.of_suffix hskip)).imp
    fun e he => he (by omega)).bind fun r hr => ?_
  dsimp only
  split
  · exact at_ne
  · exact hr.1

end Values

namespace Value
variable {ν μ : Type} (f : ν → μ)

mutual

def map : Value ν → Value μ
  | .null => .null
  | .bool b => .bool b
  | .number n => .number (f n)
  | .string s => .string s
  | .array items => .array (mapItems items)
  | .object members => .object (mapMembers members)

def mapItems : List (Value ν) → List (Value μ)
  | [] => []
  | v :: items => v.map :: mapItems items

def mapMembers : List (Text × Value ν) → List (Text × Value μ)
  | [] => []
  | (key, v) :: members => (key, v.map) :: mapMembers members

end

theorem mapItems_eq (items : List (Value ν)) : mapItems f items = items.map (map f) := by
  induction items with
  | nil => rfl
  | cons v items ih => rw [mapItems, ih, map_cons]

theorem mapMembers_eq (members : List (Text × Value ν)) :
    mapMembers f members = members.map fun m => (m.1, m.2.map f) := by
  induction members with
  | nil => rfl
  | cons m members ih =>
    obtain ⟨key, v⟩ := m
    rw [mapMembers, ih, map_cons]

end Value

section Tokens
variable {ν : Type} {convert : Text → Except Problem ν} {number : Text → ν} {maxDepth fuel : ℕ}

/-- A parse is the parse of the tokens with each converted. -/
def OfTokens (number : Text → ν) (x : Except Err (Value Text × Text))
    (y : Except Err (Value ν × Text)) : Prop :=
  ∀ v rest, y = .ok (v, rest) → ∃ tree, x = .ok (tree, rest) ∧ tree.map number = v

/-- The scanner that keeps the number tokens as they are. -/
def keep : Text → Except Problem Text := .ok

structure Tokenizes (convert : Text → Except Problem ν) (number : Text → ν)
    (maxDepth fuel : ℕ) : Prop where
  value : ∀ depth rest, OfTokens number (parseValue keep maxDepth fuel depth rest)
    (parseValue convert maxDepth fuel depth rest)
  object : ∀ depth rest, OfTokens number (parseObject keep maxDepth fuel depth rest)
    (parseObject convert maxDepth fuel depth rest)
  members : ∀ depth before rest, OfTokens number (parseMembers keep maxDepth fuel depth before rest)
    (parseMembers convert maxDepth fuel depth (Value.mapMembers number before) rest)
  array : ∀ depth rest, OfTokens number (parseArray keep maxDepth fuel depth rest)
    (parseArray convert maxDepth fuel depth rest)
  items : ∀ depth before rest, OfTokens number (parseItems keep maxDepth fuel depth before rest)
    (parseItems convert maxDepth fuel depth (Value.mapItems number before) rest)

theorem OfTokens.bind {γ : Type} {x : Except Err γ} {f : γ → Except Err (Value Text × Text)}
    {g : γ → Except Err (Value ν × Text)} (h : ∀ c, OfTokens number (f c) (g c)) :
    OfTokens number (x >>= f) (x >>= g) := by
  intro v rest hok
  obtain ⟨c, hc, hg⟩ := bind_eq_ok.mp hok
  obtain ⟨tree, hf, htree⟩ := h c v rest hg
  exact ⟨tree, bind_eq_ok.mpr ⟨c, hc, hf⟩, htree⟩

theorem OfTokens.then {x : Except Err (Value Text × Text)} {y : Except Err (Value ν × Text)}
    {f : Value Text × Text → Except Err (Value Text × Text)}
    {g : Value ν × Text → Except Err (Value ν × Text)} (hxy : OfTokens number x y)
    (h : ∀ tree rest, OfTokens number (f (tree, rest)) (g (tree.map number, rest))) :
    OfTokens number (x >>= f) (y >>= g) := by
  intro v rest hok
  obtain ⟨⟨w, rest'⟩, hw, hg⟩ := bind_eq_ok.mp hok
  obtain ⟨tree, hx, rfl⟩ := hxy w rest' hw
  obtain ⟨tree', hf, htree⟩ := h tree rest' v rest hg
  exact ⟨tree', bind_eq_ok.mpr ⟨_, hx, hf⟩, htree⟩

theorem ofTokens_ok (tree : Value Text) (rest : Text) :
    OfTokens number (.ok (tree, rest)) (.ok (tree.map number, rest)) := by
  intro v rest' hok
  cases hok
  exact ⟨tree, rfl, rfl⟩

theorem ofTokens_error {e : Err} {x : Except Err (Value Text × Text)} :
    OfTokens number x (.error e) :=
  fun _ _ hok => nomatch hok

theorem ofTokens_fail {problem : Problem} {rest : Text} {x : Except Err (Value Text × Text)} :
    OfTokens number x (fail problem rest) :=
  ofTokens_error

theorem parseNumber_ofTokens (hconvert : ∀ token n, convert token = .ok n → number token = n)
    (rest : Text) : OfTokens number (parseNumber keep rest) (parseNumber convert rest) := by
  refine .bind fun r => ?_
  dsimp only
  cases hn : convert r.1 with
  | ok n =>
    rw [← hconvert _ _ hn]
    exact ofTokens_ok (.number r.1) r.2
  | error problem => exact ofTokens_fail

theorem parseValue_ofTokens (hconvert : ∀ token n, convert token = .ok n → number token = n)
    (ih : Tokenizes convert number maxDepth fuel) (depth : ℕ) (rest : Text) :
    OfTokens number (parseValue keep maxDepth (fuel + 1) depth rest)
      (parseValue convert maxDepth (fuel + 1) depth rest) := by
  rcases Nat.lt_or_ge maxDepth depth with hdeep | hd
  · rw [parseValue.eq_def convert]
    dsimp only
    rw [if_pos hdeep]
    exact ofTokens_fail
  · cases rest with
    | nil =>
      rw [parseValue.eq_def convert]
      dsimp only
      rw [if_neg (not_lt.mpr hd)]
      exact ofTokens_fail
    | cons u rest =>
      rw [parseValue_cons hd, parseValue_cons hd]
      split_ifs
      · exact .bind fun r => ofTokens_ok (.string r.1) r.2
      · exact ih.object _ rest
      · exact ih.array _ rest
      · exact .bind fun r => ofTokens_ok (.bool true) r
      · exact .bind fun r => ofTokens_ok (.bool false) r
      · exact .bind fun r => ofTokens_ok .null r
      · exact parseNumber_ofTokens hconvert _
      · exact ofTokens_fail

theorem tokenizes (hconvert : ∀ token n, convert token = .ok n → number token = n)
    (maxDepth fuel : ℕ) : Tokenizes convert number maxDepth fuel := by
  induction fuel with
  | zero =>
    constructor <;> intros <;>
      simp only [parseValue, parseObject, parseMembers, parseArray, parseItems] <;>
      exact ofTokens_error
  | succ fuel ih =>
    constructor
    · exact parseValue_ofTokens hconvert ih
    · intro depth rest
      rw [parseObject, parseObject]
      split
      · exact ofTokens_fail
      · split
        · exact ofTokens_ok (.object []) _
        · exact ih.members depth [] _
    · intro depth before rest
      rw [parseMembers, parseMembers]
      split
      · exact ofTokens_fail
      · refine .bind fun k => ?_
        have hkeys : (Value.mapMembers number before).map Prod.fst = before.map Prod.fst := by
          rw [Value.mapMembers_eq, map_map]
          rfl
        dsimp only
        rw [hkeys]
        split
        · exact ofTokens_fail
        · refine .bind fun r => (ih.value depth _).then fun tree rest => ?_
          have hmembers : Value.mapMembers number before ++ [(k.1, tree.map number)] =
              Value.mapMembers number (before ++ [(k.1, tree)]) := by simp [Value.mapMembers_eq]
          dsimp only
          rw [hmembers]
          split
          · exact ofTokens_ok (.object _) _
          · exact .bind fun r => ih.members depth _ _
    · intro depth rest
      rw [parseArray, parseArray]
      split
      · exact ofTokens_fail
      · split
        · exact ofTokens_ok (.array []) _
        · exact ih.items depth [] _
    · intro depth before rest
      rw [parseItems, parseItems]
      refine (ih.value depth rest).then fun tree rest => ?_
      dsimp only
      have hitems : Value.mapItems number before ++ [tree.map number] =
          Value.mapItems number (before ++ [tree]) := by simp [Value.mapItems_eq]
      rw [hitems]
      split
      · exact ofTokens_ok (.array _) _
      · exact .bind fun r => ih.items depth _ _

theorem parseText_ofTokens (hconvert : ∀ token n, convert token = .ok n → number token = n)
    {text : Text} {v : Value ν} (hok : parseText convert maxDepth text = .ok v) :
    ∃ tree, parseText keep maxDepth text = .ok tree ∧ tree.map number = v := by
  obtain ⟨⟨w, rest⟩, hw, hend⟩ := bind_eq_ok.mp hok
  obtain ⟨tree, htree, rfl⟩ := (tokenizes hconvert maxDepth _).value _ _ w rest hw
  dsimp only at hend
  split_ifs at hend with hskip
  · cases hend
  · cases hend
    refine ⟨tree, ?_, rfl⟩
    rw [parseText, htree, ok_bind]
    exact if_neg hskip

end Tokens

end Dkg.Json
