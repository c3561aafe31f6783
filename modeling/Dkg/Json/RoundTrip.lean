import Dkg.Json.Render
import Dkg.Json.Parser

/-!
The parser reads the canonical text of a value back, strings and escapes included.
-/

namespace Dkg.Json
open Revert Utf16 List

namespace StringBuffer
variable {b : StringBuffer} {u : ℕ} {x rest : Text}

/-- The part of the string that is copied out of the text. -/
def copied (b : StringBuffer) : Text := b.chunks.flatten ++ b.parts.flatten

/-- The string read so far. -/
def text (b : StringBuffer) : Text := b.copied ++ b.raw

theorem flushParts_copied (b : StringBuffer) : b.flushParts.copied = b.copied := by
  unfold flushParts
  split
  · rfl
  · simp [copied]

theorem flushParts_pending (b : StringBuffer) :
    b.flushParts.pendingHighSurrogate = b.pendingHighSurrogate := by
  unfold flushParts
  split <;> rfl

theorem flushParts_raw (b : StringBuffer) : b.flushParts.raw = b.raw := by
  unfold flushParts
  split <;> rfl

theorem appendPart_copied (b : StringBuffer) (x : Text) :
    (b.appendPart x).copied = b.copied ++ x := by
  unfold appendPart
  dsimp only
  split
  · rename_i hempty
    rw [eq_nil_of_length_eq_zero hempty, append_nil]
  · split
    · rw [flushParts_copied]
      simp [copied]
    · simp [copied]

theorem appendPart_pending (b : StringBuffer) (x : Text) :
    (b.appendPart x).pendingHighSurrogate = b.pendingHighSurrogate := by
  unfold appendPart
  dsimp only
  split
  · rfl
  · split
    · exact flushParts_pending _
    · rfl

theorem appendPart_raw (b : StringBuffer) (x : Text) : (b.appendPart x).raw = b.raw := by
  unfold appendPart
  dsimp only
  split
  · rfl
  · split
    · exact flushParts_raw _
    · rfl

theorem flushRaw_raw (b : StringBuffer) : b.flushRaw.raw = [] := by
  unfold flushRaw
  split_ifs with hempty
  · rfl
  · exact eq_nil_of_length_eq_zero (Nat.eq_zero_of_not_pos hempty)

theorem flushRaw_pending (b : StringBuffer) :
    b.flushRaw.pendingHighSurrogate = b.pendingHighSurrogate := by
  unfold flushRaw
  split
  · exact appendPart_pending _ _
  · rfl

theorem flushRaw_copied (b : StringBuffer) : b.flushRaw.copied = b.text := by
  unfold flushRaw
  split_ifs with hempty
  · exact appendPart_copied b b.raw
  · rw [text, eq_nil_of_length_eq_zero (Nat.eq_zero_of_not_pos hempty), append_nil]

theorem flushRaw_text (b : StringBuffer) : b.flushRaw.text = b.text := by
  rw [text, flushRaw_raw, flushRaw_copied, append_nil]

theorem join_eq (b : StringBuffer) : b.join = b.text := by
  have hparts : ∀ c : StringBuffer, c.flushParts.chunks.flatten = c.copied := by
    intro c
    unfold flushParts copied
    split_ifs with hempty
    · rw [eq_nil_of_length_eq_zero hempty, flatten_nil, append_nil]
    · simp
  rw [join, hparts, flushRaw_copied]

/-- A unit that is a character is appended. -/
theorem appendCodeUnit_scalar (hb : b.pendingHighSurrogate = none) (hu : IsScalar u)
    (rest : Text) : b.appendCodeUnit u rest = .ok (b.appendPart [u]) := by
  rw [appendCodeUnit, hb]
  simp only [if_neg hu.2.1, if_neg hu.2.2]

end StringBuffer

section Strings
variable {b : StringBuffer} {u h l : ℕ} {s rest : Text}

theorem loop_raw (hb : b.pendingHighSurrogate = none) (hu : IsScalar u) (he : escaped u = none)
    (rest : Text) :
    parseStringLoop b (u :: rest) = parseStringLoop { b with raw := b.raw ++ [u] } rest := by
  have hplain : u ≠ 0x22 ∧ u ≠ 0x5c ∧ ¬u < 0x20 := by
    unfold escaped at he
    split_ifs at he
    omega
  rw [parseStringLoop.eq_def]
  simp only [if_neg hplain.1, if_neg hplain.2.2, if_pos hplain.2.1, hb, ne_eq, not_true_eq_false,
    if_false, if_neg hu.2.1, if_neg hu.2.2]

theorem loop_pair (hb : b.pendingHighSurrogate = none) (hh : IsHigh h) (hl : IsLow l)
    (rest : Text) :
    parseStringLoop b (h :: l :: rest) =
      parseStringLoop { b with raw := b.raw ++ [h, l] } rest := by
  have hplain : h ≠ 0x22 ∧ h ≠ 0x5c ∧ ¬h < 0x20 := by
    unfold IsHigh at hh
    omega
  rw [parseStringLoop.eq_def]
  simp only [if_neg hplain.1, if_neg hplain.2.2, if_pos hplain.2.1, hb, ne_eq, not_true_eq_false,
    if_false, if_pos hh, if_pos hl]

theorem loop_escape {e : ℕ} (he : simpleEscape e = some u) (rest : Text) :
    parseStringLoop b (0x5c :: e :: rest) =
      b.flushRaw.appendCodeUnit u rest >>= fun b => parseStringLoop b rest := by
  rw [parseStringLoop.eq_def]
  simp [he]

theorem loop_unicode (rest : Text) :
    parseStringLoop b (0x5c :: 0x75 :: rest) = parseEscapedHexCodeUnit rest >>= fun u =>
        b.flushRaw.appendCodeUnit u (rest.drop 4) >>= fun b => parseStringLoop b (rest.drop 4) := by
  rw [parseStringLoop.eq_def]
  simp [simpleEscape]

theorem hexNibble_hexDigit {n : ℕ} (hn : n < 16) : hexNibble (hexDigit n) = some n := by
  unfold hexDigit
  split
  · rw [hexNibble, if_pos (by omega), Nat.add_sub_cancel_left]
  · rw [hexNibble, if_neg (by omega), if_neg (by omega), if_pos (by omega)]
    exact congrArg some (by omega)

theorem parseEscapedHexCodeUnit_padded (hu : u < 0x100) (rest : Text) :
    parseEscapedHexCodeUnit (0x30 :: 0x30 :: hexDigit (u / 16) :: hexDigit (u % 16) :: rest) =
      .ok u := by
  have hzero : hexNibble 0x30 = some 0 := rfl
  have hhigh := hexNibble_hexDigit (n := u / 16) (by omega)
  have hlow := hexNibble_hexDigit (n := u % 16) (by omega)
  rw [parseEscapedHexCodeUnit, if_neg (by simp)]
  simp only [take_succ_cons, take_zero, foldlM_cons, foldlM_nil, hzero, hhigh, hlow, ok_bind]
  exact congrArg Except.ok (by omega)

/-- An escape is a short one or a padded code. -/
theorem escaped_cases {e : Text} (he : escaped u = some e) :
    (∃ c, e = [0x5c, c] ∧ simpleEscape c = some u) ∨
      e = [0x5c, 0x75, 0x30, 0x30, hexDigit (u / 16), hexDigit (u % 16)] := by
  unfold escaped at he
  split_ifs at he with h₁ h₂ h₃ h₄ h₅ h₆ h₇ h₈ <;> cases he
  · exact .inl ⟨_, rfl, by rw [h₁]; rfl⟩
  · exact .inl ⟨_, rfl, by rw [h₂]; rfl⟩
  · exact .inl ⟨_, rfl, by rw [h₃]; rfl⟩
  · exact .inl ⟨_, rfl, by rw [h₄]; rfl⟩
  · exact .inl ⟨_, rfl, by rw [h₅]; rfl⟩
  · exact .inl ⟨_, rfl, by rw [h₆]; rfl⟩
  · exact .inl ⟨_, rfl, by rw [h₇]; rfl⟩
  · exact .inr rfl

theorem lt_of_escaped {e : Text} (he : escaped u = some e) : u < 0x80 := by
  by_contra hge
  rw [escaped_eq_none (by omega)] at he
  cases he

/-- The escape of a unit is read as the unit. -/
theorem loop_escaped {e : Text} (hb : b.pendingHighSurrogate = none) (he : escaped u = some e)
    (rest : Text) :
    parseStringLoop b (e ++ rest) = parseStringLoop (b.flushRaw.appendPart [u]) rest := by
  have hsmall := lt_of_escaped he
  have happend : ∀ rest, b.flushRaw.appendCodeUnit u rest = .ok (b.flushRaw.appendPart [u]) :=
    StringBuffer.appendCodeUnit_scalar (b.flushRaw_pending.trans hb) (.of_lt (by omega))
  rcases escaped_cases he with ⟨c, rfl, hc⟩ | rfl
  · rw [cons_append, cons_append, nil_append, loop_escape hc, happend, ok_bind]
  · simp only [cons_append, nil_append]
    rw [loop_unicode, parseEscapedHexCodeUnit_padded (by omega), ok_bind, happend, ok_bind]
    rfl

/-- The loop reads an escaped string up to the closing quote. -/
theorem parseStringLoop_escaped (hs : WellFormed s) (b : StringBuffer)
    (hb : b.pendingHighSurrogate = none) (rest : Text) :
    parseStringLoop b (s.flatMap escapeUnit ++ 0x22 :: rest) = .ok (b.text ++ s, rest) := by
  induction hs generalizing b with
  | nil =>
    rw [flatMap_nil, nil_append, parseStringLoop.eq_def]
    dsimp only
    rw [if_pos rfl, if_neg (not_not.mpr hb), b.join_eq, append_nil]
  | @scalar u s hu _ ih =>
    rw [flatMap_cons, append_assoc, escapeUnit]
    cases he : escaped u with
    | some e =>
      rw [Option.getD_some, loop_escaped hb he, ih _ (by
        rw [StringBuffer.appendPart_pending, b.flushRaw_pending, hb])]
      rw [StringBuffer.text, StringBuffer.appendPart_copied, StringBuffer.appendPart_raw,
        b.flushRaw_copied, b.flushRaw_raw]
      simp
    | none =>
      rw [Option.getD_none, singleton_append, loop_raw hb hu he,
        ih { b with raw := b.raw ++ [u] } hb]
      simp [StringBuffer.text, StringBuffer.copied]
  | @pair h l s hh hl _ ih =>
    have hhigh : escaped h = none := escaped_eq_none (by unfold IsHigh at hh; omega)
    have hlow : escaped l = none := escaped_eq_none (by unfold IsLow at hl; omega)
    simp only [flatMap_cons, escapeUnit, hhigh, hlow, Option.getD_none, cons_append, nil_append]
    rw [loop_pair hb hh hl, ih { b with raw := b.raw ++ [h, l] } hb]
    simp [StringBuffer.text, StringBuffer.copied]

theorem parseString_quote (hs : WellFormed s) (rest : Text) :
    parseString (quote s ++ rest) = .ok (s, rest) := by
  have hloop := parseStringLoop_escaped hs .empty rfl rest
  rw [parseString, quote, append_assoc, append_assoc]
  exact hloop

end Strings

/-- The text cannot go on with more of a number. -/
def Follow (rest : Text) : Prop :=
  ∀ u, rest.head? = some u → isDigit u = false ∧ u ≠ 0x2e ∧ u ≠ 0x65 ∧ u ≠ 0x45

/-- The text of a value starts so that no container ends and no whitespace is skipped. -/
def Opens (t : Text) : Prop :=
  ∃ u rest, t = u :: rest ∧ u < 0x80 ∧ isWhitespace u = false ∧ u ≠ 0x5d ∧ u ≠ 0x7d

theorem skipWhitespace_of_head {u : ℕ} (hu : isWhitespace u = false) (rest : Text) :
    skipWhitespace (u :: rest) = u :: rest := by
  rw [skipWhitespace, dropWhile_cons_of_neg (by simp [hu])]

theorem follow_of_head {u : ℕ} {rest : Text}
    (hu : isDigit u = false ∧ u ≠ 0x2e ∧ u ≠ 0x65 ∧ u ≠ 0x45) : Follow (u :: rest) := by
  intro w hw
  cases hw
  exact hu

theorem skipWhitespace_separated {t : Text} {parts : List Text} (h : Opens t) (rest : Text) :
    skipWhitespace (separated (t :: parts) ++ rest) = separated (t :: parts) ++ rest := by
  obtain ⟨u, x, rfl, -, hu, -⟩ := h
  cases parts with
  | nil => exact skipWhitespace_of_head hu _
  | cons y parts =>
    simp only [separated, cons_append]
    exact skipWhitespace_of_head hu _

theorem separated_head {t : Text} (h : Opens t) (parts : List Text) (rest : Text) :
    ∃ u x, separated (t :: parts) ++ rest = u :: x ∧ u ≠ 0x5d ∧ u ≠ 0x7d := by
  obtain ⟨u, x, rfl, -, -, hu⟩ := h
  cases parts with
  | nil | cons y parts => exact ⟨u, _, rfl, hu⟩

theorem Opens.skipWhitespace {t : Text} (h : Opens t) (rest : Text) :
    skipWhitespace (t ++ rest) = t ++ rest := by
  obtain ⟨u, x, rfl, -, hu, -⟩ := h
  exact skipWhitespace_of_head hu _

namespace Value
variable {ν : Type}

mutual

/-- The same value with its keys in ascending order. -/
def normalize : Value ν → Value ν
  | .array items => .array (normalizeItems items)
  | .object members => .object (sortMembers (normalizeMembers members))
  | v => v

def normalizeItems : List (Value ν) → List (Value ν)
  | [] => []
  | v :: items => v.normalize :: normalizeItems items

def normalizeMembers : List (Text × Value ν) → List (Text × Value ν)
  | [] => []
  | (key, v) :: members => (key, v.normalize) :: normalizeMembers members

end

theorem normalizeItems_eq (items : List (Value ν)) :
    normalizeItems items = items.map normalize := by
  induction items with
  | nil => rfl
  | cons v items ih => rw [normalizeItems, ih, map_cons]

theorem normalizeMembers_eq (members : List (Text × Value ν)) :
    normalizeMembers members = members.map fun m => (m.1, m.2.normalize) := by
  induction members with
  | nil => rfl
  | cons m members ih =>
    obtain ⟨key, v⟩ := m
    rw [normalizeMembers, ih, map_cons]

end Value

section Values
variable {ν : Type} {convert : Text → Except Problem ν} {maxDepth : ℕ} {stringify : ν → Text}
  {p : ν → Prop} {fuel depth : ℕ}

/-- The parser reads a number of the kind `p` back from its text. -/
def ReadsNumbers (convert : Text → Except Problem ν) (stringify : ν → Text) (p : ν → Prop) :
    Prop :=
  ∀ n, p n → (∃ u rest, stringify n = u :: rest ∧ (u = 0x2d ∨ 0x30 ≤ u ∧ u ≤ 0x39)) ∧
    ∀ rest, Follow rest → parseNumber convert (stringify n ++ rest) = .ok (.number n, rest)

theorem render_opens (hnum : ReadsNumbers convert stringify p) {v : Value ν} (hv : v.Valid p) :
    Opens (v.render stringify) := by
  cases v with
  | null => exact ⟨_, _, rfl, by decide⟩
  | bool b => cases b <;> exact ⟨_, _, rfl, by decide⟩
  | number n =>
    obtain ⟨u, rest, hu, hdigit⟩ := (hnum n hv).1
    refine ⟨u, rest, hu, by omega, ?_, by omega, by omega⟩
    simp only [isWhitespace, Bool.or_eq_false_iff, beq_eq_false_iff_ne]
    omega
  | string s | array items | object members => exact ⟨_, _, rfl, by decide⟩

/-- The parser returns the value with its keys in order, wherever the text stands. -/
def Reads (convert : Text → Except Problem ν) (maxDepth : ℕ) (stringify : ν → Text)
    (v : Value ν) : Prop :=
  ∀ fuel depth rest, 3 * (v.render stringify).length + 1 ≤ fuel → depth + v.depth ≤ maxDepth →
    Follow rest →
    parseValue convert maxDepth fuel depth (v.render stringify ++ rest) = .ok (v.normalize, rest)

theorem parseItems_render {items : List (Value ν)} (hne : items ≠ [])
    (hreads : ∀ v ∈ items, Reads convert maxDepth stringify v)
    (hopens : ∀ v ∈ items, Opens (v.render stringify)) (before : List (Value ν)) (rest : Text)
    (hfuel : 3 * (separated (items.map (Value.render stringify))).length + 2 ≤ fuel)
    (hdepth : ∀ v ∈ items, depth + v.depth ≤ maxDepth) :
    parseItems convert maxDepth fuel depth before
        (separated (items.map (Value.render stringify)) ++ 0x5d :: rest) =
      .ok (.array (before ++ items.map Value.normalize), rest) := by
  induction items generalizing fuel before with
  | nil => exact absurd rfl hne
  | cons v items ih =>
    obtain ⟨fuel, rfl⟩ : ∃ g, fuel = g + 1 := ⟨fuel - 1, by omega⟩
    have hread := fun rest hlen hfollow => hreads v mem_cons_self fuel depth rest hlen
      (hdepth v mem_cons_self) hfollow
    rw [parseItems]
    cases items with
    | nil =>
      simp only [map_cons, map_nil, separated] at hfuel ⊢
      rw [hread _ (by omega) (follow_of_head (by decide)), ok_bind]
      dsimp only
      rw [skipWhitespace_of_head (by decide)]
      rfl
    | cons w items =>
      have hnext := hopens w (by simp)
      simp only [map_cons, separated, append_assoc, length_append,
        length_cons, cons_append, nil_append] at hfuel ⊢
      rw [hread _ (by omega) (follow_of_head (by decide)), ok_bind]
      dsimp only
      rw [skipWhitespace_of_head (by decide)]
      simp only [expect, if_pos, ok_bind]
      have hrest := ih (cons_ne_nil _ _) (fun v' hv' => hreads v' (mem_cons_of_mem v hv'))
        (fun v' hv' => hopens v' (mem_cons_of_mem v hv')) (before ++ [v.normalize])
        (show _ ≤ fuel by rw [map_cons]; omega)
        fun v' hv' => hdepth v' (mem_cons_of_mem v hv')
      rw [map_cons] at hrest
      rw [skipWhitespace_separated hnext, hrest]
      simp

theorem memberText_opens (m : Text × Text) : Opens (memberText m) := ⟨_, _, rfl, by decide⟩

section Member
variable {key : Text} {v : Value ν} {before : List (Text × Value ν)}
  (hkey : WellFormed key) (hnew : key ∉ before.map Prod.fst)
  (hread : Reads convert maxDepth stringify v) (hopens : Opens (v.render stringify))
  (hfuel : 3 * (v.render stringify).length + 1 ≤ fuel) (hdepth : depth + v.depth ≤ maxDepth)
include hkey hnew hread hopens hfuel hdepth

theorem parseMembers_last (rest : Text) :
    parseMembers convert maxDepth (fuel + 1) depth before
        (memberText (key, v.render stringify) ++ 0x7d :: rest) =
      .ok (.object (before ++ [(key, v.normalize)]), rest) := by
  rw [parseMembers, if_neg (by simp [memberText, quote]), memberText, append_assoc,
    append_assoc, parseString_quote hkey, ok_bind]
  dsimp only
  rw [if_neg hnew, singleton_append, skipWhitespace_of_head (by decide)]
  simp only [expect, if_pos, ok_bind]
  rw [hopens.skipWhitespace, hread _ _ _ hfuel hdepth (follow_of_head (by decide)), ok_bind]
  dsimp only
  rw [skipWhitespace_of_head (by decide)]
  rfl

theorem parseMembers_more (rest : Text) :
    parseMembers convert maxDepth (fuel + 1) depth before
        (memberText (key, v.render stringify) ++ 0x2c :: rest) =
      parseMembers convert maxDepth fuel depth (before ++ [(key, v.normalize)])
        (skipWhitespace rest) := by
  rw [parseMembers, if_neg (by simp [memberText, quote]), memberText, append_assoc,
    append_assoc, parseString_quote hkey, ok_bind]
  dsimp only
  rw [if_neg hnew, singleton_append, skipWhitespace_of_head (by decide)]
  simp only [expect, if_pos, ok_bind]
  rw [hopens.skipWhitespace, hread _ _ _ hfuel hdepth (follow_of_head (by decide)), ok_bind]
  dsimp only
  rw [skipWhitespace_of_head (by decide)]
  simp only [if_pos, ok_bind]

end Member

theorem parseMembers_render {members : List (Text × Value ν)} (hne : members ≠ [])
    (hreads : ∀ m ∈ members, WellFormed m.1 ∧ Reads convert maxDepth stringify m.2 ∧
      Opens (m.2.render stringify)) (before : List (Text × Value ν)) (rest : Text)
    (hkeys : ((before ++ members).map Prod.fst).Nodup)
    (hfuel : 3 * (separated (members.map fun m =>
      memberText (m.1, m.2.render stringify))).length + 2 ≤ fuel)
    (hdepth : ∀ m ∈ members, depth + m.2.depth ≤ maxDepth) :
    parseMembers convert maxDepth fuel depth before
        (separated (members.map fun m => memberText (m.1, m.2.render stringify)) ++ 0x7d :: rest) =
      .ok (.object (before ++ members.map fun m => (m.1, m.2.normalize)), rest) := by
  induction members generalizing fuel before with
  | nil => exact absurd rfl hne
  | cons m members ih =>
    obtain ⟨fuel, rfl⟩ : ∃ g, fuel = g + 1 := ⟨fuel - 1, by omega⟩
    obtain ⟨key, v⟩ := m
    obtain ⟨hkey, hread, hopens⟩ := hreads (key, v) mem_cons_self
    have hdepthv := hdepth (key, v) mem_cons_self
    have hnew : key ∉ before.map Prod.fst := by
      rw [map_append, nodup_append] at hkeys
      exact fun hmem => hkeys.2.2 key hmem key (by simp) rfl
    have hlen : (v.render stringify).length ≤ (memberText (key, v.render stringify)).length := by
      simp only [memberText, length_append]
      omega
    dsimp only at hkey hread hopens hdepthv
    cases members with
    | nil =>
      simp only [map_cons, map_nil, separated] at hfuel ⊢
      exact parseMembers_last hkey hnew hread hopens (show _ ≤ fuel by omega) hdepthv rest
    | cons m members =>
      simp only [map_cons, separated, append_assoc, length_append,
        length_cons, cons_append, nil_append] at hfuel ⊢
      have hrest := ih (cons_ne_nil _ _) (fun m' hm' => hreads m' (mem_cons_of_mem _ hm'))
        (before ++ [(key, v.normalize)]) (by simpa using hkeys)
        (show _ ≤ fuel by rw [map_cons]; omega)
        fun m' hm' => hdepth m' (mem_cons_of_mem _ hm')
      rw [map_cons] at hrest
      rw [parseMembers_more hkey hnew hread hopens (by omega) hdepthv,
        skipWhitespace_separated (memberText_opens _), hrest]
      simp

theorem parseLiteral_append (token rest : Text) :
    parseLiteral token (token ++ rest) = .ok rest := by
  rw [parseLiteral, if_pos (take_left ..), drop_left]

theorem parseArray_render {items : List (Value ν)}
    (hreads : ∀ v ∈ items, Reads convert maxDepth stringify v ∧ Opens (v.render stringify))
    (rest : Text)
    (hfuel : 3 * (separated (items.map (Value.render stringify))).length + 3 ≤ fuel)
    (hdepth : depth ≤ maxDepth ∧ ∀ v ∈ items, depth + v.depth ≤ maxDepth) :
    parseArray convert maxDepth fuel depth
        (separated (items.map (Value.render stringify)) ++ 0x5d :: rest) =
      .ok (.array (items.map Value.normalize), rest) := by
  obtain ⟨fuel, rfl⟩ : ∃ g, fuel = g + 1 := ⟨fuel - 1, by omega⟩
  rw [parseArray, if_neg (not_lt.mpr hdepth.1)]
  cases items with
  | nil =>
    simp only [map_nil, separated, nil_append]
    rw [skipWhitespace_of_head (by decide)]
    rfl
  | cons v items =>
    have hall := parseItems_render (cons_ne_nil v items) (fun w hw => (hreads w hw).1)
      (fun w hw => (hreads w hw).2) [] rest (show _ ≤ fuel by omega) hdepth.2
    have hopens := (hreads v mem_cons_self).2
    obtain ⟨u, x, hux, hclose, -⟩ := separated_head hopens
      (items.map (Value.render stringify)) (0x5d :: rest)
    rw [map_cons] at hall ⊢
    rw [skipWhitespace_separated hopens, hux]
    split
    · rename_i heq
      cases heq
      exact absurd rfl hclose
    · rw [← hux, hall]
      rfl

theorem parseObject_render {members : List (Text × Value ν)}
    (hreads : ∀ m ∈ members, WellFormed m.1 ∧ Reads convert maxDepth stringify m.2 ∧
      Opens (m.2.render stringify))
    (hkeys : (members.map Prod.fst).Nodup) (rest : Text)
    (hfuel : 3 * (separated (members.map fun m =>
      memberText (m.1, m.2.render stringify))).length + 3 ≤ fuel)
    (hdepth : depth ≤ maxDepth ∧ ∀ m ∈ members, depth + m.2.depth ≤ maxDepth) :
    parseObject convert maxDepth fuel depth
        (separated (members.map fun m => memberText (m.1, m.2.render stringify)) ++ 0x7d :: rest) =
      .ok (.object (members.map fun m => (m.1, m.2.normalize)), rest) := by
  obtain ⟨fuel, rfl⟩ : ∃ g, fuel = g + 1 := ⟨fuel - 1, by omega⟩
  rw [parseObject, if_neg (not_lt.mpr hdepth.1)]
  cases members with
  | nil =>
    simp only [map_nil, separated, nil_append]
    rw [skipWhitespace_of_head (by decide)]
    rfl
  | cons m members =>
    have hall := parseMembers_render (cons_ne_nil m members) hreads [] rest hkeys
      (show _ ≤ fuel by omega) hdepth.2
    have hopens := memberText_opens (m.1, m.2.render stringify)
    obtain ⟨u, x, hux, -, hclose⟩ := separated_head hopens
      (members.map fun m => memberText (m.1, m.2.render stringify)) (0x7d :: rest)
    rw [map_cons] at hall ⊢
    rw [skipWhitespace_separated hopens, hux]
    split
    · rename_i heq
      cases heq
      exact absurd rfl hclose
    · rw [← hux, hall]
      rfl

/-- What the first unit of a value decides. -/
theorem parseValue_cons (hd : depth ≤ maxDepth) (u : ℕ) (rest : Text) :
    parseValue convert maxDepth (fuel + 1) depth (u :: rest) =
      if u = 0x22 then parseString (u :: rest) >>= fun r => .ok (.string r.1, r.2)
      else if u = 0x7b then parseObject convert maxDepth fuel (depth + 1) rest
      else if u = 0x5b then parseArray convert maxDepth fuel (depth + 1) rest
      else if u = 0x74 then parseLiteral trueToken (u :: rest) >>= fun r => .ok (.bool true, r)
      else if u = 0x66 then parseLiteral falseToken (u :: rest) >>= fun r => .ok (.bool false, r)
      else if u = 0x6e then parseLiteral nullToken (u :: rest) >>= fun r => .ok (.null, r)
      else if u = 0x2d ∨ (0x30 ≤ u ∧ u ≤ 0x39) then parseNumber convert (u :: rest)
      else fail .expectedValue (u :: rest) := by
  rw [parseValue, if_neg (not_lt.mpr hd)]
  rfl

theorem parseValue_literal {token : Text} {w : Value ν}
    (htoken : token = nullToken ∧ w = .null ∨ token = trueToken ∧ w = .bool true ∨
      token = falseToken ∧ w = .bool false) (hd : depth ≤ maxDepth) (rest : Text) :
    parseValue convert maxDepth (fuel + 1) depth (token ++ rest) = .ok (w, rest) := by
  have hliteral := parseLiteral_append token rest
  rcases htoken with ⟨rfl, rfl⟩ | ⟨rfl, rfl⟩ | ⟨rfl, rfl⟩
  · refine (parseValue_cons hd 0x6e _).trans ?_
    rw [if_neg (by decide), if_neg (by decide), if_neg (by decide), if_neg (by decide),
      if_neg (by decide), if_pos rfl]
    exact bind_eq_ok.mpr ⟨rest, hliteral, rfl⟩
  · refine (parseValue_cons hd 0x74 _).trans ?_
    rw [if_neg (by decide), if_neg (by decide), if_neg (by decide), if_pos rfl]
    exact bind_eq_ok.mpr ⟨rest, hliteral, rfl⟩
  · refine (parseValue_cons hd 0x66 _).trans ?_
    rw [if_neg (by decide), if_neg (by decide), if_neg (by decide), if_neg (by decide), if_pos rfl]
    exact bind_eq_ok.mpr ⟨rest, hliteral, rfl⟩

theorem reads_value (hnum : ReadsNumbers convert stringify p) (maxDepth : ℕ) (v : Value ν)
    (hv : v.Valid p) :
    Reads convert maxDepth stringify v := by
  induction v using Value.induct with
  | null =>
    intro fuel depth rest hfuel hdepth _
    obtain ⟨fuel, rfl⟩ : ∃ g, fuel = g + 1 := ⟨fuel - 1, by omega⟩
    exact parseValue_literal (.inl ⟨rfl, rfl⟩) hdepth rest
  | bool b =>
    intro fuel depth rest hfuel hdepth _
    obtain ⟨fuel, rfl⟩ : ∃ g, fuel = g + 1 := ⟨fuel - 1, by omega⟩
    cases b with
    | false => exact parseValue_literal (.inr (.inr ⟨rfl, rfl⟩)) hdepth rest
    | true => exact parseValue_literal (.inr (.inl ⟨rfl, rfl⟩)) hdepth rest
  | number n =>
    intro fuel depth rest hfuel hdepth hfollow
    obtain ⟨fuel, rfl⟩ : ∃ g, fuel = g + 1 := ⟨fuel - 1, by omega⟩
    obtain ⟨⟨u, x, hux, hu⟩, hread⟩ := hnum n hv
    have hnumber := hread rest hfollow
    have hd : depth ≤ maxDepth := hdepth
    rw [hux, cons_append] at hnumber
    rw [Value.render, hux, cons_append, parseValue_cons hd, if_neg (by omega),
      if_neg (by omega), if_neg (by omega), if_neg (by omega), if_neg (by omega),
      if_neg (by omega), if_pos hu, hnumber]
    rfl
  | string s =>
    intro fuel depth rest hfuel hdepth _
    obtain ⟨fuel, rfl⟩ : ∃ g, fuel = g + 1 := ⟨fuel - 1, by omega⟩
    refine (parseValue_cons hdepth 0x22 _).trans ?_
    rw [if_pos rfl]
    exact bind_eq_ok.mpr ⟨(s, rest), parseString_quote hv rest, rfl⟩
  | array items ih =>
    intro fuel depth rest hfuel hdepth _
    obtain ⟨fuel, rfl⟩ : ∃ g, fuel = g + 1 := ⟨fuel - 1, by omega⟩
    have hitems := Value.validItems_iff.mp hv
    obtain ⟨hd, hd', hparts⟩ := (nested_le_iff fun _ => Value.depthItems_le).mpr hdepth
    rw [Value.render, Value.renderItems_eq] at hfuel ⊢
    simp only [length_append, length_singleton] at hfuel
    have harray := parseArray_render
      (fun v hv => ⟨ih v hv (hitems v hv), render_opens hnum (hitems v hv)⟩) rest
      (show _ ≤ fuel by omega) ⟨not_lt.mp hd', hparts⟩
    rw [append_assoc, append_assoc, singleton_append, singleton_append,
      parseValue_cons hd, if_neg (by decide), if_neg (by decide), if_pos rfl, harray,
      Value.normalize, Value.normalizeItems_eq]
  | object members ih =>
    intro fuel depth rest hfuel hdepth _
    obtain ⟨fuel, rfl⟩ : ∃ g, fuel = g + 1 := ⟨fuel - 1, by omega⟩
    obtain ⟨hkeys, hmembers⟩ := hv
    rw [Value.validMembers_iff] at hmembers
    obtain ⟨hd, hd', hparts⟩ := (nested_le_iff fun _ => Value.depthMembers_le).mpr hdepth
    rw [Value.render, Value.renderMembers_eq, sortMembers_map, map_map] at hfuel ⊢
    simp only [length_append, length_singleton, Function.comp_def] at hfuel
    have hperm : (sortMembers members).Perm members := perm_insertionSort _ members
    have hreads : ∀ m ∈ sortMembers members, WellFormed m.1 ∧
        Reads convert maxDepth stringify m.2 ∧ Opens (m.2.render stringify) := by
      intro m hm
      have hm := mem_sortMembers.mp hm
      obtain ⟨hkey, hvalue⟩ := hmembers m hm
      exact ⟨hkey, ih m hm hvalue, render_opens hnum hvalue⟩
    have hobject := parseObject_render hreads ((hperm.map Prod.fst).nodup_iff.mpr hkeys) rest (show _ ≤ fuel by omega)
      ⟨not_lt.mp hd', fun m hm => hparts m (mem_sortMembers.mp hm)⟩
    rw [append_assoc, append_assoc, singleton_append, singleton_append,
      parseValue_cons hd, if_neg (by decide), if_pos rfl]
    refine hobject.trans ?_
    rw [Value.normalize, Value.normalizeMembers_eq, sortMembers_map]

theorem parseText_render (hnum : ReadsNumbers convert stringify p) {v : Value ν} (hv : v.Valid p)
    (hdepth : v.depth ≤ maxDepth) :
    parseText convert maxDepth (v.render stringify) = .ok v.normalize := by
  have hread := reads_value hnum maxDepth v hv
    (3 * (v.render stringify).length + 3) 0 [] (by omega) (by omega) (fun u hu => by cases hu)
  have hskip := (render_opens hnum hv).skipWhitespace []
  rw [append_nil] at hread hskip
  rw [parseText, hskip, hread, ok_bind]
  exact if_neg (not_not.mpr rfl)

end Values

end Dkg.Json
