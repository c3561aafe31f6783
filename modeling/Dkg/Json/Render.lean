import Dkg.Json.Writer

/-!
The canonical text of a value, and that the serializer writes it exactly when it is within the
limits, whatever the slices it is written in.
-/

namespace Dkg.Json
open Revert Utf16 List

/-- The parts with commas between them. -/
def separated : List Text → Text
  | [] => []
  | [part] => part
  | part :: next :: parts => part ++ [0x2c] ++ separated (next :: parts)

def escapeUnit (unit : ℕ) : Text := (escaped unit).getD [unit]

def quote (s : Text) : Text := [0x22] ++ s.flatMap escapeUnit ++ [0x22]

def memberText (member : Text × Text) : Text := quote member.1 ++ [0x3a] ++ member.2

namespace Value
variable {ν : Type}

/-- Induction over a value, with the parts of a container as members of its list. -/
@[elab_as_elim]
theorem induct {motive : Value ν → Prop} (null : motive .null) (bool : ∀ b, motive (.bool b))
    (number : ∀ n, motive (.number n)) (string : ∀ s, motive (.string s))
    (array : ∀ items, (∀ v ∈ items, motive v) → motive (.array items))
    (object : ∀ members, (∀ m ∈ members, motive m.2) → motive (.object members))
    (v : Value ν) : motive v :=
  @Value.rec ν motive (fun items => ∀ v ∈ items, motive v)
    (fun members => ∀ m ∈ members, motive m.2) (fun m => motive m.2) null bool number string
    array object (fun _ hv => absurd hv not_mem_nil)
    (fun _ _ hv hitems => forall_mem_cons.mpr ⟨hv, hitems⟩)
    (fun _ hm => absurd hm not_mem_nil)
    (fun _ _ hm hmembers => forall_mem_cons.mpr ⟨hm, hmembers⟩) (fun _ _ hv => hv) v

section Render
variable (stringify : ν → Text)

mutual

/-- The canonical text. -/
def render : Value ν → Text
  | .null => nullToken
  | .bool b => if b then trueToken else falseToken
  | .number n => stringify n
  | .string s => quote s
  | .array items => [0x5b] ++ separated (renderItems items) ++ [0x5d]
  | .object members =>
    [0x7b] ++ separated ((sortMembers (renderMembers members)).map memberText) ++ [0x7d]

def renderItems : List (Value ν) → List Text
  | [] => []
  | v :: items => v.render :: renderItems items

def renderMembers : List (Text × Value ν) → List (Text × Text)
  | [] => []
  | (key, v) :: members => (key, v.render) :: renderMembers members

end

end Render

mutual

/-- How deep containers are nested. -/
def depth : Value ν → ℕ
  | .array items => depthItems items + 1
  | .object members => depthMembers members + 1
  | _ => 0

def depthItems : List (Value ν) → ℕ
  | [] => 0
  | v :: items => max v.depth (depthItems items)

def depthMembers : List (Text × Value ν) → ℕ
  | [] => 0
  | (_, v) :: members => max v.depth (depthMembers members)

end

section Valid
variable (p : ν → Prop)

mutual

/-- Strings are well-formed, keys distinct, and the numbers have the property. -/
def Valid : Value ν → Prop
  | .number n => p n
  | .string s => WellFormed s
  | .array items => ValidItems items
  | .object members => (members.map Prod.fst).Nodup ∧ ValidMembers members
  | _ => True

def ValidItems : List (Value ν) → Prop
  | [] => True
  | v :: items => v.Valid ∧ ValidItems items

def ValidMembers : List (Text × Value ν) → Prop
  | [] => True
  | (key, v) :: members => WellFormed key ∧ v.Valid ∧ ValidMembers members

end

end Valid

end Value

/-- The writer holds the text and its length in bytes. -/
structure Writer.Holds (w : Writer) (t : Text) : Prop where
  text : w.chunks.flatten ++ w.pending = t
  bytes : w.byteLength = (utf8 t).length
  wellFormed : WellFormed t
  fits : w.byteLength ≤ w.maxBytes

/-- The action appends the text when the condition holds and the bytes suffice, and otherwise
fails. -/
structure Writes (c : Prop) (x : Text) (f : Writer → Except Err Writer) : Prop where
  wellFormed : WellFormed x
  ok : ∀ w t, w.Holds t → c → w.byteLength + (utf8 x).length ≤ w.maxBytes →
    ∃ w', f w = .ok w' ∧ w'.Holds (t ++ x) ∧ w'.maxBytes = w.maxBytes
  fails : ∀ w t, w.Holds t → ¬(c ∧ w.byteLength + (utf8 x).length ≤ w.maxBytes) →
    ∃ e, f w = .error e

section Writes
variable {c d : Prop} {x y t : Text} {f g : Writer → Except Err Writer} {w : Writer}

theorem Writes.congr (h : Writes c x f) (hcd : c ↔ d) : Writes d x f := by
  rwa [propext hcd] at h

theorem Writes.congr_fun (h : Writes c x f) (hfg : ∀ w, f w = g w) : Writes c x g := by
  rwa [funext hfg] at h

theorem Writes.andThen (hf : Writes c x f) (hg : Writes d y g) :
    Writes (c ∧ d) (x ++ y) fun w => f w >>= g := by
  have hlen : (utf8 (x ++ y)).length = (utf8 x).length + (utf8 y).length := by
    rw [utf8_append hf.wellFormed, length_append]
  have hbytes : ∀ {w w' : Writer} {t : Text}, w.Holds t → w'.Holds (t ++ x) →
      w'.byteLength = w.byteLength + (utf8 x).length := fun ht ht' => by
    rw [ht'.bytes, ht.bytes, utf8_append ht.wellFormed, length_append]
  refine ⟨hf.wellFormed.append hg.wellFormed, fun w t ht hcd hle => ?_, fun w t ht hnot => ?_⟩
  · obtain ⟨w₁, hw₁, ht₁, hmax⟩ := hf.ok w t ht hcd.1 (by omega)
    have hw := hbytes ht ht₁
    obtain ⟨w₂, hw₂, ht₂, hmax₂⟩ := hg.ok w₁ _ ht₁ hcd.2 (by omega)
    refine ⟨w₂, ?_, by rwa [← append_assoc], hmax₂.trans hmax⟩
    rw [hw₁, ok_bind, hw₂]
  · by_cases hx : c ∧ w.byteLength + (utf8 x).length ≤ w.maxBytes
    · obtain ⟨w₁, hw₁, ht₁, hmax⟩ := hf.ok w t ht hx.1 hx.2
      have hw := hbytes ht ht₁
      obtain ⟨e, he⟩ := hg.fails w₁ _ ht₁ fun hd => hnot ⟨⟨hx.1, hd.1⟩, by omega⟩
      exact ⟨e, by rw [hw₁, ok_bind, he]⟩
    · obtain ⟨e, he⟩ := hf.fails w t ht hx
      exact ⟨e, by rw [he, error_bind]⟩

/-- A check before the writing. -/
theorem Writes.guard {b : Prop} [Decidable b] {e : Err} (hf : Writes c x f) :
    Writes (b ∧ c) x fun w => require b e >>= fun _ => f w := by
  refine ⟨hf.wellFormed, fun w t ht hbc hle => ?_, fun w t ht hnot => ?_⟩
  · rw [require_of hbc.1, ok_bind]
    exact hf.ok w t ht hbc.2 hle
  · by_cases hb : b
    · rw [require_of hb, ok_bind]
      exact hf.fails w t ht fun hc => hnot ⟨⟨hb, hc.1⟩, hc.2⟩
    · exact ⟨e, by rw [require, if_neg hb, error_bind]⟩

theorem writes_nil : Writes True [] .ok := by
  refine ⟨.nil, fun w t ht _ _ => ⟨w, rfl, by rwa [append_nil], rfl⟩, fun w t ht hnot => ?_⟩
  exact absurd ⟨trivial, ht.fits⟩ hnot

theorem writes_appendMeasured (hx : WellFormed x) :
    Writes True x fun w => w.appendMeasured x (utf8 x).length := by
  refine ⟨hx, fun w t ht _ hle => ?_, fun w t ht hnot => ?_⟩
  · have hbytes : w.byteLength + (utf8 x).length = (utf8 (t ++ x)).length := by
      rw [utf8_append ht.wellFormed, length_append, ht.bytes]
    have htext : w.chunks.flatten ++ (w.pending ++ x) = t ++ x := by
      rw [← append_assoc, ht.text]
    unfold Writer.appendMeasured
    rw [require_of (not_lt.mpr hle), ok_bind]
    dsimp only
    split
    · refine ⟨_, rfl, ⟨?_, hbytes, ht.wellFormed.append hx, hle⟩, rfl⟩
      simpa using htext
    · exact ⟨_, rfl, ⟨htext, hbytes, ht.wellFormed.append hx, hle⟩, rfl⟩
  · refine ⟨.outputExceeds w.maxBytes, ?_⟩
    have hgt : ¬¬w.byteLength + (utf8 x).length > w.maxBytes := fun h =>
      hnot ⟨trivial, not_lt.mp h⟩
    rw [Writer.appendMeasured, require, if_neg hgt, error_bind]

theorem writes_appendAscii (hx : ∀ u ∈ x, u < 0x80) : Writes True x (Writer.appendAscii x) := by
  have hlen : (utf8 x).length = x.length := by rw [utf8_ascii hx]
  have hwrites := writes_appendMeasured
    (WellFormed.of_forall_lt fun u hu => (hx u hu).trans (by decide : 0x80 < 0xd800))
  rw [hlen] at hwrites
  exact hwrites

theorem writes_flushRaw (hx : WellFormed x) : Writes True x (Writer.flushRaw x) := by
  unfold Writer.flushRaw
  cases x with
  | nil => exact writes_nil
  | cons u x => exact writes_appendMeasured hx

/-- The end of the loop's round: the slice is written now or later. -/
theorem writes_flushLong (hx : WellFormed x) (hrest : ∀ raw, WellFormed raw →
      Writes True (raw ++ y) fun w => writeUnits w raw t) :
    Writes True (x ++ y) fun w => flushLong x w >>= fun r => writeUnits r.1 r.2 t := by
  unfold flushLong
  split
  · have hboth := (writes_flushRaw hx).andThen (hrest [] .nil)
    refine (hboth.congr (and_self_iff)).congr_fun fun w => ?_
    cases w.flushRaw x <;> rfl
  · exact hrest x hx

theorem escaped_ascii {u : ℕ} {e : Text} (he : escaped u = some e) : ∀ w ∈ e, w < 0x80 := by
  unfold escaped at he
  split_ifs at he <;> cases he <;> simp [hexDigit]
  split_ifs <;> omega

theorem escaped_eq_none {u : ℕ} (hu : 0x80 ≤ u) : escaped u = none := by
  unfold escaped
  rw [if_neg (by omega), if_neg (by omega), if_neg (by omega), if_neg (by omega),
    if_neg (by omega), if_neg (by omega), if_neg (by omega), if_neg (by omega)]

theorem writes_writeUnits (ht : WellFormed t) : ∀ raw, WellFormed raw →
    Writes True (raw ++ t.flatMap escapeUnit) fun w => writeUnits w raw t := by
  induction ht with
  | nil =>
    intro raw hraw
    rw [flatMap_nil, append_nil]
    exact (writes_flushRaw hraw).congr_fun fun w => by rw [writeUnits]
  | @scalar u t hu ht ih =>
    intro raw hraw
    rw [flatMap_cons]
    cases he : escaped u with
    | some e =>
      have hunit : escapeUnit u = e := by rw [escapeUnit, he, Option.getD_some]
      have hall := (writes_flushRaw hraw).andThen
        ((writes_appendAscii (escaped_ascii he)).andThen (ih [] .nil))
      rw [hunit]
      refine (hall.congr (by simp)).congr_fun fun w => ?_
      rw [writeUnits.eq_def]
      simp only [he]
    | none =>
      have hunit : escapeUnit u = [u] := by rw [escapeUnit, he, Option.getD_none]
      rw [hunit, ← append_assoc]
      refine (writes_flushLong (hraw.append (.scalar hu .nil)) ih).congr_fun fun w => ?_
      rw [writeUnits.eq_def]
      simp only [he, if_neg hu.2.1, if_neg hu.2.2]
  | @pair h l t hh hl ht ih =>
    intro raw hraw
    have hhigh : escaped h = none := escaped_eq_none (by unfold IsHigh at hh; omega)
    have hlow : escaped l = none := escaped_eq_none (by unfold IsLow at hl; omega)
    have hunits : flatMap escapeUnit (h :: l :: t) = [h, l] ++ t.flatMap escapeUnit := by
      simp [escapeUnit, hhigh, hlow]
    rw [hunits, ← append_assoc]
    refine (writes_flushLong (hraw.append (.pair hh hl .nil)) ih).congr_fun fun w => ?_
    rw [writeUnits.eq_def]
    simp only [hhigh, if_pos hh, if_pos hl]

theorem writes_string (ht : WellFormed t) :
    Writes True (quote t) (writeCanonicalJsonString t) := by
  have hmark := writes_appendAscii (x := [0x22]) (by simp)
  have hall := hmark.andThen ((writes_writeUnits ht [] .nil).andThen hmark)
  rw [nil_append, ← append_assoc] at hall
  exact hall.congr (by simp)

/-- An action, what it writes, and when. -/
structure Part where
  when : Prop
  text : Text
  action : Writer → Except Err Writer

theorem writes_separated (parts : List Part)
    (h : ∀ p ∈ parts, Writes p.when p.text p.action) :
    Writes (∀ p ∈ parts, p.when) (separated (parts.map Part.text))
      (writeSeparated (parts.map Part.action)) := by
  induction parts with
  | nil => exact writes_nil.congr (by simp)
  | cons p parts ih =>
    have hfirst := h p mem_cons_self
    cases parts with
    | nil => exact hfirst.congr (by simp)
    | cons q parts =>
      have hrest := ih fun p' hp' => h p' (mem_cons_of_mem p hp')
      have hcomma := writes_appendAscii (x := [0x2c]) (by simp)
      have hall := hfirst.andThen (hcomma.andThen hrest)
      rw [← append_assoc] at hall
      exact hall.congr (by simp)

end Writes

section Encode
variable {N : Numbers} {maxDepth : ℕ} {p : N.Num → Prop}

theorem encodeItems_eq (items : List (Value N.Num)) (d : ℕ) :
    encodeItems N maxDepth items d = items.map fun v => encode N maxDepth v d := by
  induction items with
  | nil => rfl
  | cons v items ih => rw [encodeItems, ih, map_cons]

theorem encodeMembers_eq (members : List (Text × Value N.Num)) (d : ℕ) :
    encodeMembers N maxDepth members d = members.map fun m => (m.1, encode N maxDepth m.2 d) := by
  induction members with
  | nil => rfl
  | cons m members ih =>
    obtain ⟨key, v⟩ := m
    rw [encodeMembers, ih, map_cons]

namespace Value
variable {ν : Type} {stringify : ν → Text}

theorem renderItems_eq (items : List (Value ν)) :
    renderItems stringify items = items.map (render stringify) := by
  induction items with
  | nil => rfl
  | cons v items ih => rw [renderItems, ih, map_cons]

theorem renderMembers_eq (members : List (Text × Value ν)) :
    renderMembers stringify members = members.map fun m => (m.1, m.2.render stringify) := by
  induction members with
  | nil => rfl
  | cons m members ih =>
    obtain ⟨key, v⟩ := m
    rw [renderMembers, ih, map_cons]

theorem depthItems_le {items : List (Value ν)} {n : ℕ} :
    depthItems items ≤ n ↔ ∀ v ∈ items, v.depth ≤ n := by
  induction items with
  | nil => simp [depthItems]
  | cons v items ih => rw [depthItems, max_le_iff, ih, forall_mem_cons]

theorem depthMembers_le {members : List (Text × Value ν)} {n : ℕ} :
    depthMembers members ≤ n ↔ ∀ m ∈ members, m.2.depth ≤ n := by
  induction members with
  | nil => simp [depthMembers]
  | cons m members ih =>
    obtain ⟨key, v⟩ := m
    rw [depthMembers, max_le_iff, ih, forall_mem_cons]

end Value

theorem sortMembers_map {β γ : Type} (g : β → γ) (members : List (Text × β)) :
    sortMembers (members.map fun m => (m.1, g m.2)) =
      (sortMembers members).map fun m => (m.1, g m.2) :=
  (map_insertionSort (fun a b : Text × β => a.1 ≤ b.1) (fun a b : Text × γ => a.1 ≤ b.1)
    (fun m => (m.1, g m.2)) members fun _ _ _ _ => Iff.rfl).symm

theorem mem_sortMembers {β : Type} {members : List (Text × β)} {m : Text × β} :
    m ∈ sortMembers members ↔ m ∈ members :=
  (perm_insertionSort _ members).mem_iff

theorem Value.validItems_iff {ν : Type} {p : ν → Prop} {items : List (Value ν)} :
    ValidItems p items ↔ ∀ v ∈ items, v.Valid p := by
  induction items with
  | nil => simp [ValidItems]
  | cons v items ih => rw [ValidItems, ih, forall_mem_cons]

theorem Value.validMembers_iff {ν : Type} {p : ν → Prop} {members : List (Text × Value ν)} :
    ValidMembers p members ↔ ∀ m ∈ members, WellFormed m.1 ∧ m.2.Valid p := by
  induction members with
  | nil => simp [ValidMembers]
  | cons m members ih =>
    obtain ⟨key, v⟩ := m
    rw [ValidMembers, ih, forall_mem_cons, and_assoc]

theorem nested_le_iff {α : Type} {l : List α} {f : α → ℕ} {d n k : ℕ}
    (hn : ∀ m, n ≤ m ↔ ∀ a ∈ l, f a ≤ m) :
    (d ≤ k ∧ ¬d + 1 > k ∧ ∀ a ∈ l, d + 1 + f a ≤ k) ↔ d + (n + 1) ≤ k := by
  constructor
  · rintro ⟨-, hlt, hall⟩
    have hle : n ≤ k - (d + 1) := (hn _).mpr fun a ha => by
      have := hall a ha
      omega
    omega
  · intro hle
    refine ⟨by omega, by omega, fun a ha => ?_⟩
    have := (hn n).mp le_rfl a ha
    omega

/-- Nothing is written beyond the depth limit. -/
theorem writes_within {v : Value N.Num} {d : ℕ} {x : Text} {c : Prop}
    {f : Writer → Except Err Writer} (hf : Writes c x f) (hc : d ≤ maxDepth ∧ c ↔ d + v.depth ≤ maxDepth)
    (hv : ∀ w, encode N maxDepth v d w =
      if d > maxDepth then .error (.nestingExceeds maxDepth) else f w) :
    Writes (d + v.depth ≤ maxDepth) x (encode N maxDepth v d) := by
  refine ((hf.guard (b := d ≤ maxDepth) (e := .nestingExceeds maxDepth)).congr hc).congr_fun
    fun w => ?_
  rw [hv]
  by_cases hd : d ≤ maxDepth
  · rw [require_of hd, ok_bind, if_neg (not_lt.mpr hd)]
  · rw [require, if_neg hd, error_bind, if_pos (not_le.mp hd)]

/-- The serializer writes the canonical text, within the limits on bytes and depth. -/
theorem writes_encode (maxDepth : ℕ) (hp : ∀ n, p n → N.isFinite n = true ∧ ∀ u ∈ N.stringify n, u < 0x80)
    (v : Value N.Num) (hv : v.Valid p) (d : ℕ) :
    Writes (d + v.depth ≤ maxDepth) (v.render N.stringify) (encode N maxDepth v d) := by
  induction v using Value.induct generalizing d with
  | null =>
    exact writes_within (writes_appendAscii (x := nullToken) (by decide)) (by simp [Value.depth])
      fun w => by rw [encode]
  | bool b =>
    cases b with
    | false =>
      refine writes_within (writes_appendAscii (x := falseToken) (by decide))
        (by simp [Value.depth]) fun w => ?_
      rw [encode]
      rfl
    | true =>
      refine writes_within (writes_appendAscii (x := trueToken) (by decide))
        (by simp [Value.depth]) fun w => ?_
      rw [encode]
      rfl
  | number n =>
    obtain ⟨hfin, hascii⟩ := hp n hv
    have hall := (writes_appendAscii hascii).guard (b := N.isFinite n = true) (e := .notFinite)
    exact writes_within hall (by simp [Value.depth, hfin]) fun w => by rw [encode]
  | string s =>
    exact writes_within (writes_string hv) (by simp [Value.depth]) fun w => by rw [encode]
  | array items ih =>
    have hitems := Value.validItems_iff.mp hv
    have hparts := writes_separated (items.map fun v =>
      ⟨d + 1 + v.depth ≤ maxDepth, v.render N.stringify, encode N maxDepth v (d + 1)⟩) (by
        intro q hq
        obtain ⟨v, hmem, rfl⟩ := mem_map.mp hq
        exact ih v hmem (hitems v hmem) (d + 1))
    have hall := ((writes_appendAscii (x := [0x5b]) (by simp)).andThen
      (hparts.andThen (writes_appendAscii (x := [0x5d]) (by simp)))).guard
      (b := ¬d + 1 > maxDepth) (e := .nestingExceeds maxDepth)
    rw [map_map, map_map, ← append_assoc] at hall
    rw [Value.render, Value.renderItems_eq]
    refine writes_within hall ?_ fun w => ?_
    · simp only [forall_mem_map, true_and, and_true]
      exact nested_le_iff fun _ => Value.depthItems_le
    · rw [encode, encodeItems_eq]
      rfl
  | object members ih =>
    obtain ⟨-, hmembers⟩ := hv
    rw [Value.validMembers_iff] at hmembers
    have hparts := writes_separated ((sortMembers members).map fun m =>
      ⟨d + 1 + m.2.depth ≤ maxDepth, memberText (m.1, m.2.render N.stringify),
        writeMember (m.1, encode N maxDepth m.2 (d + 1))⟩) (by
        intro q hq
        obtain ⟨m, hmem, rfl⟩ := mem_map.mp hq
        rw [mem_sortMembers] at hmem
        obtain ⟨hkey, hvalue⟩ := hmembers m hmem
        have hall := (writes_string hkey).andThen
          ((writes_appendAscii (x := [0x3a]) (by simp)).andThen (ih m hmem hvalue (d + 1)))
        rw [← append_assoc] at hall
        exact hall.congr (by simp))
    have hall := ((writes_appendAscii (x := [0x7b]) (by simp)).andThen
      (hparts.andThen (writes_appendAscii (x := [0x7d]) (by simp)))).guard
      (b := ¬d + 1 > maxDepth) (e := .nestingExceeds maxDepth)
    rw [map_map, map_map, ← append_assoc] at hall
    rw [Value.render, Value.renderMembers_eq, sortMembers_map, map_map]
    refine writes_within hall ?_ fun w => ?_
    · simp only [forall_mem_map, true_and, and_true, mem_sortMembers]
      exact nested_le_iff fun _ => Value.depthMembers_le
    · rw [encode, encodeMembers_eq, sortMembers_map fun v => encode N maxDepth v (d + 1), map_map]
      rfl

theorem holds_new (maxBytes : ℕ) : (Writer.new maxBytes).Holds [] :=
  ⟨rfl, rfl, .nil, Nat.zero_le _⟩

theorem finish_of_holds {w : Writer} {t : Text} (h : w.Holds t) : w.finish = t := by
  rw [← h.text, Writer.finish]
  split_ifs with hempty
  · simp
  · rw [eq_nil_of_length_eq_zero (Nat.eq_zero_of_not_pos hempty), append_nil]

/-- `canonicalizeJson` returns the canonical text when it is within the limits. -/
theorem canonicalizeJson_ok
    (hp : ∀ n, p n → N.isFinite n = true ∧ ∀ u ∈ N.stringify n, u < 0x80) {v : Value N.Num}
    (hv : v.Valid p) {options : Options} {limits : Limits}
    (hlimits : resolveLimits options = .ok limits) (t : Text) :
    canonicalizeJson N v options = .ok t ↔ t = v.render N.stringify ∧
      (utf8 (v.render N.stringify)).length ≤ limits.maxBytes ∧ v.depth ≤ limits.maxDepth := by
  have hwrites := writes_encode limits.maxDepth hp v hv 0
  rw [Nat.zero_add] at hwrites
  have hnew := holds_new limits.maxBytes
  rw [canonicalizeJson, hlimits, ok_bind]
  by_cases hwithin : v.depth ≤ limits.maxDepth ∧
      (utf8 (v.render N.stringify)).length ≤ limits.maxBytes
  · obtain ⟨w, hw, hholds, -⟩ := hwrites.ok _ _ hnew hwithin.1 (by
      rw [Writer.new, Nat.zero_add]
      exact hwithin.2)
    rw [hw, ok_bind, finish_of_holds hholds, pure_eq_ok, nil_append]
    exact ⟨fun h => ⟨h.symm, hwithin.2, hwithin.1⟩, fun h => h.1.symm⟩
  · obtain ⟨e, he⟩ := hwrites.fails _ _ hnew (by rwa [Writer.new, Nat.zero_add])
    rw [he, error_bind]
    exact ⟨fun h => (nomatch h), fun h => absurd ⟨h.2.2, h.2.1⟩ hwithin⟩

end Encode

end Dkg.Json
