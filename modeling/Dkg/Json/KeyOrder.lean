import Dkg.Json.Accepted

/-!
Equality up to the order of object keys, and what the canonical text says about it.
-/

namespace Dkg.Json
open Revert Utf16 List

namespace Value
variable {ν μ : Type} {p : ν → Prop}

mutual

/-- Equal up to the order of object keys. -/
def Same : Value ν → Value ν → Prop
  | .null, .null => True
  | .bool b, .bool b' => b = b'
  | .number n, .number n' => n = n'
  | .string s, .string s' => s = s'
  | .array items, .array items' => SameItems items items'
  | .object members, .object members' =>
    ∃ ordered : List (Text × Value ν), ordered.Perm members' ∧ SameMembers members ordered
  | _, _ => False

def SameItems : List (Value ν) → List (Value ν) → Prop
  | [], [] => True
  | v :: items, w :: items' => v.Same w ∧ SameItems items items'
  | _, _ => False

def SameMembers : List (Text × Value ν) → List (Text × Value ν) → Prop
  | [], [] => True
  | (key, v) :: members, (key', w) :: members' =>
    key = key' ∧ v.Same w ∧ SameMembers members members'
  | _, _ => False

end

theorem sameItems_iff {items items' : List (Value ν)} :
    SameItems items items' ↔ List.Forall₂ Same items items' := by
  induction items generalizing items' with
  | nil => cases items' <;> simp [SameItems]
  | cons v items ih => cases items' <;> simp [SameItems, ih]

theorem sameMembers_iff {members members' : List (Text × Value ν)} :
    SameMembers members members' ↔
      List.Forall₂ (fun m m' => m.1 = m'.1 ∧ m.2.Same m'.2) members members' := by
  induction members generalizing members' with
  | nil => cases members' <;> simp [SameMembers]
  | cons m members ih =>
    obtain ⟨key, v⟩ := m
    cases members' <;> simp [SameMembers, ih, and_assoc]

theorem forall₂_congr_mem {α β : Type} {R S : α → β → Prop} {l : List α} {l' : List β}
    (h : ∀ a ∈ l, ∀ b ∈ l', (R a b ↔ S a b)) : List.Forall₂ R l l' ↔ List.Forall₂ S l l' := by
  induction l generalizing l' with
  | nil => simp only [forall₂_nil_left_iff]
  | cons a l ih =>
    cases l' with
    | nil => simp
    | cons b l' =>
      rw [forall₂_cons, forall₂_cons, h a mem_cons_self b mem_cons_self,
        ih fun a' ha' b' hb' => h a' (mem_cons_of_mem a ha') b' (mem_cons_of_mem b hb')]

theorem sortMembers_pairwise {β : Type} (l : List (Text × β)) :
    (sortMembers l).Pairwise fun a b => a.1 ≤ b.1 := by
  have : Std.Total fun a b : Text × β => a.1 ≤ b.1 := ⟨fun a b => le_total a.1 b.1⟩
  have : IsTrans (Text × β) fun a b => a.1 ≤ b.1 := ⟨fun _ _ _ => le_trans⟩
  exact pairwise_insertionSort _ l

theorem sortMembers_perm {β : Type} (l : List (Text × β)) : (sortMembers l).Perm l :=
  perm_insertionSort _ l

/-- Lists of members with distinct keys sort alike exactly when one reorders the other. -/
theorem sortMembers_eq_iff {β : Type} {l l' : List (Text × β)} (hl : (l.map Prod.fst).Nodup) :
    sortMembers l = sortMembers l' ↔ l.Perm l' := by
  constructor
  · intro heq
    exact (sortMembers_perm l).symm.trans (heq ▸ sortMembers_perm l')
  · intro hperm
    have hall : (sortMembers l).Perm (sortMembers l') :=
      ((sortMembers_perm l).trans hperm).trans (sortMembers_perm l').symm
    refine List.Perm.eq_of_pairwise ?_ (sortMembers_pairwise l) (sortMembers_pairwise l') hall
    intro a b ha hb hab hba
    exact inj_on_of_nodup_map hl (mem_sortMembers.mp ha)
      (mem_sortMembers.mp (hall.mem_iff.mpr hb)) (le_antisymm hab hba)

/-- Lists of members with the same keys in the same order that reorder each other are equal. -/
theorem eq_of_perm_of_keys {β : Type} {l l' : List (Text × β)} (hl : (l.map Prod.fst).Nodup)
    (hkeys : l.map Prod.fst = l'.map Prod.fst) (hperm : l.Perm l') : l = l' := by
  have hlen := hperm.length_eq
  refine ext_getElem hlen fun i hi hi' => ?_
  have hmem : l'[i] ∈ l := hperm.mem_iff.mpr (getElem_mem hi')
  have hkey : l[i].1 = l'[i].1 := by
    have hat := congrArg (·[i]?) hkeys
    simpa [hi, hi'] using hat
  exact inj_on_of_nodup_map hl (getElem_mem hi) hmem hkey

/-- Members agree up to order when reordering one list makes them agree in place. -/
theorem map_perm_map_iff {α β : Type} {f : α → β} {l l' : List α} :
    (l.map f).Perm (l'.map f) ↔
      ∃ ordered : List α, ordered.Perm l' ∧ List.Forall₂ (fun a b => f a = f b) l ordered := by
  constructor
  · intro hperm
    have hself : List.Forall₂ (fun x b => x = f b) (l'.map f) l' :=
      forall₂_map_left_iff.mpr (forall₂_same.mpr fun _ _ => rfl)
    obtain ⟨ordered, hall, hordered⟩ := perm_comp_forall₂ hperm hself
    exact ⟨ordered, hordered, forall₂_map_left_iff.mp hall⟩
  · rintro ⟨ordered, hordered, hall⟩
    have heq : l.map f = ordered.map f := by
      rw [← forall₂_eq_eq_eq]
      exact forall₂_map_left_iff.mpr (forall₂_map_right_iff.mpr hall)
    exact heq ▸ hordered.map f

/-- Values with distinct keys normalize alike exactly when they differ in key order only. -/
theorem normalize_eq_iff {v w : Value ν} (hv : v.Valid p) (hw : w.Valid p) :
    v.normalize = w.normalize ↔ v.Same w := by
  induction v using Value.induct generalizing w with
  | null | bool b | number n | string s => cases w <;> simp [normalize, Same]
  | array items ih =>
    cases w with
    | array items' =>
      have hv := validItems_iff.mp hv
      have hw := validItems_iff.mp hw
      have hall : items.map normalize = items'.map normalize ↔
          List.Forall₂ (fun a b => a.normalize = b.normalize) items items' := by
        rw [← forall₂_eq_eq_eq, forall₂_map_left_iff, forall₂_map_right_iff]
      rw [normalize, normalize, Value.array.injEq, normalizeItems_eq, normalizeItems_eq, Same,
        sameItems_iff, hall]
      exact forall₂_congr_mem fun a ha b hb => ih a ha (hv a ha) (hw b hb)
    | _ => simp [normalize, Same]
  | object members ih =>
    cases w with
    | object members' =>
      have hvalid := validMembers_iff.mp hv.2
      have hvalid' := validMembers_iff.mp hw.2
      have hkeys : ((members.map fun m => (m.1, m.2.normalize)).map Prod.fst).Nodup := by
        rw [map_map]
        exact hv.1
      rw [normalize, normalize, Value.object.injEq, normalizeMembers_eq, normalizeMembers_eq, Same,
        sortMembers_eq_iff hkeys, map_perm_map_iff]
      refine exists_congr fun ordered => and_congr_right fun hordered => ?_
      rw [sameMembers_iff]
      refine forall₂_congr_mem fun a ha b hb => ?_
      rw [Prod.mk.injEq, ih a ha (hvalid a ha).2 (hvalid' b (hordered.mem_iff.mp hb)).2]
    | _ => simp [normalize, Same]

section Text
variable {stringify : ν → Text}

theorem sortMembers_idem {β : Type} {l : List (Text × β)} (hl : (l.map Prod.fst).Nodup) :
    sortMembers (sortMembers l) = sortMembers l :=
  (sortMembers_eq_iff (((sortMembers_perm l).map _).nodup_iff.mpr hl)).mpr (sortMembers_perm l)

/-- The text does not show in which order the keys were. -/
theorem render_normalize {v : Value ν} (hv : v.Valid p) :
    v.normalize.render stringify = v.render stringify := by
  induction v using Value.induct with
  | null | bool b | number n | string s => rfl
  | array items ih =>
    have hv := validItems_iff.mp hv
    have hitems : (items.map normalize).map (render stringify) = items.map (render stringify) := by
      rw [map_map]
      exact map_congr_left fun a ha => ih a ha (hv a ha)
    rw [normalize, render, render, renderItems_eq, renderItems_eq, normalizeItems_eq, hitems]
  | object members ih =>
    have hvalid := validMembers_iff.mp hv.2
    have hmembers : (members.map fun m => (m.1, m.2.normalize)).map
        (fun m => (m.1, m.2.render stringify)) = members.map fun m => (m.1, m.2.render stringify) := by
      rw [map_map]
      exact map_congr_left fun a ha => congrArg (Prod.mk a.1) (ih a ha (hvalid a ha).2)
    have hkeys : ((members.map fun m => (m.1, m.2.render stringify)).map Prod.fst).Nodup := by
      rw [map_map]
      exact hv.1
    rw [normalize, render, render, renderMembers_eq, renderMembers_eq, normalizeMembers_eq,
      ← sortMembers_map (render stringify), hmembers, sortMembers_idem hkeys]

theorem valid_normalize {v : Value ν} (hv : v.Valid p) : v.normalize.Valid p := by
  induction v using Value.induct with
  | null | bool b | number n | string s => exact hv
  | array items ih =>
    have hv := validItems_iff.mp hv
    rw [normalize, normalizeItems_eq]
    refine validItems_iff.mpr fun w hw => ?_
    obtain ⟨v, hmem, rfl⟩ := mem_map.mp hw
    exact ih v hmem (hv v hmem)
  | object members ih =>
    have hvalid := validMembers_iff.mp hv.2
    rw [normalize, normalizeMembers_eq]
    refine ⟨(((sortMembers_perm _).map Prod.fst).nodup_iff).mpr ?_,
      validMembers_iff.mpr fun w hw => ?_⟩
    · rw [map_map]
      exact hv.1
    · obtain ⟨m, hmem, rfl⟩ := mem_map.mp (mem_sortMembers.mp hw)
      exact ⟨(hvalid m hmem).1, ih m hmem (hvalid m hmem).2⟩

theorem depth_normalize (v : Value ν) : v.normalize.depth = v.depth := by
  induction v using Value.induct with
  | null | bool b | number n | string s => rfl
  | array items ih =>
    rw [normalize, depth, depth, normalizeItems_eq]
    refine congrArg (· + 1) (eq_of_forall_ge_iff fun n => ?_)
    rw [depthItems_le, depthItems_le, forall_mem_map]
    exact forall₂_congr fun v hv => by rw [ih v hv]
  | object members ih =>
    rw [normalize, depth, depth, normalizeMembers_eq]
    refine congrArg (· + 1) (eq_of_forall_ge_iff fun n => ?_)
    rw [depthMembers_le, depthMembers_le]
    simp only [mem_sortMembers]
    rw [forall_mem_map]
    exact forall₂_congr fun m hm => by rw [ih m hm]

end Text

/-- Values with one text are one value, up to the order of keys. -/
theorem normalize_eq_of_render {convert : Text → Except Problem ν} {stringify : ν → Text}
    (hnum : ReadsNumbers convert stringify p) {v w : Value ν} (hv : v.Valid p) (hw : w.Valid p)
    (heq : v.render stringify = w.render stringify) : v.normalize = w.normalize := by
  have hread := parseText_render hnum hv (le_max_left v.depth w.depth)
  rw [heq, parseText_render hnum hw (le_max_right v.depth w.depth)] at hread
  exact (Except.ok.inj hread).symm

section Map
variable {f : ν → μ} {stringify : μ → Text}

theorem render_map (v : Value ν) : (v.map f).render stringify = v.render (stringify ∘ f) := by
  induction v using Value.induct with
  | null | bool b | number n | string s => rfl
  | array items ih =>
    have hitems : (items.map (map f)).map (render stringify) =
        items.map (render (stringify ∘ f)) := by
      rw [map_map]
      exact map_congr_left ih
    rw [map, render, render, renderItems_eq, renderItems_eq, mapItems_eq, hitems]
  | object members ih =>
    have hmembers : (members.map fun m => (m.1, m.2.map f)).map
        (fun m => (m.1, m.2.render stringify)) =
          members.map fun m => (m.1, m.2.render (stringify ∘ f)) := by
      rw [map_map]
      exact map_congr_left fun m hm => congrArg (Prod.mk m.1) (ih m hm)
    rw [map, render, render, renderMembers_eq, renderMembers_eq, mapMembers_eq, hmembers]

theorem depth_map (v : Value ν) : (v.map f).depth = v.depth := by
  induction v using Value.induct with
  | null | bool b | number n | string s => rfl
  | array items ih =>
    rw [map, depth, depth, mapItems_eq]
    refine congrArg (· + 1) (eq_of_forall_ge_iff fun n => ?_)
    rw [depthItems_le, depthItems_le, forall_mem_map]
    exact forall₂_congr fun v hv => by rw [ih v hv]
  | object members ih =>
    rw [map, depth, depth, mapMembers_eq]
    refine congrArg (· + 1) (eq_of_forall_ge_iff fun n => ?_)
    rw [depthMembers_le, depthMembers_le, forall_mem_map]
    exact forall₂_congr fun m hm => by rw [ih m hm]

end Map

section Numbers

mutual

/-- The numbers that occur in a value. -/
def numbers : Value ν → List ν
  | .number n => [n]
  | .array items => numbersItems items
  | .object members => numbersMembers members
  | _ => []

def numbersItems : List (Value ν) → List ν
  | [] => []
  | v :: items => v.numbers ++ numbersItems items

def numbersMembers : List (Text × Value ν) → List ν
  | [] => []
  | (_, v) :: members => v.numbers ++ numbersMembers members

end

theorem mem_numbersItems {items : List (Value ν)} {n : ν} :
    n ∈ numbersItems items ↔ ∃ v ∈ items, n ∈ v.numbers := by
  induction items with
  | nil => simp [numbersItems]
  | cons v items ih => simp [numbersItems, ih]

theorem mem_numbersMembers {members : List (Text × Value ν)} {n : ν} :
    n ∈ numbersMembers members ↔ ∃ m ∈ members, n ∈ m.2.numbers := by
  induction members with
  | nil => simp [numbersMembers]
  | cons m members ih =>
    obtain ⟨key, v⟩ := m
    simp [numbersMembers, ih]

variable {f : ν → μ} {q : μ → Prop}

/-- A value whose numbers are converted well is valid. -/
theorem valid_map {v : Value ν} (hv : v.Valid p) (hnumbers : ∀ n ∈ v.numbers, q (f n)) :
    (v.map f).Valid q := by
  induction v using Value.induct with
  | null | bool b => trivial
  | number n => exact hnumbers n (mem_singleton.mpr rfl)
  | string s => exact hv
  | array items ih =>
    have hv := validItems_iff.mp hv
    rw [map, mapItems_eq]
    refine validItems_iff.mpr fun w hw => ?_
    obtain ⟨v, hmem, rfl⟩ := mem_map.mp hw
    exact ih v hmem (hv v hmem) fun n hn => hnumbers n (mem_numbersItems.mpr ⟨v, hmem, hn⟩)
  | object members ih =>
    have hvalid := validMembers_iff.mp hv.2
    rw [map, mapMembers_eq]
    refine ⟨?_, validMembers_iff.mpr fun w hw => ?_⟩
    · rw [map_map]
      exact hv.1
    · obtain ⟨m, hmem, rfl⟩ := mem_map.mp hw
      exact ⟨(hvalid m hmem).1, ih m hmem (hvalid m hmem).2 fun n hn =>
        hnumbers n (mem_numbersMembers.mpr ⟨m, hmem, hn⟩)⟩

theorem Valid.numbers {v : Value ν} (hv : v.Valid p) : ∀ n ∈ v.numbers, p n := by
  induction v using Value.induct with
  | null | bool b => exact nofun
  | number n =>
    rintro m hm
    cases mem_singleton.mp hm
    exact hv
  | string s => exact nofun
  | array items ih =>
    intro n hn
    obtain ⟨v, hmem, hn⟩ := mem_numbersItems.mp hn
    exact ih v hmem (validItems_iff.mp hv v hmem) n hn
  | object members ih =>
    intro n hn
    obtain ⟨m, hmem, hn⟩ := mem_numbersMembers.mp hn
    exact ih m hmem (validMembers_iff.mp hv.2 m hmem).2 n hn

theorem render_congr {stringify stringify' : ν → Text} {v : Value ν}
    (h : ∀ n ∈ v.numbers, stringify n = stringify' n) :
    v.render stringify = v.render stringify' := by
  induction v using Value.induct with
  | null => rfl
  | bool b => rfl
  | number n => exact h n (mem_singleton.mpr rfl)
  | string s => rfl
  | array items ih =>
    rw [render, render, renderItems_eq, renderItems_eq,
      map_congr_left fun v hv => ih v hv fun n hn => h n (mem_numbersItems.mpr ⟨v, hv, hn⟩)]
  | object members ih =>
    have hmembers : ∀ m ∈ members, (m.1, m.2.render stringify) = (m.1, m.2.render stringify') :=
      fun m hm => congrArg (Prod.mk m.1) (ih m hm fun n hn =>
        h n (mem_numbersMembers.mpr ⟨m, hm, hn⟩))
    rw [render, render, renderMembers_eq, renderMembers_eq, map_congr_left hmembers]

end Numbers

end Value

end Dkg.Json
