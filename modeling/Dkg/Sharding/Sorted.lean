import Dkg.Sharding.Table

/-!
The sharding table is a sorted list: inserting puts a node where the binary search says, and
removing closes the gap.
-/

namespace Dkg.Sharding
open Revert List Function

namespace Storage
variable {s s' : Storage} {ids u v rest : List ℕ} {id k gas index pos : ℕ} {nodeId : List UInt8}

theorem setIdentityId_self (s : Storage) (i a : ℕ) :
    (s.setIdentityId i a).indexToIdentityId i = a :=
  update_self _ _ _

theorem setIdentityId_of_ne (s : Storage) {i j : ℕ} (a : ℕ) (h : j ≠ i) :
    (s.setIdentityId i a).indexToIdentityId j = s.indexToIdentityId j :=
  update_of_ne h _ _

/-- From index `k` on the array holds the list, and nothing after it. -/
def Slots (s : Storage) (k : ℕ) (ids : List ℕ) : Prop :=
  ∀ i, s.indexToIdentityId (k + i) = ids.getD i NULL

theorem slots_cons {a : ℕ} :
    s.Slots k (a :: ids) ↔ s.indexToIdentityId k = a ∧ s.Slots (k + 1) ids := by
  constructor
  · intro h
    refine ⟨h 0, fun i => ?_⟩
    rw [Nat.add_right_comm]
    exact h (i + 1)
  · rintro ⟨hfirst, hrest⟩ i
    cases i with
    | zero => exact hfirst
    | succ i =>
      rw [← Nat.add_assoc, Nat.add_right_comm]
      exact hrest i

theorem Slots.tail (h : s.Slots k ids) : s.Slots (k + 1) ids.tail := by
  cases ids with
  | nil =>
    intro i
    rw [Nat.add_right_comm]
    exact h (i + 1)
  | cons a ids => exact (slots_cons.mp h).2

theorem slots_append : s.Slots k (u ++ v) ↔
    (∀ i < u.length, s.indexToIdentityId (k + i) = u.getD i NULL) ∧ s.Slots (k + u.length) v := by
  constructor
  · intro h
    refine ⟨fun i hi => ?_, fun i => ?_⟩
    · rw [h i, getD_append _ _ _ _ hi]
    · rw [Nat.add_assoc, h, getD_append_right _ _ _ _ (Nat.le_add_right _ _),
        Nat.add_sub_cancel_left]
  · rintro ⟨hu, hv⟩ i
    rcases Nat.lt_or_ge i u.length with hi | hi
    · rw [hu i hi, getD_append _ _ _ _ hi]
    · obtain ⟨j, rfl⟩ := Nat.exists_eq_add_of_le hi
      rw [← Nat.add_assoc, hv, getD_append_right _ _ _ _ hi, Nat.add_sub_cancel_left]

/-- The nodes of the list, each with its index changed. -/
def mapIndex (f : ℕ → ℕ) (ids : List ℕ) (nodes : ℕ → Node) (id : ℕ) : Node :=
  if id ∈ ids then { nodes id with index := f (nodes id).index } else nodes id

theorem mapIndex_cons {f : ℕ → ℕ} {a : ℕ} (ha : a ∉ rest) (nodes : ℕ → Node) :
    mapIndex f rest (update nodes a { nodes a with index := f (nodes a).index }) =
      mapIndex f (a :: rest) nodes := by
  funext id
  by_cases hid : id = a
  · subst hid
    simp [mapIndex, ha]
  · simp [mapIndex, hid]

theorem mapIndex_apply (f : ℕ → ℕ) (ids : List ℕ) (nodes : ℕ → Node) (id : ℕ) :
    (mapIndex f ids nodes id).identityId = (nodes id).identityId ∧
      (mapIndex f ids nodes id).hashRingPosition = (nodes id).hashRingPosition ∧
      (mapIndex f ids nodes id).index =
        if id ∈ ids then f (nodes id).index else (nodes id).index := by
  unfold mapIndex
  split
  · exact ⟨rfl, rfl, rfl⟩
  · exact ⟨rfl, rfl, rfl⟩

/-- The indices of a list and of the same list with one more entry in the middle. -/
theorem idxOf_middle {a : ℕ} (hnew : id ∉ u ++ v) (hnodup : (u ++ v).Nodup) (ha : a ∈ u ++ v) :
    a ≠ id ∧ idxOf a (u ++ id :: v) =
      if a ∈ v then idxOf a (u ++ v) + 1 else idxOf a (u ++ v) := by
  have hne : a ≠ id := fun he => hnew (he ▸ ha)
  refine ⟨hne, ?_⟩
  split_ifs with hav
  · have hau : a ∉ u := fun hau => (nodup_append.mp hnodup).2.2 a hau a hav rfl
    rw [idxOf_append_of_notMem hau, idxOf_append_of_notMem hau, idxOf_cons_ne _ hne.symm]
    rfl
  · have hau : a ∈ u := (mem_append.mp ha).resolve_right hav
    rw [idxOf_append_of_mem hau, idxOf_append_of_mem hau]

theorem mem_middle {a : ℕ} : a ∈ u ++ id :: v ↔ a = id ∨ a ∈ u ++ v := by
  simp only [mem_append, mem_cons]
  tauto

/-- The walk of an insertion moves every node after the new one up by one. -/
theorem shiftUp_ok (gas : ℕ) (hgas : rest.length ≤ gas) (hzero : NULL ∉ rest) (hnodup : rest.Nodup)
    (hslots : s.Slots (index + 1) rest.tail) (hindex : index + rest.length < 2 ^ 72)
    (hstored : ∀ id ∈ rest, (s.nodes id).index + 1 < 2 ^ 72) :
    ∃ s', shiftUp gas s index (rest.headD NULL) = .ok s' ∧ s'.nodesCount = s.nodesCount ∧
      s'.nodes = mapIndex (· + 1) rest s.nodes ∧ s'.Slots (index + 1) rest ∧
      ∀ i ≤ index, s'.indexToIdentityId i = s.indexToIdentityId i := by
  induction rest generalizing s gas index with
  | nil =>
    refine ⟨s, ?_, rfl, ?_, hslots, fun _ _ => rfl⟩
    · unfold shiftUp
      exact if_pos rfl
    · funext id
      simp [mapIndex]
  | cons a rest ih =>
    obtain ⟨gas, rfl⟩ : ∃ g, gas = g + 1 := ⟨gas - 1, by simp at hgas; omega⟩
    obtain ⟨ha, hnodup⟩ := nodup_cons.mp hnodup
    simp only [mem_cons, not_or] at hzero
    simp only [length_cons] at hgas hindex
    set s₁ := (s.setNode a { s.nodes a with index := (s.nodes a).index + 1 }).setIdentityId
      (index + 1) a with hs₁
    have hnext : s.indexToIdentityId (index + 1) = rest.headD NULL := by
      have hfirst := hslots 0
      rwa [tail_cons, Nat.add_zero, ← headD_eq_getD] at hfirst
    have hslots₁ : s₁.Slots (index + 1 + 1) rest.tail := by
      intro i
      have hold := hslots (i + 1)
      rw [tail_cons, ← Nat.add_assoc, Nat.add_right_comm] at hold
      rw [hs₁, setIdentityId_of_ne _ _ (by omega)]
      refine hold.trans ?_
      cases rest <;> rfl
    have hstored₁ : ∀ id ∈ rest, (s₁.nodes id).index + 1 < 2 ^ 72 := by
      intro id hid
      have hne : id ≠ a := fun he => ha (he ▸ hid)
      simpa [hs₁, setIdentityId, setNode, hne] using hstored id (mem_cons_of_mem a hid)
    obtain ⟨s', hok, hcount, hnodes, hfinal, hbelow⟩ := ih (s := s₁) gas (by omega)
      hzero.2 hnodup hslots₁ (by omega) hstored₁
    refine ⟨s', ?_, hcount, ?_, slots_cons.mpr ⟨?_, hfinal⟩, fun i hi => ?_⟩
    · unfold shiftUp
      rw [headD_cons, if_neg (Ne.symm hzero.1), Nat.mod_eq_of_lt (by omega)]
      dsimp only
      rw [incrementNodeIndex, Checked.add, if_pos (hstored a mem_cons_self), hnext]
      exact hok
    · rw [hnodes]
      exact mapIndex_cons ha s.nodes
    · rw [hbelow _ le_rfl, hs₁, setIdentityId_self]
    · rw [hbelow i (by omega), hs₁, setIdentityId_of_ne _ _ (by omega)]
      rfl

/-- The walk of a removal moves every node after the removed one down by one. -/
theorem shiftDown_ok (gas : ℕ) (hgas : rest.length ≤ gas) (hzero : NULL ∉ rest) (hnodup : rest.Nodup)
    (hslots : s.Slots (index + 1) rest) (hindex : index + rest.length + 1 < 2 ^ 72)
    (hstored : ∀ id ∈ rest, 1 ≤ (s.nodes id).index) :
    ∃ s' last, shiftDown gas s index (rest.headD NULL) = .ok (s', last) ∧
      s'.nodesCount = s.nodesCount ∧ s'.nodes = mapIndex (· - 1) rest s.nodes ∧
      (s'.setIdentityId last NULL).Slots index rest ∧ index ≤ last ∧
      ∀ i < index, s'.indexToIdentityId i = s.indexToIdentityId i := by
  induction rest generalizing s gas index with
  | nil =>
    refine ⟨s, index, ?_, rfl, ?_, fun i => ?_, le_rfl, fun _ _ => rfl⟩
    · unfold shiftDown
      exact if_pos rfl
    · funext id
      simp [mapIndex]
    · cases i with
      | zero => exact setIdentityId_self _ _ _
      | succ i =>
        have hempty := hslots i
        rw [setIdentityId_of_ne _ _ (by omega)]
        rwa [← Nat.add_assoc, Nat.add_right_comm]
  | cons a rest ih =>
    obtain ⟨gas, rfl⟩ : ∃ g, gas = g + 1 := ⟨gas - 1, by simp at hgas; omega⟩
    obtain ⟨ha, hnodup⟩ := nodup_cons.mp hnodup
    simp only [mem_cons, not_or] at hzero
    simp only [length_cons] at hgas hindex
    set s₁ := (s.setNode a { s.nodes a with index := (s.nodes a).index - 1 }).setIdentityId
      index a with hs₁
    have hslots₁ : s₁.Slots (index + 1 + 1) rest := by
      intro i
      rw [hs₁, setIdentityId_of_ne _ _ (by omega)]
      exact (slots_cons.mp hslots).2 i
    have hstored₁ : ∀ id ∈ rest, 1 ≤ (s₁.nodes id).index := by
      intro id hid
      have hne : id ≠ a := fun he => ha (he ▸ hid)
      simpa [hs₁, setIdentityId, setNode, hne] using hstored id (mem_cons_of_mem a hid)
    obtain ⟨s', last, hok, hcount, hnodes, hfinal, hlast, hbelow⟩ := ih (s := s₁) gas
      (by omega) hzero.2 hnodup hslots₁ (by omega) hstored₁
    have hnext : s₁.indexToIdentityId (index + 1 + 1) = rest.headD NULL :=
      (hslots₁ 0).trans headD_eq_getD.symm
    refine ⟨s', last, ?_, hcount, ?_, slots_cons.mpr ⟨?_, hfinal⟩, by omega, fun i hi => ?_⟩
    · unfold shiftDown
      rw [headD_cons, if_neg (Ne.symm hzero.1), Nat.mod_eq_of_lt (by omega)]
      dsimp only
      rw [decrementNodeIndex, Checked.sub, if_pos (hstored a mem_cons_self), Checked.add,
        if_pos (by omega)]
      simp only [ok_bind, pure_bind]
      rw [← hs₁, hnext]
      exact hok
    · rw [hnodes]
      exact mapIndex_cons ha s.nodes
    · rw [setIdentityId_of_ne _ _ (by omega), hbelow _ (by omega), hs₁, setIdentityId_self]
    · rw [hbelow i (by omega), hs₁, setIdentityId_of_ne _ _ (by omega)]
      rfl

/-- The search ends at an index with smaller or equal positions before it and larger or equal
ones from it on. -/
theorem searchLoop_ok {n left right : ℕ} (hn : n < 2 ^ 16) (hright : right < n)
    (hgas : right + 2 ≤ left + gas) (hle : left ≤ right + 1)
    (hsorted : ∀ i j, i ≤ j → j < n →
      s.getHashRingPositionByIndex i ≤ s.getHashRingPositionByIndex j)
    (hbelow : ∀ i < left, s.getHashRingPositionByIndex i ≤ pos)
    (habove : ∀ i, right < i → i < n → pos ≤ s.getHashRingPositionByIndex i) :
    ∃ k, s.searchLoop pos gas left right = .ok k ∧ k ≤ n ∧
      (∀ i < k, s.getHashRingPositionByIndex i ≤ pos) ∧
      ∀ i, k ≤ i → i < n → pos ≤ s.getHashRingPositionByIndex i := by
  induction gas generalizing left right with
  | zero => omega
  | succ gas ih =>
    unfold searchLoop
    rcases Nat.lt_or_ge right left with hlt | hge
    · rw [if_neg (by omega)]
      exact ⟨left, rfl, by omega, hbelow, fun i hi => habove i (by omega)⟩
    · rw [if_pos hge, Checked.add, if_pos (by omega), ok_bind]
      dsimp only
      set mid := (left + right) / 2 with hmid
      rcases Nat.lt_trichotomy pos (s.getHashRingPositionByIndex mid) with hlt | heq | hgt
      · rw [if_neg (by omega), if_pos hlt]
        split_ifs with hzero
        · rw [hzero] at hlt
          exact ⟨0, rfl, by omega, fun i hi => absurd hi (Nat.not_lt_zero i),
            fun i _ hi => hlt.le.trans (hsorted 0 i (Nat.zero_le i) hi)⟩
        · rw [Checked.sub, if_pos (by omega), ok_bind]
          exact ih (by omega) (by omega) (by omega) hbelow
            fun i hi hin => hlt.le.trans (hsorted mid i (by omega) hin)
      · rw [if_neg (by omega), if_neg (by omega)]
        exact ⟨mid, rfl, by omega, fun i hi => (hsorted i mid hi.le (by omega)).trans heq.ge,
          fun i hi hin => heq.le.trans (hsorted mid i hi hin)⟩
      · rw [if_pos hgt, Checked.add, if_pos (by omega), ok_bind]
        exact ih hright (by omega) (by omega)
          (fun i hi => (hsorted i mid (by omega) (by omega)).trans hgt.le) habove

/-- The table is the list of its nodes, in the order of their positions. -/
structure Lists (s : Storage) (ids : List ℕ) : Prop where
  count : s.nodesCount = ids.length
  slots : s.Slots 0 ids
  nodup : ids.Nodup
  zero : NULL ∉ ids
  identity : ∀ id ∈ ids, (s.nodes id).identityId = id
  index : ∀ id ∈ ids, (s.nodes id).index = ids.idxOf id
  absent : ∀ id, id ∉ ids → s.nodes id = .empty
  sorted : ids.Pairwise fun a b => (s.nodes a).hashRingPosition ≤ (s.nodes b).hashRingPosition
  small : ids.length < 2 ^ 16

namespace Lists

theorem slot (h : s.Lists ids) (i : ℕ) : s.indexToIdentityId i = ids.getD i NULL := by
  have hi := h.slots i
  rwa [Nat.zero_add] at hi

theorem slot_lt (h : s.Lists ids) {i : ℕ} (hi : i < ids.length) :
    s.indexToIdentityId i = ids[i] := by
  rw [h.slot, getD_eq_getElem _ _ hi]

theorem nodeExists_iff (h : s.Lists ids) (id : ℕ) : s.nodeExists id ↔ id ∈ ids := by
  constructor
  · intro hex
    by_contra hid
    exact hex (by rw [h.absent id hid]; rfl)
  · intro hid hz
    rw [h.identity id hid] at hz
    exact h.zero (by rw [NULL, ← hz]; exact hid)

theorem positions_le (h : s.Lists ids) {i j : ℕ} (hij : i ≤ j) (hj : j < ids.length) :
    s.getHashRingPositionByIndex i ≤ s.getHashRingPositionByIndex j := by
  rcases Nat.eq_or_lt_of_le hij with rfl | hlt
  · exact le_rfl
  · rw [getHashRingPositionByIndex, getHashRingPositionByIndex, getNodeByIndex, getNodeByIndex,
      h.slot_lt hj, h.slot_lt (hlt.trans hj)]
    exact pairwise_iff_getElem.mp h.sorted i j (hlt.trans hj) hj hlt

theorem search (h : s.Lists ids) (pos : ℕ) :
    ∃ k, s.binarySearchForIndex pos = .ok k ∧ k ≤ ids.length ∧
      (∀ i < k, s.getHashRingPositionByIndex i ≤ pos) ∧
      ∀ i, k ≤ i → i < ids.length → pos ≤ s.getHashRingPositionByIndex i := by
  have hcount := h.count
  unfold binarySearchForIndex
  split
  · exact ⟨0, rfl, Nat.zero_le _, fun i hi => absurd hi (Nat.not_lt_zero i),
      fun i _ hi => absurd hi (by omega)⟩
  · rw [Checked.sub, if_pos (by omega), ok_bind]
    exact searchLoop_ok h.small (by omega) (by omega) (by omega)
      (fun i j hij hj => h.positions_le hij hj) (fun i hi => absurd hi (Nat.not_lt_zero i))
      fun i hi hin => absurd hin (by omega)

/-- The list with a node put between the two parts. -/
theorem inserted (pos : ℕ) (nodeId : List UInt8) (h : s.Lists (u ++ v)) (hid : id ≠ NULL) (hnew : id ∉ u ++ v)
    (hcount : s'.nodesCount = s.nodesCount + 1) (hsmall : s.nodesCount + 1 < 2 ^ 16)
    (hslots : s'.Slots 0 (u ++ id :: v))
    (hself : s'.nodes id = ⟨pos, nodeId, u.length, id⟩)
    (hother : ∀ a, a ≠ id → s'.nodes a = mapIndex (· + 1) v s.nodes a)
    (hu : ∀ a ∈ u, (s.nodes a).hashRingPosition ≤ pos)
    (hv : ∀ a ∈ v, pos ≤ (s.nodes a).hashRingPosition) : s'.Lists (u ++ id :: v) := by
  have hlen := h.count
  rw [length_append] at hlen
  have hnodes : ∀ a ∈ u ++ v, (s'.nodes a).identityId = a ∧
      (s'.nodes a).hashRingPosition = (s.nodes a).hashRingPosition ∧
      (s'.nodes a).index = idxOf a (u ++ id :: v) := by
    intro a ha
    obtain ⟨hne, hidx⟩ := idxOf_middle hnew h.nodup ha
    obtain ⟨hi, hp, hx⟩ := mapIndex_apply (· + 1) v s.nodes a
    rw [hother a hne, hi, hp, hx, h.identity a ha, h.index a ha, hidx]
    exact ⟨rfl, rfl, rfl⟩
  refine ⟨by simp; omega, hslots, ?_, ?_, fun a ha => ?_, fun a ha => ?_, fun a ha => ?_, ?_,
    by simp; omega⟩
  · exact nodup_middle.mpr (nodup_cons.mpr ⟨hnew, h.nodup⟩)
  · rw [mem_middle]
    exact not_or.mpr ⟨Ne.symm hid, h.zero⟩
  · rcases mem_middle.mp ha with rfl | hold
    · rw [hself]
    · exact (hnodes a hold).1
  · rcases mem_middle.mp ha with rfl | hold
    · have hnu : a ∉ u := fun hmem => hnew (mem_append_left _ hmem)
      rw [hself, idxOf_append_of_notMem hnu, idxOf_cons_self, Nat.add_zero]
    · exact (hnodes a hold).2.2
  · rw [mem_middle, not_or] at ha
    rw [hother a ha.1, mapIndex, if_neg fun hav => ha.2 (mem_append_right _ hav)]
    exact h.absent a ha.2
  · obtain ⟨hsu, hsv, hcross⟩ := pairwise_append.mp h.sorted
    have hpu : ∀ a ∈ u, (s'.nodes a).hashRingPosition = (s.nodes a).hashRingPosition :=
      fun a ha => (hnodes a (mem_append_left _ ha)).2.1
    have hpv : ∀ a ∈ v, (s'.nodes a).hashRingPosition = (s.nodes a).hashRingPosition :=
      fun a ha => (hnodes a (mem_append_right _ ha)).2.1
    refine pairwise_append.mpr ⟨?_, pairwise_cons.mpr ⟨fun b hb => ?_, ?_⟩, ?_⟩
    · refine hsu.imp_of_mem fun {a b} ha hb hab => ?_
      rwa [hpu a ha, hpu b hb]
    · rw [hself, hpv b hb]
      exact hv b hb
    · refine hsv.imp_of_mem fun {a b} ha hb hab => ?_
      rwa [hpv a ha, hpv b hb]
    · intro a ha b hb
      rw [hpu a ha]
      rcases mem_cons.mp hb with rfl | hb
      · rw [hself]
        exact hu a ha
      · rw [hpv b hb]
        exact hcross a ha b hb

/-- The node after the place of insertion, if there is one. -/
theorem next_identityId (h : s.Lists (u ++ v)) :
    (s.getNodeByIndex u.length).identityId = v.headD NULL := by
  have hslot : s.indexToIdentityId u.length = v.headD NULL := by
    have hfirst := (slots_append.mp h.slots).2 0
    rwa [Nat.zero_add, Nat.add_zero, ← headD_eq_getD] at hfirst
  rw [getNodeByIndex, hslot]
  cases v with
  | nil => exact congrArg Node.identityId (h.absent NULL h.zero)
  | cons a v => exact h.identity a (by simp)

theorem requireAfterPrevious_ok (h : s.Lists (u ++ v))
    (hu : ∀ a ∈ u, (s.nodes a).hashRingPosition ≤ pos) :
    s.requireAfterPrevious u.length id pos = .ok () := by
  unfold requireAfterPrevious
  split_ifs with hne
  · have hlt : u.length - 1 < (u ++ v).length := by
      rw [length_append]
      omega
    have hslot := h.slot_lt hlt
    rw [getElem_append_left (by omega)] at hslot
    refine require_of ?_
    rw [getHashRingPositionByIndex, getNodeByIndex, hslot]
    exact not_lt.mpr (hu _ (getElem_mem _))
  · rfl

theorem insertNodeAt_ok (h : s.Lists (u ++ v)) (nodeId : List UInt8) (hid : id ≠ NULL)
    (hnew : id ∉ u ++ v)
    {sizeLimit : ℕ} (hroom : s.nodesCount < sizeLimit) (hlimit : sizeLimit < 2 ^ 16)
    (hu : ∀ a ∈ u, (s.nodes a).hashRingPosition ≤ pos)
    (hv : ∀ a ∈ v, pos ≤ (s.nodes a).hashRingPosition) :
    ∃ s', s.insertNodeAt sizeLimit u.length id nodeId pos = .ok s' ∧ s'.Lists (u ++ id :: v) := by
  have hlen := h.count
  rw [length_append] at hlen
  obtain ⟨hbefore, hafter⟩ := slots_append.mp h.slots
  rw [Nat.zero_add] at hafter
  have hnv : id ∉ v := fun hmem => hnew (mem_append_right _ hmem)
  obtain ⟨-, hnodup, -⟩ := nodup_append.mp h.nodup
  set s₁ : Storage := { (s.createNodeObject pos nodeId id u.length).setIdentityId u.length id with
    nodesCount := s.nodesCount + 1 } with hs₁
  have hslots₁ : s₁.Slots (u.length + 1) v.tail := by
    intro i
    have hne : u.length + 1 + i ≠ u.length := by omega
    exact (setIdentityId_of_ne _ _ hne).trans (hafter.tail i)
  have hstored : ∀ a ∈ v, (s₁.nodes a).index + 1 < 2 ^ 72 := by
    intro a ha
    have hne : a ≠ id := fun he => hnv (he ▸ ha)
    have hmem : a ∈ u ++ v := mem_append_right _ ha
    have hlt := idxOf_lt_length_of_mem hmem
    have hnode : s₁.nodes a = s.nodes a := update_of_ne hne _ _
    have hsmall := h.small
    rw [hnode, h.index a hmem]
    omega
  obtain ⟨s', hok, hcount, hnodes, hslots, hbelow⟩ := shiftUp_ok s₁.nodesCount
    (show v.length ≤ s.nodesCount + 1 by omega)
    (fun hmem => h.zero (mem_append_right _ hmem)) hnodup hslots₁ (by omega) hstored
  refine ⟨s', ?_, h.inserted pos nodeId hid hnew hcount (by omega) ?_ ?_ ?_ hu hv⟩
  · unfold insertNodeAt
    have hnext : ¬((s.getNodeByIndex u.length).identityId ≠ NULL ∧
        pos > (s.getNodeByIndex u.length).hashRingPosition) := by
      rintro ⟨hne, hgt⟩
      rw [h.next_identityId] at hne
      cases v with
      | nil => exact hne rfl
      | cons a v =>
        have hslot := (slots_cons.mp hafter).1
        rw [getNodeByIndex, hslot] at hgt
        exact absurd (hv a (by simp)) (by omega)
    have hinc : ((s.createNodeObject pos nodeId id u.length).setIdentityId u.length
        id).incrementNodesCount = .ok s₁ := by
      rw [incrementNodesCount, Checked.add, if_pos]
      · rfl
      · show s.nodesCount + 1 < 2 ^ 72
        omega
    rw [require_of hroom, require_of ((h.nodeExists_iff id).not.mpr hnew),
      h.requireAfterPrevious_ok hu]
    simp only [ok_bind]
    rw [require_of hnext, hinc, h.next_identityId]
    exact hok
  · refine slots_append.mpr ⟨fun i hi => ?_, slots_cons.mpr ⟨?_, ?_⟩⟩
    · rw [hbelow _ (by omega), ← hbefore i hi]
      exact setIdentityId_of_ne _ _ (by omega)
    · rw [hbelow _ (by omega), Nat.zero_add]
      exact setIdentityId_self _ _ _
    · rwa [Nat.zero_add]
  · rw [hnodes, mapIndex, if_neg hnv]
    exact update_self _ _ _
  · intro a ha
    have hnode : s₁.nodes a = s.nodes a := update_of_ne ha _ _
    rw [hnodes, mapIndex, mapIndex, hnode]

/-- The list without the node between the two parts. -/
theorem removed (h : s.Lists (u ++ id :: v)) (hcount : s'.nodesCount + 1 = s.nodesCount)
    (hslots : s'.Slots 0 (u ++ v)) (hself : s'.nodes id = .empty)
    (hother : ∀ a, a ≠ id → s'.nodes a = mapIndex (· - 1) v s.nodes a) : s'.Lists (u ++ v) := by
  have hlen := h.count
  have hsmall := h.small
  rw [length_append, length_cons] at hlen hsmall
  obtain ⟨hnew, hnodup⟩ := nodup_cons.mp (nodup_middle.mp h.nodup)
  have hsub : ∀ a ∈ u ++ v, a ∈ u ++ id :: v := fun a ha => mem_middle.mpr (.inr ha)
  have hnodes : ∀ a ∈ u ++ v, (s'.nodes a).identityId = a ∧
      (s'.nodes a).hashRingPosition = (s.nodes a).hashRingPosition ∧
      (s'.nodes a).index = idxOf a (u ++ v) := by
    intro a ha
    obtain ⟨hne, hidx⟩ := idxOf_middle hnew hnodup ha
    obtain ⟨hi, hp, hx⟩ := mapIndex_apply (· - 1) v s.nodes a
    rw [hother a hne, hi, hp, hx, h.identity a (hsub a ha), h.index a (hsub a ha), hidx]
    refine ⟨rfl, rfl, ?_⟩
    split <;> rfl
  refine ⟨by simp; omega, hslots, hnodup, fun hz => h.zero (hsub _ hz),
    fun a ha => (hnodes a ha).1, fun a ha => (hnodes a ha).2.2, fun a ha => ?_, ?_,
    by simp; omega⟩
  · by_cases hid : a = id
    · rw [hid, hself]
    · rw [hother a hid, mapIndex, if_neg fun hav => ha (mem_append_right _ hav)]
      exact h.absent a fun hold => (mem_middle.mp hold).elim hid ha
  · have hsorted := h.sorted.sublist ((sublist_cons_self id v).append_left u)
    refine hsorted.imp_of_mem fun {a b} ha hb hab => ?_
    rwa [(hnodes a ha).2.1, (hnodes b hb).2.1]

theorem removeNode_ok (h : s.Lists (u ++ id :: v)) :
    ∃ s', s.removeNode id = .ok s' ∧ s'.Lists (u ++ v) := by
  have hlen := h.count
  have hsmall := h.small
  rw [length_append, length_cons] at hlen hsmall
  obtain ⟨hnew, hnodup⟩ := nodup_cons.mp (nodup_middle.mp h.nodup)
  obtain ⟨-, hnodupv, hcross⟩ := nodup_append.mp hnodup
  have hnu : id ∉ u := fun hmem => hnew (mem_append_left _ hmem)
  obtain ⟨hbefore, hafter⟩ := slots_append.mp h.slots
  rw [Nat.zero_add] at hafter
  obtain ⟨-, hrest⟩ := slots_cons.mp hafter
  have hidx : (s.nodes id).index = u.length := by
    rw [h.index id (by simp), idxOf_append_of_notMem hnu, idxOf_cons_self, Nat.add_zero]
  have hstored : ∀ a ∈ v, 1 ≤ (s.nodes a).index := by
    intro a ha
    have hau : a ∉ u := fun hau => hcross a hau a ha rfl
    have hne : id ≠ a := fun he => hnew (mem_append_right _ (he ▸ ha))
    rw [h.index a (by simp [ha]), idxOf_append_of_notMem hau, idxOf_cons_ne _ hne]
    omega
  obtain ⟨s₁, last, hok, hcount, hnodes, hslots, hlast, hbelow⟩ := shiftDown_ok
    s.nodesCount (by omega) (fun hmem => h.zero (by simp [hmem])) hnodupv hrest
    (by omega) hstored
  have hnext : s.indexToIdentityId (u.length + 1) = v.headD NULL :=
    (hrest 0).trans headD_eq_getD.symm
  set s₂ : Storage := { (s₁.deleteNodeObject id).setIdentityId last NULL with
    nodesCount := s₁.nodesCount - 1 }
  refine ⟨s₂, ?_, h.removed (show s₁.nodesCount - 1 + 1 = _ by omega) ?_ ?_ fun a ha => ?_⟩
  · unfold removeNode
    dsimp only
    rw [hidx, Checked.add, if_pos (by omega), ok_bind, hnext, hok]
    simp only [ok_bind]
    rw [decrementNodesCount, Checked.sub, if_pos]
    · rfl
    · show 1 ≤ s₁.nodesCount
      omega
  · refine slots_append.mpr ⟨fun i hi => ?_, ?_⟩
    · rw [← hbefore i hi, ← hbelow _ (by omega)]
      exact setIdentityId_of_ne _ _ (by omega)
    · rw [Nat.zero_add]
      exact hslots
  · exact update_self _ _ _
  · rw [← hnodes]
    exact update_of_ne ha _ _

end Lists

theorem initial_lists : initial.Lists [] where
  count := rfl
  slots _ := rfl
  nodup := nodup_nil
  zero := not_mem_nil
  identity _ h := absurd h not_mem_nil
  index _ h := absurd h not_mem_nil
  absent _ _ := rfl
  sorted := .nil
  small := Nat.two_pow_pos 16

section Calls
variable {sha256 : List UInt8 → ℕ}

/-- A node that is new to the table is accepted where the search puts it. -/
theorem Lists.insertNodeAt_search (h : s.Lists ids) (pos : ℕ) :
    ∃ k, s.binarySearchForIndex pos = .ok k ∧ k ≤ ids.length ∧
      ∀ (sizeLimit : UInt16) (id : ℕ) (nodeId : List UInt8), id ≠ NULL → ¬s.nodeExists id →
        s.nodesCount < sizeLimit.toNat → ∃ s' ids',
          s.insertNodeAt sizeLimit.toNat k id nodeId pos = .ok s' ∧ s'.Lists ids' := by
  obtain ⟨k, hsearch, hk, hbelow, habove⟩ := h.search pos
  refine ⟨k, hsearch, hk, fun sizeLimit id nodeId hid hex hroom => ?_⟩
  have hnew := (h.nodeExists_iff id).not.mp hex
  have hsplit : ids.take k ++ ids.drop k = ids := take_append_drop k ids
  have htake : (ids.take k).length = k := by
    rw [length_take, min_eq_left hk]
  have hu : ∀ a ∈ ids.take k, (s.nodes a).hashRingPosition ≤ pos := by
    intro a ha
    obtain ⟨i, hi, rfl⟩ := mem_take_iff_getElem.mp ha
    have hpos := hbelow i (by omega)
    rwa [getHashRingPositionByIndex, getNodeByIndex, h.slot_lt (by omega)] at hpos
  have hv : ∀ a ∈ ids.drop k, pos ≤ (s.nodes a).hashRingPosition := by
    intro a ha
    obtain ⟨i, hi, rfl⟩ := mem_drop_iff_getElem.mp ha
    have hpos := habove (k + i) (by omega) (by omega)
    rwa [getHashRingPositionByIndex, getNodeByIndex, h.slot_lt (by omega)] at hpos
  rw [← hsplit] at h hnew
  obtain ⟨s', hok, hs'⟩ := h.insertNodeAt_ok nodeId hid hnew hroom sizeLimit.toNat_lt hu hv
  rw [htake] at hok
  exact ⟨s', _, hok, hs'⟩

/-- What an insertion does in every state of the table. -/
theorem Lists.insertNode_cases (h : s.Lists ids) (sha256 : List UInt8 → ℕ) (nodeId : List UInt8)
    (hid : id ≠ NULL) (sizeLimit : UInt16) :
    if sizeLimit.toNat ≤ s.nodesCount then
      s.insertNode sha256 sizeLimit.toNat id nodeId =
        .error (.shardingTableIsFull s.nodesCount sizeLimit.toNat)
    else if s.nodeExists id then
      s.insertNode sha256 sizeLimit.toNat id nodeId = .error (.nodeAlreadyInTheShardingTable id)
    else ∃ s' ids', s.insertNode sha256 sizeLimit.toNat id nodeId = .ok s' ∧ s'.Lists ids' := by
  obtain ⟨k, hsearch, -, haccept⟩ := h.insertNodeAt_search (sha256 nodeId)
  rw [insertNode, hsearch, ok_bind]
  split
  · rename_i hfull
    rw [insertNodeAt, require, if_neg (not_lt.mpr hfull), error_bind]
  · rename_i hroom
    split_ifs with hex
    · rw [insertNodeAt, require_of (not_le.mp hroom), ok_bind, require,
        if_neg (not_not.mpr hex), error_bind]
    · exact haccept sizeLimit id nodeId hid hex (not_le.mp hroom)

theorem Lists.removeNode_of_exists (h : s.Lists ids) (hid : s.nodeExists id) :
    ∃ s' ids', s.removeNode id = .ok s' ∧ s'.Lists ids' := by
  obtain ⟨u, v, rfl⟩ := append_of_mem ((h.nodeExists_iff id).mp hid)
  obtain ⟨s', hok, hs'⟩ := h.removeNode_ok
  exact ⟨s', _, hok, hs'⟩

theorem step_lists {call : Call} (h : ∃ ids, s.Lists ids) (hallowed : Allowed s call)
    (hok : step sha256 s call = .ok s') : ∃ ids, s'.Lists ids := by
  obtain ⟨ids, h⟩ := h
  cases call with
  | insertNode sizeLimit id nodeId =>
    have hcases := h.insertNode_cases sha256 nodeId hallowed sizeLimit
    rw [step] at hok
    split at hcases
    · rw [hcases] at hok
      cases hok
    · split at hcases
      · rw [hcases] at hok
        cases hok
      · obtain ⟨t, ids', ht, hlists⟩ := hcases
        cases ht.symm.trans hok
        exact ⟨ids', hlists⟩
  | removeNode id =>
    obtain ⟨t, ids', ht, hlists⟩ := h.removeNode_of_exists hallowed
    cases ht.symm.trans hok
    exact ⟨ids', hlists⟩

theorem run_lists {calls : List Call} (hcalls : Along (step sha256) Allowed initial calls) :
    ∃ ids, (run (step sha256) initial calls).Lists ids :=
  run_invariant_along (fun s => ∃ ids, s.Lists ids) (fun _ _ _ h hC hok => step_lists h hC hok)
    ⟨[], initial_lists⟩ hcalls

/-- After every run of insertions and removals of present nodes, the table is a contiguous array
of the present nodes ordered by position; the search finds an index at which an insertion is
accepted, and a call fails only on a full table or on a node that is already there. -/
theorem run_table_sorted {calls : List Call}
    (hcalls : Along (step sha256) Allowed initial calls) :
    let s := run (step sha256) initial calls
    (∀ i < s.nodesCount, s.nodeExists (s.indexToIdentityId i) ∧ (s.getNodeByIndex i).index = i) ∧
    (∀ i, s.nodesCount ≤ i → s.indexToIdentityId i = NULL) ∧
    (∀ id, s.nodeExists id ↔ ∃ i < s.nodesCount, s.indexToIdentityId i = id) ∧
    (∀ i j, i ≤ j → j < s.nodesCount →
      s.getHashRingPositionByIndex i ≤ s.getHashRingPositionByIndex j) ∧
    (∀ pos, ∃ k, s.binarySearchForIndex pos = .ok k ∧ k ≤ s.nodesCount ∧
      ∀ (sizeLimit : UInt16) (id : ℕ) (nodeId : List UInt8), id ≠ NULL → ¬s.nodeExists id →
        s.nodesCount < sizeLimit.toNat →
          ∃ s', s.insertNodeAt sizeLimit.toNat k id nodeId pos = .ok s') ∧
    (∀ (sizeLimit : UInt16) (id : ℕ) (nodeId : List UInt8), id ≠ NULL →
      if sizeLimit.toNat ≤ s.nodesCount then
        s.insertNode sha256 sizeLimit.toNat id nodeId =
          .error (.shardingTableIsFull s.nodesCount sizeLimit.toNat)
      else if s.nodeExists id then
        s.insertNode sha256 sizeLimit.toNat id nodeId = .error (.nodeAlreadyInTheShardingTable id)
      else ∃ s', s.insertNode sha256 sizeLimit.toNat id nodeId = .ok s') ∧
    ∀ id, s.nodeExists id → ∃ s', s.removeNode id = .ok s' := by
  intro s
  obtain ⟨ids, h⟩ := run_lists hcalls
  have hmem : ∀ id, s.nodeExists id ↔ id ∈ ids := h.nodeExists_iff
  have hcount : s.nodesCount = ids.length := h.count
  rw [hcount]
  refine ⟨fun i hi => ?_, fun i hi => ?_, fun id => ?_, fun i j => h.positions_le, fun pos => ?_,
    fun sizeLimit id nodeId hid => ?_, fun id hid => ?_⟩
  · rw [getNodeByIndex, h.slot_lt hi, hmem, h.index _ (getElem_mem hi)]
    exact ⟨getElem_mem hi, h.nodup.idxOf_getElem i hi⟩
  · rw [h.slot, getD_eq_default _ _ hi]
  · rw [hmem, mem_iff_getElem]
    constructor
    · rintro ⟨i, hi, rfl⟩
      exact ⟨i, hi, h.slot_lt hi⟩
    · rintro ⟨i, hi, rfl⟩
      exact ⟨i, hi, (h.slot_lt hi).symm⟩
  · obtain ⟨k, hk, hle, haccept⟩ := h.insertNodeAt_search pos
    refine ⟨k, hk, hle, fun sizeLimit id nodeId hid hex hroom => ?_⟩
    obtain ⟨s', -, hok, -⟩ := haccept sizeLimit id nodeId hid hex (hcount ▸ hroom)
    exact ⟨s', hok⟩
  · have hcases := h.insertNode_cases sha256 nodeId hid sizeLimit
    rw [hcount] at hcases
    split_ifs at hcases ⊢ with hfull hex
    · exact hcases
    · exact hcases
    · obtain ⟨s', -, hok, -⟩ := hcases
      exact ⟨s', hok⟩
  · obtain ⟨s', -, hok, -⟩ := h.removeNode_of_exists hid
    exact ⟨s', hok⟩

/-- Three nodes, two of them at one position, and the one between removed. -/
def collidingNodes : List Call :=
  [.insertNode 500 4 [9], .insertNode 500 7 [2], .insertNode 500 5 [9], .removeNode 4]

theorem run_table_sorted_collidingNodes :
    let s := run (step fun nodeId => (nodeId.headD 0).toNat) initial collidingNodes
    s.nodesCount = 2 ∧ s.getHashRingPositionByIndex 0 ≤ s.getHashRingPositionByIndex 1 := by
  intro s
  have hcalls : Along (step fun nodeId => (nodeId.headD 0).toNat) Allowed initial
      collidingNodes := by decide +kernel
  obtain ⟨-, -, -, hsorted, -⟩ := run_table_sorted hcalls
  have hcount : s.nodesCount = 2 := by decide +kernel
  exact ⟨hcount, hsorted 0 1 Nat.one_pos.le (hcount.symm ▸ Nat.one_lt_two)⟩

end Calls
end Storage
end Dkg.Sharding
