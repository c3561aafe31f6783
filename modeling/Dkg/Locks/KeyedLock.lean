import Mathlib.Algebra.Order.BigOperators.Group.Finset

/-!
`keyed-lock.ts`. A call installs its gate for all its keys at once and waits for the gates it found
there, so calls with a common key run one after the other in the order they were made.
-/

namespace Dkg.Locks

open Function

variable {Key : Type*} [DecidableEq Key]

inductive Phase where
  | waiting
  | running
  /-- The callback has resolved or rejected. -/
  | returned
  /-- The gate is released. -/
  | settled
deriving DecidableEq

/-- The calls so far by number, and the map from keys to gates; a gate is the number of its call. -/
structure State (Key : Type*) where
  calls : ℕ
  keys : ℕ → List Key
  predecessors : ℕ → List ℕ
  phase : ℕ → Phase
  lockMap : Key → Option ℕ

namespace State

def empty : State Key := ⟨0, fun _ => [], fun _ => [], fun _ => .waiting, fun _ => none⟩

/-- `withKeyedLocks` up to its first `await`: the gates found for the keys, then the gate for all
of them. -/
def withKeyedLocks (s : State Key) (keys : List Key) : State Key where
  calls := s.calls + 1
  keys := update s.keys s.calls keys
  predecessors := update s.predecessors s.calls (keys.filterMap s.lockMap)
  phase := update s.phase s.calls .waiting
  lockMap := fun k => if k ∈ keys then some s.calls else s.lockMap k

/-- `keys.some(key => lockMap.has(key))`. -/
def refuses (s : State Key) (keys : List Key) : Bool := keys.any fun k => (s.lockMap k).isSome

def tryWithKeyedLocks (s : State Key) (keys : List Key) : State Key :=
  if s.refuses keys then s else s.withKeyedLocks keys

def setPhase (s : State Key) (i : ℕ) (p : Phase) : State Key :=
  { s with phase := update s.phase i p }

/-- All gates that the call waits for are released. -/
def ready (s : State Key) (i : ℕ) : Bool := (s.predecessors i).all fun p => s.phase p = .settled

/-- The `finally` block: the gate is released, and the keys that still have it are deleted. -/
def release (s : State Key) (i : ℕ) : State Key :=
  { s.setPhase i .settled with
    lockMap := fun k => if k ∈ s.keys i ∧ s.lockMap k = some i then none else s.lockMap k }

end State

inductive Op (Key : Type*) where
  | call (keys : List Key)
  | tryCall (keys : List Key)
  /-- The callback of a call is entered. -/
  | start (i : ℕ)
  /-- The callback resolves or rejects. -/
  | finish (i : ℕ)
  | release (i : ℕ)

def step (s : State Key) : Op Key → Option (State Key)
  | .call keys => some (s.withKeyedLocks keys)
  | .tryCall keys => some (s.tryWithKeyedLocks keys)
  | .start i =>
    if i < s.calls ∧ s.phase i = .waiting ∧ s.ready i then some (s.setPhase i .running) else none
  | .finish i => if i < s.calls ∧ s.phase i = .running then some (s.setPhase i .returned) else none
  | .release i => if i < s.calls ∧ s.phase i = .returned then some (s.release i) else none

/-- The states that overlapping calls lead to. -/
inductive Reachable : State Key → Prop
  | empty : Reachable .empty
  | step {s t : State Key} {op : Op Key} : Reachable s → step s op = some t → Reachable t

/-- A common key. -/
def Meets (s : State Key) (i j : ℕ) : Prop := ∃ k, k ∈ s.keys i ∧ k ∈ s.keys j

section Invariant
variable {s t : State Key} {i j : ℕ} {k : Key} {keys : List Key}

/-- What the gates stand for. -/
structure Inv (s : State Key) : Prop where
  /-- A call waits for earlier calls it shares a key with. -/
  earlier : ∀ j < s.calls, ∀ p ∈ s.predecessors j, p < j ∧ Meets s p j
  /-- An earlier call with a key was settled, or is at or before a gate of that key. -/
  covered : ∀ j < s.calls, ∀ i < j, ∀ k, k ∈ s.keys i → k ∈ s.keys j →
    s.phase i = .settled ∨ ∃ p ∈ s.predecessors j, i ≤ p ∧ k ∈ s.keys p
  started : ∀ j < s.calls, s.phase j ≠ .waiting → ∀ p ∈ s.predecessors j, s.phase p = .settled
  /-- The gate in the map is of an unsettled call. -/
  gate : ∀ k g, s.lockMap k = some g → g < s.calls ∧ k ∈ s.keys g ∧ s.phase g ≠ .settled
  /-- It is the latest one with the key. -/
  latest : ∀ i < s.calls, s.phase i ≠ .settled → ∀ k ∈ s.keys i, ∃ g, s.lockMap k = some g ∧ i ≤ g

omit [DecidableEq Key] in
theorem inv_empty : Inv (State.empty : State Key) := by
  constructor <;> simp [State.empty]

omit [DecidableEq Key] in
/-- Along the chain of gates all earlier calls with the key were settled. -/
theorem Inv.settled_of_started (h : Inv s) (hj : j < s.calls) (hphase : s.phase j ≠ .waiting)
    (hij : i < j) (hmeets : Meets s i j) : s.phase i = .settled := by
  obtain ⟨k, hki, hkj⟩ := hmeets
  induction j using Nat.strongRecOn with
  | ind j ih =>
    rcases h.covered j hj i hij k hki hkj with hsettled | ⟨p, hp, hip, hkp⟩
    · exact hsettled
    · have hpj := (h.earlier j hj p hp).1
      have hpsettled := h.started j hj hphase p hp
      rcases Nat.lt_or_eq_of_le hip with hlt | rfl
      · exact ih p hpj (by omega) (by simp [hpsettled]) hlt hkp
      · exact hpsettled

theorem Inv.withKeyedLocks (h : Inv s) (keys : List Key) : Inv (s.withKeyedLocks keys) := by
  obtain ⟨hearlier, hcovered, hstarted, hgate, hlatest⟩ := h
  have hfound : ∀ p ∈ keys.filterMap s.lockMap, p < s.calls ∧ ∃ k ∈ keys, k ∈ s.keys p := by
    intro p hp
    obtain ⟨k, hk, hmap⟩ := List.mem_filterMap.mp hp
    exact ⟨(hgate k p hmap).1, k, hk, (hgate k p hmap).2.1⟩
  refine ⟨?_, ?_, ?_, ?_, ?_⟩ <;> simp only [State.withKeyedLocks, Meets, update_apply]
  case refine_5 =>
    intro i hi hphase k hk
    by_cases hnew : k ∈ keys
    · exact ⟨s.calls, if_pos hnew, Nat.le_of_lt_succ hi⟩
    · grind
  all_goals grind [Meets]

omit [DecidableEq Key] in
theorem Inv.setPhase {p : Phase} (h : Inv s) (hp : p = .running ∨ p = .returned)
    (hi : s.phase i ≠ .settled) (hready : ∀ q ∈ s.predecessors i, s.phase q = .settled) :
    Inv (s.setPhase i p) := by
  obtain ⟨hearlier, hcovered, hstarted, hgate, hlatest⟩ := h
  constructor <;> simp only [State.setPhase, Meets, update_apply] <;> grind [Meets]

theorem Inv.release (h : Inv s) (hi : i < s.calls) (hphase : s.phase i = .returned) :
    Inv (s.release i) := by
  have hbefore : ∀ j < i, Meets s j i → s.phase j = .settled :=
    fun j hj => h.settled_of_started hi (by simp [hphase]) hj
  obtain ⟨hearlier, hcovered, hstarted, hgate, hlatest⟩ := h
  constructor <;> simp only [State.release, State.setPhase, Meets, update_apply] <;>
    grind [Meets]

theorem step_inv {op : Op Key} (h : Inv s) (hstep : step s op = some t) : Inv t := by
  cases op with
  | call keys =>
    cases hstep
    exact h.withKeyedLocks keys
  | tryCall keys =>
    cases hstep
    unfold State.tryWithKeyedLocks
    split
    · exact h
    · exact h.withKeyedLocks keys
  | start i =>
    obtain ⟨⟨-, hphase, hready⟩, ⟨⟩⟩ := Option.ite_none_right_eq_some.mp hstep
    refine h.setPhase (.inl rfl) (by simp [hphase]) fun q hq => ?_
    simpa using List.all_eq_true.mp hready q hq
  | finish i =>
    obtain ⟨⟨hi, hphase⟩, ⟨⟩⟩ := Option.ite_none_right_eq_some.mp hstep
    exact h.setPhase (.inr rfl) (by simp [hphase]) (h.started i hi (by simp [hphase]))
  | release i =>
    obtain ⟨⟨hi, hphase⟩, ⟨⟩⟩ := Option.ite_none_right_eq_some.mp hstep
    exact h.release hi hphase

theorem reachable_inv (h : Reachable s) : Inv s := by
  induction h with
  | empty => exact inv_empty
  | step _ hstep ih => exact step_inv ih hstep

omit [DecidableEq Key] in
theorem Inv.isSome_lockMap (h : Inv s) (k : Key) :
    (s.lockMap k).isSome ↔ ∃ i < s.calls, k ∈ s.keys i ∧ s.phase i ≠ .settled := by
  rw [Option.isSome_iff_exists]
  constructor
  · rintro ⟨g, hg⟩
    exact ⟨g, h.gate k g hg⟩
  · rintro ⟨i, hi, hk, hphase⟩
    obtain ⟨g, hg, -⟩ := h.latest i hi hphase k hk
    exact ⟨g, hg⟩

theorem Inv.can_start (h : Inv s) (hi : i < s.calls) (hphase : s.phase i = .waiting)
    (hbefore : ∀ j < i, Meets s j i → s.phase j = .settled) : ∃ t, step s (.start i) = some t := by
  have hready : s.ready i = true := by
    apply List.all_eq_true.mpr
    intro p hp
    obtain ⟨hlt, hmeets⟩ := h.earlier i hi p hp
    exact decide_eq_true (hbefore p hlt hmeets)
  exact ⟨_, if_pos ⟨hi, hphase, hready⟩⟩

/-- The first call that is not settled can go on. -/
theorem Inv.can_step (h : Inv s) (hopen : ∃ i < s.calls, s.phase i ≠ .settled)
    (hidle : ∀ i < s.calls, s.phase i ≠ .running) :
    ∃ i t, step s (.start i) = some t ∨ step s (.release i) = some t := by
  classical
  obtain ⟨hi, hphase⟩ := Nat.find_spec hopen
  have hbefore : ∀ j < Nat.find hopen, s.phase j = .settled := by
    intro j hj
    by_contra hne
    exact Nat.find_min hopen hj ⟨Nat.lt_trans hj hi, hne⟩
  refine ⟨Nat.find hopen, ?_⟩
  cases hcase : s.phase (Nat.find hopen) with
  | waiting =>
    obtain ⟨t, ht⟩ := h.can_start hi hcase fun j hj _ => hbefore j hj
    exact ⟨t, .inl ht⟩
  | running => exact absurd hcase (hidle _ hi)
  | returned => exact ⟨_, .inr (if_pos ⟨hi, hcase⟩)⟩
  | settled => exact absurd hcase hphase

/-- Calls with a common key exclude each other and start in their order, none is ever stuck, the map
has the keys of the unsettled calls, and a try is refused for one of these keys only. -/
theorem keyedLocks_safe (hs : Reachable s) :
    (∀ i j, i < s.calls → j < s.calls → i ≠ j → Meets s i j →
      ¬(s.phase i = .running ∧ s.phase j = .running)) ∧
    (∀ i j, i < j → j < s.calls → Meets s i j → s.phase j ≠ .waiting → s.phase i = .settled) ∧
    (∀ i < s.calls, s.phase i = .waiting → (∀ j < i, Meets s j i → s.phase j = .settled) →
      ∃ t, step s (.start i) = some t) ∧
    ((∃ i < s.calls, s.phase i ≠ .settled) → (∀ i < s.calls, s.phase i ≠ .running) →
      ∃ i t, step s (.start i) = some t ∨ step s (.release i) = some t) ∧
    (∀ k, (s.lockMap k).isSome ↔ ∃ i < s.calls, k ∈ s.keys i ∧ s.phase i ≠ .settled) ∧
    ∀ keys, (s.refuses keys = true ↔
        ∃ k ∈ keys, ∃ i < s.calls, k ∈ s.keys i ∧ s.phase i ≠ .settled) ∧
      s.tryWithKeyedLocks keys = if s.refuses keys then s else s.withKeyedLocks keys := by
  have h := reachable_inv hs
  refine ⟨?_, ?_, fun i hi => h.can_start hi, h.can_step, h.isSome_lockMap, ?_⟩
  · rintro i j hi hj hne ⟨k, hki, hkj⟩ ⟨hri, hrj⟩
    rcases Nat.lt_or_gt_of_ne hne with hlt | hlt
    · have hsettled := h.settled_of_started hj (by simp [hrj]) hlt ⟨k, hki, hkj⟩
      rw [hri] at hsettled
      cases hsettled
    · have hsettled := h.settled_of_started hi (by simp [hri]) hlt ⟨k, hkj, hki⟩
      rw [hrj] at hsettled
      cases hsettled
  · intro i j hij hj hmeets hphase
    exact h.settled_of_started hj hphase hij hmeets
  · intro keys
    refine ⟨?_, rfl⟩
    simp only [State.refuses, List.any_eq_true, h.isSome_lockMap]

/-- Two calls that share a key. -/
def twoCalls : State ℕ := (State.empty.withKeyedLocks [1]).withKeyedLocks [1, 2]

theorem twoCalls_reachable : Reachable twoCalls := by
  have hfirst : step (State.empty : State ℕ) (.call [1]) = some _ := rfl
  have hsecond : step (State.empty.withKeyedLocks [1]) (.call [1, 2]) = some twoCalls := rfl
  exact .step (.step .empty hfirst) hsecond

/-- The first can start, the second may not, and its other key is taken as well. -/
theorem keyedLocks_safe_twoCalls :
    (∃ t, step twoCalls (.start 0) = some t) ∧ step twoCalls (.start 1) = none ∧
      twoCalls.refuses [2] = true := by
  obtain ⟨-, -, hstart, -, -, htry⟩ := keyedLocks_safe twoCalls_reachable
  exact ⟨hstart 0 (by decide) rfl fun j hj => absurd hj (Nat.not_lt_zero j), rfl,
    (htry [2]).1.mpr ⟨2, List.mem_singleton_self 2, 1, by decide, by decide, by decide⟩⟩

end Invariant

section Drain

/-- A call already made goes on. -/
def Goes (s t : State Key) : Prop :=
  ∃ i, step s (.start i) = some t ∨ step s (.finish i) = some t ∨ step s (.release i) = some t

/-- However the calls go on, in the end all are settled and the map is empty. -/
inductive Drains : State Key → Prop
  | done {s : State Key} : (∀ i < s.calls, s.phase i = .settled) →
    (∀ k, s.lockMap k = none) → Drains s
  | more {s t : State Key} : Goes s t → (∀ t, Goes s t → Drains t) → Drains s

variable {s t : State Key} {i : ℕ} {p : Phase}

/-- The steps a call has left. -/
def Phase.left : Phase → ℕ
  | .waiting => 3
  | .running => 2
  | .returned => 1
  | .settled => 0

def State.left (s : State Key) : ℕ := ∑ i ∈ Finset.range s.calls, (s.phase i).left

omit [DecidableEq Key] in
theorem left_setPhase (hi : i < s.calls) (hp : p.left < (s.phase i).left) :
    (s.setPhase i p).left < s.left := by
  refine Finset.sum_lt_sum (fun j _ => ?_) ⟨i, Finset.mem_range.mpr hi, ?_⟩
  · by_cases hj : j = i
    · simpa [State.setPhase, hj] using hp.le
    · simp [State.setPhase, hj]
  · simpa [State.setPhase] using hp

theorem Goes.left_lt (h : Goes s t) : t.left < s.left := by
  obtain ⟨i, h | h | h⟩ := h
  all_goals
    obtain ⟨hi, ⟨⟩⟩ := Option.ite_none_right_eq_some.mp h
    exact left_setPhase hi.1 (by simp [hi.2, Phase.left])

theorem Inv.done (h : Inv s) (hend : ∀ t, ¬Goes s t) :
    (∀ i < s.calls, s.phase i = .settled) ∧ ∀ k, s.lockMap k = none := by
  have hidle : ∀ i < s.calls, s.phase i ≠ .running :=
    fun i hi hphase => hend _ ⟨i, .inr (.inl (if_pos ⟨hi, hphase⟩))⟩
  have hsettled : ∀ i < s.calls, s.phase i = .settled := by
    by_contra! hopen
    obtain ⟨i, t, ht | ht⟩ := h.can_step hopen hidle
    · exact hend t ⟨i, .inl ht⟩
    · exact hend t ⟨i, .inr (.inr ht)⟩
  refine ⟨hsettled, fun k => Option.not_isSome_iff_eq_none.mp fun hk => ?_⟩
  obtain ⟨i, hi, -, hphase⟩ := (h.isSome_lockMap k).mp hk
  exact hphase (hsettled i hi)

/-- No schedule leaves a call unsettled or a key in the map. -/
theorem calls_drain (hs : Reachable s) : Drains s := by
  -- each step of a call leaves fewer of them
  induction hn : s.left using Nat.strongRecOn generalizing s with
  | ind n ih =>
    have hnext : ∀ t, Goes s t → Drains t := by
      intro t ht
      refine ih _ (hn ▸ ht.left_lt) ?_ rfl
      obtain ⟨i, h | h | h⟩ := ht <;> exact hs.step h
    by_cases hgoes : ∃ t, Goes s t
    · obtain ⟨t, ht⟩ := hgoes
      exact .more ht hnext
    · obtain ⟨hsettled, hmap⟩ := (reachable_inv hs).done (not_exists.mp hgoes)
      exact .done hsettled hmap

/-- The second call waits for the first, which is how they start; both are settled in the end. -/
theorem calls_drain_twoCalls : step twoCalls (.start 1) = none ∧ Drains twoCalls :=
  ⟨rfl, calls_drain twoCalls_reachable⟩

end Drain

end Dkg.Locks
