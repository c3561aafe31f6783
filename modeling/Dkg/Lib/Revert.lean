import Mathlib

/-!
Atomic calls over a state: a call either commits a new state or reverts with an
error and changes nothing. Runs are lists of calls; timed runs carry a clock
reading that never decreases.
-/

namespace Revert

open List
universe u
variable {σ α ε : Type*} {β γ : Type u}

/-- Guard of a call: revert with `e` unless `c` holds. -/
def require (c : Prop) [Decidable c] (e : ε) : Except ε Unit :=
  if c then .ok () else .error e

@[simp] theorem require_eq_ok {c : Prop} [Decidable c] {e : ε} {u : Unit} :
    require c e = .ok u ↔ c := by
  unfold require
  split <;> simp_all

@[simp] theorem require_eq_error {c : Prop} [Decidable c] {e e' : ε} :
    require c e = .error e' ↔ ¬c ∧ e = e' := by
  unfold require
  split <;> simp_all

theorem require_of {c : Prop} [Decidable c] {e : ε} (h : c) : require c e = .ok () := by
  simp [h]

@[simp] theorem bind_eq_ok {x : Except ε β} {f : β → Except ε γ} {r : γ} :
    (x >>= f) = .ok r ↔ ∃ a, x = .ok a ∧ f a = .ok r := by
  cases x <;> simp [bind, Except.bind]

theorem bind_eq_error {x : Except ε β} {f : β → Except ε γ} {e : ε} :
    (x >>= f) = .error e ↔ x = .error e ∨ ∃ a, x = .ok a ∧ f a = .error e := by
  cases x <;> simp [bind, Except.bind]

@[simp] theorem pure_eq_ok {a b : β} : (pure a : Except ε β) = .ok b ↔ a = b := by
  simp [pure, Except.pure]

@[simp] theorem pure_ne_error {a : β} {e : ε} : (pure a : Except ε β) ≠ .error e := by
  simp [pure, Except.pure]

theorem toOption_eq_some {x : Except ε α} {a : α} : x.toOption = some a ↔ x = .ok a := by
  cases x <;> simp [Except.toOption]

@[simp] theorem ok_bind {b : β} {f : β → Except ε γ} : (Except.ok b >>= f) = f b := rfl

@[simp] theorem error_bind {e : ε} {f : β → Except ε γ} :
    (Except.error e >>= f) = .error e := rfl

theorem mapError_ok {ε' : Type*} (f : ε → ε') (b : β) :
    (Except.ok b : Except ε β).mapError f = .ok b := rfl

@[simp] theorem mapError_eq_ok {ε' : Type*} {x : Except ε β} {f : ε → ε'} {b : β} :
    x.mapError f = .ok b ↔ x = .ok b := by
  cases x <;> simp [Except.mapError]

theorem mapM_ok {f : σ → Except ε α} {g : σ → α} {l : List σ} (h : ∀ a ∈ l, f a = .ok (g a)) :
    l.mapM f = .ok (l.map g) := by
  induction l with
  | nil => rfl
  | cons a l ih =>
    obtain ⟨ha, hl⟩ := forall_mem_cons.mp h
    rw [mapM_cons, ha]
    change (l.mapM f >>= fun bs => pure (g a :: bs)) = _
    rw [ih hl]
    rfl

section Ends
variable {E : ε → Prop} {P P' : β → Prop} {Q : γ → Prop} {x : Except ε β} {f : β → Except ε γ}
  {b : β} {e : ε}

/-- The computation returns a value in `P`, or reverts with an error in `E`. -/
def Ends (E : ε → Prop) (P : β → Prop) : Except ε β → Prop
  | .ok b => P b
  | .error e => E e

theorem Ends.bind (hx : Ends E P x) (hf : ∀ b, P b → Ends E Q (f b)) : Ends E Q (x >>= f) := by
  cases x with
  | ok b => exact hf b hx
  | error e => exact hx

theorem ends_pure (h : P b) : Ends E P (pure b : Except ε β) := h

theorem ends_require {c : Prop} [Decidable c] (h : ¬c → E e) :
    Ends E (fun _ => c) (require c e) := by
  unfold require
  split
  · assumption
  · exact h ‹_›

theorem ends_guard {δ : Type} {Q : δ → Prop} {c : Prop} [Decidable c] {f : Unit → Except ε δ}
    (he : E e) (hf : c → Ends E Q (f ())) : Ends E Q (require c e >>= f) :=
  (ends_require fun _ => he).bind fun _ => hf

theorem ends_ite {c : Prop} [Decidable c] (hx : c → Ends E P x) (hb : P b) :
    Ends E P (if c then x else .ok b) := by
  split
  · exact hx ‹c›
  · exact hb

theorem Ends.mono (hx : Ends E P x) (h : ∀ b, P b → P' b) : Ends E P' x := by
  cases x with
  | ok b => exact h b hx
  | error e => exact hx

theorem Ends.imp {E' : ε → Prop} (hx : Ends E P x) (h : ∀ e, E e → E' e) : Ends E' P x := by
  cases x with
  | ok b => exact hx
  | error e => exact h e hx

theorem Ends.mapError {ε' : Type*} {E' : ε' → Prop} {g : ε → ε'} (hx : Ends E P x)
    (h : ∀ e, E e → E' (g e)) : Ends E' P (x.mapError g) := by
  cases x with
  | ok b => exact hx
  | error e => exact h e hx

theorem ends_true (x : Except ε β) : Ends (fun _ => True) (fun _ => True) x := by
  cases x <;> trivial

theorem Ends.of_ok (h : Ends E P x) (hx : x = .ok b) : P b := by
  subst hx
  exact h

theorem Ends.of_error (h : Ends E P x) (hx : x = .error e) : E e := by
  subst hx
  exact h

end Ends

/-- One call: a revert leaves the state as it was. -/
def exec (step : σ → α → Except ε σ) (s : σ) (a : α) : σ :=
  match step s a with
  | .ok t => t
  | .error _ => s

/-- A run of calls in order. -/
def run (step : σ → α → Except ε σ) (s : σ) (as : List α) : σ :=
  as.foldl (exec step) s

/-- The last clock reading of a run that starts at `n`. -/
def now (clock : α → ℕ) (n : ℕ) (as : List α) : ℕ :=
  as.foldl (fun _ a => clock a) n

/-- The total weight of the calls of a run that were committed. -/
def committed (step : σ → α → Except ε σ) (weight : α → ℕ) : σ → List α → ℕ
  | _, [] => 0
  | s, a :: as =>
    (match step s a with
      | .ok _ => weight a
      | .error _ => 0) + committed step weight (exec step s a) as

/-- The calls of a run that were committed, in order. -/
def accepted (step : σ → α → Except ε σ) : σ → List α → List α
  | _, [] => []
  | s, a :: as =>
    match step s a with
    | .ok t => a :: accepted step t as
    | .error _ => accepted step s as

/-- What the committed calls of a run leave in a log, each read off its new state. -/
def events {ω : Type*} (step : σ → α → Except ε σ) (emit : α → σ → List ω) : σ → List α → List ω
  | _, [] => []
  | s, a :: as =>
    match step s a with
    | .ok t => emit a t ++ events step emit t as
    | .error _ => events step emit s as

/-- Every call of the run meets the condition in the state it is made in. -/
def Along (step : σ → α → Except ε σ) (C : σ → α → Prop) : σ → List α → Prop
  | _, [] => True
  | s, a :: as => C s a ∧ Along step C (exec step s a) as

instance Along.decidable (step : σ → α → Except ε σ) (C : σ → α → Prop)
    [∀ s a, Decidable (C s a)] : ∀ s as, Decidable (Along step C s as)
  | _, [] => isTrue trivial
  | s, a :: as =>
    have := Along.decidable step C (exec step s a) as
    inferInstanceAs (Decidable (_ ∧ _))

variable {step : σ → α → Except ε σ} {s t : σ} {a : α} {as : List α} {clock : α → ℕ} {n : ℕ}

theorem exec_ok (h : step s a = .ok t) : exec step s a = t := by
  simp [exec, h]

theorem exec_cases (step : σ → α → Except ε σ) (s : σ) (a : α) :
    (∃ t, step s a = .ok t ∧ exec step s a = t) ∨
      (∃ e, step s a = .error e) ∧ exec step s a = s := by
  cases h : step s a with
  | ok t => exact .inl ⟨t, rfl, exec_ok h⟩
  | error e => exact .inr ⟨⟨e, rfl⟩, by simp [exec, h]⟩

@[simp] theorem run_nil : run step s [] = s := rfl

@[simp] theorem run_cons : run step s (a :: as) = run step (exec step s a) as := rfl

theorem run_append (bs : List α) : run step s (as ++ bs) = run step (run step s as) bs := by
  simp [run]

@[simp] theorem now_nil : now clock n ([] : List α) = n := rfl

@[simp] theorem now_cons : now clock n (a :: as) = now clock (clock a) as := rfl

theorem now_le {bs : List α} {b : α} (hb : b ∈ bs) (hn : n ≤ clock b)
    (hsorted : (as ++ bs).Pairwise (fun a b => clock a ≤ clock b)) : now clock n as ≤ clock b := by
  induction as generalizing n with
  | nil => exact hn
  | cons a as ih =>
    obtain ⟨hfirst, hrest⟩ := pairwise_cons.mp hsorted
    exact ih (hfirst b (by simp [hb])) hrest

theorem now_le_of_forall {m : ℕ} (hn : n ≤ m) (has : ∀ a ∈ as, clock a ≤ m) :
    now clock n as ≤ m := by
  induction as generalizing n with
  | nil => exact hn
  | cons a as ih => exact ih (has a (by simp)) fun b hb => has b (by simp [hb])

/-- What every committed call preserves holds after every run. -/
theorem run_invariant_of_mem (Inv : σ → Prop)
    (hstep : ∀ a ∈ as, ∀ s t, Inv s → step s a = .ok t → Inv t) (hs : Inv s) :
    Inv (run step s as) := by
  induction as generalizing s with
  | nil => exact hs
  | cons a as ih =>
    have hrest := fun b hb => hstep b (mem_cons_of_mem a hb)
    obtain ⟨t, ht, he⟩ | ⟨_, he⟩ := exec_cases step s a
    · exact ih hrest (by rw [he]; exact hstep a mem_cons_self s t hs ht)
    · exact ih hrest (by rw [he]; exact hs)

theorem run_invariant (Inv : σ → Prop)
    (hstep : ∀ s a t, Inv s → step s a = .ok t → Inv t) (hs : Inv s) :
    Inv (run step s as) :=
  run_invariant_of_mem Inv (fun a _ s t => hstep s a t) hs

/-- The same when the calls of the run meet a condition in the states they are made in. -/
theorem run_invariant_along {C : σ → α → Prop} (Inv : σ → Prop)
    (hstep : ∀ s a t, Inv s → C s a → step s a = .ok t → Inv t) (hs : Inv s)
    (hC : Along step C s as) : Inv (run step s as) := by
  induction as generalizing s with
  | nil => exact hs
  | cons a as ih =>
    obtain ⟨hfirst, hrest⟩ := hC
    refine ih ?_ hrest
    obtain ⟨t, ht, he⟩ | ⟨_, he⟩ := exec_cases step s a
    · rw [he]
      exact hstep s a t hs hfirst ht
    · rw [he]
      exact hs

theorem accepted_cons_ok (h : step s a = .ok t) :
    accepted step s (a :: as) = a :: accepted step t as := by
  simp [accepted, h]

theorem accepted_cons_error {e : ε} (h : step s a = .error e) :
    accepted step s (a :: as) = accepted step s as := by
  simp [accepted, h]

theorem accepted_append (as bs : List α) :
    accepted step s (as ++ bs) = accepted step s as ++ accepted step (run step s as) bs := by
  induction as generalizing s with
  | nil => rfl
  | cons a as ih =>
    cases h : step s a with
    | ok t => simp [accepted_cons_ok h, exec_ok h, ih]
    | error e =>
      have he : exec step s a = s := by simp [exec, h]
      simp [accepted_cons_error h, he, ih]

/-- The same for an invariant that mentions the clock and the calls committed so far, when the
passing of time preserves it and the calls come in the order of their clock readings. -/
theorem run_invariant_accepted (Inv : ℕ → List α → σ → Prop)
    (htime : ∀ n m past s, n ≤ m → Inv n past s → Inv m past s)
    (hstep : ∀ a ∈ as, ∀ past s t, Inv (clock a) past s → step s a = .ok t →
      Inv (clock a) (past ++ [a]) t)
    (hs : Inv n [] s) (hn : ∀ a ∈ as, n ≤ clock a)
    (hsorted : as.Pairwise (fun a b => clock a ≤ clock b)) :
    Inv (now clock n as) (accepted step s as) (run step s as) := by
  suffices h : ∀ past, Inv n past s →
      Inv (now clock n as) (past ++ accepted step s as) (run step s as) from h [] hs
  clear hs
  induction as generalizing s n with
  | nil => simp [accepted]
  | cons a as ih =>
    intro past hs
    obtain ⟨hfirst, hrest⟩ := pairwise_cons.mp hsorted
    have ha : Inv (clock a) past s := htime n _ past s (hn a (by simp)) hs
    have hmem := fun b hb => hstep b (mem_cons_of_mem a hb)
    cases h : step s a with
    | ok t =>
      have hnext := ih hmem hfirst hrest _ (hstep a (by simp) past s t ha h)
      rw [append_assoc, singleton_append] at hnext
      rw [accepted_cons_ok h, run_cons, exec_ok h]
      exact hnext
    | error e =>
      have he : exec step s a = s := by simp [exec, h]
      rw [accepted_cons_error h, run_cons, he]
      exact ih hmem hfirst hrest past ha

theorem run_invariant_timed (Inv : ℕ → σ → Prop) (htime : ∀ n m s, n ≤ m → Inv n s → Inv m s)
    (hstep : ∀ a ∈ as, ∀ s t, Inv (clock a) s → step s a = .ok t → Inv (clock a) t)
    (hs : Inv n s) (hn : ∀ a ∈ as, n ≤ clock a)
    (hsorted : as.Pairwise (fun a b => clock a ≤ clock b)) :
    Inv (now clock n as) (run step s as) :=
  run_invariant_accepted (fun n _ => Inv n) (fun n m _ => htime n m)
    (fun a ha _ => hstep a ha) hs hn hsorted

theorem committed_eq_sum (weight : α → ℕ) :
    committed step weight s as = ((accepted step s as).map weight).sum := by
  induction as generalizing s with
  | nil => rfl
  | cons a as ih =>
    cases h : step s a with
    | ok t => simp [committed, h, exec_ok h, accepted_cons_ok h, ih]
    | error e =>
      have he : exec step s a = s := by simp [exec, h]
      simp [committed, h, he, accepted_cons_error h, ih]

theorem along_append {C : σ → α → Prop} {bs : List α} :
    Along step C s (as ++ bs) ↔ Along step C s as ∧ Along step C (run step s as) bs := by
  induction as generalizing s with
  | nil => simp [Along, run]
  | cons a as ih => simp only [cons_append, Along, run_cons, ih, and_assoc]

/-- The same for an invariant that mentions the log, when the calls of the run meet a
condition in the states they are made in. -/
theorem run_invariant_events {ω : Type*} {emit : α → σ → List ω} {C : σ → α → Prop}
    (Inv : List ω → σ → Prop) {past : List ω}
    (hstep : ∀ past s a t, Inv past s → C s a → step s a = .ok t → Inv (past ++ emit a t) t)
    (hs : Inv past s) (hC : Along step C s as) :
    Inv (past ++ events step emit s as) (run step s as) := by
  induction as generalizing s past with
  | nil => simpa [events] using hs
  | cons a as ih =>
    obtain ⟨hfirst, hrest⟩ := hC
    cases h : step s a with
    | ok t =>
      rw [exec_ok h] at hrest
      have hnext := ih (hstep past s a t hs hfirst h) hrest
      rw [append_assoc] at hnext
      simpa [events, h, exec_ok h] using hnext
    | error e =>
      have he : exec step s a = s := by simp [exec, h]
      rw [he] at hrest
      simpa [events, h, he] using ih hs hrest

section Fold
variable {ρ δ : Type u} {f : ρ → δ → Except ε ρ} {x y : ρ} {ds : List δ}

theorem foldlM_invariant (Inv : ρ → Prop) (hstep : ∀ x d y, Inv x → f x d = .ok y → Inv y)
    (hx : Inv x) (h : ds.foldlM f x = .ok y) : Inv y := by
  induction ds generalizing x with
  | nil =>
    simp only [foldlM_nil, pure_eq_ok] at h
    exact h ▸ hx
  | cons d ds ih =>
    simp only [foldlM_cons, bind_eq_ok] at h
    obtain ⟨z, hz, h⟩ := h
    exact ih (hstep x d z hx hz) h

/-- A batch fails only the way one of its members does. -/
theorem foldlM_error {e : ε} (Inv : ρ → Prop)
    (hstep : ∀ x d y, Inv x → f x d = .ok y → Inv y) (hx : Inv x)
    (h : ds.foldlM f x = .error e) : ∃ z d, Inv z ∧ d ∈ ds ∧ f z d = .error e := by
  induction ds generalizing x with
  | nil => simp at h
  | cons d ds ih =>
    simp only [foldlM_cons, bind_eq_error] at h
    obtain h | ⟨z, hz, h⟩ := h
    · exact ⟨x, d, hx, by simp, h⟩
    · obtain ⟨z', d', hi, hd, he⟩ := ih (hstep x d z hx hz) h
      exact ⟨z', d', hi, by simp [hd], he⟩

end Fold

end Revert
