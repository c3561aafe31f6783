import Dkg.Epochs.ValueLedger

namespace Dkg.ValueLedger
open Revert DiffArray Function List

variable {l : Ledger} {s : Storage} {V : ℕ → ℕ} {diff : ℕ → ℤ} {cumulative : ℕ → ℕ}
  {cur e epoch k n : ℕ}

section Loops
variable (hlevel : ∀ e, level diff e = V e)
include hlevel

theorem accrue_ends (k : ℕ) :
    Ends (· = Err.panic) (fun r : ℤ => r = V (k + 1) ∧ V (k + 1) < 2 ^ 255)
      (accrue (V k) (diff (k + 1))) := by
  have hsum : (V k : ℤ) + diff (k + 1) = V (k + 1) := by
    rw [← hlevel, ← hlevel, level_succ]
  by_cases hfits : Checked.FitsInt 256 (V (k + 1) : ℤ)
  · have hlt : V (k + 1) < 2 ^ 255 := by
      zify
      exact hfits.2
    rw [accrue, Checked.addInt, hsum, if_pos hfits, ok_bind, require_of (by omega), ok_bind]
    exact ⟨rfl, hlt⟩
  · rw [accrue, Checked.addInt, hsum, if_neg hfits, error_bind]
    exact rfl

theorem accrue_eq (hlt : V (k + 1) < 2 ^ 255) :
    accrue (V k) (diff (k + 1)) = .ok (V (k + 1) : ℤ) := by
  have hsum : (V k : ℤ) + diff (k + 1) = V (k + 1) := by
    rw [← hlevel, ← hlevel, level_succ]
  have hfits : Checked.FitsInt 256 (V (k + 1) : ℤ) := by
    constructor
    · norm_num
    · zify at hlt
      exact hlt
  rw [accrue, Checked.addInt, hsum, if_pos hfits, ok_bind, require_of (by omega), ok_bind]
  rfl

/-- The loop writes the value of each epoch it passes. -/
theorem finalizeLoop_ends (n k : ℕ) (cumulative : ℕ → ℕ) :
    Ends (· = Err.panic)
      (fun c => ∀ e, if k < e ∧ e ≤ k + n then c e = V e ∧ V e < 2 ^ 255 else c e = cumulative e)
      (finalizeLoop diff n (k + 1) (V k) cumulative) := by
  induction n generalizing k cumulative with
  | zero =>
    intro e
    rw [if_neg (by omega)]
  | succ n ih =>
    refine (accrue_ends hlevel k).bind fun r hr => ?_
    obtain ⟨rfl, hlt⟩ := hr
    have hcast : Checked.toUint 256 (V (k + 1) : ℤ) = V (k + 1) := by
      have := Checked.toUint_of_nonneg (w := 256) (Int.natCast_nonneg (V (k + 1))) (by norm_cast; omega)
      exact_mod_cast this
    rw [hcast]
    refine (ih (k + 1) _).mono fun c hc e => ?_
    have he := hc e
    by_cases h : e = k + 1
    · subst h
      rw [if_neg (by omega), update_self] at he
      rw [if_pos (by omega)]
      exact ⟨he, hlt⟩
    · rw [update_of_ne h] at he
      split at he
      · rw [if_pos (by omega)]
        exact he
      · rw [if_neg (by omega)]
        exact he

theorem simulateLoop_ends (n k : ℕ) (hk : V k < 2 ^ 255) :
    Ends (· = Err.panic) (· = V (k + n)) (simulateLoop diff n (k + 1) (V k)) := by
  induction n generalizing k with
  | zero =>
    have := Checked.toUint_of_nonneg (w := 256) (Int.natCast_nonneg (V k)) (by norm_cast; omega)
    exact_mod_cast this
  | succ n ih =>
    refine (accrue_ends hlevel k).bind fun r hr => ?_
    obtain ⟨rfl, hlt⟩ := hr
    rw [show k + (n + 1) = k + 1 + n by omega]
    exact ih (k + 1) hlt

theorem simulateLoop_eq (n k : ℕ) (hlt : ∀ e, V e < 2 ^ 255) :
    simulateLoop diff n (k + 1) (V k) = .ok (V (k + n)) := by
  cases h : simulateLoop diff n (k + 1) (V k) with
  | ok v => rw [(simulateLoop_ends hlevel n k (hlt k)).of_ok h]
  | error e =>
    exfalso
    induction n generalizing k with
    | zero => simp [simulateLoop] at h
    | succ n ih =>
      rw [simulateLoop, accrue_eq hlevel (hlt (k + 1)), ok_bind] at h
      exact ih (k + 1) h

theorem finalizeLoop_succeeds (n k : ℕ) (hlt : ∀ e, V e < 2 ^ 255) (cumulative : ℕ → ℕ) :
    ∃ c, finalizeLoop diff n (k + 1) (V k) cumulative = .ok c := by
  induction n generalizing k cumulative with
  | zero => exact ⟨cumulative, rfl⟩
  | succ n ih =>
    rw [finalizeLoop, accrue_eq hlevel (hlt (k + 1)), ok_bind]
    exact ih (k + 1) _

end Loops

/-- At current epoch `cur` the ledger carries the value `V` of every epoch. -/
structure Ledger.Holds (cur : ℕ) (V : ℕ → ℕ) (l : Ledger) : Prop where
  last_lt : l.lastFinalizedEpoch < cur
  level_eq : ∀ e, level l.diff e = V e
  frozen : ∀ e ≤ l.lastFinalizedEpoch, l.cumulative e = V e ∧ V e < 2 ^ 255

namespace Ledger.Holds

theorem mono {cur' : ℕ} (h : l.Holds cur V) (hc : cur ≤ cur') : l.Holds cur' V :=
  ⟨h.last_lt.trans_le hc, h.level_eq, h.frozen⟩

theorem congr {W : ℕ → ℕ} (h : l.Holds cur V) (hVW : ∀ e, V e = W e) : l.Holds cur W :=
  (funext hVW : V = W) ▸ h

theorem running_eq (h : l.Holds cur V) : l.running = V l.lastFinalizedEpoch := by
  obtain ⟨hlast, hlt⟩ := h.frozen _ le_rfl
  unfold Ledger.running
  split
  · rw [hlast]
    exact Checked.toInt_of_lt (by norm_num) hlt
  · have hzero : l.lastFinalizedEpoch = 0 := by omega
    rw [hzero, ← h.level_eq, level_zero]

theorem finalizeUpTo_ends (h : l.Holds cur V) (he : epoch < cur) :
    Ends (· = Err.panic) (Ledger.Holds cur V) (l.finalizeUpTo epoch) := by
  unfold Ledger.finalizeUpTo
  split
  · exact h
  · rw [h.running_eq]
    refine (finalizeLoop_ends h.level_eq _ _ _).bind fun c hc => ends_pure ?_
    refine ⟨he, h.level_eq, fun e hle => ?_⟩
    dsimp only at hle ⊢
    have hce := hc e
    split at hce
    · exact hce
    · rw [hce]
      exact h.frozen e (by omega)

theorem finalizeUpTo_succeeds (h : l.Holds cur V) (hlt : ∀ e, V e < 2 ^ 255) (epoch : ℕ) :
    ∃ l', l.finalizeUpTo epoch = .ok l' := by
  unfold Ledger.finalizeUpTo
  split
  · exact ⟨l, rfl⟩
  · obtain ⟨c, hc⟩ := finalizeLoop_succeeds h.level_eq (epoch - l.lastFinalizedEpoch)
      l.lastFinalizedEpoch hlt l.cumulative
    rw [h.running_eq, hc, ok_bind]
    exact ⟨_, rfl⟩

theorem valueAtEpoch_ends (h : l.Holds cur V) (e : ℕ) :
    Ends (· = Err.panic) (· = V e) (l.valueAtEpoch e) := by
  unfold Ledger.valueAtEpoch Ledger.simulate
  split
  · exact (h.frozen e ‹_›).1
  · rw [h.running_eq]
    have hend := simulateLoop_ends h.level_eq (e - l.lastFinalizedEpoch) _ (h.frozen _ le_rfl).2
    rw [show l.lastFinalizedEpoch + (e - l.lastFinalizedEpoch) = e by omega] at hend
    exact hend

theorem valueAtEpoch_eq (h : l.Holds cur V) (hlt : ∀ e, V e < 2 ^ 255) (e : ℕ) :
    l.valueAtEpoch e = .ok (V e) := by
  unfold Ledger.valueAtEpoch Ledger.simulate
  split
  · rw [(h.frozen e ‹_›).1]
  · rw [h.running_eq, simulateLoop_eq h.level_eq _ _ hlt,
      show l.lastFinalizedEpoch + (e - l.lastFinalizedEpoch) = e by omega]

/-- A value that starts in the current epoch or later leaves what is frozen as it is. -/
theorem addDiff_ends {startEpoch lifetime per : ℕ} (h : l.Holds cur V)
    (hstart : cur ≤ startEpoch) (hlife : lifetime ≠ 0) :
    Ends (· = Err.panic) (Ledger.Holds cur fun e =>
        V e + if startEpoch ≤ e ∧ e < startEpoch + lifetime then per else 0)
      (l.addDiff startEpoch lifetime per) := by
  have hlast := h.last_lt
  cases hok : l.addDiff startEpoch lifetime per with
  | error err =>
    simp only [Ledger.addDiff, bind_eq_error, Checked.addInt_eq_error, Checked.add_eq_error,
      pure_ne_error, and_false, exists_false, or_false] at hok
    obtain ⟨_, rfl⟩ | ⟨_, _, ⟨_, rfl⟩ | ⟨_, _, _, rfl⟩⟩ := hok <;> rfl
  | ok l' =>
    simp only [Ledger.addDiff, bind_eq_ok, Checked.addInt_eq_ok, Checked.add_eq_ok,
      pure_eq_ok] at hok
    obtain ⟨_, ⟨_, rfl⟩, _, ⟨_, rfl⟩, _, ⟨_, rfl⟩, rfl⟩ := hok
    obtain ⟨b, hb⟩ : ∃ b, startEpoch + lifetime = b + 1 := ⟨startEpoch + lifetime - 1, by omega⟩
    rw [hb, ← sub_eq_add_neg]
    refine ⟨hlast, fun e => ?_, fun e he => ?_⟩
    · show level (DiffArray.addRange l.diff startEpoch b (per : ℤ)) e = _
      rw [level_addRange (by omega) (by omega), h.level_eq]
      simp only [Nat.lt_succ_iff]
      push_cast
      rfl
    · have he : e ≤ l.lastFinalizedEpoch := he
      rw [if_neg (by omega)]
      exact h.frozen e he

end Ledger.Holds

section Live
variable {calls : List Call} {c : Call}

theorem liveValue_append_singleton (g e : ℕ) :
    liveValue (calls ++ [c]) g e = liveValue calls g e + c.contribution g e := by
  simp [liveValue]

theorem contribution_of_ne_add (hc : ∀ g s l v, c.op ≠ .addCGValueForEpochRange g s l v)
    (g e : ℕ) : c.contribution g e = 0 := by
  unfold Call.contribution
  split
  · rename_i h
    exact absurd h (hc _ _ _ _)
  · rfl

/-- The graph a call contributes to, and how much. -/
theorem contribution_eq_single (c : Call) (e : ℕ) :
    ∃ g x, ∀ g', c.contribution g' e = (Pi.single g x : ℕ → ℕ) g' := by
  obtain ⟨cur, hpos, op⟩ := c
  cases op with
  | addCGValueForEpochRange id startEpoch lifetime value =>
    refine ⟨id, if startEpoch ≤ e ∧ e < startEpoch + lifetime then value / lifetime else 0,
      fun g' => ?_⟩
    by_cases hg : id = g'
    · subst hg
      simp [Call.contribution]
    · simp [Call.contribution, hg, Ne.symm hg]
  | finalizeCGValueUpTo id epoch | finalizeGlobalValueUpTo epoch =>
    exact ⟨0, 0, fun g' => by simp [Call.contribution]⟩

theorem liveValue_append_eq_add_single {g x : ℕ}
    (hx : ∀ g', c.contribution g' e = (Pi.single g x : ℕ → ℕ) g') :
    (fun g' => liveValue (calls ++ [c]) g' e) =
      (fun g' => liveValue calls g' e) + Pi.single g x := by
  funext g'
  rw [liveValue_append_singleton, hx g']
  rfl

theorem liveValue_support_finite (calls : List Call) (e : ℕ) :
    (support fun g => liveValue calls g e).Finite := by
  induction calls using reverseRecOn with
  | nil => simp [liveValue]
  | append_singleton calls c ih =>
    obtain ⟨g, x, hx⟩ := contribution_eq_single c e
    rw [liveValue_append_eq_add_single hx]
    exact Sums.support_add_single_finite ih g x

theorem finsum_liveValue_append {g x : ℕ}
    (hx : ∀ g', c.contribution g' e = (Pi.single g x : ℕ → ℕ) g') :
    ∑ᶠ g', liveValue (calls ++ [c]) g' e = ∑ᶠ g', liveValue calls g' e + x := by
  rw [liveValue_append_eq_add_single hx]
  exact Sums.finsum_add_single (liveValue_support_finite calls e) g x

theorem liveValue_le_finsum (calls : List Call) (g e : ℕ) :
    liveValue calls g e ≤ ∑ᶠ g', liveValue calls g' e := by
  simpa using Sums.sum_le_finsum (liveValue_support_finite calls e) {g}

/-- What a call adds to an epoch of its window. -/
def Call.perEpoch (c : Call) : ℕ :=
  match c.op with
  | .addCGValueForEpochRange _ _ lifetime value => value / lifetime
  | _ => 0

theorem contribution_le (c : Call) (g e : ℕ) : c.contribution g e ≤ c.perEpoch := by
  obtain ⟨cur, hpos, op⟩ := c
  cases op with
  | addCGValueForEpochRange id startEpoch lifetime value =>
    simp only [Call.contribution, Call.perEpoch]
    split
    · exact le_rfl
    · exact Nat.zero_le _
  | finalizeCGValueUpTo id epoch | finalizeGlobalValueUpTo epoch => exact le_rfl

theorem finsum_liveValue_le (calls : List Call) (e : ℕ) :
    ∑ᶠ g, liveValue calls g e ≤ (calls.map Call.perEpoch).sum := by
  induction calls using reverseRecOn with
  | nil => simp [liveValue]
  | append_singleton calls c ih =>
    obtain ⟨g, x, hx⟩ := contribution_eq_single c e
    have hle : x ≤ c.perEpoch := by
      have := contribution_le c g e
      rwa [hx g, Pi.single_eq_same] at this
    rw [finsum_liveValue_append hx, map_append, sum_append]
    simpa using Nat.add_le_add ih hle

end Live

/-- Each graph's ledger carries the contributions to it, the global one those to all. -/
structure Inv (cur : ℕ) (past : List Call) (s : Storage) : Prop where
  cg : ∀ g, (s.cgValue g).Holds cur (liveValue past g)
  total : s.totalValue.Holds cur fun e => ∑ᶠ g, liveValue past g e

namespace Inv
variable {past : List Call} {c : Call}

theorem mono {cur' : ℕ} (h : Inv cur past s) (hc : cur ≤ cur') : Inv cur' past s :=
  ⟨fun g => (h.cg g).mono hc, h.total.mono hc⟩

theorem skip (h : Inv cur past s) (hc : ∀ g s l v, c.op ≠ .addCGValueForEpochRange g s l v) :
    Inv cur (past ++ [c]) s := by
  have hzero : ∀ g e, liveValue past g e = liveValue (past ++ [c]) g e := by
    intro g e
    rw [liveValue_append_singleton, contribution_of_ne_add hc, add_zero]
  exact ⟨fun g => (h.cg g).congr (hzero g), h.total.congr fun e => by simp only [hzero]⟩

theorem finalizeCG_ends (h : Inv cur past s) (he : epoch < cur) (g : ℕ) :
    Ends (· = Err.panic) (Inv cur past) (finalizeCG s g epoch) := by
  refine ((h.cg g).finalizeUpTo_ends he).bind fun l hl => ends_pure ⟨fun g' => ?_, h.total⟩
  by_cases hg : g' = g
  · subst hg
    simpa [setCG] using hl
  · simpa [setCG, hg] using h.cg g'

theorem finalizeGlobal_ends (h : Inv cur past s) (he : epoch < cur) :
    Ends (· = Err.panic) (Inv cur past) (finalizeGlobal s epoch) :=
  (h.total.finalizeUpTo_ends he).bind fun _ hl => ends_pure ⟨h.cg, hl⟩

theorem finalizePast_ends (h : Inv cur past s) (g : ℕ) :
    Ends (· = Err.panic) (Inv cur past) (finalizePast s cur g) := by
  unfold finalizePast
  split
  · exact (h.finalizeCG_ends (by omega) g).bind fun _ h' => h'.finalizeGlobal_ends (by omega)
  · exact h

/-- No call ends with `NegativeCumulative`, and an accepted one adds its contribution. -/
theorem step_ends (h : Inv c.currentEpoch past s) :
    Ends (· ≠ Err.negativeCumulative) (Inv c.currentEpoch (past ++ [c])) (step s c) := by
  have hpanic : ∀ {x : Except Err Storage} {P : Storage → Prop}, Ends (· = Err.panic) P x →
      Ends (· ≠ Err.negativeCumulative) P x := by
    intro x P hx
    refine hx.imp fun e he => ?_
    rw [he]
    exact Err.noConfusion
  obtain ⟨cur, hpos, op⟩ := c
  cases op with
  | addCGValueForEpochRange g startEpoch lifetime value =>
    refine ends_guard (by simp) fun hlife => ?_
    refine ends_guard (by simp) fun _ => ?_
    refine ends_guard (by simp) fun hstart => ?_
    refine ends_guard (by simp) fun _ => hpanic ?_
    refine ((h.cg g).addDiff_ends (by omega) hlife).bind fun cg hcg => ?_
    refine (h.total.addDiff_ends (by omega) hlife).bind fun total htotal => ?_
    refine finalizePast_ends ⟨fun g' => ?_, htotal.congr fun e => ?_⟩ g
    · by_cases hg : g' = g
      · subst hg
        simp only [setCG, update_self]
        refine hcg.congr fun e => ?_
        simp [liveValue_append_singleton, Call.contribution]
      · simp only [setCG, update_of_ne hg]
        refine (h.cg g').congr fun e => ?_
        simp [liveValue_append_singleton, Call.contribution, Ne.symm hg]
    · refine (finsum_liveValue_append (g := g) fun g' => ?_).symm
      by_cases hg : g' = g
      · subst hg
        simp [Call.contribution]
      · simp [Call.contribution, hg, Ne.symm hg]
  | finalizeCGValueUpTo g epoch =>
    have hskip := h.skip (c := ⟨cur, hpos, .finalizeCGValueUpTo g epoch⟩) (by simp)
    refine ends_guard (by simp) fun he => ?_
    split
    · exact hskip
    · exact hpanic (hskip.finalizeCG_ends (by omega) g)
  | finalizeGlobalValueUpTo epoch =>
    have hskip := h.skip (c := ⟨cur, hpos, .finalizeGlobalValueUpTo epoch⟩) (by simp)
    refine ends_guard (by simp) fun he => ?_
    split
    · exact hskip
    · exact hpanic (hskip.finalizeGlobal_ends (by omega))

end Inv

theorem empty_inv : Inv 1 [] empty := by
  have hempty : Ledger.empty.Holds 1 fun _ => 0 :=
    ⟨by simp [Ledger.empty], fun e => by simp [Ledger.empty, level],
      fun e _ => by simp [Ledger.empty]⟩
  refine ⟨fun g => hempty.congr fun e => rfl, hempty.congr fun e => ?_⟩
  simp [liveValue]

theorem run_inv {calls : List Call}
    (hsorted : calls.Pairwise fun a b => a.currentEpoch ≤ b.currentEpoch) :
    Inv (now Call.currentEpoch 1 calls) (accepted step empty calls) (run step empty calls) := by
  refine run_invariant_accepted Inv ?_ ?_ empty_inv (fun a _ => a.epoch_pos) hsorted
  · intro n m past s hnm h
    exact h.mono hnm
  · intro c _ past s t h hok
    exact h.step_ends.of_ok hok

/-- Every reader returns the sum of the contributions that are live in the epoch, the
total is the sum over the graphs, and no read and no later call meets a negative value. -/
theorem run_values_live {calls : List Call}
    (hsorted : calls.Pairwise fun a b => a.currentEpoch ≤ b.currentEpoch)
    (hsum : ∀ e, ∑ᶠ g, liveValue (accepted step empty calls) g e < 2 ^ 255) :
    let s := run step empty calls
    let value := liveValue (accepted step empty calls)
    (∀ g e, getCGValueAtEpoch s g e = .ok (value g e)) ∧
    (∀ e, (support fun g => value g e).Finite ∧
      getTotalValueAtEpoch s e = .ok (∑ᶠ g, value g e)) ∧
    ∀ c : Call, (∀ a ∈ calls, a.currentEpoch ≤ c.currentEpoch) →
      step s c ≠ .error .negativeCumulative := by
  intro s value
  have hinv := run_inv hsorted
  refine ⟨fun g e => ?_, fun e => ⟨liveValue_support_finite _ e, ?_⟩, fun c hc herr => ?_⟩
  · exact (hinv.cg g).valueAtEpoch_eq (fun e => (liveValue_le_finsum _ g e).trans_lt (hsum e)) e
  · exact hinv.total.valueAtEpoch_eq hsum e
  · have hnext : (calls ++ [c]).Pairwise fun a b => a.currentEpoch ≤ b.currentEpoch := by
      refine pairwise_append.mpr ⟨hsorted, pairwise_singleton _ _, fun a ha b hb => ?_⟩
      rw [mem_singleton.mp hb]
      exact hc a ha
    have hnow : now Call.currentEpoch 1 calls ≤ c.currentEpoch :=
      now_le (mem_singleton_self c) c.epoch_pos hnext
    exact (hinv.mono hnow).step_ends.of_error herr rfl

/-- A graph with two overlapping adds, frozen behind the total. -/
def overlapping : List Call :=
  [⟨1, le_rfl, .addCGValueForEpochRange 7 1 3 10⟩, ⟨2, by decide, .addCGValueForEpochRange 8 2 2 9⟩,
    ⟨3, by decide, .finalizeGlobalValueUpTo 2⟩, ⟨3, by decide, .addCGValueForEpochRange 7 2 2 9⟩,
    ⟨3, by decide, .addCGValueForEpochRange 7 3 1 5⟩]

theorem run_values_live_overlapping :
    (accepted step empty overlapping).length = 4 ∧
    getCGValueAtEpoch (run step empty overlapping) 7 3 =
      .ok (liveValue (accepted step empty overlapping) 7 3) ∧
    liveValue (accepted step empty overlapping) 7 3 = 8 ∧
    getTotalValueAtEpoch (run step empty overlapping) 3 = .ok 12 := by
  have hsorted : overlapping.Pairwise fun a b => a.currentEpoch ≤ b.currentEpoch := by decide
  have hsum : ((accepted step empty overlapping).map Call.perEpoch).sum < 2 ^ 255 := by
    decide +kernel
  obtain ⟨hcg, _⟩ := run_values_live hsorted fun e => (finsum_liveValue_le _ e).trans_lt hsum
  exact ⟨by decide +kernel, hcg 7 3, by decide +kernel, by decide +kernel⟩

end Dkg.ValueLedger
