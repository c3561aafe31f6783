import Dkg.Epochs.LiveValue
import Dkg.Sampling.Draw

/-!
The preview of a challenge and its production draw. Both descend over the weights of the
graphs that are not excluded, and what the production draw settles in between are weights of
excluded graphs, so they agree as long as the settling itself goes through.
-/

namespace Dkg.Sampling
open Revert DiffArray List Function
open Merkle (Bytes Bytes32)
open WeightTree (Wf Tree)
open ValueLedger (liveValue)

variable {keccak256 : Bytes → Bytes32} {w w' : World} {k n cur cg : ℕ}
  {past : List ValueLedger.Call} {seed : Bytes32} {exhausted : List ℕ} {r : Round}

section Attempts

/-- The array of the loops after `n` misses: `n` distinct graphs, then zeros. -/
def Padded (k n : ℕ) (exhausted : List ℕ) : Prop :=
  ∃ ids : List ℕ, ids.length = n ∧ ids.Nodup ∧ (∀ i ∈ ids, 0 < i ∧ i < 2 ^ k) ∧
    exhausted = ids ++ replicate (MAX_CG_RETRIES - n) 0

theorem padded_zero (k : ℕ) : Padded k 0 (replicate MAX_CG_RETRIES 0) :=
  ⟨[], rfl, .nil, by simp, rfl⟩

theorem Padded.nodup (h : Padded k n exhausted) : (exhausted.filter (· ≠ 0)).Nodup := by
  obtain ⟨ids, -, hnodup, hids, rfl⟩ := h
  have hkeep : (ids ++ replicate (MAX_CG_RETRIES - n) 0).filter (· ≠ 0) = ids := by
    rw [filter_append, filter_eq_self.mpr fun i hi => by
      simpa using (hids i hi).1.ne', filter_replicate]
    simp
  rwa [hkeep]

theorem Padded.lt (h : Padded k n exhausted) : ∀ i ∈ exhausted, i < 2 ^ k := by
  obtain ⟨ids, -, -, hids, rfl⟩ := h
  intro i hi
  rcases mem_append.mp hi with hi | hi
  · exact (hids i hi).2
  · rw [(mem_replicate.mp hi).2]
    exact Nat.two_pow_pos k

theorem Padded.set (h : Padded k n exhausted) (hn : n < MAX_CG_RETRIES) (hpos : 0 < cg)
    (hlt : cg < 2 ^ k) (hnew : cg ∉ exhausted) : Padded k (n + 1) (exhausted.set n cg) := by
  obtain ⟨ids, rfl, hnodup, hids, rfl⟩ := h
  have hrep : MAX_CG_RETRIES - ids.length = MAX_CG_RETRIES - (ids.length + 1) + 1 := by omega
  refine ⟨ids ++ [cg], by simp, ?_, ?_, ?_⟩
  · rw [nodup_append]
    refine ⟨hnodup, nodup_singleton cg, fun a ha b hb hab => ?_⟩
    rw [mem_singleton.mp hb] at hab
    exact hnew (mem_append_left _ (hab ▸ ha))
  · intro i hi
    rcases mem_append.mp hi with hi | hi
    · exact hids i hi
    · rw [mem_singleton.mp hi]
      exact ⟨hpos, hlt⟩
  · rw [set_append_right _ _ le_rfl, Nat.sub_self, hrep, replicate_succ,
      set_cons_zero, append_assoc]
    rfl

theorem Padded.not_mem_set {i : ℕ} (h : Padded k n exhausted) (hn : n < MAX_CG_RETRIES)
    (hi : i ∉ exhausted.set n cg) : i ≠ cg ∧ (i = 0 ∨ i ∉ exhausted) := by
  obtain ⟨ids, rfl, -, -, rfl⟩ := h
  have hrep : MAX_CG_RETRIES - ids.length = MAX_CG_RETRIES - (ids.length + 1) + 1 := by omega
  rw [set_append_right _ _ le_rfl, Nat.sub_self, hrep, replicate_succ, set_cons_zero] at hi
  simp only [mem_append, mem_cons, mem_replicate, not_or] at hi ⊢
  tauto

theorem weighted_range (hw : Wf k w.tree) (h : 0 < w.tree.cgWeight cg) : 0 < cg ∧ cg < 2 ^ k := by
  rw [← hw.capacity]
  by_contra hout
  have := hw.outside cg (by omega)
  omega

/-- The attempt of a round: with nothing left to draw, or at a graph that is not excluded. -/
theorem drawAttempt_spec (keccak256 : Bytes → Bytes32) (hw : Wf k w.tree)
    (hex : Padded k n exhausted) (cgSeed : Bytes32) (currentEpoch : ℕ) :
    ∃ total, WeightTree.workingTotal w.tree exhausted = .ok total ∧
      ((total = 0 ∧ drawAttempt keccak256 w cgSeed currentEpoch exhausted = .ok ⟨0, 0, none⟩) ∨
      (0 < total ∧ ∃ cg,
        WeightTree.findStrictGtExcluding w.tree (uint256 cgSeed % total) exhausted = .ok cg ∧
        cg ∉ exhausted ∧ 0 < w.tree.cgWeight cg ∧
        drawAttempt keccak256 w cgSeed currentEpoch exhausted =
          .ok ⟨total, cg, pickKa keccak256 w.graphs cg cgSeed currentEpoch⟩)) := by
  have htotal := WeightTree.workingTotal_eq hw hex.nodup hex.lt
  refine ⟨_, htotal, ?_⟩
  unfold drawAttempt
  rw [htotal]
  rcases Nat.eq_zero_or_pos (WeightTree.weightUpTo w.tree exhausted (2 ^ k)) with hzero | hpos
  · refine .inl ⟨hzero, ?_⟩
    simp [Except.mapError, hzero, pure, Except.pure]
  · obtain ⟨m, hm, hlo, hhi⟩ :=
      WeightTree.findStrictGtExcluding_crosses hw hex.nodup (Nat.mod_lt (uint256 cgSeed) hpos)
    have hout : m + 1 ∉ exhausted := by
      intro hmem
      rw [WeightTree.weightUpTo_succ_of_mem hmem] at hhi
      omega
    rw [WeightTree.weightUpTo_succ hout] at hhi
    refine .inr ⟨hpos, m + 1, hm, hout, by omega, ?_⟩
    simp [Except.mapError, hpos.ne', hm, pure, Except.pure]

/-- Two worlds that agree on the graphs that are not excluded give the same attempt. -/
theorem drawAttempt_congr (hw : Wf k w.tree) (hw' : Wf k w'.tree) (hex : Padded k n exhausted)
    (hgraphs : w'.graphs = w.graphs)
    (hagree : ∀ i, i ∉ exhausted → w'.tree.cgWeight i = w.tree.cgWeight i) (cgSeed : Bytes32)
    (currentEpoch : ℕ) :
    drawAttempt keccak256 w' cgSeed currentEpoch exhausted =
      drawAttempt keccak256 w cgSeed currentEpoch exhausted := by
  have hweight := WeightTree.weightUpTo_congr hagree
  have htotal : WeightTree.workingTotal w'.tree exhausted =
      WeightTree.workingTotal w.tree exhausted := by
    rw [WeightTree.workingTotal_eq hw' hex.nodup hex.lt,
      WeightTree.workingTotal_eq hw hex.nodup hex.lt, hweight]
  unfold drawAttempt
  rw [htotal, WeightTree.workingTotal_eq hw hex.nodup hex.lt, hgraphs]
  rcases Nat.eq_zero_or_pos (WeightTree.weightUpTo w.tree exhausted (2 ^ k)) with hzero | hpos
  · simp [Except.mapError, hzero]
  · have hfind : ∀ r < WeightTree.weightUpTo w.tree exhausted (2 ^ k),
        WeightTree.findStrictGtExcluding w'.tree r exhausted =
          WeightTree.findStrictGtExcluding w.tree r exhausted := by
      intro r hr
      rw [WeightTree.findStrictGtExcluding_eq hw' hex.nodup (by rwa [hweight]), hweight,
        WeightTree.findStrictGtExcluding_eq hw hex.nodup hr]
    simp only [Except.mapError, ok_bind, if_neg hpos.ne', hfind _ (Nat.mod_lt _ hpos)]

end Attempts

section Settle

/-- The world at epoch `cur`: a well-formed tree, and the ledger after the calls `past`. -/
structure Ready (k cur : ℕ) (past : List ValueLedger.Call) (w : World) : Prop where
  wf : Wf k w.tree
  /-- Over the largest capacity no weight can be written. -/
  top : k = 255 → ∀ i, w.tree.cgWeight i = 0
  ledger : ValueLedger.Inv cur past w.values

/-- Finalizing a graph changes no value. -/
theorem finalizeBefore_ends {values : ValueLedger.Storage} (hcur : 0 < cur)
    (h : ValueLedger.Inv cur past values) (cg : ℕ) :
    Ends (· ≠ ValueLedger.Err.negativeCumulative) (ValueLedger.Inv cur past)
      (World.finalizeBefore values cur cg) := by
  unfold World.finalizeBefore ValueLedger.finalizeCGValueUpTo
  rw [if_pos hcur]
  refine ends_guard (by simp) fun hlt => ?_
  split
  · exact h
  · refine (h.finalizeCG_ends (Nat.lt_of_not_le hlt) cg).imp ?_
    simp

theorem finalizeBefore_succeeds {values : ValueLedger.Storage} (hcur : 0 < cur)
    (h : ValueLedger.Inv cur past values) (hlt : ∀ e, liveValue past cg e < 2 ^ 255) :
    ∃ values', World.finalizeBefore values cur cg = .ok values' := by
  unfold World.finalizeBefore ValueLedger.finalizeCGValueUpTo ValueLedger.finalizeCG
  rw [if_pos hcur, require_of (by omega), ok_bind]
  split
  · exact ⟨_, rfl⟩
  · obtain ⟨l, hl⟩ := (h.cg cg).finalizeUpTo_succeeds hlt (cur - 1)
    rw [hl, ok_bind]
    exact ⟨_, rfl⟩

/-- An error that no subtraction below zero has caused. -/
def Err.NoUnderflow (e : Err) : Prop :=
  e ≠ .tree .bitCast ∧ e ≠ .values .negativeCumulative

/-- What a settled graph is left with. -/
theorem settle_ends (hw : Ready k cur past w) (hcur : 0 < cur) (cg : ℕ) :
    Ends Err.NoUnderflow (fun w' => Ready k cur past w' ∧ w'.graphs = w.graphs ∧
      w'.tree.cgWeight = update w.tree.cgWeight cg (liveValue past cg cur))
      (w.settle cur cg) := by
  unfold World.settle
  refine ((finalizeBefore_ends hcur hw.ledger cg).mapError ?_).bind fun values hledger => ?_
  · simp [Err.NoUnderflow]
  refine (((hledger.cg cg).valueAtEpoch_ends cur).mapError ?_).bind fun truth htruth => ?_
  · simp [Err.NoUnderflow]
  subst htruth
  cases h : WeightTree.settle ⟨cur, fun _ => some (liveValue past cg cur)⟩ w.tree cg with
  | error e =>
    have he : WeightTree.settle ⟨cur, fun _ => some (liveValue past cg cur)⟩ w.tree cg ≠
        .error .bitCast := WeightTree.settle_ne_bitCast hw.wf
    rw [h] at he
    simpa [Err.NoUnderflow, Ends, Except.mapError] using he
  | ok tree =>
    refine ⟨⟨WeightTree.settle_wf hw.wf h, ?_, hledger⟩, rfl, ?_⟩
    · rintro rfl i
      show tree.cgWeight i = 0
      rw [WeightTree.settle_top hw.wf h]
      exact hw.top rfl i
    · simp only [WeightTree.settle, bind_eq_ok, pure_eq_ok] at h
      obtain ⟨t, ht, rfl⟩ := h
      have hweight := WeightTree.setWeight_cgWeight ht
      exact hweight

/-- A drawn graph can be settled while the total keeps within its type. -/
theorem settle_succeeds (hw : Ready k cur past w) (hcur : 0 < cur)
    (hlt : ∀ e, liveValue past cg e < 2 ^ 255) (hpos : 0 < w.tree.cgWeight cg)
    (hroom : w.tree.bitTotal + liveValue past cg cur < 2 ^ 255 + w.tree.cgWeight cg) :
    ∃ w', w.settle cur cg = .ok w' := by
  obtain ⟨values, hvalues⟩ := finalizeBefore_succeeds hcur hw.ledger hlt
  have hledger := (finalizeBefore_ends hcur hw.ledger cg).of_ok hvalues
  have htruth := (hledger.cg cg).valueAtEpoch_eq hlt cur
  have hk : k < 255 := by
    have hwidth := hw.wf.width
    by_contra hge
    have := hw.top (by omega) cg
    omega
  obtain ⟨hcg, hid⟩ := weighted_range hw.wf hpos
  rw [← hw.wf.capacity] at hid
  obtain ⟨t, ht⟩ := WeightTree.setWeight_succeeds hw.wf hk hcg.ne' hid hroom
  have hsettle : WeightTree.settle ⟨cur, fun _ => some (liveValue past cg cur)⟩ w.tree cg =
      .ok { t with cgSettledEpoch := update t.cgSettledEpoch cg cur } := by
    simp only [WeightTree.settle, ht, ok_bind]
    rfl
  refine ⟨⟨{ t with cgSettledEpoch := update t.cgSettledEpoch cg cur }, values, w.graphs⟩, ?_⟩
  rw [World.settle, mapError_eq_ok.mpr hvalues, ok_bind, ValueLedger.getCGValueAtEpoch,
    mapError_eq_ok.mpr htruth, ok_bind, mapError_eq_ok.mpr hsettle, ok_bind]
  rfl

/-- The weights stay below the limit whichever of the graphs are settled. -/
def Roomy (k cur : ℕ) (past : List ValueLedger.Call) (t : Tree) : Prop :=
  ∑ g ∈ Finset.range (2 ^ k), max (t.cgWeight g) (liveValue past g cur) < 2 ^ 255

theorem Roomy.total (h : Roomy k cur past w.tree) (hw : Wf k w.tree)
    (hpos : 0 < w.tree.cgWeight cg) :
    w.tree.bitTotal + liveValue past cg cur < 2 ^ 255 + w.tree.cgWeight cg := by
  have hmem : cg ∈ Finset.range (2 ^ k) := Finset.mem_range.mpr (weighted_range hw hpos).2
  have htotal := hw.bitTotal_eq
  rw [hw.capacity, ← Finset.add_sum_erase _ _ hmem] at htotal
  unfold Roomy at h
  rw [← Finset.add_sum_erase _ _ hmem] at h
  have hrest : ∑ g ∈ (Finset.range (2 ^ k)).erase cg, w.tree.cgWeight g ≤
      ∑ g ∈ (Finset.range (2 ^ k)).erase cg, max (w.tree.cgWeight g) (liveValue past g cur) :=
    Finset.sum_le_sum fun g _ => le_max_left _ _
  have hcg := le_max_right (w.tree.cgWeight cg) (liveValue past cg cur)
  omega

theorem Roomy.settled {t t' : Tree} (h : Roomy k cur past t)
    (ht : t'.cgWeight = update t.cgWeight cg (liveValue past cg cur)) :
    Roomy k cur past t' := by
  refine lt_of_le_of_lt (Finset.sum_le_sum fun g _ => ?_) h
  rw [ht]
  by_cases hg : g = cg
  · subst hg
    simp
  · rw [update_of_ne hg]

end Settle

section Loops

/-- The round of the production draw follows the round of the preview. -/
structure Follows (k cur : ℕ) (past : List ValueLedger.Call) (view full : Round) : Prop where
  cgAttempt : full.cgAttempt = view.cgAttempt
  exhausted : full.exhausted = view.exhausted
  cgSeed : full.cgSeed = view.cgSeed
  graphs : full.world.graphs = view.world.graphs
  padded : Padded k view.cgAttempt view.exhausted
  view_wf : Wf k view.world.tree
  full_ready : Ready k cur past full.world
  full_room : Roomy k cur past full.world.tree
  agree : ∀ i, i ∉ view.exhausted → full.world.tree.cgWeight i = view.world.tree.cgWeight i

/-- One round of each: the same end, or two rounds that follow again. -/
theorem Follows.round {view full : Round} (h : Follows k cur past view full)
    (keccak256 : Bytes → Bytes32) (hcur : 0 < cur)
    (hlt : ∀ g < 2 ^ k, ∀ e, liveValue past g e < 2 ^ 255)
    (hattempt : view.cgAttempt < MAX_CG_RETRIES) :
    (∃ e, round keccak256 keepOnMiss cur view = .error e ∧
      round keccak256 (settleOnMiss cur) cur full = .error e) ∨
    (∃ cg ka chunk, round keccak256 keepOnMiss cur view = .ok (.picked cg ka chunk) ∧
      round keccak256 (settleOnMiss cur) cur full = .ok (.picked cg ka chunk)) ∨
    ∃ view' full', round keccak256 keepOnMiss cur view = .ok (.missed view') ∧
      round keccak256 (settleOnMiss cur) cur full = .ok (.missed full') ∧
      view'.cgAttempt = view.cgAttempt + 1 ∧ Follows k cur past view' full' := by
  have hdraw : drawAttempt keccak256 full.world full.cgSeed cur full.exhausted =
      drawAttempt keccak256 view.world view.cgSeed cur view.exhausted := by
    rw [h.cgSeed, h.exhausted]
    exact drawAttempt_congr h.view_wf h.full_ready.wf h.padded h.graphs h.agree _ _
  unfold Sampling.round
  rw [hdraw, h.cgAttempt, h.exhausted, h.cgSeed]
  obtain ⟨total, -, ⟨-, hnone⟩ | ⟨hpos, cg, -, hout, hweight, hsome⟩⟩ :=
    drawAttempt_spec keccak256 h.view_wf h.padded view.cgSeed cur
  · rw [hnone]
    exact .inl ⟨_, rfl, rfl⟩
  · rw [hsome]
    simp only [ok_bind, if_neg hpos.ne']
    cases hpick : pickKa keccak256 view.world.graphs cg view.cgSeed cur with
    | some picked => exact .inr (.inl ⟨cg, picked.1, picked.2, rfl, rfl⟩)
    | none =>
      have hfull : 0 < full.world.tree.cgWeight cg := by rwa [h.agree cg hout]
      obtain ⟨hpos, hid⟩ := weighted_range h.view_wf hweight
      obtain ⟨w', hw'⟩ := settle_succeeds h.full_ready hcur (hlt cg hid) hfull
        (h.full_room.total h.full_ready.wf hfull)
      obtain ⟨hready, hgraphs, hset⟩ := (settle_ends h.full_ready hcur cg).of_ok hw'
      have hsettle : settleOnMiss cur full.world cg = .ok w' := hw'
      rw [hsettle]
      refine .inr (.inr ⟨_, _, rfl, rfl, rfl, ?_⟩)
      refine ⟨rfl, rfl, rfl, hgraphs.trans h.graphs, h.padded.set hattempt hpos hid hout, h.view_wf,
        hready, h.full_room.settled hset, fun i hi => ?_⟩
      obtain ⟨hne, rfl | hout'⟩ := h.padded.not_mem_set hattempt hi
      · rw [hready.wf.outside 0 (.inl rfl), h.view_wf.outside 0 (.inl rfl)]
      · rw [hset, update_of_ne hne]
        exact h.agree i hout'

theorem Follows.pickLoop {view full : Round} (h : Follows k cur past view full) (hcur : 0 < cur)
    (hlt : ∀ g < 2 ^ k, ∀ e, liveValue past g e < 2 ^ 255) (n : ℕ)
    (hn : view.cgAttempt + n = MAX_CG_RETRIES) :
    (pickLoop keccak256 keepOnMiss cur n view).map Prod.snd =
      (pickLoop keccak256 (settleOnMiss cur) cur n full).map Prod.snd := by
  induction n generalizing view full with
  | zero => rfl
  | succ n ih =>
    obtain ⟨e, hv, hf⟩ | ⟨cg, ka, chunk, hv, hf⟩ | ⟨view', full', hv, hf, hnext, h'⟩ :=
      h.round keccak256 hcur hlt (by omega)
    · rw [Sampling.pickLoop, Sampling.pickLoop, hv, hf]
    · simp only [Sampling.pickLoop, hv, hf, Except.map]
    · rw [Sampling.pickLoop, Sampling.pickLoop, hv, hf]
      exact ih h' (by omega)

theorem settleOnMiss_wf (hw : Wf k w.tree) (h : settleOnMiss cur w cg = .ok w') :
    Wf k w'.tree := by
  simp only [settleOnMiss, World.settle, bind_eq_ok, mapError_eq_ok, pure_eq_ok] at h
  obtain ⟨values, -, truth, -, tree, htree, rfl⟩ := h
  exact WeightTree.settle_wf hw htree

theorem keepOnMiss_wf (hw : Wf k w.tree) (h : keepOnMiss w cg = .ok w') : Wf k w'.tree := by
  rw [keepOnMiss, Except.ok.injEq] at h
  rwa [← h]

/-- A round that misses excludes the graph it has drawn. -/
theorem round_missed {onMiss : World → ℕ → Except Err World} {next : Round}
    (h : round keccak256 onMiss cur r = .ok (.missed next)) :
    ∃ a, drawAttempt keccak256 r.world r.cgSeed cur r.exhausted = .ok a ∧ a.workingTotal ≠ 0 ∧
      onMiss r.world a.chosenCg = .ok next.world ∧ next.cgAttempt = r.cgAttempt + 1 ∧
      next.exhausted = r.exhausted.set r.cgAttempt a.chosenCg := by
  simp only [round, bind_eq_ok] at h
  obtain ⟨a, ha, h⟩ := h
  refine ⟨a, ha, ?_⟩
  by_cases hzero : a.workingTotal = 0
  · simp [hzero] at h
  · rw [if_neg hzero] at h
    split at h
    · simp at h
    · simp only [bind_eq_ok, pure_eq_ok, Outcome.missed.injEq] at h
      obtain ⟨world, hmiss, rfl⟩ := h
      exact ⟨hzero, hmiss, rfl, rfl⟩

/-- The variables of a loop before a round. -/
structure Sound (k : ℕ) (r : Round) : Prop where
  wf : Wf k r.world.tree
  padded : Padded k r.cgAttempt r.exhausted

section Rounds
variable {onMiss : World → ℕ → Except Err World}
  (hmiss : ∀ w cg w', Wf k w.tree → onMiss w cg = .ok w' → Wf k w'.tree)
include hmiss

theorem Sound.missed {next : Round} (h : Sound k r) (hattempt : r.cgAttempt < MAX_CG_RETRIES)
    (hr : round keccak256 onMiss cur r = .ok (.missed next)) :
    Sound k next ∧ next.cgAttempt = r.cgAttempt + 1 := by
  obtain ⟨a, ha, hne, hok, hnext, hex⟩ := round_missed hr
  obtain ⟨total, -, ⟨-, hnone⟩ | ⟨-, cg, -, hout, hweight, hsome⟩⟩ :=
    drawAttempt_spec keccak256 h.wf h.padded r.cgSeed cur
  · rw [hnone, Except.ok.injEq] at ha
    subst ha
    exact absurd rfl hne
  · rw [hsome, Except.ok.injEq] at ha
    subst ha
    obtain ⟨hpos, hid⟩ := weighted_range h.wf hweight
    refine ⟨⟨hmiss _ _ _ h.wf hok, ?_⟩, hnext⟩
    rw [hnext, hex]
    exact h.padded.set hattempt hpos hid hout

theorem Sound.rounds (h : Sound k r) (n : ℕ) (hn : r.cgAttempt + n = MAX_CG_RETRIES) :
    ∀ r' ∈ rounds keccak256 onMiss cur n r, Sound k r' := by
  induction n generalizing r with
  | zero => simp [Sampling.rounds]
  | succ n ih =>
    rw [Sampling.rounds]
    intro r' hr'
    rcases mem_cons.mp hr' with rfl | hr'
    · exact h
    · split at hr'
      · rename_i next hnext
        obtain ⟨hsound, hattempt⟩ := h.missed hmiss (by omega) hnext
        exact ih hsound (by omega) r' hr'
      · cases hr'

end Rounds

/-- No graph is excluded twice, and the descent of the round goes through, with a remainder
below the weight that is left. -/
def Round.Clean (r : Round) : Prop :=
  (r.exhausted.filter (· ≠ 0)).Nodup ∧
  ∃ total, WeightTree.workingTotal r.world.tree r.exhausted = .ok total ∧
    (total ≠ 0 → uint256 r.cgSeed % total < total ∧ ∃ cg, cg ∉ r.exhausted ∧
      WeightTree.findStrictGtExcluding r.world.tree (uint256 r.cgSeed % total) r.exhausted =
        .ok cg)

theorem Sound.clean (h : Sound k r) : r.Clean := by
  obtain ⟨total, htotal, hdraw⟩ :=
    drawAttempt_spec (fun _ => Merkle.zero32) h.wf h.padded r.cgSeed 0
  refine ⟨h.padded.nodup, total, htotal, fun hne => ⟨Nat.mod_lt _ (Nat.pos_of_ne_zero hne), ?_⟩⟩
  obtain ⟨hzero, -⟩ | ⟨-, cg, hfind, hout, -, -⟩ := hdraw
  · exact absurd hzero hne
  · exact ⟨cg, hout, hfind⟩

/-- One round of the production draw keeps the world in order. -/
theorem round_ends (keccak256 : Bytes → Bytes32) (h : Ready k cur past r.world)
    (hsound : Sound k r) (hcur : 0 < cur) :
    Ends Err.NoUnderflow (fun o => ∀ next, o = .missed next → Ready k cur past next.world)
      (round keccak256 (settleOnMiss cur) cur r) := by
  unfold round
  obtain ⟨total, -, ⟨-, hnone⟩ | ⟨hpos, cg, -, -, -, hsome⟩⟩ :=
    drawAttempt_spec keccak256 hsound.wf hsound.padded r.cgSeed cur
  · rw [hnone, ok_bind, if_pos rfl]
    split <;> simp [Ends, Err.NoUnderflow]
  · rw [hsome, ok_bind, if_neg hpos.ne']
    dsimp only
    split
    · refine ends_pure fun next hnext => ?_
      cases hnext
    · refine (settle_ends h hcur cg).bind fun w' hw' => ends_pure fun next hnext => ?_
      cases hnext
      exact hw'.1

theorem pickLoop_ends (h : Ready k cur past r.world) (hsound : Sound k r) (hcur : 0 < cur) (n : ℕ)
    (hn : r.cgAttempt + n = MAX_CG_RETRIES) :
    Ends Err.NoUnderflow (fun p => Ready k cur past p.1)
      (pickLoop keccak256 (settleOnMiss cur) cur n r) := by
  induction n generalizing r with
  | zero => simp [Ends, Err.NoUnderflow, pickLoop]
  | succ n ih =>
    have hround := round_ends keccak256 h hsound hcur
    rw [pickLoop]
    split
    · rename_i e he
      exact hround.of_error he
    · exact h
    · rename_i next hnext
      have hready := hround.of_ok hnext next rfl
      obtain ⟨hsound', hattempt⟩ := hsound.missed (fun _ _ _ => settleOnMiss_wf) (by omega) hnext
      exact ih hready hsound' (by omega)

end Loops

section Runs

/-- The ledger's share of a list of calls. -/
def ledgerCalls (calls : List Call) : List ValueLedger.Call :=
  calls.filterMap fun c =>
    match c.op with
    | .values op => some ⟨c.currentEpoch, c.epoch_pos, op⟩
    | _ => none

theorem sound_firstRound (h : Ready k cur past w) (seed : Bytes32) :
    Sound k (firstRound w seed) :=
  ⟨h.wf, padded_zero k⟩

theorem Ready.onTree {call : WeightTree.Call} (h : Ready k cur past w)
    (ht : w.onTree call = .ok w') : Ready k cur past w' := by
  simp only [World.onTree, bind_eq_ok, mapError_eq_ok, pure_eq_ok] at ht
  obtain ⟨tree, htree, rfl⟩ := ht
  refine ⟨WeightTree.step_wf h.wf htree, ?_, h.ledger⟩
  rintro rfl
  exact WeightTree.step_top h.wf (h.top rfl) htree

theorem Ready.mono {cur' : ℕ} (h : Ready k cur past w) (hc : cur ≤ cur') : Ready k cur' past w :=
  ⟨h.wf, h.top, h.ledger.mono hc⟩

theorem Ready.step {calls : List Call} {c : Call}
    (h : Ready k c.currentEpoch (ledgerCalls calls) w) (hok : step keccak256 w c = .ok w') :
    Ready k c.currentEpoch (ledgerCalls (calls ++ [c])) w' := by
  obtain ⟨cur, hpos, op⟩ := c
  cases op with
  | values op =>
    simp only [Sampling.step, bind_eq_ok, mapError_eq_ok, pure_eq_ok] at hok
    obtain ⟨values, hvalues, rfl⟩ := hok
    refine ⟨h.wf, h.top, ?_⟩
    simp only [ledgerCalls, filterMap_append]
    exact h.ledger.step_ends.of_ok hvalues
  | seed cg weight | seedMany cgs weights | finishBackfill => simpa [ledgerCalls] using h.onTree hok
  | settle cg => simpa [ledgerCalls] using ((settle_ends h hpos cg).of_ok hok).1
  | settleMany cgs =>
    have hfold : Ready k cur (ledgerCalls calls) w' :=
      foldlM_invariant (Ready k cur (ledgerCalls calls))
        (fun _ cg _ h hok => ((settle_ends h hpos cg).of_ok hok).1) h hok
    simpa [ledgerCalls] using hfold
  | graphs g =>
    rw [Sampling.step, Except.ok.injEq] at hok
    subst hok
    have hnext : Ready k cur (ledgerCalls calls) { w with graphs := g } := ⟨h.wf, h.top, h.ledger⟩
    simpa [ledgerCalls] using hnext
  | draw seed =>
    simp only [Sampling.step, bind_eq_ok, pure_eq_ok, Prod.exists] at hok
    obtain ⟨w', _, _, _, hdraw, rfl⟩ := hok
    have hend := (pickLoop_ends h (sound_firstRound h seed) hpos MAX_CG_RETRIES rfl).of_ok hdraw
    simpa [ledgerCalls] using hend

theorem deployed_ready (hk : k < 256) (g : Graphs) : Ready k 1 [] (World.deployed k g) :=
  ⟨WeightTree.empty_wf hk, fun _ _ => rfl, ValueLedger.empty_inv⟩

theorem run_ready (hk : k < 256) (g : Graphs) {calls : List Call}
    (hsorted : calls.Pairwise fun a b => a.currentEpoch ≤ b.currentEpoch) :
    Ready k (now Call.currentEpoch 1 calls)
      (ledgerCalls (accepted (step keccak256) (World.deployed k g) calls))
      (run (step keccak256) (World.deployed k g) calls) := by
  have hstart : Ready k 1 (ledgerCalls []) (World.deployed k g) := deployed_ready hk g
  refine run_invariant_accepted (fun n past w => Ready k n (ledgerCalls past) w) ?_ ?_ hstart
    (fun c _ => c.epoch_pos) hsorted
  · intro n m past w hnm h
    exact h.mono hnm
  · intro c _ past w w' h hok
    exact h.step hok

/-- The weights and the values of a common epoch bound what settling can make of the total. -/
theorem roomy_of_sum (hw : Wf k w.tree)
    (hroom : w.tree.bitTotal + ∑ g ∈ Finset.range (2 ^ k), liveValue past g cur < 2 ^ 255) :
    Roomy k cur past w.tree := by
  rw [hw.bitTotal_eq, hw.capacity, ← Finset.sum_add_distrib] at hroom
  refine lt_of_le_of_lt (Finset.sum_le_sum fun g _ => ?_) hroom
  exact max_le (Nat.le_add_right _ _) (Nat.le_add_left _ _)

theorem Ready.follows (h : Ready k cur past w) (hroom : Roomy k cur past w.tree)
    (seed : Bytes32) : Follows k cur past (firstRound w seed) (firstRound w seed) :=
  ⟨rfl, rfl, rfl, rfl, padded_zero k, h.wf, h, hroom, fun _ _ => rfl⟩

theorem preview_eq (w : World) (seed : Bytes32) (cur : ℕ) :
    previewChallengeForSeed keccak256 w seed cur =
      (pickLoop keccak256 keepOnMiss cur MAX_CG_RETRIES (firstRound w seed)).map Prod.snd := by
  unfold previewChallengeForSeed pickWeightedChallengeView
  cases pickLoop keccak256 keepOnMiss cur MAX_CG_RETRIES (firstRound w seed) <;> rfl

/-- In every reachable state the preview and the production draw end alike, as long as the
weights and the values fit the index together, and both loops exclude a graph at most once and
descend within the weight that is left. -/
theorem run_preview_eq_draw (keccak256 : Bytes → Bytes32) (hk : k < 256) (g : Graphs)
    {calls : List Call}
    (hsorted : calls.Pairwise fun a b => a.currentEpoch ≤ b.currentEpoch) (hpos : 0 < cur)
    (hcur : ∀ c ∈ calls, c.currentEpoch ≤ cur) (seed : Bytes32) :
    let w := run (step keccak256) (World.deployed k g) calls
    let value := liveValue (ledgerCalls (accepted (step keccak256) (World.deployed k g) calls))
    ((∀ e, w.tree.bitTotal + ∑ i ∈ Finset.range (2 ^ k), value i e < 2 ^ 255) →
      previewChallengeForSeed keccak256 w seed cur =
        (pickWeightedChallengeFull keccak256 w seed cur).map Prod.snd) ∧
    (∀ onMiss ∈ [keepOnMiss, settleOnMiss cur],
      ∀ r ∈ rounds keccak256 onMiss cur MAX_CG_RETRIES (firstRound w seed), r.Clean) ∧
    ∀ e, pickWeightedChallengeFull keccak256 w seed cur = .error e → e.NoUnderflow := by
  intro w value
  have h : Ready k cur _ w := (run_ready hk g hsorted).mono (now_le_of_forall hpos hcur)
  refine ⟨fun hroom => ?_, fun onMiss hmem => ?_, fun e he => ?_⟩
  · have hlt : ∀ i < 2 ^ k, ∀ e, value i e < 2 ^ 255 := by
      intro i hi e
      have hle := Finset.single_le_sum (fun j _ => Nat.zero_le (value j e))
        (Finset.mem_range.mpr hi)
      have := hroom e
      omega
    rw [preview_eq]
    exact (h.follows (roomy_of_sum h.wf (hroom cur)) seed).pickLoop hpos hlt MAX_CG_RETRIES rfl
  · have hmiss : ∀ w cg w', Wf k w.tree → onMiss w cg = .ok w' → Wf k w'.tree := by
      intro w cg w' hw hok
      simp only [mem_cons, not_mem_nil, or_false] at hmem
      rcases hmem with rfl | rfl
      · exact keepOnMiss_wf hw hok
      · exact settleOnMiss_wf hw hok
    intro r hr
    exact ((sound_firstRound h seed).rounds hmiss MAX_CG_RETRIES rfl r hr).clean
  · exact (pickLoop_ends h (sound_firstRound h seed) hpos MAX_CG_RETRIES rfl).of_error he

/-- Graph 1 has no asset, graph 2 one asset with one leaf. -/
def oneAsset : Graphs where
  active := fun _ => true
  isCurated := fun _ => false
  samplingKAList := fun cg => if cg = 2 then [9] else []
  endEpoch := fun _ => 1
  merkleLeafCount := fun _ => 1
  catalogLeafCount := fun _ => 0
  latestMerkleRoot := fun _ => Merkle.zero32
  catalogRoot := fun _ => Merkle.zero32

/-- Two graphs are seeded, and the first gets a value that its leaf does not show yet. -/
def staleLeaf (weight : ℕ) : List Call :=
  [⟨1, Nat.one_pos, .seed 1 1⟩, ⟨1, Nat.one_pos, .seed 2 weight⟩,
    ⟨1, Nat.one_pos, .finishBackfill⟩, ⟨1, Nat.one_pos, .values (.addCGValueForEpochRange 1 1 1 5)⟩]

theorem run_preview_eq_draw_staleLeaf :
    let w := run (step Merkle.first32) (World.deployed 2 oneAsset) (staleLeaf 7)
    previewChallengeForSeed Merkle.first32 w Merkle.zero32 1 =
      (pickWeightedChallengeFull Merkle.first32 w Merkle.zero32 1).map Prod.snd ∧
    previewChallengeForSeed Merkle.first32 w Merkle.zero32 1 = .ok (2, 9, 0) := by
  have hsorted : (staleLeaf 7).Pairwise fun a b => a.currentEpoch ≤ b.currentEpoch := by
    decide
  have hcur : ∀ c ∈ staleLeaf 7, c.currentEpoch ≤ 1 := by decide
  obtain ⟨hpreview, -, -⟩ := run_preview_eq_draw Merkle.first32 (by decide : 2 < 256) oneAsset
    hsorted one_pos hcur Merkle.zero32
  refine ⟨hpreview fun e => ?_, by decide +kernel⟩
  have hvalue : ∀ i ∈ Finset.range (2 ^ 2), liveValue (ledgerCalls
      (accepted (step Merkle.first32) (World.deployed 2 oneAsset) (staleLeaf 7))) i e ≤ 5 := by
    intro i _
    refine (ValueLedger.liveValue_le_finsum _ i e).trans
      ((ValueLedger.finsum_liveValue_le _ e).trans ?_)
    decide +kernel
  have htotal : (run (step Merkle.first32) (World.deployed 2 oneAsset)
      (staleLeaf 7)).tree.bitTotal = 8 := by
    decide +kernel
  have hsum := Finset.sum_le_card_nsmul _ _ _ hvalue
  rw [Finset.card_range, smul_eq_mul] at hsum
  omega

/-- With the index nearly full the settlement of the first graph reverts, and the preview
goes on to the second. -/
theorem preview_survives_full_index :
    let w := run (step Merkle.first32) (World.deployed 2 oneAsset) (staleLeaf (2 ^ 255 - 2))
    previewChallengeForSeed Merkle.first32 w Merkle.zero32 1 = .ok (2, 9, 0) ∧
    (pickWeightedChallengeFull Merkle.first32 w Merkle.zero32 1).map Prod.snd =
      .error (.tree .panic) := by
  decide +kernel

end Runs

end Dkg.Sampling
