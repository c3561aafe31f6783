import Dkg.Sampling.Challenges

/-!
Proof periods only advance, and a node that has solved its challenge scores no second time in
the period unless its challenge is swept away.
-/

namespace Dkg.RandomSampling
open Revert Function List
open Merkle (Bytes Bytes32 Challenge)
open Staking (SCALE18)

variable {c : Chronos} {keccak256 : Bytes → Bytes32} {s s' t : State} {env : Env c}
  {call : Call c} {calls : List (Call c)} {identityId start : ℕ} {seed : Bytes32}
  {content : Bytes} {merkleProof : List Bytes32} {challenge : Challenge}

section Effects

/-- The start block after a call at a block: it has not decreased, nor passed the block. -/
def Advances (blockNumber : ℕ) (s t : State) : Prop :=
  s.activeProofPeriodStartBlock ≤ t.activeProofPeriodStartBlock ∧
    (s.activeProofPeriodStartBlock ≤ blockNumber → t.activeProofPeriodStartBlock ≤ blockNumber)

theorem Advances.of_eq {n : ℕ}
    (h : t.activeProofPeriodStartBlock = s.activeProofPeriodStartBlock) : Advances n s t := by
  rw [Advances, h]
  exact ⟨le_rfl, id⟩

theorem Advances.trans {n : ℕ} (h : Advances n s s') (h' : Advances n s' t) : Advances n s t :=
  ⟨h.1.trans h'.1, h'.2 ∘ h.2⟩

/-- An update writes the start block only, and leaves the block inside the active period. -/
theorem update_ok (h : s.updateAndGetActiveProofPeriodStartBlock env = .ok (t, start)) :
    t = { s with activeProofPeriodStartBlock := start } ∧ Advances env.blockNumber s t ∧
      ∃ d : UInt16, s.getActiveProofingPeriodDurationInBlocks env = .ok d ∧
        env.blockNumber < start + d.toNat := by
  simp only [State.updateAndGetActiveProofPeriodStartBlock, bind_eq_ok, require_eq_ok,
    Checked.add_eq_ok] at h
  obtain ⟨d, hd, _, hne, _, ⟨-, rfl⟩, h⟩ := h
  split at h
  · simp only [bind_eq_ok, Checked.sub_eq_ok, Checked.add_eq_ok, pure_eq_ok, Prod.mk.injEq] at h
    obtain ⟨_, ⟨hle, rfl⟩, _, ⟨-, rfl⟩, rfl, rfl⟩ := h
    have hdiv := Nat.div_add_mod' (env.blockNumber - s.activeProofPeriodStartBlock) d.toNat
    have hmod := Nat.mod_lt (env.blockNumber - s.activeProofPeriodStartBlock)
      (Nat.pos_of_ne_zero hne)
    exact ⟨rfl, ⟨Nat.le_add_right _ _, fun _ => by dsimp only; omega⟩, d, hd, by omega⟩
  · simp only [pure_eq_ok, Prod.mk.injEq] at h
    obtain ⟨rfl, rfl⟩ := h
    exact ⟨rfl, .of_eq rfl, d, hd, by omega⟩

/-- Inside the active period an update changes nothing. -/
theorem update_inside {d : UInt16} (hd : s.getActiveProofingPeriodDurationInBlocks env = .ok d)
    (hin : env.blockNumber < s.activeProofPeriodStartBlock + d.toNat)
    (h : s.updateAndGetActiveProofPeriodStartBlock env = .ok (t, start)) :
    t = s ∧ start = s.activeProofPeriodStartBlock := by
  simp only [State.updateAndGetActiveProofPeriodStartBlock, hd, ok_bind, bind_eq_ok,
    Checked.add_eq_ok] at h
  obtain ⟨_, -, _, ⟨-, rfl⟩, h⟩ := h
  rw [if_neg (by omega)] at h
  simp only [pure_eq_ok, Prod.mk.injEq] at h
  exact ⟨h.1.symm, h.2.symm⟩

theorem generateChallenge_ok {d : UInt16}
    (hd : s.getActiveProofingPeriodDurationInBlocks env = .ok d)
    (hin : env.blockNumber < s.activeProofPeriodStartBlock + d.toNat)
    (h : s.generateChallenge keccak256 env seed = .ok (t, challenge)) :
    t.activeProofPeriodStartBlock = s.activeProofPeriodStartBlock ∧
      t.nodesChallenges = s.nodesChallenges ∧
      t.proofingPeriodDurations = s.proofingPeriodDurations := by
  simp only [State.generateChallenge, bind_eq_ok, require_eq_ok, mapError_eq_ok, pure_eq_ok,
    Prod.exists, Prod.mk.injEq] at h
  obtain ⟨_, _, world, _, _, _, _, s₁, start, hupdate, _, _, rfl, rfl⟩ := h
  have hworld : ({ s with world } : State).getActiveProofingPeriodDurationInBlocks env = .ok d := hd
  obtain ⟨rfl, -⟩ := update_inside hworld hin hupdate
  exact ⟨rfl, rfl, rfl⟩

/-- A new challenge replaces one that was not solved in the active period. -/
theorem createChallenge_ok (h : s.createChallenge keccak256 env identityId seed = .ok t) :
    Advances env.blockNumber s t ∧ t.proofingPeriodDurations = s.proofingPeriodDurations ∧
      ¬((s.nodesChallenges identityId).activeProofPeriodStartBlock =
          t.activeProofPeriodStartBlock ∧ (s.nodesChallenges identityId).solved) ∧
      ∃ challenge, t.nodesChallenges = update s.nodesChallenges identityId challenge := by
  simp only [State.createChallenge, bind_eq_ok, require_eq_ok, pure_eq_ok, Prod.exists] at h
  obtain ⟨s₁, start, hupdate, _, hsolved, _, -, s₂, challenge, hgenerate, css, stake, -, rfl⟩ := h
  obtain ⟨rfl, hadv, d, hd, hin⟩ := update_ok hupdate
  have hd' : ({ s with activeProofPeriodStartBlock := start } :
      State).getActiveProofingPeriodDurationInBlocks env = .ok d := hd
  obtain ⟨hstart, hkept, hdurations⟩ := generateChallenge_ok hd' hin hgenerate
  refine ⟨hadv.trans (.of_eq hstart), hdurations, ?_, challenge, ?_⟩
  · show ¬(_ = s₂.activeProofPeriodStartBlock ∧ _)
    rw [hstart]
    exact hsolved
  · show update s₂.nodesChallenges identityId challenge = _
    rw [hkept]

theorem addScore_ok (h : s.addScore env identityId start = .ok t) :
    t.activeProofPeriodStartBlock = s.activeProofPeriodStartBlock ∧
      t.nodesChallenges = s.nodesChallenges ∧
      t.proofingPeriodDurations = s.proofingPeriodDurations := by
  simp only [State.addScore, bind_eq_ok, pure_eq_ok, Prod.exists] at h
  obtain ⟨_, _, _, _, _, _, _, rfl⟩ := h
  exact ⟨rfl, rfl, rfl⟩

/-- A proof solves the challenge its node holds for the active period. -/
theorem submitProof_ok
    (h : s.submitProof keccak256 env identityId content merkleProof = .ok t) :
    Advances env.blockNumber s t ∧ t.proofingPeriodDurations = s.proofingPeriodDurations ∧
      (s.nodesChallenges identityId).solved = false ∧
      (s.nodesChallenges identityId).activeProofPeriodStartBlock = t.activeProofPeriodStartBlock ∧
      t.nodesChallenges = update s.nodesChallenges identityId
        { s.nodesChallenges identityId with solved := true } := by
  simp only [State.submitProof, bind_eq_ok, require_eq_ok, Prod.exists] at h
  obtain ⟨_, hsolved, s₁, start, hupdate, _, hactive, _, -, h⟩ := h
  obtain ⟨rfl, hadv, -⟩ := update_ok hupdate
  obtain ⟨hstart, hchallenges, hdurations⟩ := addScore_ok h
  refine ⟨hadv.trans (.of_eq hstart), hdurations, hsolved, ?_, hchallenges⟩
  rw [hstart]
  exact hactive

theorem clearOutstandingChallenges_eq (s : State) (identityIds : List ℕ) :
    (s.clearOutstandingChallenges identityIds).activeProofPeriodStartBlock =
        s.activeProofPeriodStartBlock ∧
      (s.clearOutstandingChallenges identityIds).proofingPeriodDurations =
        s.proofingPeriodDurations ∧
      ∀ i ∉ identityIds, (s.clearOutstandingChallenges identityIds).nodesChallenges i =
        s.nodesChallenges i := by
  induction identityIds generalizing s with
  | nil => exact ⟨rfl, rfl, fun _ _ => rfl⟩
  | cons j ids ih =>
    obtain ⟨hstart, hdurations, hkept⟩ := ih (s.setNodeChallenge j noChallenge)
    refine ⟨hstart, hdurations, fun i hi => ?_⟩
    rw [mem_cons, not_or] at hi
    exact (hkept i hi.2).trans (update_of_ne hi.1 _ _)

/-- What a committed call does to the start block, the durations and the challenges. -/
theorem step_cases (h : step keccak256 s call = .ok t) :
    Advances call.blockNumber s t ∧
    (t.proofingPeriodDurations = s.proofingPeriodDurations ∨
      ∃ d, s.setProofingPeriodDurationInBlocks call.env d = .ok t) ∧
    ((∃ identityId seed challenge, call.op = .createChallenge identityId seed ∧
        ¬((s.nodesChallenges identityId).activeProofPeriodStartBlock =
          t.activeProofPeriodStartBlock ∧ (s.nodesChallenges identityId).solved) ∧
        t.nodesChallenges = update s.nodesChallenges identityId challenge) ∨
      (∃ identityId content merkleProof, call.op = .submitProof identityId content merkleProof ∧
        (s.nodesChallenges identityId).solved = false ∧
        (s.nodesChallenges identityId).activeProofPeriodStartBlock =
          t.activeProofPeriodStartBlock ∧
        t.nodesChallenges = update s.nodesChallenges identityId
          { s.nodesChallenges identityId with solved := true }) ∨
      (∃ identityIds, call.op = .clearOutstandingChallenges identityIds ∧
        ∀ i ∉ identityIds, t.nodesChallenges i = s.nodesChallenges i) ∨
      (∀ identityId content merkleProof, call.op ≠ .submitProof identityId content merkleProof) ∧
        t.nodesChallenges = s.nodesChallenges) := by
  obtain ⟨env, op⟩ := call
  cases op with
  | createChallenge identityId seed =>
    obtain ⟨hadv, hdurations, hguard, challenge, hnew⟩ := createChallenge_ok h
    exact ⟨hadv, .inl hdurations, .inl ⟨identityId, seed, challenge, rfl, hguard, hnew⟩⟩
  | submitProof identityId content merkleProof =>
    obtain ⟨hadv, hdurations, hsolved, hactive, hnew⟩ := submitProof_ok h
    exact ⟨hadv, .inl hdurations,
      .inr (.inl ⟨identityId, content, merkleProof, rfl, hsolved, hactive, hnew⟩)⟩
  | updateAndGetActiveProofPeriodStartBlock =>
    simp only [step, bind_eq_ok, pure_eq_ok, Prod.exists] at h
    obtain ⟨_, start, hupdate, rfl⟩ := h
    obtain ⟨rfl, hadv, -⟩ := update_ok hupdate
    exact ⟨hadv, .inl rfl, .inr (.inr (.inr ⟨by simp, rfl⟩))⟩
  | setProofingPeriodDurationInBlocks durationInBlocks =>
    have hset : s.setProofingPeriodDurationInBlocks env durationInBlocks = .ok t := h
    simp only [step, State.setProofingPeriodDurationInBlocks, bind_eq_ok, pure_eq_ok] at h
    obtain ⟨_, _, _, _, rfl⟩ := h
    exact ⟨.of_eq rfl, .inr ⟨durationInBlocks, hset⟩, .inr (.inr (.inr ⟨by simp, rfl⟩))⟩
  | clearOutstandingChallenges identityIds =>
    simp only [step, Except.ok.injEq] at h
    subst h
    obtain ⟨hstart, hdurations, hkept⟩ := clearOutstandingChallenges_eq s identityIds
    exact ⟨.of_eq hstart, .inl hdurations, .inr (.inr (.inl ⟨identityIds, rfl, hkept⟩))⟩
  | world op not_draw | staking op not_proof =>
    simp only [step, bind_eq_ok, mapError_eq_ok, pure_eq_ok] at h
    obtain ⟨_, _, rfl⟩ := h
    exact ⟨.of_eq rfl, .inl rfl, .inr (.inr (.inr ⟨by simp, rfl⟩))⟩

end Effects

section Runs

/-- The node and the start block a committed call has scored for. -/
def Call.scored (call : Call c) (t : State) : List (ℕ × ℕ) :=
  match call.op with
  | .submitProof identityId _ _ => [(identityId, t.activeProofPeriodStartBlock)]
  | _ => []

/-- The scores of a run: for which node and for which period, in order. -/
def scores (keccak256 : Bytes → Bytes32) (s : State) (calls : List (Call c)) : List (ℕ × ℕ) :=
  events (step keccak256) Call.scored s calls

/-- The call, if a sweep, names only nodes whose challenge is not solved. -/
def sparesSolved (s : State) (call : Call c) : Bool :=
  match call.op with
  | .clearOutstandingChallenges identityIds =>
    identityIds.all fun i => !(s.nodesChallenges i).solved
  | _ => true

/-- No score is repeated, and the node of a score in the active period holds the solved
challenge. -/
structure Once (past : List (ℕ × ℕ)) (s : State) : Prop where
  nodup : past.Nodup
  le_start : ∀ p ∈ past, p.2 ≤ s.activeProofPeriodStartBlock
  solved : ∀ p ∈ past, p.2 = s.activeProofPeriodStartBlock →
    (s.nodesChallenges p.1).activeProofPeriodStartBlock = p.2 ∧ (s.nodesChallenges p.1).solved

/-- Scores of the period that is still active were scores of the active period before. -/
theorem Once.solved_before {n : ℕ} {past : List (ℕ × ℕ)} {p : ℕ × ℕ} (h : Once past s)
    (hadv : Advances n s t) (hp : p ∈ past) (hactive : p.2 = t.activeProofPeriodStartBlock) :
    (s.nodesChallenges p.1).activeProofPeriodStartBlock = t.activeProofPeriodStartBlock ∧
      (s.nodesChallenges p.1).solved := by
  have hle := h.le_start p hp
  rw [← hactive]
  exact h.solved p hp (le_antisymm hle (hactive ▸ hadv.1))

/-- A call that keeps the challenges of the scores in the active period keeps the invariant. -/
theorem Once.keep {n : ℕ} {past : List (ℕ × ℕ)} (h : Once past s) (hadv : Advances n s t)
    (hkeep : ∀ p ∈ past, p.2 = t.activeProofPeriodStartBlock →
      t.nodesChallenges p.1 = s.nodesChallenges p.1) : Once past t where
  nodup := h.nodup
  le_start p hp := (h.le_start p hp).trans hadv.1
  solved p hp hactive := by
    rw [hkeep p hp hactive, hactive]
    exact h.solved_before hadv hp hactive

theorem Once.step {past : List (ℕ × ℕ)} (h : Once past s) (hsweep : sparesSolved s call)
    (hok : step keccak256 s call = .ok t) : Once (past ++ call.scored t) t := by
  obtain ⟨hadv, -, ⟨i, seed, challenge, hop, hguard, hnew⟩ |
    ⟨i, content, merkleProof, hop, hunsolved, hactive, hnew⟩ | ⟨ids, hop, hkept⟩ |
    ⟨hother, hkept⟩⟩ := step_cases hok
  · have hscored : call.scored t = [] := by simp [Call.scored, hop]
    rw [hscored, append_nil]
    refine h.keep hadv fun p hp heq => ?_
    have hne : p.1 ≠ i := by
      rintro rfl
      exact hguard (h.solved_before hadv hp heq)
    rw [hnew, update_of_ne hne]
  · have hscored : call.scored t = [(i, t.activeProofPeriodStartBlock)] := by
      simp [Call.scored, hop]
    have hfresh : ∀ p ∈ past, p.2 = t.activeProofPeriodStartBlock → p.1 ≠ i := by
      rintro p hp heq rfl
      have hsolved := (h.solved_before hadv hp heq).2
      rw [hunsolved] at hsolved
      cases hsolved
    have hkeep : Once past t := h.keep hadv fun p hp heq => by
      rw [hnew, update_of_ne (hfresh p hp heq)]
    rw [hscored]
    refine ⟨?_, ?_, ?_⟩
    · refine nodup_append.mpr ⟨h.nodup, nodup_singleton _, fun p hp q hq hpq => ?_⟩
      obtain rfl := mem_singleton.mp hq
      subst hpq
      exact hfresh _ hp rfl rfl
    · intro p hp
      rcases mem_append.mp hp with hp | hp
      · exact hkeep.le_start p hp
      · rw [mem_singleton.mp hp]
    · intro p hp heq
      rcases mem_append.mp hp with hp | hp
      · exact hkeep.solved p hp heq
      · rw [mem_singleton.mp hp, hnew, update_self]
        exact ⟨hactive, rfl⟩
  · have hscored : call.scored t = [] := by simp [Call.scored, hop]
    rw [hscored, append_nil]
    refine h.keep hadv fun p hp heq => hkept p.1 fun hmem => ?_
    simp only [sparesSolved, hop, all_eq_true, Bool.not_eq_true'] at hsweep
    have hsolved := (h.solved_before hadv hp heq).2
    rw [hsweep p.1 hmem] at hsolved
    cases hsolved
  · have hscored : call.scored t = [] := by
      unfold Call.scored
      split
      · exact absurd ‹_› (hother _ _ _)
      · rfl
    rw [hscored, append_nil]
    exact h.keep hadv fun p _ _ => by rw [hkept]

theorem run_start_mono (s : State) (calls : List (Call c)) :
    s.activeProofPeriodStartBlock ≤ (run (step keccak256) s calls).activeProofPeriodStartBlock :=
  run_invariant (fun t => s.activeProofPeriodStartBlock ≤ t.activeProofPeriodStartBlock)
    (fun _ _ _ hle hok => hle.trans (step_cases hok).1.1) le_rfl

theorem run_start_le {n : ℕ} (hs : s.activeProofPeriodStartBlock = 0)
    (hsorted : calls.Pairwise fun a b => a.blockNumber ≤ b.blockNumber)
    (hn : ∀ a ∈ calls, a.blockNumber ≤ n) :
    (run (step keccak256) s calls).activeProofPeriodStartBlock ≤ n := by
  have hle : (run (step keccak256) s calls).activeProofPeriodStartBlock ≤
      now Call.blockNumber 0 calls :=
    run_invariant_timed (fun n t => t.activeProofPeriodStartBlock ≤ n)
      (fun _ _ _ hnm hle => hle.trans hnm) (fun _ _ _ _ hle hok => (step_cases hok).1.2 hle) hs.le
      (fun _ _ => Nat.zero_le _) hsorted
  exact hle.trans (now_le_of_forall (Nat.zero_le n) hn)

/-- Over any run the start block never decreases, an update puts the block inside the active
period, and when sweeps spare solved challenges a node scores once for a start block. -/
theorem run_scores_once (keccak256 : Bytes → Bytes32) (deployment : Env c)
    (durationInBlocks : UInt16) (k : ℕ) (g : Sampling.Graphs) {calls : List (Call c)}
    (hsorted : calls.Pairwise fun a b => a.blockNumber ≤ b.blockNumber) :
    let s₀ := deployed deployment durationInBlocks k g
    let s := run (step keccak256) s₀ calls
    (∀ earlier later, calls = earlier ++ later →
      (run (step keccak256) s₀ earlier).activeProofPeriodStartBlock ≤
        s.activeProofPeriodStartBlock) ∧
    (∀ env : Env c, (∀ a ∈ calls, a.blockNumber ≤ env.blockNumber) → ∀ t start,
      s.updateAndGetActiveProofPeriodStartBlock env = .ok (t, start) →
      t.activeProofPeriodStartBlock = start ∧ start ≤ env.blockNumber ∧
        ∃ d : UInt16, t.getEpochProofingPeriodDurationInBlocks env.currentEpoch = .ok d ∧
          env.blockNumber < start + d.toNat) ∧
    (Along (step keccak256) (fun s call => sparesSolved s call) s₀ calls →
      (scores keccak256 s₀ calls).Nodup) := by
  intro s₀ s
  refine ⟨?_, ?_, fun hsweeps => ?_⟩
  · rintro earlier later rfl
    show _ ≤ (run (step keccak256) s₀ (earlier ++ later)).activeProofPeriodStartBlock
    rw [run_append]
    exact run_start_mono _ later
  · intro env henv t start hupdate
    obtain ⟨rfl, hadv, d, hd, hin⟩ := update_ok hupdate
    exact ⟨rfl, hadv.2 (run_start_le rfl hsorted henv), d, hd, hin⟩
  · have hstart : Once [] s₀ := ⟨nodup_nil, by simp, by simp⟩
    have honce : Once ([] ++ scores keccak256 s₀ calls) s :=
      run_invariant_events Once (fun past s a t h hsweep hok => h.step hsweep hok) hstart hsweeps
    exact honce.nodup

/-- One curated graph with an asset of one leaf. -/
def oneLeaf : Sampling.Graphs where
  active := fun _ => true
  isCurated := fun _ => true
  samplingKAList := fun _ => [9]
  endEpoch := fun _ => 1
  merkleLeafCount := fun _ => 0
  catalogLeafCount := fun _ => 1
  latestMerkleRoot := fun _ => Merkle.zero32
  catalogRoot := fun _ => Merkle.first32 [7]

def daily : Chronos := ⟨1, 86400, Nat.one_pos, by decide⟩

/-- A block of the first epoch, with the stake capped at 50000 tokens. -/
def blockAt (blockNumber : ℕ) : Env daily where
  blockNumber
  staking :=
    { block := ⟨5, by decide, by decide⟩
      profileExists := fun _ => true
      maximumStake := 50000 * SCALE18
      epochPool := fun _ => 0
      operatorFeePercentage := fun _ _ => 0
      maxOperatorFee := 10000
      settlementSet := false }
  nodePublishingAllocation := fun _ _ => 0
  publishingAllocation := fun _ => 0
  ask := fun _ => 0
  pricePerKbEpoch := 0

/-- The tree is seeded, and node 1 staked to the cap. -/
def stakedNode : List (Call daily) :=
  [⟨blockAt 1, .world (.seed 1 1) (by simp)⟩, ⟨blockAt 1, .world .finishBackfill (by simp)⟩,
    ⟨blockAt 2, .staking (.stake 1 (50000 * SCALE18) 0) (by simp)⟩]

/-- The node draws a challenge and solves it. -/
def solvesAt (blockNumber : ℕ) : List (Call daily) :=
  [⟨blockAt blockNumber, .createChallenge 1 Merkle.zero32⟩,
    ⟨blockAt blockNumber, .submitProof 1 [7] []⟩]

/-- The solved challenge is swept away, and the node draws and solves another one. -/
def sweptAfterSolving : List (Call daily) :=
  stakedNode ++ solvesAt 100 ++ [⟨blockAt 101, .clearOutstandingChallenges [1]⟩] ++ solvesAt 102

theorem swept_node_scores_twice :
    scores Merkle.first32 (deployed (blockAt 0) 50 2 oneLeaf) sweptAfterSolving =
        [(1, 100), (1, 100)] ∧
      (run (step Merkle.first32) (deployed (blockAt 0) 50 2 oneLeaf)
        sweptAfterSolving).nodeEpochProofPeriodScore (1, 1, 100) = 4 * 10 ^ 15 := by
  decide +kernel

/-- A sweep of another node in between, and a second period. -/
def twoPeriods : List (Call daily) :=
  stakedNode ++ solvesAt 100 ++ [⟨blockAt 101, .clearOutstandingChallenges [2]⟩] ++ solvesAt 170

theorem run_scores_once_twoPeriods :
    (scores Merkle.first32 (deployed (blockAt 0) 50 2 oneLeaf) twoPeriods).Nodup ∧
      scores Merkle.first32 (deployed (blockAt 0) 50 2 oneLeaf) twoPeriods =
        [(1, 100), (1, 150)] := by
  have hsorted : twoPeriods.Pairwise fun a b => a.blockNumber ≤ b.blockNumber := by decide
  obtain ⟨-, -, honce⟩ := run_scores_once Merkle.first32 (blockAt 0) 50 2 oneLeaf hsorted
  exact ⟨honce (by decide +kernel), by decide +kernel⟩

end Runs

end Dkg.RandomSampling
