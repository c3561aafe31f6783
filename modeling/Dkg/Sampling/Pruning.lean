import Dkg.Publishing.DirectSpend
import Dkg.Lib.SwapPop

/-!
Pruning of the sampling lists. A context graph has an append-only list of its assets and a list
that the sampling draws from; a keeper removes expired assets from the second one. An asset that
has expired cannot be extended, so no live asset is ever removed.
-/

namespace Dkg.Pruning
open Revert SwapPop List Function
open Lifecycle (Env)
open Sampling (Graphs)

inductive Err where
  /-- `InvalidContextGraphConfig("zero kaId")`. -/
  | zeroKaId
  | contextGraphNotActive (contextGraphId : ℕ)
  | knowledgeAssetAlreadyRegistered (kaId contextGraphId : ℕ)
  /-- A revert of `KnowledgeAssetsLifecycle`. -/
  | lifecycle (e : Lifecycle.Err)

structure Registry where
  lifecycle : Lifecycle.State
  /-- `_contextGraphKAList`. -/
  contextGraphKAList : ℕ → List ℕ

variable {c : Chronos} {vault : ℕ}

namespace Registry

def graphs (r : Registry) : Graphs := r.lifecycle.world.graphs

def kaToContextGraph (r : Registry) (kaId : ℕ) : ℕ := (r.lifecycle.assets kaId).contextGraph

def withGraphs (r : Registry) (graphs : Graphs) : Registry :=
  { r with lifecycle := { r.lifecycle with world := { r.lifecycle.world with graphs } } }

/-- The asset was stored with its end just before. -/
def registerKnowledgeAssetToContextGraph (r : Registry) (contextGraphId kaId endEpoch : ℕ) :
    Except Err Registry := do
  require (kaId ≠ 0) .zeroKaId
  require (r.graphs.active contextGraphId = true) (.contextGraphNotActive contextGraphId)
  let existing := r.kaToContextGraph kaId
  require (existing = 0) (.knowledgeAssetAlreadyRegistered kaId existing)
  let lifecycle := { r.lifecycle with
    assets := update r.lifecycle.assets kaId
      { r.lifecycle.assets kaId with contextGraph := contextGraphId } }
  let r := { r with
    lifecycle
    contextGraphKAList := update r.contextGraphKAList contextGraphId
      (r.contextGraphKAList contextGraphId ++ [kaId]) }
  return r.withGraphs { r.graphs with
    samplingKAList := update r.graphs.samplingKAList contextGraphId
      (r.graphs.samplingKAList contextGraphId ++ [kaId])
    endEpoch := update r.graphs.endEpoch kaId endEpoch }

def extendKnowledgeAssetLifetime (r : Registry) (env : Env c vault) (id epochs tokenAmount : ℕ) :
    Except Err Registry := do
  let lifecycle ← (r.lifecycle.extendKnowledgeAssetLifetime env id epochs tokenAmount).mapError
    .lifecycle
  return { r with lifecycle }

end Registry

/-- A slot that holds another asset by now is left alone. -/
def swapRemoveSamplingKnowledgeAssetAt (list : List ℕ) (index expectedKaId : ℕ) : List ℕ :=
  if index ≥ list.length ∨ list[index]? ≠ some expectedKaId then list
  else
    let last := list.length - 1
    (if index ≠ last then list.set index (list.getD last 0) else list).dropLast

/-- The loop of `pruneExpiredKnowledgeAssets`, with the positions that may still be scanned. -/
def pruneLoop (endEpoch : ℕ → ℕ) (currentEpoch : ℕ) : ℕ → ℕ → List ℕ → ℕ → List ℕ × ℕ
  | 0, _, list, removed => (list, removed)
  | scans + 1, i, list, removed =>
    match list[i]? with
    | none => (list, removed)
    | some ka =>
      if endEpoch ka < currentEpoch then
        -- the last element comes to `i`, which is looked at again
        pruneLoop endEpoch currentEpoch scans i (swapRemoveSamplingKnowledgeAssetAt list i ka)
          (removed + 1)
      else pruneLoop endEpoch currentEpoch scans (i + 1) list removed

def Registry.pruneExpiredKnowledgeAssets (r : Registry) (currentEpoch cgId startIndex maxScan : ℕ) :
    Registry × ℕ :=
  let (list, removed) := pruneLoop r.graphs.endEpoch currentEpoch maxScan startIndex
    (r.graphs.samplingKAList cgId) 0
  (r.withGraphs { r.graphs with
    samplingKAList := update r.graphs.samplingKAList cgId list }, removed)

inductive Op where
  | registerKnowledgeAssetToContextGraph (contextGraphId kaId endEpoch : ℕ)
  | extendKnowledgeAssetLifetime (id epochs tokenAmount : ℕ)
  | pruneExpiredKnowledgeAssets (cgId startIndex maxScan : ℕ)

structure Call (c : Chronos) (vault : ℕ) where
  env : Env c vault
  op : Op

def Call.currentEpoch (call : Call c vault) : ℕ := call.env.currentEpoch

def step (r : Registry) (call : Call c vault) : Except Err Registry :=
  match call.op with
  | .registerKnowledgeAssetToContextGraph contextGraphId kaId endEpoch =>
    r.registerKnowledgeAssetToContextGraph contextGraphId kaId endEpoch
  | .extendKnowledgeAssetLifetime id epochs tokenAmount =>
    r.extendKnowledgeAssetLifetime call.env id epochs tokenAmount
  | .pruneExpiredKnowledgeAssets cgId startIndex maxScan =>
    .ok (r.pruneExpiredKnowledgeAssets call.currentEpoch cgId startIndex maxScan).1

section Loop
variable {endEpoch : ℕ → ℕ} {currentEpoch scans i removed : ℕ} {list : List ℕ} {ka : ℕ}

theorem swapRemove_eq (h : list[i]? = some ka) :
    swapRemoveSamplingKnowledgeAssetAt list i ka = swapPop list i := by
  obtain ⟨u, y, rfl⟩ := exists_concat h
  have hi := (List.getElem?_eq_some_iff.mp h).1
  unfold swapRemoveSamplingKnowledgeAssetAt
  rw [if_neg (by push Not; exact ⟨hi, h⟩), swapPop_concat]
  rw [length_append, length_singleton] at hi ⊢
  dsimp only
  rw [Nat.add_sub_cancel]
  by_cases hlast : i = u.length
  · rw [if_neg (not_not.mpr hlast), if_neg (by omega), dropLast_concat]
  · have hlt : i < u.length := by omega
    rw [if_pos hlast, if_pos hlt, set_append_left _ _ hlt, dropLast_concat]
    simp

/-- What is removed is expired, and is counted. -/
theorem pruneLoop_removed (endEpoch : ℕ → ℕ) (currentEpoch scans i : ℕ) (list : List ℕ)
    (removed : ℕ) :
    ∃ gone, list.Perm ((pruneLoop endEpoch currentEpoch scans i list removed).1 ++ gone) ∧
      (pruneLoop endEpoch currentEpoch scans i list removed).2 = removed + gone.length ∧
      ∀ ka ∈ gone, endEpoch ka < currentEpoch := by
  induction scans generalizing i list removed with
  | zero => exact ⟨[], by simp [pruneLoop], rfl, nofun⟩
  | succ scans ih =>
    rw [pruneLoop]
    cases hat : list[i]? with
    | none => exact ⟨[], by simp, rfl, nofun⟩
    | some ka =>
      dsimp only
      split_ifs with hexpired
      · rw [swapRemove_eq hat]
        obtain ⟨gone, hperm, hcount, hgone⟩ := ih i (swapPop list i) (removed + 1)
        refine ⟨gone ++ [ka], ?_, ?_, ?_⟩
        · rw [← append_assoc]
          exact (perm_swapPop hat).trans (hperm.append_right [ka])
        · rw [hcount, length_append, length_singleton]
          omega
        · intro x hx
          rcases mem_append.mp hx with hx | hx
          · exact hgone x hx
          · cases mem_singleton.mp hx
            exact hexpired
      · exact ih (i + 1) list removed

/-- Scanned from a place before which all are live to the end, only live assets stay. -/
theorem pruneLoop_clean (hbefore : ∀ j ka, j < i → list[j]? = some ka → currentEpoch ≤ endEpoch ka)
    (hscans : list.length ≤ i + scans) :
    ∀ ka ∈ (pruneLoop endEpoch currentEpoch scans i list removed).1,
      currentEpoch ≤ endEpoch ka := by
  have hstop : ∀ {i : ℕ} {list : List ℕ}, list.length ≤ i →
      (∀ j ka, j < i → list[j]? = some ka → currentEpoch ≤ endEpoch ka) →
      ∀ ka ∈ list, currentEpoch ≤ endEpoch ka := by
    intro i list hle hlive ka hka
    obtain ⟨j, hj⟩ := mem_iff_getElem?.mp hka
    exact hlive j ka ((List.getElem?_eq_some_iff.mp hj).1.trans_le hle) hj
  induction scans generalizing i list removed with
  | zero => exact hstop hscans hbefore
  | succ scans ih =>
    rw [pruneLoop]
    cases hat : list[i]? with
    | none => exact hstop (getElem?_eq_none_iff.mp hat) hbefore
    | some ka =>
      dsimp only
      split_ifs with hlive
      · rw [swapRemove_eq hat]
        have hi := (List.getElem?_eq_some_iff.mp hat).1
        have hlength := (perm_swapPop hat).length_eq
        rw [length_append, length_singleton] at hlength
        apply ih
        · intro j x hj hx
          rw [getElem?_swapPop hj.ne (by omega)] at hx
          exact hbefore j x hj hx
        · omega
      · apply ih
        · intro j x hj hx
          rcases Nat.lt_succ_iff_lt_or_eq.mp hj with hj | rfl
          · exact hbefore j x hj hx
          · rw [hat] at hx
            cases hx
            exact not_lt.mp hlive
        · omega

end Loop

section Steps
variable {r r' : Registry} {env : Env c vault} {call : Call c vault} {n : ℕ}

/-- An extension is of a live asset, and moves its end only. -/
theorem extension_ok {s t : Lifecycle.State} {id epochs tokenAmount : ℕ}
    (h : s.extendKnowledgeAssetLifetime env id epochs tokenAmount = .ok t) :
    env.currentEpoch ≤ s.world.graphs.endEpoch id ∧
      t.world.graphs = { s.world.graphs with
        endEpoch := update s.world.graphs.endEpoch id
          (s.world.graphs.endEpoch id + epochs) } ∧
      ∀ ka, (t.assets ka).contextGraph = (s.assets ka).contextGraph := by
  simp only [Lifecycle.State.extendKnowledgeAssetLifetime, bind_eq_ok, require_eq_ok,
    Checked.add_eq_ok, Prod.exists] at h
  obtain ⟨_, hlive, _, hepochs, _, ⟨_, rfl⟩, _, ⟨_, rfl⟩, _, _, s₁, netEscrow, walletCost, hconsume,
    s₂, hescrow, s₃, hwallet, h⟩ := h
  have hle : s.world.graphs.endEpoch id + 1 ≤ s.world.graphs.endEpoch id + epochs := by omega
  obtain ⟨_, hmoves, -⟩ : ∃ fees, Lifecycle.Moves env 0 0 _ s₁ [] fees netEscrow ∧
    netEscrow + fees + walletCost = tokenAmount := Lifecycle.consumeEscrowNet_ok hconsume
  obtain ⟨_, hbook, -⟩ := Lifecycle.bookEscrow_ok hle hescrow
  obtain ⟨_, _, hbook', -⟩ := Lifecycle.bookWallet_ok hle hwallet
  have hworld := (hbook'.world.trans hbook.world).trans hmoves.world
  have hassets := (hbook'.assets.trans hbook.assets).trans hmoves.assets
  have hlast : t.world.graphs = s₃.world.graphs ∧ t.assets = s₃.assets := by
    split at h
    · simp only [bind_eq_ok, pure_eq_ok] at h
      obtain ⟨_, _, world, hwrite, rfl⟩ := h
      exact ⟨Lifecycle.writeValue_graphs hwrite, rfl⟩
    · rw [pure_eq_ok] at h
      subst h
      exact ⟨rfl, rfl⟩
  refine ⟨not_lt.mp hlive, ?_, ?_⟩
  · rw [hlast.1, hworld]
  · intro ka
    rw [hlast.2, hassets]
    dsimp only
    by_cases hka : ka = id
    · subst hka
      rw [update_self]
    · rw [update_of_ne hka]

/-- The assets that accepted calls registered to a graph, in order. -/
def registered (contextGraphId : ℕ) (calls : List (Call c vault)) : List ℕ :=
  calls.filterMap fun call =>
    match call.op with
    | .registerKnowledgeAssetToContextGraph cg kaId _ => if cg = contextGraphId then some kaId else none
    | _ => none

/-- What a call can do to the lists. -/
theorem step_cases (h : step r call = .ok r') :
    (∃ cg ka endEpoch, call.op = .registerKnowledgeAssetToContextGraph cg ka endEpoch ∧
      r.kaToContextGraph ka = 0 ∧ r'.kaToContextGraph = update r.kaToContextGraph ka cg ∧
      r'.contextGraphKAList = update r.contextGraphKAList cg (r.contextGraphKAList cg ++ [ka]) ∧
      r'.graphs.samplingKAList =
        update r.graphs.samplingKAList cg (r.graphs.samplingKAList cg ++ [ka]) ∧
      r'.graphs.endEpoch = update r.graphs.endEpoch ka endEpoch) ∨
    (∃ id epochs tokenAmount, call.op = .extendKnowledgeAssetLifetime id epochs tokenAmount ∧
      call.currentEpoch ≤ r.graphs.endEpoch id ∧ r'.kaToContextGraph = r.kaToContextGraph ∧
      r'.contextGraphKAList = r.contextGraphKAList ∧
      r'.graphs.samplingKAList = r.graphs.samplingKAList ∧
      r'.graphs.endEpoch = update r.graphs.endEpoch id (r.graphs.endEpoch id + epochs)) ∨
    (∃ cg startIndex maxScan, call.op = .pruneExpiredKnowledgeAssets cg startIndex maxScan ∧
      r'.kaToContextGraph = r.kaToContextGraph ∧ r'.contextGraphKAList = r.contextGraphKAList ∧
      r'.graphs.endEpoch = r.graphs.endEpoch ∧ ∃ list gone,
      r'.graphs.samplingKAList = update r.graphs.samplingKAList cg list ∧
      (r.graphs.samplingKAList cg).Perm (list ++ gone) ∧
      ∀ ka ∈ gone, r.graphs.endEpoch ka < call.currentEpoch) := by
  obtain ⟨env, op⟩ := call
  cases op with
  | registerKnowledgeAssetToContextGraph cg ka endEpoch =>
    simp only [step, Registry.registerKnowledgeAssetToContextGraph, bind_eq_ok, require_eq_ok,
      pure_eq_ok] at h
    obtain ⟨_, -, _, -, _, hnew, rfl⟩ := h
    refine .inl ⟨cg, ka, endEpoch, rfl, hnew, ?_, rfl, rfl, rfl⟩
    funext x
    by_cases hx : x = ka
    · subst hx
      simp [Registry.kaToContextGraph, Registry.withGraphs]
    · simp [Registry.kaToContextGraph, Registry.withGraphs, hx]
  | extendKnowledgeAssetLifetime id epochs tokenAmount =>
    simp only [step, Registry.extendKnowledgeAssetLifetime, bind_eq_ok, mapError_eq_ok,
      pure_eq_ok] at h
    obtain ⟨lifecycle, hextend, rfl⟩ := h
    obtain ⟨hlive, hgraphs, hbound⟩ := extension_ok hextend
    refine .inr (.inl ⟨id, epochs, tokenAmount, rfl, hlive, funext hbound, rfl, ?_, ?_⟩)
    · change lifecycle.world.graphs.samplingKAList = _
      rw [hgraphs]
      rfl
    · change lifecycle.world.graphs.endEpoch = _
      rw [hgraphs]
      rfl
  | pruneExpiredKnowledgeAssets cg startIndex maxScan =>
    cases h
    obtain ⟨gone, hperm, -, hgone⟩ := pruneLoop_removed r.graphs.endEpoch env.currentEpoch maxScan
      startIndex (r.graphs.samplingKAList cg) 0
    exact .inr (.inr ⟨cg, startIndex, maxScan, rfl, rfl, rfl, rfl, _, gone, rfl, hperm, hgone⟩)

end Steps

/-- The lists of the graph `cg` at the epoch `n`: the assets bound to it, and of these at least the
live ones. -/
structure Listed (bound : ℕ → ℕ) (endEpoch : ℕ → ℕ) (cg n : ℕ) (list sampling : List ℕ) : Prop where
  mem_list : ∀ ka, bound ka = cg ↔ ka ∈ list
  list_nodup : list.Nodup
  sampling_nodup : sampling.Nodup
  sampled : ∀ ka ∈ sampling, bound ka = cg
  live : ∀ ka, bound ka = cg → n ≤ endEpoch ka → ka ∈ sampling

section Lists
variable {bound endEpoch : ℕ → ℕ} {cg n ka : ℕ} {list sampling : List ℕ}

theorem Listed.mono {m : ℕ} (h : Listed bound endEpoch cg n list sampling) (hle : n ≤ m) :
    Listed bound endEpoch cg m list sampling :=
  { h with live := fun ka hka hend => h.live ka hka (hle.trans hend) }

/-- A new asset of the graph. -/
theorem Listed.register (h : Listed bound endEpoch cg n list sampling) (hnew : bound ka ≠ cg)
    (e : ℕ) : Listed (update bound ka cg) (update endEpoch ka e) cg n
      (list ++ [ka]) (sampling ++ [ka]) := by
  have hlist : ka ∉ list := fun hka => hnew ((h.mem_list ka).mpr hka)
  have hsampling : ka ∉ sampling := fun hka => hnew (h.sampled ka hka)
  refine ⟨?_, ?_, ?_, ?_, ?_⟩
  · intro x
    rw [mem_append, mem_singleton]
    by_cases hx : x = ka
    · subst hx
      simp
    · rw [update_of_ne hx, h.mem_list, or_iff_left hx]
  · exact h.list_nodup.append (nodup_singleton ka) (disjoint_singleton.mpr hlist)
  · exact h.sampling_nodup.append (nodup_singleton ka) (disjoint_singleton.mpr hsampling)
  · intro x hx
    rcases mem_append.mp hx with hx | hx
    · have hne : x ≠ ka := fun heq => hsampling (heq ▸ hx)
      rw [update_of_ne hne]
      exact h.sampled x hx
    · cases mem_singleton.mp hx
      exact update_self ..
  · intro x hbound hle
    rw [mem_append, mem_singleton]
    by_cases hx : x = ka
    · exact .inr hx
    · rw [update_of_ne hx] at hbound hle
      exact .inl (h.live x hbound hle)

/-- A new asset of another graph. -/
theorem Listed.registerOther {cg' : ℕ} (h : Listed bound endEpoch cg n list sampling)
    (hnew : bound ka ≠ cg) (hne : cg' ≠ cg) (e : ℕ) :
    Listed (update bound ka cg') (update endEpoch ka e) cg n list sampling := by
  have hbound : ∀ x, update bound ka cg' x = cg ↔ bound x = cg := by
    intro x
    by_cases hx : x = ka
    · subst hx
      rw [update_self]
      exact iff_of_false hne hnew
    · rw [update_of_ne hx]
  refine ⟨?_, h.list_nodup, h.sampling_nodup, ?_, ?_⟩
  · intro x
    rw [hbound, h.mem_list]
  · intro x hx
    rw [hbound]
    exact h.sampled x hx
  · intro x hx hle
    rw [hbound] at hx
    have hne : x ≠ ka := fun heq => hnew (heq ▸ hx)
    rw [update_of_ne hne] at hle
    exact h.live x hx hle

/-- Only a live asset gets a later end. -/
theorem Listed.extend {epochs : ℕ} (h : Listed bound endEpoch cg n list sampling)
    (hlive : n ≤ endEpoch ka) :
    Listed bound (update endEpoch ka (endEpoch ka + epochs)) cg n list sampling := by
  refine { h with live := ?_ }
  intro x hx hle
  apply h.live x hx
  by_cases hxk : x = ka
  · rw [hxk]
    exact hlive
  · rwa [update_of_ne hxk] at hle

/-- Expired assets go. -/
theorem Listed.prune {kept gone : List ℕ} (h : Listed bound endEpoch cg n list sampling)
    (hperm : sampling.Perm (kept ++ gone)) (hgone : ∀ ka ∈ gone, endEpoch ka < n) :
    Listed bound endEpoch cg n list kept := by
  refine ⟨h.mem_list, h.list_nodup, ?_, ?_, ?_⟩
  · exact (nodup_append.mp (hperm.nodup_iff.mp h.sampling_nodup)).1
  · intro ka hka
    exact h.sampled ka (hperm.mem_iff.mpr (mem_append_left _ hka))
  · intro ka hka hle
    rcases mem_append.mp (hperm.mem_iff.mp (h.live ka hka hle)) with hkept | hexpired
    · exact hkept
    · exact absurd (hgone ka hexpired) (not_lt.mpr hle)

end Lists

section Runs
variable {r r' : Registry} {call : Call c vault} {cg n : ℕ}

def Registry.Listed (r : Registry) (cg n : ℕ) : Prop :=
  Pruning.Listed r.kaToContextGraph r.graphs.endEpoch cg n (r.contextGraphKAList cg)
    (r.graphs.samplingKAList cg)

/-- A call keeps the lists of a graph, and appends what it registers. -/
theorem listed_step (hcg : cg ≠ 0) (h : r.Listed cg call.currentEpoch)
    (hstep : step r call = .ok r') :
    r'.Listed cg call.currentEpoch ∧
      r'.contextGraphKAList cg = r.contextGraphKAList cg ++ registered cg [call] := by
  unfold Registry.Listed at h ⊢
  obtain ⟨cg', ka, endEpoch, hop, hnew, hbound, hlist, hsampling, hend⟩ |
    ⟨id, epochs, _, hop, hlive, hbound, hlist, hsampling, hend⟩ |
    ⟨cg', _, _, hop, hbound, hlist, hend, list, gone, hsampling, hperm, hgone⟩ := step_cases hstep
  · have hfresh : r.kaToContextGraph ka ≠ cg := hnew ▸ hcg.symm
    rw [hbound, hlist, hsampling, hend]
    by_cases heq : cg' = cg
    · subst heq
      rw [update_self, update_self]
      exact ⟨h.register hfresh endEpoch, by simp [registered, hop]⟩
    · rw [update_of_ne (Ne.symm heq), update_of_ne (Ne.symm heq)]
      exact ⟨h.registerOther hfresh heq endEpoch, by simp [registered, hop, heq]⟩
  · rw [hbound, hlist, hsampling, hend]
    exact ⟨h.extend hlive, by simp [registered, hop]⟩
  · rw [hbound, hlist, hsampling, hend]
    refine ⟨?_, by simp [registered, hop]⟩
    by_cases heq : cg' = cg
    · subst heq
      rw [update_self]
      exact h.prune hperm hgone
    · rw [update_of_ne (Ne.symm heq)]
      exact h

/-- No asset is bound and no list has an entry. -/
structure Registry.Fresh (r : Registry) : Prop where
  unbound : ∀ ka, r.kaToContextGraph ka = 0
  list : ∀ cg, r.contextGraphKAList cg = []
  sampling : ∀ cg, r.graphs.samplingKAList cg = []

theorem Registry.Fresh.listed (h : r.Fresh) (hcg : cg ≠ 0) (n : ℕ) : r.Listed cg n := by
  unfold Registry.Listed
  rw [h.list, h.sampling]
  refine ⟨?_, nodup_nil, nodup_nil, nofun, ?_⟩
  · intro ka
    rw [h.unbound]
    exact iff_of_false hcg.symm not_mem_nil
  · intro ka hka
    rw [h.unbound] at hka
    exact absurd hka.symm hcg

/-- A run keeps the lists of a graph at the epoch of its last call. -/
theorem run_listed (h : r.Fresh) (hcg : cg ≠ 0) (calls : List (Call c vault))
    (hsorted : calls.Pairwise fun a b => a.currentEpoch ≤ b.currentEpoch) :
    (run step r calls).Listed cg (now Call.currentEpoch 0 calls) ∧
      (run step r calls).contextGraphKAList cg = registered cg (accepted step r calls) := by
  have hstart : r.Listed cg 0 ∧ r.contextGraphKAList cg = registered cg ([] : List (Call c vault)) :=
    ⟨h.listed hcg 0, h.list cg⟩
  refine run_invariant_accepted
    (fun n past (r : Registry) => r.Listed cg n ∧ r.contextGraphKAList cg = registered cg past)
    ?_ ?_
    hstart (fun _ _ => Nat.zero_le _) hsorted
  · rintro n m past r hle ⟨hlisted, hlist⟩
    exact ⟨hlisted.mono hle, hlist⟩
  · rintro call _ past r r' ⟨hlisted, hlist⟩ hstep
    obtain ⟨hlisted', hlist'⟩ := listed_step hcg hlisted hstep
    refine ⟨hlisted', ?_⟩
    rw [hlist', hlist, registered, registered, registered, ← filterMap_append]

/-- What a prune returns and leaves. -/
theorem prune_spec (r : Registry) (epoch cg startIndex maxScan : ℕ) :
    (∃ gone, (r.graphs.samplingKAList cg).Perm
        ((r.pruneExpiredKnowledgeAssets epoch cg startIndex maxScan).1.graphs.samplingKAList cg ++
          gone) ∧
      (r.pruneExpiredKnowledgeAssets epoch cg startIndex maxScan).2 = gone.length ∧
      ∀ ka ∈ gone, r.graphs.endEpoch ka < epoch) ∧
    (∀ cg' ≠ cg, (r.pruneExpiredKnowledgeAssets epoch cg startIndex maxScan).1.graphs.samplingKAList
      cg' = r.graphs.samplingKAList cg') ∧
    (startIndex = 0 → (r.graphs.samplingKAList cg).length ≤ maxScan →
      ∀ ka ∈ (r.pruneExpiredKnowledgeAssets epoch cg startIndex maxScan).1.graphs.samplingKAList cg,
        epoch ≤ r.graphs.endEpoch ka) := by
  have hlist : (r.pruneExpiredKnowledgeAssets epoch cg startIndex maxScan).1.graphs.samplingKAList =
      update r.graphs.samplingKAList cg (pruneLoop r.graphs.endEpoch epoch maxScan
        startIndex (r.graphs.samplingKAList cg) 0).1 := rfl
  rw [hlist, update_self]
  refine ⟨?_, ?_, ?_⟩
  · obtain ⟨gone, hperm, hcount, hgone⟩ := pruneLoop_removed r.graphs.endEpoch epoch maxScan
      startIndex (r.graphs.samplingKAList cg) 0
    rw [zero_add] at hcount
    exact ⟨gone, hperm, hcount, hgone⟩
  · intro cg' hne
    exact update_of_ne hne ..
  · rintro rfl hlength
    exact pruneLoop_clean (fun j _ hj => absurd hj (Nat.not_lt_zero j)) (by omega)

/-- No live asset is lost from the sampling lists, whatever is pruned. -/
theorem pruning_keeps_live (r : Registry) (h : r.Fresh) (calls : List (Call c vault))
    (hsorted : calls.Pairwise fun a b => a.currentEpoch ≤ b.currentEpoch) (epoch : ℕ)
    (hepoch : ∀ call ∈ calls, call.currentEpoch ≤ epoch) (cg : ℕ) (hcg : cg ≠ 0) :
    ((run step r calls).graphs.samplingKAList cg).Nodup ∧
    (∀ ka ∈ (run step r calls).graphs.samplingKAList cg,
      (run step r calls).kaToContextGraph ka = cg) ∧
    (∀ ka, (run step r calls).kaToContextGraph ka = cg →
      epoch ≤ (run step r calls).graphs.endEpoch ka →
        ka ∈ (run step r calls).graphs.samplingKAList cg) ∧
    ((run step r calls).contextGraphKAList cg = registered cg (accepted step r calls) ∧
      ((run step r calls).contextGraphKAList cg).Nodup ∧
      ∀ ka, (run step r calls).kaToContextGraph ka = cg ↔
        ka ∈ (run step r calls).contextGraphKAList cg) ∧
    ∀ startIndex maxScan, (∃ gone, ((run step r calls).graphs.samplingKAList cg).Perm
          (((run step r calls).pruneExpiredKnowledgeAssets epoch cg startIndex
            maxScan).1.graphs.samplingKAList cg ++ gone) ∧
        ((run step r calls).pruneExpiredKnowledgeAssets epoch cg startIndex maxScan).2 =
          gone.length ∧
        ∀ ka ∈ gone, (run step r calls).graphs.endEpoch ka < epoch) ∧
      (∀ cg' ≠ cg, ((run step r calls).pruneExpiredKnowledgeAssets epoch cg startIndex
        maxScan).1.graphs.samplingKAList cg' = (run step r calls).graphs.samplingKAList cg') ∧
      (startIndex = 0 → ((run step r calls).graphs.samplingKAList cg).length ≤ maxScan →
        ∀ ka ∈ ((run step r calls).pruneExpiredKnowledgeAssets epoch cg startIndex
          maxScan).1.graphs.samplingKAList cg,
          epoch ≤ (run step r calls).graphs.endEpoch ka) := by
  obtain ⟨hlisted, hlist⟩ := run_listed h hcg calls hsorted
  have hnow := hlisted.mono (now_le_of_forall (Nat.zero_le epoch) hepoch)
  exact ⟨hnow.sampling_nodup, hnow.sampled, hnow.live, ⟨hlist, hnow.list_nodup, hnow.mem_list⟩,
    prune_spec (run step r calls) epoch cg⟩

open Lifecycle (envAt oneGraph)
open Publishing (tenSeconds)

/-- Three assets that end in different epochs; the first is pruned, the second extended. -/
def pruneCalls : List (Call tenSeconds 8) :=
  [⟨envAt 9 5, .registerKnowledgeAssetToContextGraph 1 7 1⟩,
    ⟨envAt 9 5, .registerKnowledgeAssetToContextGraph 1 8 2⟩,
    ⟨envAt 9 5, .registerKnowledgeAssetToContextGraph 1 9 5⟩,
    ⟨envAt 9 15, .pruneExpiredKnowledgeAssets 1 0 1⟩,
    ⟨envAt 9 15, .extendKnowledgeAssetLifetime 8 2 50⟩]

/-- The last asset took the place of the first, and both live ones are sampled. -/
theorem pruning_keeps_live_extended :
    (run step ⟨oneGraph, fun _ => []⟩ pruneCalls).graphs.samplingKAList 1 = [9, 8] ∧
      8 ∈ (run step ⟨oneGraph, fun _ => []⟩ pruneCalls).graphs.samplingKAList 1 ∧
      ∀ ka ∈ ((run step ⟨oneGraph, fun _ => []⟩ pruneCalls).pruneExpiredKnowledgeAssets 5 1 0
        2).1.graphs.samplingKAList 1,
        5 ≤ (run step ⟨oneGraph, fun _ => []⟩ pruneCalls).graphs.endEpoch ka := by
  have hfresh : (⟨oneGraph, fun _ => []⟩ : Registry).Fresh :=
    ⟨fun _ => rfl, fun _ => rfl, fun _ => rfl⟩
  have hsorted : pruneCalls.Pairwise fun a b => a.currentEpoch ≤ b.currentEpoch := by
    decide +kernel
  have hlive := pruning_keeps_live _ hfresh pruneCalls hsorted 4 (by decide +kernel) 1 one_ne_zero
  have hclean := pruning_keeps_live _ hfresh pruneCalls hsorted 5 (by decide +kernel) 1 one_ne_zero
  refine ⟨by decide +kernel, hlive.2.2.1 8 (by decide +kernel) (by decide +kernel), ?_⟩
  exact (hclean.2.2.2.2 0 2).2.2 rfl (by decide +kernel)

end Runs

end Dkg.Pruning
