import Dkg.Sync.Manifest
import Dkg.Lib.JsMap
import Dkg.Lib.SwapPop

/-!
The resumable part of a durable download: rows are counted as pages arrive, and the leading graphs
whose rows are complete can be kept. What is kept depends on the rows alone, not on the pages.
-/

namespace Dkg.DurableManifest
open Utf16 Wire List

structure GraphRows where
  graph : Text
  rows : ℕ
deriving DecidableEq

/-- The loop of `manifestGraphsAfter` over the descriptors that are left. -/
def graphsAfter (offset : ℤ) : List GraphScopedDescriptor → ℕ → List GraphRows
  | [], _ => []
  | d :: ds, boundary =>
    if d.publicTripleCount = 0 then graphsAfter offset ds boundary
    else if (boundary + d.publicTripleCount : ℤ) > offset then
      ⟨d.assertionGraph, d.publicTripleCount⟩ ::
        graphsAfter offset ds (boundary + d.publicTripleCount)
    else graphsAfter offset ds (boundary + d.publicTripleCount)

/-- Positive-width graphs after a verified manifest boundary. -/
def manifestGraphsAfter (manifest : GraphScopedDurableManifestPlan) (offset : ℤ) :
    List GraphRows :=
  graphsAfter offset manifest.descriptors 0

structure Quad where
  subject : Text
  predicate : Text
  object : Text
  graph : Text
deriving DecidableEq

/-- What `createGraphScopedDurablePrefix` closes over. -/
structure DurablePrefix where
  graphs : List GraphRows
  indexByGraph : List (Text × ℕ)
  counts : List ℕ
  /-- The rows of the whole manifest. -/
  boundary : ℕ
  valid : Bool
  completeCount : ℕ
  completeOffset : ℤ

structure RetainedPrefix where
  completedGraphCount : ℕ
  safeNextOffset : ℤ
  allGraphsComplete : Bool
deriving DecidableEq

/-- One turn of the loop that sums the rows and looks for the offset on a boundary. -/
def meetBoundary (resumedFromOffset : ℤ) (s : ℕ × Bool) (d : GraphScopedDescriptor) : ℕ × Bool :=
  (s.1 + d.publicTripleCount, s.2 || decide (s.1 + d.publicTripleCount = resumedFromOffset))

def sumBoundaries (resumedFromOffset : ℤ) (descriptors : List GraphScopedDescriptor) : ℕ × Bool :=
  descriptors.foldl (meetBoundary resumedFromOffset) (0, decide (resumedFromOffset = 0))

def createGraphScopedDurablePrefix (manifest : GraphScopedDurableManifestPlan)
    (resumedFromOffset : ℤ) : DurablePrefix :=
  let graphs := manifestGraphsAfter manifest resumedFromOffset
  let summed := sumBoundaries resumedFromOffset manifest.descriptors
  { graphs := graphs
    indexByGraph := graphs.zipIdx.foldl (fun m e => JsMap.set m e.1.graph e.2) []
    counts := replicate graphs.length 0
    boundary := summed.1
    valid := summed.2 && isSafeInteger summed.1 && isSafeInteger resumedFromOffset &&
      decide (resumedFromOffset ≥ 0) && (decide (resumedFromOffset = 0) || decide (graphs.length > 0))
    completeCount := 0
    completeOffset := resumedFromOffset }

/-- One row of a page. -/
def DurablePrefix.count (p : DurablePrefix) (quad : Quad) : DurablePrefix :=
  match JsMap.get? p.indexByGraph quad.graph with
  | none => { p with valid := false }
  | some index =>
    { p with
      counts := p.counts.modify index (· + 1)
      valid := p.valid && decide (¬index < p.completeCount) }

/-- The loop that moves the cursor over graphs that are complete. -/
def advance (graphs : List GraphRows) (counts : List ℕ) (completeCount : ℕ) (completeOffset : ℤ) :
    ℕ × ℤ :=
  if h : completeCount < graphs.length then
    if counts[completeCount]? = some graphs[completeCount].rows then
      advance graphs counts (completeCount + 1) (completeOffset + graphs[completeCount].rows)
    else (completeCount, completeOffset)
  else (completeCount, completeOffset)
termination_by graphs.length - completeCount

/-- The cursor's graph has more rows than the manifest says. -/
def overfull (graphs : List GraphRows) (counts : List ℕ) (completeCount : ℕ) : Bool :=
  match graphs[completeCount]?, counts[completeCount]? with
  | some g, some n => decide (n > g.rows)
  | _, _ => false

def DurablePrefix.observe (p : DurablePrefix) (quads : List Quad) : DurablePrefix :=
  let p := quads.foldl DurablePrefix.count p
  let cursor := advance p.graphs p.counts p.completeCount p.completeOffset
  { p with
    completeCount := cursor.1
    completeOffset := cursor.2
    valid := p.valid && !overfull p.graphs p.counts cursor.1 }

def DurablePrefix.retained (p : DurablePrefix) (rawNextOffset : ℤ) (phaseCompleted : Bool) :
    Option RetainedPrefix :=
  if ¬p.valid ∨ p.completeOffset > rawNextOffset then none
  else
    let allGraphsComplete := decide (p.completeCount = p.graphs.length)
    -- an interrupted round replays its final graph
    if phaseCompleted = false ∧ p.completeCount > 0 ∧
        (p.completeOffset = rawNextOffset ∨ p.completeOffset = p.boundary) then
      let rows := (p.graphs.map GraphRows.rows).getD (p.completeCount - 1) 0
      some ⟨p.completeCount - 1, p.completeOffset - rows, allGraphsComplete⟩
    else some ⟨p.completeCount, p.completeOffset, allGraphsComplete⟩

structure BoundedGraphScopedDurableBatch where
  dataQuads : List Quad
  changedDataGraphs : List Text
  safeNextOffset : ℤ
  safeRawNextOffset : ℤ
  completedGraphCount : ℕ
  manifestRowCount : ℕ
deriving DecidableEq

/-- The raw offsets of the rows, given or counted. -/
def effectiveRawOffsets (dataQuads : List Quad) (rawNextOffset rawResumedFromOffset : ℤ)
    (quadRawOffsets : Option (List ℤ)) : Option (List ℤ) :=
  match quadRawOffsets with
  | some offsets => some offsets
  | none =>
    if rawNextOffset - rawResumedFromOffset = dataQuads.length then
      some ((range dataQuads.length).map fun index => rawResumedFromOffset + index)
    else none

/-- One offset for each row, increasing and inside the raw window. -/
def rawOffsetsOk (dataQuads : List Quad) (rawNextOffset rawResumedFromOffset : ℤ)
    (offsets : List ℤ) : Bool :=
  decide (offsets.length = dataQuads.length) &&
    (offsets.all fun o => isSafeInteger o && decide (rawResumedFromOffset ≤ o) &&
      decide (o < rawNextOffset)) &&
    decide (offsets.IsChain (· < ·))

/-- Graphs without rows stay in scope in every round, then the graphs that are complete. -/
def completeGraphsOf (manifest : GraphScopedDurableManifestPlan) (graphs : List GraphRows)
    (completedGraphCount : ℕ) : List Text :=
  JsSet.ofList (((manifest.descriptors.filter fun d => d.publicTripleCount = 0).map
    (·.assertionGraph)) ++ (graphs.take completedGraphCount).map (·.graph))

def planBoundedGraphScopedDurableBatch (dataQuads : List Quad)
    (manifest : GraphScopedDurableManifestPlan) (resumedFromOffset rawNextOffset : ℤ)
    (phaseCompleted : Bool) (rawResumedFromOffset : ℤ) (quadRawOffsets : Option (List ℤ)) :
    Option BoundedGraphScopedDurableBatch :=
  if ¬isSafeInteger resumedFromOffset ∨ resumedFromOffset < 0 ∨ ¬isSafeInteger rawNextOffset ∨
      ¬isSafeInteger rawResumedFromOffset ∨ rawResumedFromOffset < 0 ∨
      rawNextOffset < rawResumedFromOffset then none
  else
    match effectiveRawOffsets dataQuads rawNextOffset rawResumedFromOffset quadRawOffsets with
    | none => none
    | some offsets =>
      if ¬rawOffsetsOk dataQuads rawNextOffset rawResumedFromOffset offsets then none
      else
        let p := (createGraphScopedDurablePrefix manifest resumedFromOffset).observe dataQuads
        match p.retained rawNextOffset phaseCompleted with
        | none => none
        | some retained =>
          let completeGraphs := completeGraphsOf manifest p.graphs retained.completedGraphCount
          let boundedData := dataQuads.filter fun quad => quad.graph ∈ completeGraphs
          if (boundedData.length : ℤ) ≠ retained.safeNextOffset - resumedFromOffset then none
          else
            let boundedRawOffsets := ((dataQuads.zip offsets).filter fun e =>
              e.1.graph ∈ completeGraphs).map (·.2)
            let lastRawOffset := match boundedRawOffsets.getLast? with
              | some last => last + 1
              | none => rawResumedFromOffset
            let safeRawNextOffset := if phaseCompleted ∧ retained.safeNextOffset = p.boundary then
                rawNextOffset
              else lastRawOffset
            if safeRawNextOffset > rawNextOffset then none
            else some ⟨boundedData, completeGraphs, retained.safeNextOffset, safeRawNextOffset,
              retained.completedGraphCount, p.boundary⟩

section Graphs
variable {ds : List GraphScopedDescriptor} {offset : ℤ} {b m : ℕ}

/-- The graphs with rows, in order. -/
def graphsWithRows (ds : List GraphScopedDescriptor) : List GraphRows :=
  (ds.filter fun d => 0 < d.publicTripleCount).map fun d => ⟨d.assertionGraph, d.publicTripleCount⟩

theorem graphsWithRows_cons (d : GraphScopedDescriptor) (ds : List GraphScopedDescriptor) :
    graphsWithRows (d :: ds) = if d.publicTripleCount = 0 then graphsWithRows ds
      else ⟨d.assertionGraph, d.publicTripleCount⟩ :: graphsWithRows ds := by
  unfold graphsWithRows
  by_cases h : d.publicTripleCount = 0
  · rw [if_pos h, filter_cons_of_neg (by simp [h])]
  · rw [if_neg h, filter_cons_of_pos (by simpa using Nat.pos_of_ne_zero h), map_cons]

/-- From the offset on every graph with rows is taken. -/
theorem graphsAfter_of_le (h : offset ≤ b) : graphsAfter offset ds b = graphsWithRows ds := by
  induction ds generalizing b with
  | nil => rfl
  | cons d ds ih =>
    rw [graphsAfter, graphsWithRows_cons]
    by_cases hzero : d.publicTripleCount = 0
    · rw [if_pos hzero, if_pos hzero, ih h]
    · rw [if_neg hzero, if_neg hzero, if_pos (by omega), ih (by push_cast; omega)]

/-- The graphs after a boundary are those of the descriptors behind it. -/
theorem graphsAfter_boundary (h : (b + rowsOf (ds.take m) : ℤ) = offset) :
    graphsAfter offset ds b = graphsWithRows (ds.drop m) := by
  induction m generalizing ds b with
  | zero => exact graphsAfter_of_le (by rw [← h, take_zero]; simp [rowsOf])
  | succ m ih =>
    cases ds with
    | nil => rfl
    | cons d ds =>
      rw [take_succ_cons, rowsOf_cons] at h
      rw [graphsAfter, drop_succ_cons]
      split
      · next hzero => exact ih (by rw [← h, hzero]; push_cast; ring)
      · have hnext : graphsAfter offset ds (b + d.publicTripleCount) =
            graphsWithRows (ds.drop m) := ih (by rw [← h]; push_cast; ring)
        split_ifs with hgt
        · have hrows : rowsOf (ds.take m) < 0 := by
            push_cast at h
            omega
          exact absurd hrows (Nat.not_lt_zero _)
        · exact hnext

theorem graphsAfter_sublist (ds : List GraphScopedDescriptor) (b : ℕ) :
    ((graphsAfter offset ds b).map GraphRows.graph).Sublist (ds.map (·.assertionGraph)) := by
  induction ds generalizing b with
  | nil => exact List.Sublist.refl _
  | cons d ds ih =>
    rw [graphsAfter, map_cons]
    split
    · exact (ih _).cons _
    · split
      · exact (ih _).cons_cons _
      · exact (ih _).cons _

theorem rows_pos {g : GraphRows} (h : g ∈ graphsAfter offset ds b) : 0 < g.rows := by
  induction ds generalizing b with
  | nil => cases h
  | cons d ds ih =>
    rw [graphsAfter] at h
    split at h
    · exact ih h
    · next hpos =>
      split at h
      · rcases mem_cons.mp h with rfl | h
        · exact Nat.pos_of_ne_zero hpos
        · exact ih h
      · exact ih h

def rowsTotal (graphs : List GraphRows) : ℤ := (graphs.map fun g => (g.rows : ℤ)).sum

/-- Some graphs with rows end on a boundary. -/
theorem exists_boundary (ds : List GraphScopedDescriptor) (k : ℕ) :
    ∃ n, (rowsOf (ds.take n) : ℤ) = rowsTotal ((graphsWithRows ds).take k) := by
  induction ds generalizing k with
  | nil => exact ⟨0, by simp [graphsWithRows, rowsOf, rowsTotal]⟩
  | cons d ds ih =>
    rw [graphsWithRows_cons]
    split_ifs with hzero
    · obtain ⟨n, hn⟩ := ih k
      exact ⟨n + 1, by rw [take_succ_cons, rowsOf_cons, hzero, zero_add, hn]⟩
    · cases k with
      | zero => exact ⟨0, rfl⟩
      | succ k =>
        obtain ⟨n, hn⟩ := ih k
        exact ⟨n + 1, by
          rw [take_succ_cons, rowsOf_cons, Nat.cast_add, hn, take_succ_cons]
          rfl⟩

theorem rowsOf_take_add (ds : List GraphScopedDescriptor) (m n : ℕ) :
    rowsOf (ds.take (m + n)) = rowsOf (ds.take m) + rowsOf ((ds.drop m).take n) := by
  rw [take_add, rowsOf, map_append, sum_append]
  rfl

theorem rowsOf_take_le (ds : List GraphScopedDescriptor) (m : ℕ) : rowsOf (ds.take m) ≤ rowsOf ds := by
  conv_rhs => rw [← take_append_drop m ds]
  rw [rowsOf, rowsOf, map_append, sum_append]
  exact Nat.le_add_right _ _

theorem foldl_meetBoundary (offset : ℤ) (ds : List GraphScopedDescriptor) (s : ℕ × Bool) :
    (ds.foldl (meetBoundary offset) s).1 = s.1 + rowsOf ds ∧
      ((ds.foldl (meetBoundary offset) s).2 = true →
        s.2 = true ∨ ∃ m, (s.1 + rowsOf (ds.take m) : ℤ) = offset) := by
  induction ds generalizing s with
  | nil => exact ⟨rfl, .inl⟩
  | cons d ds ih =>
    obtain ⟨hsum, hmet⟩ := ih (meetBoundary offset s d)
    rw [foldl_cons, rowsOf_cons]
    refine ⟨by rw [hsum, meetBoundary, add_assoc], fun h => ?_⟩
    rcases hmet h with hs | ⟨m, hm⟩
    · rcases Bool.or_eq_true_iff.mp hs with hs | hs
      · exact .inl hs
      · refine .inr ⟨1, ?_⟩
        rw [take_succ_cons, take_zero, rowsOf_cons]
        simpa [rowsOf] using of_decide_eq_true hs
    · refine .inr ⟨m + 1, ?_⟩
      rw [take_succ_cons, rowsOf_cons]
      rw [meetBoundary] at hm
      push_cast at hm ⊢
      omega

/-- The sum of the rows, and the boundary that is met. -/
theorem sumBoundaries_spec (offset : ℤ) (ds : List GraphScopedDescriptor) :
    (sumBoundaries offset ds).1 = rowsOf ds ∧
      ((sumBoundaries offset ds).2 = true → ∃ m, (rowsOf (ds.take m) : ℤ) = offset) := by
  obtain ⟨hsum, hmet⟩ := foldl_meetBoundary offset ds (0, decide (offset = 0))
  refine ⟨by rw [sumBoundaries, hsum, zero_add], fun h => ?_⟩
  rcases hmet h with hzero | ⟨m, hm⟩
  · exact ⟨0, (of_decide_eq_true hzero).symm⟩
  · exact ⟨m, by simpa using hm⟩

end Graphs

section Counting
variable {graphs : List GraphRows} {qs page : List Quad} {p₀ p : DurablePrefix} {q : Quad}
  {p' : DurablePrefix} {qs' : List Quad}

/-- How many rows of a graph were seen. -/
def seen (qs : List Quad) (graph : Text) : ℕ := qs.countP fun q => q.graph = graph

theorem seen_append (qs page : List Quad) (graph : Text) :
    seen (qs ++ page) graph = seen qs graph + seen page graph := countP_append

theorem seen_le_append (qs page : List Quad) (graph : Text) :
    seen qs graph ≤ seen (qs ++ page) graph := by
  rw [seen_append]
  exact Nat.le_add_right _ _

theorem seen_perm (h : qs.Perm qs') (graph : Text) : seen qs graph = seen qs' graph := h.countP_eq _

/-- The map from names to places, when the names are distinct. -/
def Indexed (p : DurablePrefix) : Prop :=
  ∀ graph i, JsMap.get? p.indexByGraph graph = some i ↔
    ∃ g, p.graphs[i]? = some g ∧ g.graph = graph

theorem indexed_foldl (h : (graphs.map GraphRows.graph).Nodup) (graph : Text) (i : ℕ) :
    JsMap.get? (graphs.zipIdx.foldl (fun m e => JsMap.set m e.1.graph e.2) []) graph = some i ↔
      ∃ g, graphs[i]? = some g ∧ g.graph = graph := by
  induction graphs using reverseRecOn generalizing i with
  | nil => simp
  | append_singleton graphs g ih =>
    rw [map_append, map_singleton] at h
    obtain ⟨hnodup, -, hfresh⟩ := nodup_append'.mp h
    have hnot : ∀ g' ∈ graphs, g'.graph ≠ g.graph := fun g' hg' heq =>
      disjoint_singleton.mp hfresh (heq ▸ mem_map_of_mem hg')
    have hzip : (graphs ++ [g]).zipIdx = graphs.zipIdx ++ [(g, graphs.length)] := by
      rw [zipIdx_append, zero_add]
      rfl
    simp only [hzip, foldl_append, foldl_cons, foldl_nil, JsMap.get?_set,
      SwapPop.getElem?_concat_eq_some]
    split
    · next heq =>
      subst heq
      rw [Option.some.injEq]
      constructor
      · rintro rfl
        exact ⟨g, .inr ⟨rfl, rfl⟩, rfl⟩
      · rintro ⟨g', hg' | ⟨hi, -⟩, heq⟩
        · exact absurd heq (hnot g' (mem_of_getElem? hg'))
        · exact hi.symm
    · next hne =>
      rw [ih hnodup]
      constructor
      · rintro ⟨g', hg', heq⟩
        exact ⟨g', .inl hg', heq⟩
      · rintro ⟨g', hg' | ⟨-, rfl⟩, heq⟩
        · exact ⟨g', hg', heq⟩
        · exact absurd heq.symm hne

/-- The counters say what was seen. -/
structure Counted (p : DurablePrefix) (qs : List Quad) : Prop where
  indexed : Indexed p
  counts : p.counts = p.graphs.map fun g => seen qs g.graph

theorem Counted.index (h : Counted p qs) {i : ℕ} {g : GraphRows} (hg : p.graphs[i]? = some g) :
    JsMap.get? p.indexByGraph g.graph = some i :=
  (h.indexed g.graph i).mpr ⟨g, hg, rfl⟩

/-- Counting a row moves counters only. -/
structure SameCursor (p p' : DurablePrefix) : Prop where
  graphs : p'.graphs = p.graphs
  index : p'.indexByGraph = p.indexByGraph
  boundary : p'.boundary = p.boundary
  completeCount : p'.completeCount = p.completeCount
  completeOffset : p'.completeOffset = p.completeOffset

/-- A row of a graph that the cursor has not passed. -/
def Awaited (p : DurablePrefix) (q : Quad) : Prop :=
  ∃ i g, p.completeCount ≤ i ∧ p.graphs[i]? = some g ∧ g.graph = q.graph

theorem count_sameCursor (p : DurablePrefix) (q : Quad) : SameCursor p (p.count q) := by
  unfold DurablePrefix.count
  split <;> exact ⟨rfl, rfl, rfl, rfl, rfl⟩

theorem SameCursor.awaited (h : SameCursor p p') : Awaited p' q ↔ Awaited p q := by
  unfold Awaited
  rw [h.graphs, h.completeCount]

theorem SameCursor.indexed (h : SameCursor p p') (hi : Indexed p) : Indexed p' := by
  intro graph i
  rw [h.index, h.graphs]
  exact hi graph i

theorem count_counted (h : Counted p qs) (q : Quad) : Counted (p.count q) (qs ++ [q]) := by
  refine ⟨(count_sameCursor p q).indexed h.indexed, ?_⟩
  rw [(count_sameCursor p q).graphs]
  have hone : ∀ graph, seen (qs ++ [q]) graph =
      seen qs graph + if q.graph = graph then 1 else 0 := by
    intro graph
    rw [seen_append]
    simp [seen, countP_singleton]
  unfold DurablePrefix.count
  cases hget : JsMap.get? p.indexByGraph q.graph with
  | none =>
    have hother : ∀ g ∈ p.graphs, q.graph ≠ g.graph := by
      intro g hg heq
      obtain ⟨i, hi⟩ := mem_iff_getElem?.mp hg
      cases hget.symm.trans (heq ▸ h.index hi)
    change p.counts = _
    rw [h.counts]
    apply map_congr_left
    intro g hg
    rw [hone, if_neg (hother g hg), add_zero]
  | some index =>
    change p.counts.modify index (· + 1) = _
    rw [h.counts]
    apply ext_getElem?
    intro i
    rw [getElem?_modify, getElem?_map, getElem?_map]
    cases hg : p.graphs[i]? with
    | none => rfl
    | some g =>
      have hat : index = i ↔ q.graph = g.graph := by
        constructor
        · rintro rfl
          obtain ⟨g', hg', heq⟩ := (h.indexed _ _).mp hget
          cases hg.symm.trans hg'
          exact heq.symm
        · intro heq
          rw [heq, h.index hg] at hget
          exact (Option.some.inj hget).symm
      rw [Option.map_some, Option.map_some, Option.map_eq_map, Option.map_some, hone]
      by_cases hi : index = i
      · rw [if_pos hi, if_pos (hat.mp hi)]
      · rw [if_neg hi, if_neg (fun heq => hi (hat.mpr heq))]
        rfl

theorem count_valid (h : Counted p qs) (q : Quad) :
    (p.count q).valid = true ↔ p.valid = true ∧ Awaited p q := by
  unfold DurablePrefix.count Awaited
  cases hget : JsMap.get? p.indexByGraph q.graph with
  | none =>
    refine ⟨fun hv => (Bool.false_ne_true hv).elim, ?_⟩
    rintro ⟨-, i, g, -, hg, heq⟩
    cases hget.symm.trans (heq ▸ h.index hg)
  | some index =>
    obtain ⟨g, hg, heq⟩ := (h.indexed _ _).mp hget
    simp only [Bool.and_eq_true, decide_eq_true_eq, not_lt]
    refine and_congr_right fun _ => ⟨?_, ?_⟩
    · intro hle
      exact ⟨index, g, hle, hg, heq⟩
    · rintro ⟨i, g', hle, hg', heq'⟩
      cases hget.symm.trans (heq' ▸ h.index hg')
      exact hle

/-- What counting a page does. -/
theorem countPage (h : Counted p qs) (page : List Quad) :
    SameCursor p (page.foldl DurablePrefix.count p) ∧
      Counted (page.foldl DurablePrefix.count p) (qs ++ page) ∧
      ((page.foldl DurablePrefix.count p).valid = true ↔
        p.valid = true ∧ ∀ q ∈ page, Awaited p q) := by
  induction page generalizing p qs with
  | nil =>
    refine ⟨⟨rfl, rfl, rfl, rfl, rfl⟩, ?_, by simp⟩
    rw [append_nil]
    exact h
  | cons q page ih =>
    have hsame := count_sameCursor p q
    obtain ⟨hsame', hcounted, hvalid⟩ := ih (count_counted h q)
    refine ⟨⟨hsame'.graphs.trans hsame.graphs, hsame'.index.trans hsame.index,
      hsame'.boundary.trans hsame.boundary, hsame'.completeCount.trans hsame.completeCount,
      hsame'.completeOffset.trans hsame.completeOffset⟩, ?_, ?_⟩
    · rw [append_assoc] at hcounted
      exact hcounted
    · rw [foldl_cons, hvalid, count_valid h, forall_mem_cons, and_assoc]
      simp only [hsame.awaited]

end Counting

section Cursor
variable {graphs : List GraphRows} {qs page : List Quad} {p₀ p : DurablePrefix}
  {p' : DurablePrefix} {qs' : List Quad}

theorem rowsTotal_take_succ {i : ℕ} (h : i < graphs.length) :
    rowsTotal (graphs.take (i + 1)) = rowsTotal (graphs.take i) + graphs[i].rows := by
  unfold rowsTotal
  rw [take_add_one, getElem?_eq_getElem h, Option.toList_some, map_append,
    sum_append, map_singleton, sum_singleton]

/-- Where the cursor stops. -/
theorem advance_spec {n : Text → ℕ} (start : ℤ) {offset : ℤ} {complete : ℕ}
    (hle : complete ≤ graphs.length)
    (hoff : offset = start + rowsTotal (graphs.take complete)) {stop : ℕ × ℤ}
    (h : advance graphs (graphs.map fun g => n g.graph) complete offset = stop) :
    complete ≤ stop.1 ∧ stop.1 ≤ graphs.length ∧ stop.2 = start + rowsTotal (graphs.take stop.1) ∧
      (∀ i g, complete ≤ i → i < stop.1 → graphs[i]? = some g → n g.graph = g.rows) ∧
      ∀ g, graphs[stop.1]? = some g → n g.graph ≠ g.rows := by
  fun_induction advance graphs (graphs.map fun g => n g.graph) complete offset with
  | case1 complete offset hlt hfull ih =>
    have hrows : n (graphs[complete]).graph = (graphs[complete]).rows := by
      rw [getElem?_map, getElem?_eq_getElem hlt] at hfull
      exact Option.some.inj hfull
    obtain ⟨hge, hstop, hoffset, hexact, hnext⟩ := ih hlt (by
      rw [rowsTotal_take_succ hlt, hoff, add_assoc]) h
    refine ⟨Nat.le_of_succ_le hge, hstop, hoffset, ?_, hnext⟩
    intro i g hi his hg
    rcases Nat.eq_or_lt_of_le hi with rfl | hgt
    · rw [getElem?_eq_getElem hlt] at hg
      cases hg
      exact hrows
    · exact hexact i g hgt his hg
  | case2 complete offset hlt hnot =>
    subst h
    refine ⟨le_rfl, hle, hoff, fun i g hi his => absurd his (not_lt.mpr hi), ?_⟩
    intro g hg heq
    apply hnot
    rw [getElem?_map, hg, Option.map_some, heq]
    rw [getElem?_eq_getElem hlt] at hg
    cases hg
    rfl
  | case3 complete offset hge =>
    subst h
    refine ⟨le_rfl, hle, hoff, fun i g hi his => absurd his (not_lt.mpr hi), ?_⟩
    intro g hg
    exact absurd (List.getElem?_eq_some_iff.mp hg).1 hge

theorem overfull_map {n : Text → ℕ} {i : ℕ} :
    overfull graphs (graphs.map fun g => n g.graph) i = true ↔
      ∃ g, graphs[i]? = some g ∧ g.rows < n g.graph := by
  unfold overfull
  rw [getElem?_map]
  cases graphs[i]? <;> simp

/-- Rows of no graph, or too many of a graph whose predecessors are full. -/
def Overrun (graphs : List GraphRows) (qs : List Quad) : Prop :=
  (∃ q ∈ qs, ∀ g ∈ graphs, g.graph ≠ q.graph) ∨
    ∃ (j : ℕ) (g : GraphRows), graphs[j]? = some g ∧ g.rows < seen qs g.graph ∧
      ∀ (i : ℕ) (g' : GraphRows), i < j → graphs[i]? = some g' → g'.rows ≤ seen qs g'.graph

theorem Overrun.append (h : Overrun graphs qs) (page : List Quad) :
    Overrun graphs (qs ++ page) := by
  have hmono := seen_le_append qs page
  rcases h with ⟨q, hq, hnone⟩ | ⟨j, g, hg, hover, hfull⟩
  · exact .inl ⟨q, mem_append_left _ hq, hnone⟩
  · exact .inr ⟨j, g, hg, hover.trans_le (hmono _),
      fun i g' hi hg' => (hfull i g' hi hg').trans (hmono _)⟩

theorem Overrun.perm (h : Overrun graphs qs) (hperm : qs.Perm qs') : Overrun graphs qs' := by
  rcases h with ⟨q, hq, hnone⟩ | ⟨j, g, hg, hover, hfull⟩
  · exact .inl ⟨q, hperm.mem_iff.mp hq, hnone⟩
  · refine .inr ⟨j, g, hg, ?_, ?_⟩
    · rwa [← seen_perm hperm]
    · intro i g' hi hg'
      rw [← seen_perm hperm]
      exact hfull i g' hi hg'

/-- What the cursor says of the rows seen so far. -/
structure Follows (p₀ p : DurablePrefix) (qs : List Quad) : Prop where
  graphs : p.graphs = p₀.graphs
  boundary : p.boundary = p₀.boundary
  counted : Counted p qs
  le : p.completeCount ≤ p.graphs.length
  offset : p.completeOffset = p₀.completeOffset + rowsTotal (p.graphs.take p.completeCount)
  full : ∀ i g, i < p.completeCount → p.graphs[i]? = some g → g.rows ≤ seen qs g.graph
  valid : p.valid = true ↔ p₀.valid = true ∧ ¬Overrun p.graphs qs
  next : p.valid = true → ∀ g, p.graphs[p.completeCount]? = some g → seen qs g.graph < g.rows

/-- A row that is awaited is of no graph that the cursor has passed. -/
theorem seen_passed (h : Counted p qs) (haw : ∀ q ∈ page, Awaited p q) {i : ℕ} {g : GraphRows}
    (hi : i < p.completeCount) (hg : p.graphs[i]? = some g) : seen page g.graph = 0 := by
  apply countP_eq_zero.mpr
  intro q hq heq
  obtain ⟨j, g', hj, hg', heq'⟩ := haw q hq
  cases (h.index hg).symm.trans (heq'.trans (of_decide_eq_true heq) ▸ h.index hg')
  exact absurd hi (not_lt.mpr hj)

/-- What one page does. -/
structure Observed (p p' : DurablePrefix) (start : ℤ) (qs page : List Quad) : Prop where
  graphs : p'.graphs = p.graphs
  boundary : p'.boundary = p.boundary
  counted : Counted p' (qs ++ page)
  ge : p.completeCount ≤ p'.completeCount
  le : p'.completeCount ≤ p'.graphs.length
  offset : p'.completeOffset = start + rowsTotal (p'.graphs.take p'.completeCount)
  passed : ∀ i g, p.completeCount ≤ i → i < p'.completeCount → p'.graphs[i]? = some g →
    seen (qs ++ page) g.graph = g.rows
  stopped : ∀ g, p'.graphs[p'.completeCount]? = some g → seen (qs ++ page) g.graph ≠ g.rows
  valid : p'.valid = true ↔ p.valid = true ∧ (∀ q ∈ page, Awaited p q) ∧
    ∀ g, p'.graphs[p'.completeCount]? = some g → seen (qs ++ page) g.graph ≤ g.rows

theorem observe_spec (h : Counted p qs) {start : ℤ} (hle : p.completeCount ≤ p.graphs.length)
    (hoff : p.completeOffset = start + rowsTotal (p.graphs.take p.completeCount))
    (page : List Quad) : Observed p (p.observe page) start qs page := by
  obtain ⟨hsame, hcounted, hvalid⟩ := countPage h page
  unfold DurablePrefix.observe
  obtain ⟨p', hp'⟩ : ∃ p', page.foldl DurablePrefix.count p = p' := ⟨_, rfl⟩
  rw [hp'] at hsame hcounted hvalid ⊢
  obtain ⟨stop, hstop⟩ : ∃ stop,
      advance p'.graphs p'.counts p'.completeCount p'.completeOffset = stop := ⟨_, rfl⟩
  dsimp only
  rw [hstop]
  rw [hcounted.counts] at hstop
  obtain ⟨hge, hstops, hoffset, hexact, hnext⟩ := advance_spec start
    (by rwa [hsame.completeCount, hsame.graphs])
    (by rwa [hsame.completeCount, hsame.graphs, hsame.completeOffset]) hstop
  refine ⟨hsame.graphs, hsame.boundary, ⟨hcounted.indexed, hcounted.counts⟩,
    hsame.completeCount ▸ hge, hstops, hoffset, ?_, hnext, ?_⟩
  · intro i g hi hlt hg
    exact hexact i g (hsame.completeCount ▸ hi) hlt hg
  · rw [Bool.and_eq_true, Bool.not_eq_true', hvalid, and_assoc, hcounted.counts,
      ← Bool.not_eq_true, overfull_map]
    refine and_congr_right fun _ => and_congr_right fun _ => ?_
    simp only [not_exists, not_and, not_lt]

theorem Follows.full_observe (h : Follows p₀ p qs)
    (ho : Observed p p' p₀.completeOffset qs page) (i : ℕ) (g : GraphRows)
    (hi : i < p'.completeCount) (hg : p'.graphs[i]? = some g) :
    g.rows ≤ seen (qs ++ page) g.graph := by
  rcases lt_or_ge i p.completeCount with hlt | hge
  · exact (h.full i g hlt (ho.graphs ▸ hg)).trans (seen_le_append qs page _)
  · exact (ho.passed i g hge hi hg).ge

/-- While the state is valid nothing has overrun. -/
theorem Follows.sound (h : Follows p₀ p qs)
    (ho : Observed p p' p₀.completeOffset qs page) (hv : p'.valid = true) :
    ¬Overrun p'.graphs (qs ++ page) := by
  obtain ⟨hpv, haw, hnext⟩ := ho.valid.mp hv
  have hno := (h.valid.mp hpv).2
  rintro (⟨q, hq, hnone⟩ | ⟨j, g, hg, hlt, hbefore⟩)
  · rcases mem_append.mp hq with hq | hq
    · exact hno (.inl ⟨q, hq, ho.graphs ▸ hnone⟩)
    · obtain ⟨i, g, -, hg, heq⟩ := haw q hq
      exact hnone g (ho.graphs ▸ mem_of_getElem? hg) heq
  · rcases lt_trichotomy j p'.completeCount with hj | rfl | hj
    · rcases lt_or_ge j p.completeCount with hjp | hjp
      · -- the graph was passed before this page, which has no row of it
        rw [ho.graphs] at hg
        rw [seen_append, seen_passed h.counted haw hjp hg, add_zero] at hlt
        exact hno (.inr ⟨j, g, hg, hlt, fun i g' hi hg' => h.full i g' (hi.trans hjp) hg'⟩)
      · exact absurd (ho.passed j g hjp hj hg) hlt.ne'
    · exact absurd (hnext g hg) (not_le.mpr hlt)
    · have hin := hj.trans (List.getElem?_eq_some_iff.mp hg).1
      have hat := getElem?_eq_getElem hin
      exact ho.stopped _ hat (le_antisymm (hnext _ hat) (hbefore _ _ hj hat))

/-- Only an overrun makes the state invalid. -/
theorem Follows.complete (h : Follows p₀ p qs)
    (ho : Observed p p' p₀.completeOffset qs page) (hv : p₀.valid = true)
    (hno : ¬Overrun p'.graphs (qs ++ page)) : p'.valid = true := by
  rw [ho.valid, h.valid]
  refine ⟨⟨hv, fun hover => hno (ho.graphs ▸ hover.append page)⟩, ?_, ?_⟩
  · intro q hq
    by_contra hnot
    apply hno
    by_cases hknown : ∃ g ∈ p'.graphs, g.graph = q.graph
    · obtain ⟨g, hmem, heq⟩ := hknown
      obtain ⟨i, hg⟩ := mem_iff_getElem?.mp hmem
      have hlt : i < p.completeCount := by
        by_contra hge
        exact hnot ⟨i, g, not_lt.mp hge, ho.graphs ▸ hg, heq⟩
      have hone : 0 < seen page g.graph := countP_pos_iff.mpr ⟨q, hq, decide_eq_true heq.symm⟩
      have hrows := h.full i g hlt (ho.graphs ▸ hg)
      refine .inr ⟨i, g, hg, ?_, fun j g' hj hg' => h.full_observe ho j g'
        (hj.trans (hlt.trans_le ho.ge)) hg'⟩
      rw [seen_append]
      omega
    · exact .inl ⟨q, mem_append_right _ hq, fun g hg heq => hknown ⟨g, hg, heq⟩⟩
  · intro g hg
    by_contra hlt
    exact hno (.inr ⟨_, g, hg, not_le.mp hlt, fun i g' hi hg' => h.full_observe ho i g' hi hg'⟩)

/-- A page moves the cursor as far as the rows allow. -/
theorem Follows.observe (h : Follows p₀ p qs) (page : List Quad) :
    Follows p₀ (p.observe page) (qs ++ page) := by
  have ho := observe_spec h.counted h.le h.offset page
  refine ⟨ho.graphs.trans h.graphs, ho.boundary.trans h.boundary, ho.counted, ho.le, ho.offset,
    h.full_observe ho, ?_, ?_⟩
  · refine ⟨fun hv => ⟨(h.valid.mp (ho.valid.mp hv).1).1, h.sound ho hv⟩, ?_⟩
    rintro ⟨hv, hno⟩
    exact h.complete ho hv hno
  · intro hv g hg
    exact lt_of_le_of_ne ((ho.valid.mp hv).2.2 g hg) (ho.stopped g hg)

theorem Follows.pages (h : Follows p₀ p qs) (pages : List (List Quad)) :
    Follows p₀ (pages.foldl DurablePrefix.observe p) (qs ++ pages.flatten) := by
  induction pages generalizing p qs with
  | nil =>
    rw [flatten_nil, append_nil]
    exact h
  | cons page pages ih =>
    rw [flatten_cons, ← append_assoc]
    exact ih (h.observe page)

/-- A valid cursor is no nearer the start than another on the same rows. -/
theorem Follows.cursor_le (h : Follows p₀ p qs)
    (h' : Follows p₀ p' qs') (hperm : qs.Perm qs') (hv : p.valid = true) :
    p'.completeCount ≤ p.completeCount := by
  by_contra hlt
  obtain ⟨g, hg⟩ : ∃ g, p'.graphs[p.completeCount]? = some g :=
    ⟨_, getElem?_eq_getElem ((not_le.mp hlt).trans_le h'.le)⟩
  have hrows := h'.full _ g (not_le.mp hlt) hg
  rw [h'.graphs, ← h.graphs] at hg
  have hless := h.next hv g hg
  rw [seen_perm hperm] at hless
  exact absurd hrows (not_le.mpr hless)

theorem Follows.retained_perm (h : Follows p₀ p qs)
    (h' : Follows p₀ p' qs') (hperm : qs.Perm qs') (rawNextOffset : ℤ) (phaseCompleted : Bool) :
    p.retained rawNextOffset phaseCompleted = p'.retained rawNextOffset phaseCompleted := by
  have hgraphs : p.graphs = p'.graphs := h.graphs.trans h'.graphs.symm
  have hvalid : p.valid = true ↔ p'.valid = true := by
    rw [h.valid, h'.valid, hgraphs]
    exact and_congr_right fun _ =>
      not_congr ⟨fun hover => hover.perm hperm, fun hover => hover.perm hperm.symm⟩
  by_cases hv : p.valid = true
  · have hv' := hvalid.mp hv
    have hcursor := le_antisymm (h'.cursor_le h hperm.symm hv') (h.cursor_le h' hperm hv)
    have hoffset : p.completeOffset = p'.completeOffset := by
      rw [h.offset, h'.offset, hgraphs, hcursor]
    have hboundary := h.boundary.trans h'.boundary.symm
    unfold DurablePrefix.retained
    rw [hv, hv', hcursor, hoffset, hboundary, hgraphs]
  · have hv' := fun e => hv (hvalid.mpr e)
    unfold DurablePrefix.retained
    rw [if_pos (.inl hv), if_pos (.inl hv')]

end Cursor

section Retained
variable {qs : List Quad} {p₀ p : DurablePrefix} {rawNextOffset : ℤ} {phaseCompleted : Bool}
  {r : RetainedPrefix} {manifest : GraphScopedDurableManifestPlan} {resumedFromOffset : ℤ}
  {rawResumedFromOffset : ℤ} {quadRawOffsets : Option (List ℤ)}

/-- What is kept: all that is complete, or all but the last graph. -/
theorem retained_some (h : p.retained rawNextOffset phaseCompleted = some r) :
    p.valid = true ∧ p.completeOffset ≤ rawNextOffset ∧
      ((r.completedGraphCount = p.completeCount ∧ r.safeNextOffset = p.completeOffset) ∨
        (r.completedGraphCount + 1 = p.completeCount ∧ r.safeNextOffset = p.completeOffset -
          (p.graphs.map GraphRows.rows).getD r.completedGraphCount 0)) := by
  unfold DurablePrefix.retained at h
  split at h
  · cases h
  · next hok =>
    push Not at hok
    refine ⟨hok.1, hok.2, ?_⟩
    dsimp only at h
    split_ifs at h with hreplay
    · cases h
      exact .inr ⟨Nat.sub_add_cancel hreplay.2.1, rfl⟩
    · cases h
      exact .inl ⟨rfl, rfl⟩

/-- The graphs kept are the leading ones, each with its rows. -/
theorem Follows.retained (h : Follows p₀ p qs)
    (hr : p.retained rawNextOffset phaseCompleted = some r) :
    p₀.valid = true ∧ ¬Overrun p₀.graphs qs ∧ r.completedGraphCount ≤ p₀.graphs.length ∧
      r.safeNextOffset = p₀.completeOffset + rowsTotal (p₀.graphs.take r.completedGraphCount) ∧
      ∀ g ∈ p₀.graphs.take r.completedGraphCount, seen qs g.graph = g.rows := by
  obtain ⟨hv, -, hkept⟩ := retained_some hr
  obtain ⟨hv₀, hno⟩ := h.valid.mp hv
  have hcount : r.completedGraphCount ≤ p.completeCount := by
    rcases hkept with ⟨heq, -⟩ | ⟨heq, -⟩ <;> omega
  refine ⟨hv₀, h.graphs ▸ hno, ?_, ?_, ?_⟩
  · rw [← h.graphs]
    exact hcount.trans h.le
  · rw [← h.graphs]
    rcases hkept with ⟨heq, hoff⟩ | ⟨heq, hoff⟩
    · rw [hoff, heq, h.offset]
    · have hlt : r.completedGraphCount < p.graphs.length := by
        have := h.le
        omega
      rw [hoff, h.offset, ← heq, rowsTotal_take_succ hlt, getD_eq_getElem?_getD,
        getElem?_map, getElem?_eq_getElem hlt]
      simp only [Option.map_some, Option.getD_some]
      ring
  · intro g hg
    rw [← h.graphs] at hg
    obtain ⟨i, hi⟩ := mem_iff_getElem?.mp hg
    rw [getElem?_take] at hi
    split at hi
    · next hlt =>
      refine le_antisymm ?_ (h.full i g (hlt.trans_le hcount) hi)
      by_contra hover
      exact hno (.inr ⟨i, g, hi, not_le.mp hover, fun j g' hj hg' =>
        h.full j g' ((hj.trans hlt).trans_le hcount) hg'⟩)
    · cases hi

theorem manifestGraphsAfter_nodup
    (hnodup : (manifest.descriptors.map (·.assertionGraph)).Nodup) (resumedFromOffset : ℤ) :
    ((manifestGraphsAfter manifest resumedFromOffset).map GraphRows.graph).Nodup :=
  hnodup.sublist (graphsAfter_sublist manifest.descriptors 0)

/-- The state before any page. -/
theorem follows_create (manifest : GraphScopedDurableManifestPlan)
    (hnodup : (manifest.descriptors.map (·.assertionGraph)).Nodup) (resumedFromOffset : ℤ) :
    Follows (createGraphScopedDurablePrefix manifest resumedFromOffset)
      (createGraphScopedDurablePrefix manifest resumedFromOffset) [] := by
  refine ⟨rfl, rfl, ⟨indexed_foldl (manifestGraphsAfter_nodup hnodup _), ?_⟩, Nat.zero_le _, ?_, ?_, ?_, ?_⟩
  · exact map_const'.symm
  · simp [rowsTotal, createGraphScopedDurablePrefix]
  · intro i g hi
    exact absurd hi (Nat.not_lt_zero i)
  · refine (and_iff_left ?_).symm
    rintro (⟨q, hq, -⟩ | ⟨j, g, -, hlt, -⟩)
    · cases hq
    · exact absurd hlt (Nat.not_lt_zero _)
  · intro _ g hg
    exact rows_pos (mem_of_getElem? hg)

/-- A resume offset that is accepted is a boundary, and the graphs are those behind it. -/
theorem create_valid
    (hv : (createGraphScopedDurablePrefix manifest resumedFromOffset).valid = true) :
    isSafeInteger resumedFromOffset = true ∧ 0 ≤ resumedFromOffset ∧
      rowsOf manifest.descriptors ≤ MAX_SAFE_INTEGER ∧
      ∃ m, (rowsOf (manifest.descriptors.take m) : ℤ) = resumedFromOffset ∧
        manifestGraphsAfter manifest resumedFromOffset =
          graphsWithRows (manifest.descriptors.drop m) := by
  obtain ⟨hsum, hmet⟩ := sumBoundaries_spec resumedFromOffset manifest.descriptors
  simp only [createGraphScopedDurablePrefix, Bool.and_eq_true] at hv
  obtain ⟨⟨⟨⟨hboundary, hsafe⟩, hresumed⟩, hnonneg⟩, -⟩ := hv
  rw [hsum] at hsafe
  obtain ⟨m, hm⟩ := hmet hboundary
  refine ⟨hresumed, of_decide_eq_true hnonneg, by exact_mod_cast (of_decide_eq_true hsafe).2, m,
    hm, ?_⟩
  exact graphsAfter_boundary (by rw [Nat.cast_zero, zero_add, hm])

theorem mem_graphsWithRows {ds : List GraphScopedDescriptor} {g : GraphRows} :
    g ∈ graphsWithRows ds ↔ ∃ d ∈ ds, 0 < d.publicTripleCount ∧
      d.assertionGraph = g.graph ∧ d.publicTripleCount = g.rows := by
  unfold graphsWithRows
  rw [mem_map]
  constructor
  · rintro ⟨d, hd, rfl⟩
    obtain ⟨hmem, hpos⟩ := mem_filter.mp hd
    exact ⟨d, hmem, of_decide_eq_true hpos, rfl, rfl⟩
  · rintro ⟨d, hmem, hpos, hgraph, hrows⟩
    exact ⟨d, mem_filter.mpr ⟨hmem, decide_eq_true hpos⟩, by rw [hgraph, hrows]⟩

theorem countP_cons_name {name : Text} {names : List Text} (hfresh : name ∉ names)
    (qs : List Quad) : (qs.countP fun q => q.graph ∈ name :: names) =
      seen qs name + qs.countP fun q => q.graph ∈ names := by
  induction qs with
  | nil => rfl
  | cons q qs ih =>
    unfold seen at ih ⊢
    rw [countP_cons, countP_cons, countP_cons, ih]
    by_cases heq : q.graph = name
    · simp only [heq, mem_cons, true_or, decide_true, if_true, hfresh, decide_false,
        Bool.false_eq_true, if_false]
      omega
    · simp only [heq, mem_cons, false_or, decide_false, Bool.false_eq_true, if_false]
      omega

/-- The rows of some graphs, by graph. -/
theorem countP_graphs {gs : List GraphRows} (hnodup : (gs.map GraphRows.graph).Nodup)
    (hrows : ∀ g ∈ gs, seen qs g.graph = g.rows) :
    ((qs.countP fun q => q.graph ∈ gs.map GraphRows.graph : ℕ) : ℤ) = rowsTotal gs := by
  induction gs with
  | nil => simp [rowsTotal]
  | cons g gs ih =>
    rw [map_cons, nodup_cons] at hnodup
    have hrest := ih hnodup.2 fun g' hg' => hrows g' (mem_cons_of_mem _ hg')
    rw [map_cons, countP_cons_name hnodup.1, Nat.cast_add, hrest, hrows g mem_cons_self]
    simp [rowsTotal]

/-- A row that overruns nothing is of a graph behind the boundary. -/
theorem known_of_not_overrun {graphs : List GraphRows} (hno : ¬Overrun graphs qs) {q : Quad}
    (hq : q ∈ qs) : ∃ g ∈ graphs, g.graph = q.graph := by
  by_contra hnone
  push Not at hnone
  exact hno (.inl ⟨q, hq, hnone⟩)

/-- The raw offsets that a round may carry. -/
def RawWindow (dataQuads : List Quad) (rawNextOffset rawResumedFromOffset : ℤ)
    (quadRawOffsets : Option (List ℤ)) : Prop :=
  isSafeInteger rawNextOffset ∧ isSafeInteger rawResumedFromOffset ∧ 0 ≤ rawResumedFromOffset ∧
    rawResumedFromOffset ≤ rawNextOffset ∧
    ∃ offsets, effectiveRawOffsets dataQuads rawNextOffset rawResumedFromOffset quadRawOffsets =
        some offsets ∧ rawOffsetsOk dataQuads rawNextOffset rawResumedFromOffset offsets

/-- The raw offset behind the last kept row is inside the window. -/
theorem lastRawOffset_le {dataQuads : List Quad} {offsets : List ℤ}
    (hle : rawResumedFromOffset ≤ rawNextOffset)
    (hok : rawOffsetsOk dataQuads rawNextOffset rawResumedFromOffset offsets = true)
    (keep : Quad × ℤ → Bool) :
    (match (((dataQuads.zip offsets).filter keep).map (·.2)).getLast? with
      | some last => last + 1
      | none => rawResumedFromOffset) ≤ rawNextOffset := by
  split
  · next last hlast =>
    obtain ⟨e, he, rfl⟩ := mem_map.mp (mem_of_getLast? hlast)
    have hmem := (of_mem_zip (mem_filter.mp he).1).2
    simp only [rawOffsetsOk, Bool.and_eq_true, all_eq_true, decide_eq_true_eq] at hok
    exact Int.add_one_le_iff.mpr (hok.1.2 _ hmem).2
  · exact hle

/-- The graphs kept by a round. -/
def keptNames (manifest : GraphScopedDurableManifestPlan) (resumedFromOffset : ℤ)
    (completedGraphCount : ℕ) : List Text :=
  ((manifestGraphsAfter manifest resumedFromOffset).take completedGraphCount).map GraphRows.graph

/-- The rows of kept graphs are those of the leading graphs: graphs without rows have none. -/
theorem filter_complete (hnodup : (manifest.descriptors.map (·.assertionGraph)).Nodup)
    (hv : (createGraphScopedDurablePrefix manifest resumedFromOffset).valid = true)
    (hno : ¬Overrun (manifestGraphsAfter manifest resumedFromOffset) qs) (k : ℕ) :
    (qs.filter fun q =>
        q.graph ∈ completeGraphsOf manifest (manifestGraphsAfter manifest resumedFromOffset) k) =
      qs.filter fun q => q.graph ∈ keptNames manifest resumedFromOffset k := by
  apply filter_congr
  intro q hq
  rw [decide_eq_decide, completeGraphsOf, JsSet.mem_ofList, mem_append]
  refine or_iff_right ?_
  intro hzero
  obtain ⟨d, hd, hname⟩ := mem_map.mp hzero
  obtain ⟨hmem, hrows⟩ := mem_filter.mp hd
  obtain ⟨-, -, -, m, -, hgraphs⟩ := create_valid hv
  rw [hgraphs] at hno
  obtain ⟨g, hg, heq⟩ := known_of_not_overrun hno hq
  obtain ⟨d', hmem', hpos, hname', -⟩ := mem_graphsWithRows.mp hg
  have hsame : d = d' := inj_on_of_nodup_map hnodup hmem (mem_of_mem_drop hmem')
    (by rw [hname, hname', heq])
  subst hsame
  exact absurd (of_decide_eq_true hrows) hpos.ne'

theorem length_kept (hnodup : (manifest.descriptors.map (·.assertionGraph)).Nodup) {k : ℕ}
    (hrows : ∀ g ∈ (manifestGraphsAfter manifest resumedFromOffset).take k,
      seen qs g.graph = g.rows) :
    ((qs.filter fun q => q.graph ∈ keptNames manifest resumedFromOffset k).length : ℤ) =
      rowsTotal ((manifestGraphsAfter manifest resumedFromOffset).take k) := by
  have hnames : (keptNames manifest resumedFromOffset k).Nodup :=
    (manifestGraphsAfter_nodup hnodup resumedFromOffset).sublist ((take_sublist _ _).map _)
  rw [← countP_eq_length_filter]
  exact countP_graphs hnames hrows

/-- A round with raw offsets keeps what the counters retain. -/
theorem plan_of_retained (hnodup : (manifest.descriptors.map (·.assertionGraph)).Nodup)
    (hraw : RawWindow qs rawNextOffset rawResumedFromOffset quadRawOffsets)
    (hr : ((createGraphScopedDurablePrefix manifest resumedFromOffset).observe qs).retained
      rawNextOffset phaseCompleted = some r) :
    ∃ batch, planBoundedGraphScopedDurableBatch qs manifest resumedFromOffset rawNextOffset
        phaseCompleted rawResumedFromOffset quadRawOffsets = some batch ∧
      batch.completedGraphCount = r.completedGraphCount ∧
      batch.safeNextOffset = r.safeNextOffset ∧
      batch.dataQuads = (qs.filter fun q =>
        q.graph ∈ keptNames manifest resumedFromOffset r.completedGraphCount) ∧
      batch.safeRawNextOffset ≤ rawNextOffset := by
  obtain ⟨hnext, hresumed, hnonneg, hle, offsets, hoffsets, hok⟩ := hraw
  have hfollows := (follows_create manifest hnodup resumedFromOffset).observe qs
  rw [nil_append] at hfollows
  obtain ⟨hv, hno, -, hsafe, hrows⟩ := hfollows.retained hr
  obtain ⟨hsafeInt, hge, -, -⟩ := create_valid hv
  have hgraphs : ((createGraphScopedDurablePrefix manifest resumedFromOffset).observe qs).graphs =
      manifestGraphsAfter manifest resumedFromOffset := hfollows.graphs
  have hlength := length_kept hnodup hrows
  rw [← add_sub_cancel_left resumedFromOffset (rowsTotal _)] at hlength
  have hlast := lastRawOffset_le hle hok fun e => decide (e.1.graph ∈ completeGraphsOf manifest
    (manifestGraphsAfter manifest resumedFromOffset) r.completedGraphCount)
  unfold planBoundedGraphScopedDurableBatch
  rw [if_neg (by push Not; exact ⟨hsafeInt, hge, hnext, hresumed, hnonneg, hle⟩), hoffsets]
  dsimp only
  rw [if_neg (not_not.mpr hok), hr]
  dsimp only
  rw [hgraphs, filter_complete hnodup hv hno, if_neg (not_not.mpr (by rw [hlength, hsafe]; rfl))]
  split_ifs with hend hover hover
  · exact absurd hover (lt_irrefl _)
  · exact ⟨_, rfl, rfl, rfl, rfl, le_rfl⟩
  · exact absurd hlast (not_le.mpr hover)
  · exact ⟨_, rfl, rfl, rfl, rfl, hlast⟩

/-- A round that is planned had raw offsets and retained something. -/
theorem plan_some {batch : BoundedGraphScopedDurableBatch}
    (h : planBoundedGraphScopedDurableBatch qs manifest resumedFromOffset rawNextOffset
      phaseCompleted rawResumedFromOffset quadRawOffsets = some batch) :
    RawWindow qs rawNextOffset rawResumedFromOffset quadRawOffsets ∧
      ∃ r, ((createGraphScopedDurablePrefix manifest resumedFromOffset).observe qs).retained
        rawNextOffset phaseCompleted = some r := by
  unfold planBoundedGraphScopedDurableBatch at h
  split at h
  · cases h
  · next hguard =>
    push Not at hguard
    obtain ⟨-, -, hnext, hresumed, hnonneg, hle⟩ := hguard
    split at h
    · cases h
    · next offsets hoffsets =>
      split at h
      · cases h
      · next hok =>
        refine ⟨⟨hnext, hresumed, hnonneg, hle, offsets, hoffsets, not_not.mp hok⟩, ?_⟩
        dsimp only at h
        split at h
        · cases h
        · next r hr => exact ⟨r, hr⟩

end Retained

/-- What a resumed download may keep depends on the rows it received and not on its pages: the
leading graphs behind the resume offset, each with all its rows. -/
theorem durablePrefix_paging (manifest : GraphScopedDurableManifestPlan)
    (hnodup : (manifest.descriptors.map (·.assertionGraph)).Nodup) (resumedFromOffset : ℤ) :
    (∀ (pages : List (List Quad)) (quads : List Quad) (rawNextOffset : ℤ) (phaseCompleted : Bool),
      quads.Perm pages.flatten → (pages.foldl DurablePrefix.observe
            (createGraphScopedDurablePrefix manifest resumedFromOffset)).retained
            rawNextOffset phaseCompleted =
          ((createGraphScopedDurablePrefix manifest resumedFromOffset).observe quads).retained
            rawNextOffset phaseCompleted) ∧
    (∀ (pages : List (List Quad)) (rawNextOffset : ℤ) (phaseCompleted : Bool)
      (r : RetainedPrefix),
      (pages.foldl DurablePrefix.observe
          (createGraphScopedDurablePrefix manifest resumedFromOffset)).retained
          rawNextOffset phaseCompleted = some r →
        isGraphScopedDurableManifestBoundary manifest resumedFromOffset = true ∧
        isGraphScopedDurableManifestBoundary manifest r.safeNextOffset = true ∧
        ∃ m, (rowsOf (manifest.descriptors.take m) : ℤ) = resumedFromOffset ∧
          manifestGraphsAfter manifest resumedFromOffset =
            graphsWithRows (manifest.descriptors.drop m) ∧
          (∀ q ∈ pages.flatten, ∃ d ∈ manifest.descriptors.drop m,
            0 < d.publicTripleCount ∧ d.assertionGraph = q.graph) ∧
          r.completedGraphCount ≤ (manifestGraphsAfter manifest resumedFromOffset).length ∧
          r.safeNextOffset = resumedFromOffset + rowsTotal
            ((manifestGraphsAfter manifest resumedFromOffset).take r.completedGraphCount) ∧
          ∀ g ∈ (manifestGraphsAfter manifest resumedFromOffset).take r.completedGraphCount,
            seen pages.flatten g.graph = g.rows) ∧
    ∀ (quads : List Quad) (rawNextOffset : ℤ) (phaseCompleted : Bool) (rawResumedFromOffset : ℤ)
      (quadRawOffsets : Option (List ℤ)),
      (∀ r, ((createGraphScopedDurablePrefix manifest resumedFromOffset).observe quads).retained
          rawNextOffset phaseCompleted = some r →
        RawWindow quads rawNextOffset rawResumedFromOffset quadRawOffsets →
        (planBoundedGraphScopedDurableBatch quads manifest resumedFromOffset rawNextOffset
          phaseCompleted rawResumedFromOffset quadRawOffsets).isSome) ∧
      ∀ batch, planBoundedGraphScopedDurableBatch quads manifest resumedFromOffset rawNextOffset
          phaseCompleted rawResumedFromOffset quadRawOffsets = some batch →
        ∃ r, ((createGraphScopedDurablePrefix manifest resumedFromOffset).observe quads).retained
            rawNextOffset phaseCompleted = some r ∧
          batch.completedGraphCount = r.completedGraphCount ∧
          batch.safeNextOffset = r.safeNextOffset ∧
          batch.dataQuads = (quads.filter fun q => q.graph ∈
            ((manifestGraphsAfter manifest resumedFromOffset).take r.completedGraphCount).map
              GraphRows.graph) ∧
          batch.safeRawNextOffset ≤ rawNextOffset := by
  have hstart := follows_create manifest hnodup resumedFromOffset
  refine ⟨?_, ?_, ?_⟩
  · intro pages quads rawNextOffset phaseCompleted hperm
    have hpages := hstart.pages pages
    have hquads := hstart.observe quads
    exact hpages.retained_perm hquads hperm.symm rawNextOffset phaseCompleted
  · intro pages rawNextOffset phaseCompleted r hr
    obtain ⟨hv, hno, hcount, hsafe, hrows⟩ := (hstart.pages pages).retained hr
    obtain ⟨-, -, hmax, m, hm, hgraphs⟩ := create_valid hv
    have hboundary := isBoundary_of_rows ((rowsOf_take_le manifest.descriptors m).trans hmax)
    rw [hm] at hboundary
    obtain ⟨n, hn⟩ := exists_boundary (manifest.descriptors.drop m) r.completedGraphCount
    have hnext := isBoundary_of_rows ((rowsOf_take_le manifest.descriptors (m + n)).trans hmax)
    have hoffset : (rowsOf (manifest.descriptors.take (m + n)) : ℤ) = r.safeNextOffset := by
      rw [rowsOf_take_add, Nat.cast_add, hm, hn, ← hgraphs, hsafe]
      rfl
    rw [hoffset] at hnext
    refine ⟨hboundary, hnext, m, hm, hgraphs, ?_, hcount, hsafe, hrows⟩
    intro q hq
    obtain ⟨g, hg, heq⟩ := known_of_not_overrun hno hq
    change g ∈ manifestGraphsAfter manifest resumedFromOffset at hg
    rw [hgraphs] at hg
    obtain ⟨d, hd, hpos, hname, -⟩ := mem_graphsWithRows.mp hg
    exact ⟨d, hd, hpos, hname.trans heq⟩
  · intro quads rawNextOffset phaseCompleted rawResumedFromOffset quadRawOffsets
    refine ⟨?_, ?_⟩
    · intro r hr hraw
      obtain ⟨batch, hbatch, -⟩ := plan_of_retained hnodup hraw hr
      rw [hbatch]
      rfl
    · intro batch hbatch
      obtain ⟨hraw, r, hr⟩ := plan_some hbatch
      obtain ⟨batch', hbatch', hfacts⟩ := plan_of_retained hnodup hraw hr
      rw [hbatch] at hbatch'
      cases hbatch'
      exact ⟨r, hr, hfacts⟩

/-- A public graph named by one unit. -/
def publicGraph (name : ℕ) (rows : ℕ) (h : rows ≤ MAX_SAFE_INTEGER) : GraphScopedDescriptor where
  ual := []
  contentScopeVersion := []
  assertionVersion := []
  contextGraphId := []
  subGraphName := none
  assertionGraph := [name]
  publicTripleCount := rows
  privateTripleCount := 0
  privateRoot := none
  claimedRootHex := []
  metadataDigestHex := []
  publicTripleCount_safe := h
  privateTripleCount_safe := Nat.zero_le _

theorem one_le_maxSafeInteger : 1 ≤ MAX_SAFE_INTEGER := by decide

def twoGraphs : GraphScopedDurableManifestPlan :=
  ⟨[], [], [publicGraph 1 2 (by decide), publicGraph 2 0 (Nat.zero_le _),
    publicGraph 3 1 one_le_maxSafeInteger], 3⟩

def rowIn (name : ℕ) : Quad := ⟨[], [], [], [name]⟩

/-- An interrupted round with all rows keeps the first graph, however the rows were paged. -/
theorem durablePrefix_paging_twoGraphs :
    ([[rowIn 3, rowIn 1], [rowIn 1]].foldl DurablePrefix.observe
        (createGraphScopedDurablePrefix twoGraphs 0)).retained 3 false = some ⟨1, 2, true⟩ ∧
      isGraphScopedDurableManifestBoundary twoGraphs 2 = true ∧
      ∃ batch, planBoundedGraphScopedDurableBatch [rowIn 1, rowIn 3, rowIn 1] twoGraphs 0 3 false
        0 none = some batch ∧ batch.dataQuads = [rowIn 1, rowIn 1] := by
  have hnodup : (twoGraphs.descriptors.map (·.assertionGraph)).Nodup := by decide
  obtain ⟨hpaging, hretained, hplan⟩ := durablePrefix_paging twoGraphs hnodup 0
  have hone : ((createGraphScopedDurablePrefix twoGraphs 0).observe
      [rowIn 1, rowIn 3, rowIn 1]).retained 3 false = some ⟨1, 2, true⟩ := by decide +kernel
  have hpages := hpaging [[rowIn 3, rowIn 1], [rowIn 1]] [rowIn 1, rowIn 3, rowIn 1] 3 false
    (by decide)
  rw [hone] at hpages
  obtain ⟨-, hboundary, -⟩ := hretained _ 3 false _ hpages
  obtain ⟨hsome, hkept⟩ := hplan [rowIn 1, rowIn 3, rowIn 1] 3 false 0 none
  obtain ⟨batch, hbatch⟩ := Option.isSome_iff_exists.mp (hsome _ hone
    ⟨by decide, by decide, by decide, by decide, [0, 1, 2], by decide, by decide⟩)
  obtain ⟨r, hr, -, -, hdata, -⟩ := hkept batch hbatch
  rw [hone] at hr
  cases hr
  refine ⟨hpages, hboundary, batch, hbatch, hdata.trans ?_⟩
  decide

end Dkg.DurableManifest
