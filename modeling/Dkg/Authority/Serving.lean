import Dkg.Authority.ProjectionCache
import Mathlib.Data.Finset.Card

/-!
What the authority cache serves: each scope keeps a projection only of a refresh that started after
the last invalidation, and a cell with a running refresh is never removed.
-/

namespace Dkg.Authority
open List Since Function

variable {S V α : Type*} {limits : Limits} {s t : State S V α} {scope : S} {slot : Slot S V}
  {p : Projection S V} {e : Event S V α} {log log' : List (Event S V α)} {c k : ℕ} {own : Own}
  {i : Input S V α} {caller : Caller} {candidate : Candidate S V α} {v : α} {now : ℚ}
  {pc : Pc S V α} {outcome : Outcome α} {thrown : Option Fault} {m : Moment} {flies flies' : ℕ → Own → Prop}

theorem resolveProjectionFetchedAtMs_le (start : ℚ) (o : Origin) :
    resolveProjectionFetchedAtMs start o ≤ start := by
  cases o with
  | scan => exact le_rfl
  | log fetched =>
    simp only [resolveProjectionFetchedAtMs]
    split
    · exact le_of_lt ‹_ ∧ _›.2
    · exact le_rfl

def Invalidates (scope : S) : Event S V α → Prop
  | .dropped dropped => dropped = scope
  | .cleared => True
  | _ => False

def Publishes (scope : S) : Event S V α → Prop
  | .published p => p.scope = scope
  | _ => False

/-- The projection is of a refresh of the scope that started after the last invalidation. -/
def Sourced (scope : S) (p : Projection S V) (log : List (Event S V α)) : Prop :=
  p.scope = scope ∧ ∃ r start, .completed r p ∈ log ∧ p.fetchedAtMs ≤ start ∧
    NoneSince (Invalidates scope) (.started r scope start) log

theorem Sourced.cons (h : Sourced scope p log) (he : ¬Invalidates scope e) :
    Sourced scope p (e :: log) := by
  obtain ⟨hscope, r, start, hcompleted, hle, hnone⟩ := h
  exact ⟨hscope, r, start, mem_cons_of_mem _ hcompleted, hle, hnone.cons he⟩

/-- What a cell stands for, given the refreshes that run. -/
structure Cell.Inv (scope : S) (k : ℕ) (cell : Cell S V) (flies : ℕ → Own → Prop)
    (log : List (Event S V α)) : Prop where
  counted : ∃ running : Finset ℕ, running.card ≤ cell.activeRefreshes ∧
    ∀ c own, flies c own → c ∈ running
  held : ∀ c own, flies c own → own.cell = k ∧ own.generation ≤ cell.generation ∧
    (own.generation = cell.generation →
      NoneSince (Invalidates scope) (.started c scope own.refreshStartedAtMs) log)
  sourced : ∀ p, cell.projection = some p → Sourced scope p log
  failed : ∀ t, cell.failedAtMs = some t →
    ∃ c, NoneSince (Publishes scope) (.failed c scope t) log

/-- No refresh of a scope runs unless the map has its cell. -/
def Slot.Inv (scope : S) (slot : Slot S V) (flies : ℕ → Own → Prop)
    (log : List (Event S V α)) : Prop :=
  match slot.current with
  | none => ∀ c own, ¬flies c own
  | some k => (slot.cells k).Inv scope k flies log

namespace Slot.Inv

theorem cell (h : slot.Inv scope flies log) (hk : slot.current = some k) :
    (slot.cells k).Inv scope k flies log := by
  simpa only [Slot.Inv, hk] using h

theorem set (hk : slot.current = some k) {cell : Cell S V} (h : cell.Inv scope k flies log) :
    (slot.set k cell).Inv scope flies log := by
  simpa [Slot.Inv, Slot.set, hk] using h

theorem held (h : slot.Inv scope flies log) (hc : flies c own) :
    slot.current = some own.cell := by
  cases hcurrent : slot.current with
  | none =>
    simp only [Slot.Inv, hcurrent] at h
    exact absurd hc (h c own)
  | some k => rw [((h.cell hcurrent).held c own hc).1]

theorem anti (h : slot.Inv scope flies log) (hflies : ∀ c own, flies' c own → flies c own) :
    slot.Inv scope flies' log := by
  unfold Slot.Inv at h ⊢
  split at h
  · exact fun c own hc => h c own (hflies c own hc)
  · obtain ⟨running, hcard, hmem⟩ := h.counted
    exact ⟨⟨running, hcard, fun c own hc => hmem c own (hflies c own hc)⟩,
      fun c own hc => h.held c own (hflies c own hc), h.sourced, h.failed⟩

theorem cons (h : slot.Inv scope flies log) (he : ¬Invalidates scope e)
    (hpublished : Publishes scope e →
      ∀ k, slot.current = some k → (slot.cells k).failedAtMs = none) :
    slot.Inv scope flies (e :: log) := by
  unfold Slot.Inv at h ⊢
  split at h
  · exact h
  next k hk =>
    refine ⟨h.counted, fun c own hc => ?_, fun p hp => (h.sourced p hp).cons he, fun t ht => ?_⟩
    · obtain ⟨hcell, hle, hnone⟩ := h.held c own hc
      exact ⟨hcell, hle, fun heq => (hnone heq).cons he⟩
    · obtain ⟨c, hc⟩ := h.failed t ht
      refine ⟨c, hc.cons fun hp => ?_⟩
      cases (hpublished hp k hk).symm.trans ht

/-- A cell with a running refresh is not removed. -/
theorem deleteScopeIfIdle (h : slot.Inv scope flies log) (k : ℕ) :
    (slot.deleteScopeIfIdle k).Inv scope flies log := by
  unfold Slot.deleteScopeIfIdle
  split
  next hidle =>
    obtain ⟨hactive, -, -, -, hk⟩ := hidle
    obtain ⟨running, hcard, hmem⟩ := (h.cell hk).counted
    intro c own hc
    have hpos := Finset.card_pos.mpr ⟨c, hmem c own hc⟩
    omega
  next => exact h

theorem drop (h : slot.Inv scope flies log) : slot.drop.Inv scope flies (e :: log) := by
  unfold Slot.drop
  split
  next hcurrent => simpa only [Slot.Inv, hcurrent] using h
  next k hk =>
    have hcell := h.cell hk
    apply deleteScopeIfIdle
    refine set hk ⟨hcell.counted, fun c own hc => ?_, by simp, by simp⟩
    obtain ⟨hown, hle, -⟩ := hcell.held c own hc
    exact ⟨hown, hle.trans (Nat.le_succ _), fun heq => absurd (heq ▸ hle) (Nat.not_succ_le_self _)⟩

theorem scopeState (h : slot.Inv scope flies log) :
    slot.scopeState.1.Inv scope flies log ∧
      slot.scopeState.1.current = some slot.scopeState.2 := by
  unfold Slot.scopeState
  split
  next k hk => exact ⟨h, hk⟩
  next hcurrent =>
    simp only [Slot.Inv, hcurrent] at h
    refine ⟨?_, rfl⟩
    simp only [Slot.Inv, Slot.set, update_self]
    exact ⟨⟨∅, Nat.zero_le _, fun c own hc => absurd hc (h c own)⟩,
      fun c own hc => absurd hc (h c own), nofun, nofun⟩

theorem start (h : slot.Inv scope flies log) (hk : slot.current = some k) {refreshing : Option ℕ}
    (hflies : ∀ d o, flies' d o →
      d = c ∧ (∃ initiates, o = ⟨k, (slot.cells k).generation, now, initiates⟩) ∨ flies d o) :
    (slot.set k { slot.cells k with
      activeRefreshes := (slot.cells k).activeRefreshes + 1
      refreshing := refreshing }).Inv scope flies' (.started c scope now :: log) := by
  have hcell := (h.cons (e := .started c scope now) id False.elim).cell hk
  refine set hk ⟨?_, fun d o hd => ?_, hcell.sourced, hcell.failed⟩
  · obtain ⟨running, hcard, hmem⟩ := hcell.counted
    refine ⟨insert c running, (Finset.card_insert_le c running).trans (Nat.succ_le_succ hcard),
      fun d o hd => ?_⟩
    rcases hflies d o hd with ⟨rfl, -⟩ | hd
    · exact Finset.mem_insert_self d running
    · exact Finset.mem_insert_of_mem (hmem d o hd)
  · rcases hflies d o hd with ⟨rfl, initiates, rfl⟩ | hd
    · exact ⟨rfl, le_rfl, fun _ => noneSince_head id⟩
    · exact hcell.held d o hd

theorem settle (h : slot.Inv scope flies log) (hc : flies c own) {refreshing : Option ℕ}
    (hflies : ∀ d o, flies' d o → d ≠ c ∧ flies d o) :
    ((slot.set own.cell { slot.cells own.cell with
      refreshing := refreshing
      activeRefreshes := (slot.cells own.cell).activeRefreshes - 1 }).deleteScopeIfIdle
        own.cell).Inv scope flies' log := by
  have hcell := h.cell (h.held hc)
  obtain ⟨running, hcard, hmem⟩ := hcell.counted
  have herase := Finset.card_erase_of_mem (hmem c own hc)
  apply deleteScopeIfIdle
  refine set (h.held hc) ⟨⟨running.erase c, ?_, fun d o hd => ?_⟩,
    fun d o hd => hcell.held d o (hflies d o hd).2, hcell.sourced, hcell.failed⟩
  · dsimp only
    omega
  · obtain ⟨hne, hd⟩ := hflies d o hd
    exact Finset.mem_erase.mpr ⟨hne, hmem d o hd⟩

end Slot.Inv

/-- The call was made, and a refresh of its own started after that. -/
def Called (c : ℕ) (i : Input S V α) (log : List (Event S V α)) : Caller → Prop
  | .refresh own => ∃ past, .started c i.scope own.refreshStartedAtMs :: past <:+ log ∧
    .invoked c i ∈ past
  | _ => .invoked c i ∈ log

/-- A clock reading of the call at which the candidate could be served. -/
def Admitted (limits : Limits) (c : ℕ) (i : Input S V α) (candidate : Candidate S V α)
    (log : List (Event S V α)) : Prop :=
  ∃ seen, .clock c candidate.now :: seen <:+ log ∧ .invoked c i ∈ seen ∧
    (∃ complete, i.project candidate.projection = .ok (complete, candidate.value)) ∧
    Sourced i.scope candidate.projection seen ∧
    isWithinServiceWindow limits candidate.projection candidate.now ∧
    (fresh limits candidate.projection candidate.now ∨ .transportError c ∈ seen ∨
      ∃ q failedAtMs, 0 ≤ candidate.now - failedAtMs ∧
        candidate.now - failedAtMs < limits.tickMs ∧
        NoneSince (Publishes i.scope) (.failed q i.scope failedAtMs) seen)

/-- The value is of the call's own refresh, or of a candidate. -/
def Answered (limits : Limits) (c : ℕ) (v : α) (log : List (Event S V α)) : Prop :=
  ∃ i, (∃ own p, Called c i log (.refresh own) ∧ .completed c p ∈ log ∧ p.scope = i.scope ∧
      p.fetchedAtMs ≤ own.refreshStartedAtMs ∧ ∃ complete, i.project p = .ok (complete, v)) ∨
    ∃ candidate, candidate.value = v ∧ Admitted limits c i candidate log

theorem Called.mono (h : Called c i log caller) (hlog : log <:+ log') :
    Called c i log' caller := by
  cases caller with
  | refresh own =>
    obtain ⟨past, hpast, hinvoked⟩ := h
    exact ⟨past, hpast.trans hlog, hinvoked⟩
  | peek | read waits => exact hlog.mem h

theorem Called.invoked (h : Called c i log caller) : .invoked c i ∈ log := by
  cases caller with
  | refresh own =>
    obtain ⟨past, hpast, hinvoked⟩ := h
    exact hpast.mem (mem_cons_of_mem _ hinvoked)
  | peek | read waits => exact h

theorem Admitted.mono (h : Admitted limits c i candidate log) (hlog : log <:+ log') :
    Admitted limits c i candidate log' := by
  obtain ⟨seen, hseen, hrest⟩ := h
  exact ⟨seen, hseen.trans hlog, hrest⟩

theorem Answered.mono (h : Answered limits c v log) (hlog : log <:+ log') :
    Answered limits c v log' := by
  obtain ⟨i, ⟨own, p, hcalled, hcompleted, hrest⟩ | ⟨candidate, hv, hadmitted⟩⟩ := h
  · exact ⟨i, .inl ⟨own, p, hcalled.mono hlog, hlog.mem hcompleted, hrest⟩⟩
  · exact ⟨i, .inr ⟨candidate, hv, hadmitted.mono hlog⟩⟩

/-- The scope and the variables of the refresh that the caller is. -/
def Caller.flight (scope : S) : Caller → Option (S × Own)
  | .refresh own => some (scope, own)
  | _ => none

namespace Pc

/-- The refresh that the call runs. -/
def flight : Pc S V α → Option (S × Own)
  | .validatingIncomplete i caller _ | .validatingAnchor i caller _ | .served i caller _ =>
    caller.flight i.scope
  | .refreshing i own => some (i.scope, own)
  | _ => none

def Inv (limits : Limits) (c : ℕ) (log : List (Event S V α)) : Pc S V α → Prop
  | .idle => True
  | .validatingIncomplete i caller candidate | .validatingAnchor i caller candidate
  | .served i caller (.ok (some candidate)) =>
    Called c i log caller ∧ Admitted limits c i candidate log
  | .served i caller _ => Called c i log caller
  | .waiting i _ _ => .invoked c i ∈ log
  | .refreshing i own => Called c i log (.refresh own)
  | .done (.value v) => Answered limits c v log
  | .done _ => True

theorem Inv.mono (h : pc.Inv limits c log) (hlog : log <:+ log') : pc.Inv limits c log' := by
  cases pc with
  | idle => trivial
  | validatingIncomplete i caller candidate | validatingAnchor i caller candidate =>
    exact ⟨h.1.mono hlog, h.2.mono hlog⟩
  | served i caller lookup =>
    rcases lookup with e | _ | candidate
    · exact Called.mono h hlog
    · exact Called.mono h hlog
    · exact ⟨h.1.mono hlog, h.2.mono hlog⟩
  | waiting i waits r => exact hlog.mem h
  | refreshing i own =>
    have hcalled : Called c i log (.refresh own) := h
    exact hcalled.mono hlog
  | done outcome =>
    cases outcome with
    | value v => exact Answered.mono h hlog
    | missed | threw e => trivial

end Pc

namespace State

def InFlight (s : State S V α) (scope : S) (c : ℕ) (own : Own) : Prop :=
  (s.calls c).flight = some (scope, own)

structure Inv (limits : Limits) (s : State S V α) : Prop where
  slots : ∀ scope, (s.slots scope).Inv scope (s.InFlight scope) s.log
  calls : ∀ c, (s.calls c).Inv limits c s.log

/-- The call is made, and the refresh that awaits it runs. -/
structure Running (s : State S V α) (c : ℕ) (i : Input S V α) (caller : Caller) : Prop where
  called : Called c i s.log caller
  flies : ∀ f, caller.flight i.scope = some f → (s.calls c).flight = some f

theorem inv_initial : Inv limits (initial : State S V α) where
  slots _ := nofun
  calls _ := trivial

theorem Running.mono (h : Running s c i caller) (hcalls : t.calls = s.calls)
    (hlog : s.log <:+ t.log) : Running t c i caller :=
  ⟨h.called.mono hlog, by rw [hcalls]; exact h.flies⟩

theorem Running.record (h : Running s c i caller) : Running (s.record e) c i caller :=
  h.mono rfl (suffix_cons e s.log)

theorem inFlight_goto {d : ℕ} : (s.goto c pc).InFlight scope d own ↔
    d = c ∧ pc.flight = some (scope, own) ∨ d ≠ c ∧ s.InFlight scope d own := by
  by_cases hd : d = c <;> simp [InFlight, State.goto, hd]

namespace Inv

theorem record (h : Inv limits s)
    (he : ∀ scope, ¬Invalidates scope e ∧ ¬Publishes scope e) : Inv limits (s.record e) where
  slots scope := (h.slots scope).cons (he scope).1 fun hp => absurd hp (he scope).2
  calls c := (h.calls c).mono (suffix_cons e s.log)

theorem goto (h : Inv limits s) (hpc : pc.Inv limits c s.log)
    (hflight : ∀ f, pc.flight = some f → (s.calls c).flight = some f) :
    Inv limits (s.goto c pc) where
  slots scope := by
    refine (h.slots scope).anti fun d own hd => ?_
    rcases inFlight_goto.mp hd with ⟨rfl, hnew⟩ | ⟨-, hd⟩
    · exact hflight _ hnew
    · exact hd
  calls := (forall_update_iff s.calls fun d pc => pc.Inv limits d s.log).mpr
    ⟨hpc, fun d _ => h.calls d⟩

theorem done (h : Inv limits s)
    (houtcome : ∀ v, outcome = .value v → Answered limits c v s.log) :
    Inv limits (s.goto c (.done outcome)) := by
  refine h.goto ?_ nofun
  cases outcome with
  | value v => exact houtcome v rfl
  | missed | threw e => trivial

theorem hit (h : Inv limits s) (hrun : Running s c i caller)
    (hadmitted : Admitted limits c i candidate s.log) :
    Inv limits (s.hit limits c i caller candidate thrown) := by
  refine (h.record fun _ => ⟨id, id⟩).goto ?_ hrun.flies
  cases thrown with
  | none => exact ⟨hrun.record.called, hadmitted.mono (suffix_cons _ _)⟩
  | some e => exact hrun.record.called

theorem checkAnchor (h : Inv limits s) (hrun : Running s c i caller)
    (hadmitted : Admitted limits c i candidate s.log) :
    Inv limits (s.checkAnchor limits c i caller candidate thrown) := by
  unfold State.checkAnchor
  split
  · split
    · exact h.goto ⟨hrun.called, hadmitted⟩ hrun.flies
    · exact h.goto hrun.called hrun.flies
  · exact h.hit hrun hadmitted

/-- What a call reads from the map is admitted at its clock reading. -/
theorem admitted (h : Inv limits s) (hrun : Running s c i caller)
    (htransport : ∀ own, caller = .refresh own → .transportError c ∈ s.log) {cell : Cell S V}
    (hcell : (s.slots i.scope).cell? = some cell) (hp : cell.projection = some p)
    (hwindow : isWithinServiceWindow limits p now)
    (hstale : fresh limits p now ∨ mayBeStale limits cell now caller = true) {complete : Bool}
    (hproject : i.project p = .ok (complete, v)) :
    Admitted limits c i ⟨p, now, v⟩ (.clock c now :: s.log) := by
  obtain ⟨k, hk, rfl⟩ := Option.map_eq_some_iff.mp hcell
  have hslot := (h.slots i.scope).cell hk
  refine ⟨s.log, suffix_rfl, hrun.called.invoked, ⟨complete, hproject⟩, hslot.sourced p hp,
    hwindow, ?_⟩
  rcases hstale with hfresh | hstale
  · exact .inl hfresh
  right
  have hbackoff : backingOff limits ((s.slots i.scope).cells k) now →
      ∃ q failedAtMs, 0 ≤ now - failedAtMs ∧ now - failedAtMs < limits.tickMs ∧
        NoneSince (Publishes i.scope) (.failed q i.scope failedAtMs) s.log := by
    rintro ⟨failedAtMs, hfailed, hle, hlt⟩
    obtain ⟨q, hq⟩ := hslot.failed failedAtMs hfailed
    exact ⟨q, failedAtMs, hle, hlt, hq⟩
  cases caller with
  | refresh own => exact .inl (htransport own rfl)
  | peek | read waits => exact .inr (hbackoff (of_decide_eq_true hstale))

theorem serve (h : Inv limits s) (hrun : Running s c i caller)
    (htransport : ∀ own, caller = .refresh own → .transportError c ∈ s.log)
    : Inv limits (s.serve limits c i caller thrown now) := by
  unfold State.serve
  split
  · exact h.goto hrun.called hrun.flies
  next cell hcell =>
    split
    · exact h.goto hrun.called hrun.flies
    next p hp =>
      have hclock : Inv limits (s.record (.clock c now)) := h.record fun _ => ⟨id, id⟩
      have hserving : Running (s.record (.clock c now)) c i caller := hrun.record
      dsimp only
      split
      next hserves =>
        split
        · exact hclock.goto hserving.called hserving.flies
        next complete value hproject =>
          have hadmitted := h.admitted hrun htransport hcell hp hserves.1 hserves.2 hproject
          split
          · exact hclock.checkAnchor hserving hadmitted
          split
          · exact hclock.goto ⟨hserving.called, hadmitted⟩ hserving.flies
          · exact hclock.goto hserving.called hserving.flies
      next => exact hclock.goto hserving.called hserving.flies

theorem invoke (h : Inv limits s) (hcaller : caller.flight i.scope = none) :
    Inv limits (s.invoke limits c i caller m) := by
  have hinvoked : Inv limits (s.record (.invoked c i)) := h.record fun _ => ⟨id, id⟩
  unfold State.invoke
  dsimp only
  split
  · exact hinvoked.done nofun
  · cases caller with
    | refresh own => cases hcaller
    | peek | read waits => exact hinvoked.serve ⟨mem_cons_self, nofun⟩ nofun

theorem clear (h : Inv limits s) : Inv limits s.clear where
  slots scope := (h.slots scope).drop
  calls d := (h.calls d).mono (suffix_cons _ s.log)

variable [DecidableEq S]

theorem setSlot (h : Inv limits s) (hslot : slot.Inv scope (s.InFlight scope) s.log) :
    Inv limits (s.setSlot scope slot) where
  slots := (forall_update_iff s.slots
    fun scope slot => slot.Inv scope (s.InFlight scope) s.log).mpr
      ⟨hslot, fun other _ => h.slots other⟩
  calls := h.calls

/-- An event and a write to the scope it is about. -/
theorem setSlot_record (h : Inv limits s)
    (hslot : slot.Inv scope (s.InFlight scope) (e :: s.log))
    (he : ∀ other, other ≠ scope → ¬Invalidates other e ∧ ¬Publishes other e) :
    Inv limits ((s.setSlot scope slot).record e) where
  slots := (forall_update_iff s.slots
    fun scope slot => slot.Inv scope (s.InFlight scope) (e :: s.log)).mpr
      ⟨hslot, fun other hne => (h.slots other).cons (he other hne).1
        fun hp => absurd hp (he other hne).2⟩
  calls d := (h.calls d).mono (suffix_cons e s.log)

theorem drop (h : Inv limits s) : Inv limits (s.drop scope) :=
  h.setSlot_record (h.slots scope).drop fun _ hne => ⟨hne.symm, id⟩

/-- A refresh with the generation of its cell publishes a projection that is not invalidated. -/
theorem publish (h : Inv limits s) (hflies : s.InFlight p.scope c own)
    (hcurrent : s.current own p.scope) (hcompleted : .completed c p ∈ s.log)
    (hfetched : p.fetchedAtMs ≤ own.refreshStartedAtMs) :
    Inv limits (s.publish limits now own.cell p) ∧
      (s.publish limits now own.cell p).calls = s.calls ∧
      s.log <:+ (s.publish limits now own.cell p).log := by
  have hk := (h.slots p.scope).held hflies
  have hcell := (h.slots p.scope).cell hk
  unfold State.publish
  dsimp only
  split
  · exact ⟨h, rfl, suffix_rfl⟩
  split
  · exact ⟨h, rfl, suffix_rfl⟩
  split
  · exact ⟨h.setSlot (.set hk ⟨hcell.counted, hcell.held, hcell.sourced, by simp⟩), rfl,
      suffix_rfl⟩
  · refine ⟨h.setSlot_record (.cons (.set hk ⟨hcell.counted, hcell.held, ?_, by simp⟩) id ?_)
      fun _ hne => ⟨id, hne.symm⟩, rfl, suffix_cons _ _⟩
    · rintro _ ⟨⟩
      exact ⟨rfl, c, own.refreshStartedAtMs, hcompleted, hfetched,
        (hcell.held c own hflies).2.2 hcurrent⟩
    · intro _ j hj
      cases hk.symm.trans hj
      simp [Slot.set]

/-- After the refresh has handed over its projection the call runs on. -/
theorem publishIfCurrent (h : Inv limits s) (hrun : Running s c i (.refresh own))
    (hp : p.scope = i.scope) (hfetched : p.fetchedAtMs ≤ own.refreshStartedAtMs) :
    ∃ t, (s.record (.completed c p)).publishIfCurrent limits own now p = t ∧ Inv limits t ∧
      Running t c i (.refresh own) ∧ .completed c p ∈ t.log := by
  refine ⟨_, rfl, ?_⟩
  have hcompleted : Inv limits (s.record (.completed c p)) := h.record fun _ => ⟨id, id⟩
  unfold State.publishIfCurrent
  split
  next hcurrent =>
    have hflies : s.InFlight p.scope c own := hp ▸ hrun.flies _ rfl
    obtain ⟨hinv, hcalls, hlog⟩ := hcompleted.publish hflies hcurrent mem_cons_self hfetched
    exact ⟨hinv, hrun.record.mono hcalls hlog, hlog.mem mem_cons_self⟩
  next => exact ⟨hcompleted, hrun.record, mem_cons_self⟩

theorem startRefresh (h : Inv limits s) (hinvoked : .invoked c i ∈ s.log) :
    Inv limits (s.startRefresh c i now) where
  slots := by
    obtain ⟨hslot, hk⟩ := (h.slots i.scope).scopeState
    refine (forall_update_iff s.slots fun scope slot => slot.Inv scope _ _).mpr
      ⟨hslot.start hk fun d o hd => ?_, fun other hne => ?_⟩
    · rcases inFlight_goto.mp hd with ⟨rfl, hpc⟩ | ⟨-, hd⟩
      · cases hpc
        exact .inl ⟨rfl, _, rfl⟩
      · exact .inr hd
    · refine ((h.slots other).cons id False.elim).anti fun d o hd => ?_
      rcases inFlight_goto.mp hd with ⟨rfl, hpc⟩ | ⟨-, hd⟩
      · cases hpc
        exact absurd rfl hne
      · exact hd
  calls := (forall_update_iff s.calls fun d pc => pc.Inv limits d _).mpr
    ⟨⟨s.log, suffix_rfl, hinvoked⟩, fun d _ => (h.calls d).mono (suffix_cons _ _)⟩

theorem settle (h : Inv limits s) (hflies : s.InFlight i.scope c own)
    (houtcome : ∀ v, outcome = .value v → Answered limits c v s.log) :
    Inv limits (s.settle c i own outcome) := by
  refine (h.done houtcome).setSlot ((h.slots i.scope).settle hflies fun d o hd => ?_)
  rcases inFlight_goto.mp hd with ⟨-, hd⟩ | hd
  · cases hd
  · exact hd

theorem caught (h : Inv limits s) (hrun : Running s c i (.refresh own)) {error : Fault} :
    Inv limits (s.caught limits c i own m error) := by
  have hflies : s.InFlight i.scope c own := hrun.flies _ rfl
  unfold State.caught
  split
  · exact h.settle hflies nofun
  cases error with
  | other => exact h.settle hflies nofun
  | retryable =>
    dsimp only
    split
    · exact h.drop.settle hflies nofun
    · exact h.settle hflies nofun
  | transport =>
    have herror : Inv limits (s.record (.transportError c)) := h.record fun _ => ⟨id, id⟩
    dsimp only
    split
    · have hslot := (herror.slots i.scope).cons (e := .failed c i.scope (m.now 2)) id False.elim
      have hcell := hslot.cell (hslot.held hflies)
      refine serve (herror.setSlot_record (.set (hslot.held hflies)
        ⟨hcell.counted, hcell.held, hcell.sourced, ?_⟩) fun _ _ => ⟨id, id⟩)
        (hrun.mono rfl ((suffix_cons _ _).trans (suffix_cons _ _)))
        fun _ _ => mem_cons_of_mem _ mem_cons_self
      rintro _ ⟨⟩
      exact ⟨c, noneSince_head id⟩
    · exact herror.serve hrun.record fun _ _ => mem_cons_self

theorem finishRefresh (h : Inv limits s) (hrun : Running s c i (.refresh own))
    (refreshed : Refreshed S V) :
    Inv limits (s.finishRefresh limits c i own m refreshed) := by
  have hflies : s.InFlight i.scope c own := hrun.flies _ rfl
  cases refreshed with
  | projectionFault fault => exact h.settle hflies nofun
  | threw error => exact h.caught hrun
  | completed completed =>
    unfold State.finishRefresh
    dsimp only
    split
    · exact h.caught hrun
    next hscope =>
      have hfetched := resolveProjectionFetchedAtMs_le own.refreshStartedAtMs completed.origin
      generalize hp : ({ completed with fetchedAtMs := _ } : Projection S V) = p
      have hpscope : p.scope = i.scope := by
        rw [← hp]
        exact not_not.mp hscope
      replace hfetched : p.fetchedAtMs ≤ own.refreshStartedAtMs := by
        rw [← hp]
        exact hfetched
      obtain ⟨t, ht, hinv, hrun, hcompleted⟩ :=
        @publishIfCurrent _ _ _ _ _ _ _ _ _ (m.now 0) _ h hrun hpscope hfetched
      rw [ht]
      split
      · exact (hinv.record fun _ => ⟨id, id⟩).caught hrun.record
      · refine settle (hinv.record fun _ => ⟨id, id⟩) (hrun.flies _ rfl) fun v hv => ?_
        refine ⟨i, .inl ⟨own, p, hrun.record.called, mem_cons_of_mem _ hcompleted, hpscope,
          hfetched, ?_⟩⟩
        split at hv
        next complete value hproject =>
          cases hv
          exact ⟨complete, hproject⟩
        next => cases hv

theorem finish (h : Inv limits s) (hrun : Running s c i caller)
    (houtcome : ∀ v, outcome = .value v → Answered limits c v s.log) :
    Inv limits (s.finish c i caller outcome) := by
  cases caller with
  | refresh own => exact h.settle (hrun.flies _ rfl) houtcome
  | peek | read waits => exact h.done houtcome

theorem resume (h : Inv limits s) {lookup : Except Fault (Option (Candidate S V α))}
    (hpc : (Pc.served i caller lookup).Inv limits c s.log)
    (hflies : ∀ f, caller.flight i.scope = some f → (s.calls c).flight = some f) :
    Inv limits (s.resume c i caller now lookup) := by
  rcases lookup with e | _ | candidate
  · exact h.finish ⟨hpc, hflies⟩ nofun
  · cases caller with
    | peek => exact h.done nofun
    | refresh own => exact h.settle (hflies _ rfl) nofun
    | read waits =>
      unfold State.resume
      dsimp only
      split
      · exact h.startRefresh hpc
      split
      · exact h.goto hpc nofun
      · exact h.startRefresh hpc
  · refine h.finish ⟨hpc.1, hflies⟩ ?_
    rintro _ ⟨⟩
    exact ⟨i, .inr ⟨candidate, rfl, hpc.2⟩⟩

theorem proceed (h : Inv limits s) (hpc : pc.Inv limits c s.log)
    (hflies : ∀ f, pc.flight = some f → (s.calls c).flight = some f) {turn : Turn S V α}
    (hstep : s.proceed limits c m pc turn = some t) : Inv limits t := by
  unfold State.proceed at hstep
  split at hstep
  next => exact Option.some.inj hstep ▸ h.invoke rfl
  next => exact Option.some.inj hstep ▸ h.invoke rfl
  next i caller candidate answer =>
    cases hstep
    rcases answer with e | _ | _
    · exact h.goto hpc.1 hflies
    · exact h.goto hpc.1 hflies
    · dsimp only
      split
      · exact h.goto hpc.1 hflies
      · exact h.checkAnchor ⟨hpc.1, hflies⟩ hpc.2
  next i caller candidate answer =>
    cases hstep
    rcases answer with e | _ | _ | _
    · dsimp only
      split <;> exact h.goto hpc.1 hflies
    · exact h.goto hpc.1 hflies
    · exact h.drop.goto (hpc.1.mono (suffix_cons _ _)) hflies
    · exact h.hit ⟨hpc.1, hflies⟩ hpc.2
  next => exact Option.some.inj hstep ▸ h.resume hpc hflies
  next =>
    split at hstep
    · exact Option.some.inj hstep ▸ h.done nofun
    split at hstep
    · exact Option.some.inj hstep ▸ h.serve ⟨hpc, nofun⟩ nofun
    · cases hstep
  next => exact Option.some.inj hstep ▸ h.finishRefresh ⟨hpc, hflies⟩ _
  next => cases hstep

end Inv

end State

variable [DecidableEq S]

theorem run_inv (limits : Limits) (actions : List (Action S V α)) : (run limits actions).Inv limits := by
  refine foldlRecOn actions _ State.inv_initial fun s hs a _ => ?_
  cases hstep : s.step limits a with
  | none => exact hs
  | some t =>
    cases a with
    | call c turn m => exact hs.proceed (hs.calls c) (fun _ => id) hstep
    | drop scope => exact Option.some.inj hstep ▸ hs.drop
    | clear => exact Option.some.inj hstep ▸ hs.clear

/-- Every value that a call returns is of a refresh of its scope that started after each
invalidation before the call. It is of the call's own refresh, or at a clock reading of the call it
was within the service window, and fresh or excused by a transport failure. -/
theorem served_within_bounds (actions : List (Action S V α))
    (hresult : (run limits actions).result c = some (.value v)) :
    ∃ i before r p start past, .invoked c i :: before <:+ (run limits actions).log ∧
      .started r i.scope start :: past <:+ (run limits actions).log ∧
      .completed r p ∈ (run limits actions).log ∧ p.scope = i.scope ∧ p.fetchedAtMs ≤ start ∧
      (∃ complete, i.project p = .ok (complete, v)) ∧
      (∀ d earlier, Invalidates i.scope d → d :: earlier <:+ before → d :: earlier <:+ past) ∧
      (r = c ∨ ∃ (now : ℚ) (seen : _), .clock c now :: seen <:+ (run limits actions).log ∧
        .invoked c i :: before <:+ seen ∧ .completed r p ∈ seen ∧
        0 ≤ now - p.fetchedAtMs ∧ now - p.fetchedAtMs ≤ limits.staleMs ∧
        now - p.head.timestampSeconds * 1000 ≤ limits.headTimestampToleranceMs ∧
        (now - p.fetchedAtMs < limits.tickMs ∨ .transportError c ∈ seen ∨
          ∃ q failedAtMs, 0 ≤ now - failedAtMs ∧ now - failedAtMs < limits.tickMs ∧
            NoneSince (Publishes i.scope) (.failed q i.scope failedAtMs) seen)) := by
  have hcall := (run_inv limits actions).calls c
  have hanswered : Answered limits c v (run limits actions).log := by
    unfold State.result at hresult
    split at hresult
    next outcome hpc =>
      rw [hpc] at hcall
      cases hresult
      exact hcall
    next => cases hresult
  obtain ⟨i, ⟨own, p, ⟨past, hstarted, hinvoked⟩, hcompleted, hscope, hfetched, hproject⟩ |
    ⟨candidate, rfl, seen, hseen, hinvoked, hproject,
      ⟨hscope, r, start, hcompleted, hfetched, past, hstarted, hnone⟩,
      ⟨hage, hstale, -, -, hhead⟩, hexcused⟩⟩ := hanswered
  all_goals
    obtain ⟨before, hbefore⟩ := exists_suffix_of_mem hinvoked
    have hearlier := (suffix_cons _ _).trans hbefore
  · have hpast := (suffix_cons _ _).trans hstarted
    exact ⟨i, before, c, p, own.refreshStartedAtMs, past, hbefore.trans hpast, hstarted, hcompleted,
      hscope, hfetched, hproject, fun d earlier _ hd => hd.trans hearlier, .inl rfl⟩
  · have hlog := (suffix_cons _ _).trans hseen
    exact ⟨i, before, r, candidate.projection, start, past, hbefore.trans hlog,
      hstarted.trans hlog, hlog.mem hcompleted, hscope, hfetched, hproject,
      fun d earlier hd hle => hnone d earlier hd (hle.trans hearlier),
      .inr ⟨candidate.now, seen, hseen, hbefore, hcompleted, hage, hstale, hhead, hexcused⟩⟩

/-- A read that scans, the same after `clear`, and a peek. -/
def readClearPeek : List (Action ℕ ℕ ℕ) :=
  let i : Input ℕ ℕ ℕ := ⟨0, fun p => .ok (true, p.view), false, false⟩
  let at_ (now : ℚ) : Moment := ⟨false, fun _ => now, fun _ => none⟩
  let reads (c : ℕ) (now : ℚ) (view : ℕ) : List (Action ℕ ℕ ℕ) :=
    [.call c (.read i) (at_ now), .call c .resumed (at_ now),
      .call c (.refreshed (.completed ⟨0, ⟨1, 1⟩, false, view, .scan⟩)) (at_ (now + 500))]
  reads 0 1000 7 ++ [.clear] ++ reads 1 1600 8 ++
    [.call 2 (.peek i) (at_ 2500), .call 2 .resumed (at_ 2500)]

theorem served_within_bounds_peek :
    let s := run ⟨6000, 300000, by decide, by decide⟩ readClearPeek
    s.result 2 = some (.value 8) ∧
      ∃ r scope start past, .started r scope start :: past <:+ s.log ∧ .cleared ∈ past := by
  intro s
  have hresult : s.result 2 = some (.value 8) := by decide +kernel
  obtain ⟨i, before, r, p, start, past, hinvoked, hstarted, -, -, -, -, hinvalid, -⟩ :=
    served_within_bounds readClearPeek hresult
  have hevent : s.log[8]?.map (fun e => e matches .cleared) = some true := by decide +kernel
  obtain ⟨e, he, hcleared⟩ := Option.map_eq_some_iff.mp hevent
  obtain ⟨hlt, rfl⟩ := List.getElem?_eq_some_iff.mp he
  have hearlier := drop_suffix 8 s.log
  rw [drop_eq_getElem_cons hlt] at hearlier
  have hnone : (s.log.drop 9).all (fun e => !(e matches .invoked 2 _)) = true := by decide +kernel
  cases h8 : s.log[8] <;> rw [h8] at hcleared hearlier <;> cases hcleared
  rcases suffix_or_suffix_of_suffix hearlier hinvoked with h | h
  · rcases suffix_cons_iff.mp h with h | h
    · cases h
    · exact ⟨hresult, r, i.scope, start, past, hstarted,
        (hinvalid .cleared _ trivial h).subset mem_cons_self⟩
  · rcases suffix_cons_iff.mp h with h | h
    · cases h
    · cases all_eq_true.mp hnone _ (h.subset mem_cons_self)

end Dkg.Authority
