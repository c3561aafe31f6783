import Dkg.Lib.Since
import Mathlib.Algebra.Group.Nat.Defs
import Mathlib.Algebra.Order.Ring.Unbundled.Rat
import Mathlib.Logic.Function.Basic

/-!
`context-graph-authority-index-projection.ts`: the last completed projection of each scope. A call
runs from one `await` to the next as one step; between its steps other calls run.
-/

namespace Dkg.Authority

open Function

/-- `Number.isSafeInteger`. -/
def isSafeInteger (x : ℚ) : Prop := x.den = 1 ∧ x.num.natAbs < 2 ^ 53

instance (x : ℚ) : Decidable (isSafeInteger x) := inferInstanceAs (Decidable (_ ∧ _))

structure Head where
  number : ℕ
  timestampSeconds : ℚ

inductive Origin where
  | scan
  | log (dataFetchedAtMs : ℚ)

/-- What a refresh hands over. -/
structure Completed (S V : Type*) where
  scope : S
  head : Head
  requiresAnchorValidation : Bool
  view : V
  origin : Origin

structure Projection (S V : Type*) extends Completed S V where
  fetchedAtMs : ℚ

def resolveProjectionFetchedAtMs (refreshStartedAtMs : ℚ) : Origin → ℚ
  | .scan => refreshStartedAtMs
  | .log dataFetchedAtMs =>
    if isSafeInteger dataFetchedAtMs ∧ dataFetchedAtMs < refreshStartedAtMs then dataFetchedAtMs
    else refreshStartedAtMs

/-- The options of the constructor after its checks. -/
structure Limits where
  tickMs : ℕ
  headTimestampToleranceMs : ℕ
  tickMs_pos : 1 ≤ tickMs
  headTimestampToleranceMs_pos : 1 ≤ headTimestampToleranceMs

def Limits.staleMs (limits : Limits) : ℕ := min (max (3 * limits.tickMs) 15000) (5 * 60000)

/-- How an error is classified: by the chain transport, as retryable, or neither. -/
inductive Fault where
  | transport
  | retryable
  | other
deriving DecidableEq

variable {S V α : Type*}

/-- What a call brings; the two validators are optional. -/
structure Input (S V α : Type*) where
  scope : S
  project : Projection S V → Except Fault (Bool × α)
  validateIncomplete : Bool
  validateAnchor : Bool

/-- The state of a scope. The promise in `refreshing` is the number of the call that made it. -/
structure Cell (S V : Type*) where
  generation : ℕ
  activeRefreshes : ℕ
  projection : Option (Projection S V)
  refreshing : Option ℕ
  failedAtMs : Option ℚ

/-- The cells made for a scope, and the one that the map has. -/
structure Slot (S V : Type*) where
  current : Option ℕ
  cells : ℕ → Cell S V
  made : ℕ

namespace Slot

def cell? (slot : Slot S V) : Option (Cell S V) := slot.current.map slot.cells

def set (slot : Slot S V) (k : ℕ) (cell : Cell S V) : Slot S V :=
  { slot with cells := update slot.cells k cell }

def deleteScopeIfIdle (slot : Slot S V) (k : ℕ) : Slot S V :=
  if (slot.cells k).activeRefreshes = 0 ∧ (slot.cells k).projection.isNone ∧
      (slot.cells k).refreshing = none ∧ (slot.cells k).failedAtMs = none ∧
      slot.current = some k then
    { slot with current := none }
  else slot

def scopeState (slot : Slot S V) : Slot S V × ℕ :=
  match slot.current with
  | some k => (slot, k)
  | none => ({ slot.set slot.made ⟨0, 0, none, none, none⟩ with
      current := some slot.made, made := slot.made + 1 }, slot.made)

def drop (slot : Slot S V) : Slot S V :=
  match slot.current with
  | none => slot
  | some k =>
    (slot.set k { slot.cells k with
      generation := (slot.cells k).generation + 1
      projection := none
      failedAtMs := none
      refreshing := none }).deleteScopeIfIdle k

end Slot

/-- The variables of a running `#refresh`. -/
structure Own where
  cell : ℕ
  generation : ℕ
  refreshStartedAtMs : ℚ
  initiates : Bool

/-- Who awaits `#serve`: `peek`, `read` after some waits, or a refresh that failed. -/
inductive Caller where
  | peek
  | read (waits : ℕ)
  | refresh (own : Own)

/-- The variables of `#serve` once the projection has run. -/
structure Candidate (S V α : Type*) where
  projection : Projection S V
  now : ℚ
  value : α

inductive Outcome (α : Type*) where
  | value (v : α)
  | missed
  | threw (e : Fault)
deriving DecidableEq

/-- The `await` a call is at. -/
inductive Pc (S V α : Type*) where
  | idle
  | validatingIncomplete (i : Input S V α) (caller : Caller)
      (candidate : Candidate S V α)
  | validatingAnchor (i : Input S V α) (caller : Caller)
      (candidate : Candidate S V α)
  /-- `#serve` has settled. -/
  | served (i : Input S V α) (caller : Caller)
      (lookup : Except Fault (Option (Candidate S V α)))
  | waiting (i : Input S V α) (waits : ℕ) (refreshing : ℕ)
  | refreshing (i : Input S V α) (own : Own)
  | done (outcome : Outcome α)

inductive Source where
  | scan
  | cache
  | log
  | staleCache

/-- What happens at the cache. -/
inductive Event (S V α : Type*) where
  | invoked (c : ℕ) (i : Input S V α)
  /-- The clock reading of a `#serve`. -/
  | clock (c : ℕ) (now : ℚ)
  | started (c : ℕ) (scope : S) (refreshStartedAtMs : ℚ)
  | completed (c : ℕ) (projection : Projection S V)
  | published (projection : Projection S V)
  | transportError (c : ℕ)
  /-- The transport error is recorded in the scope's state. -/
  | failed (c : ℕ) (scope : S) (failedAtMs : ℚ)
  | dropped (scope : S)
  | cleared
  | onServed (c : ℕ) (source : Source) (ageMs : ℚ)

structure State (S V α : Type*) where
  slots : S → Slot S V
  calls : ℕ → Pc S V α
  /-- The newest event is first. -/
  log : List (Event S V α)

/-- What the surroundings give in one step: whether the signal is aborted, the clock readings in
order, and the errors that `onServed` throws. -/
structure Moment where
  aborted : Bool
  now : ℕ → ℚ
  onServed : ℕ → Option Fault

/-- How `input.refresh` settles. -/
inductive Refreshed (S V : Type*) where
  | completed (completed : Completed S V)
  | projectionFault (fault : Fault)
  | threw (error : Fault)

/-- What a call goes on with. -/
inductive Turn (S V α : Type*) where
  | peek (i : Input S V α)
  | read (i : Input S V α)
  | incompleteValidated (answer : Except Fault Bool)
  | anchorValidated (answer : Except Fault (Option Bool))
  /-- `#serve` has settled. -/
  | resumed
  /-- `waitForSignal` has settled. -/
  | woken
  | refreshed (refreshed : Refreshed S V)

inductive Action (S V α : Type*) where
  | call (c : ℕ) (turn : Turn S V α) (m : Moment)
  | drop (scope : S)
  | clear

section Window
variable (limits : Limits) (p : Projection S V) (cell : Cell S V) (now : ℚ)

def isWithinServiceWindow : Prop :=
  0 ≤ now - p.fetchedAtMs ∧ now - p.fetchedAtMs ≤ limits.staleMs ∧
    isSafeInteger p.head.timestampSeconds ∧ 0 ≤ p.head.timestampSeconds ∧
    now - p.head.timestampSeconds * 1000 ≤ limits.headTimestampToleranceMs

instance : Decidable (isWithinServiceWindow limits p now) := inferInstanceAs (Decidable (_ ∧ _))

def fresh : Prop := now - p.fetchedAtMs < limits.tickMs

instance : Decidable (fresh limits p now) := inferInstanceAs (Decidable (_ < _))

/-- The last refresh failed less than one tick ago. -/
def backingOff : Prop :=
  ∃ failedAtMs ∈ cell.failedAtMs, 0 ≤ now - failedAtMs ∧ now - failedAtMs < limits.tickMs

instance : Decidable (backingOff limits cell now) :=
  inferInstanceAs (Decidable (∃ _ ∈ _, _))

/-- A refresh that failed does not ask for the backoff. -/
def mayBeStale : Caller → Bool
  | .refresh _ => true
  | _ => backingOff limits cell now

/-- Why `#publish` keeps the previous projection. -/
def keepsPrevious : Prop :=
  ∃ previous ∈ cell.projection, p.head.number < previous.head.number ∧
    fresh limits previous now ∧ isWithinServiceWindow limits previous now

instance : Decidable (keepsPrevious limits p cell now) :=
  inferInstanceAs (Decidable (∃ _ ∈ _, _ ∧ _ ∧ _))

end Window

namespace State
variable (limits : Limits) (s : State S V α) (c : ℕ) (i : Input S V α) (own : Own)
  (caller : Caller) (candidate : Candidate S V α) (m : Moment) (thrown : Option Fault) (now : ℚ)
  (outcome : Outcome α)

def initial : State S V α :=
  ⟨fun _ => ⟨none, fun _ => ⟨0, 0, none, none, none⟩, 0⟩, fun _ => .idle, []⟩

def record (e : Event S V α) : State S V α := { s with log := e :: s.log }

def goto (pc : Pc S V α) : State S V α :=
  { s with calls := update s.calls c pc }

def clear : State S V α :=
  { s with slots := fun scope => (s.slots scope).drop, log := .cleared :: s.log }

variable [DecidableEq S]

def setSlot (scope : S) (slot : Slot S V) : State S V α :=
  { s with slots := update s.slots scope slot }

def drop (scope : S) : State S V α :=
  (s.setSlot scope (s.slots scope).drop).record (.dropped scope)

/-- The end of `#serve`. -/
def hit : State S V α :=
  let source : Source :=
    if fresh limits candidate.projection candidate.now then
      match candidate.projection.origin with
      | .scan => .cache
      | .log _ => .log
    else .staleCache
  (s.record (.onServed c source (candidate.now - candidate.projection.fetchedAtMs))).goto c
    (.served i caller (match thrown with
      | none => .ok (some candidate)
      | some e => .error e))

def checkAnchor : State S V α :=
  if candidate.projection.requiresAnchorValidation then
    if i.validateAnchor then s.goto c (.validatingAnchor i caller candidate)
    else s.goto c (.served i caller (.ok none))
  else s.hit limits c i caller candidate thrown

/-- `#serve` up to its first `await`. -/
def serve : State S V α :=
  match (s.slots i.scope).cell? with
  | none => s.goto c (.served i caller (.ok none))
  | some cell =>
    match cell.projection with
    | none => s.goto c (.served i caller (.ok none))
    | some p =>
      let s := s.record (.clock c now)
      if isWithinServiceWindow limits p now ∧
          (fresh limits p now ∨ mayBeStale limits cell now caller) then
        match i.project p with
        | .error e => s.goto c (.served i caller (.error e))
        | .ok (complete, value) =>
          if complete then s.checkAnchor limits c i caller ⟨p, now, value⟩ thrown
          else if i.validateIncomplete then
            s.goto c (.validatingIncomplete i caller ⟨p, now, value⟩)
          else s.goto c (.served i caller (.ok none))
      else s.goto c (.served i caller (.ok none))

/-- `peek` or `read` up to its first `await`. -/
def invoke : State S V α :=
  let s := s.record (.invoked c i)
  if m.aborted then s.goto c (.done (.threw .other))
  else s.serve limits c i caller (m.onServed 0) (m.now 0)

/-- `#refresh` up to the `await` of `input.refresh`. -/
def startRefresh : State S V α :=
  let slot := (s.slots i.scope).scopeState.1
  let k := (s.slots i.scope).scopeState.2
  let cell := slot.cells k
  ((s.setSlot i.scope (slot.set k { cell with
      activeRefreshes := cell.activeRefreshes + 1
      refreshing := some (cell.refreshing.getD c) })).record (.started c i.scope now)).goto c
    (.refreshing i ⟨k, cell.generation, now, cell.refreshing.isNone⟩)

/-- The `finally` block of `#refresh`; then the call ends. -/
def settle : State S V α :=
  let slot := s.slots i.scope
  let cell := slot.cells own.cell
  (s.setSlot i.scope ((slot.set own.cell { cell with
      refreshing := if own.initiates ∧ cell.refreshing = some c then none else cell.refreshing
      activeRefreshes := cell.activeRefreshes - 1 }).deleteScopeIfIdle own.cell)).goto c
    (.done outcome)

def publish (k : ℕ) (p : Projection S V) : State S V α :=
  let slot := s.slots p.scope
  let cell := slot.cells k
  if slot.current ≠ some k then s
  else if ¬(isSafeInteger p.head.timestampSeconds ∧ 0 ≤ p.head.timestampSeconds) then s
  else if keepsPrevious limits p cell now then
    s.setSlot p.scope (slot.set k { cell with failedAtMs := none })
  else
    (s.setSlot p.scope (slot.set k { cell with projection := some p, failedAtMs := none })).record
      (.published p)

/-- No `drop` or `clear` of the refresh's cell since it started. -/
def current (scope : S) : Prop :=
  own.generation = ((s.slots scope).cells own.cell).generation

omit [DecidableEq S] in
instance (scope : S) : Decidable (s.current own scope) :=
  inferInstanceAs (Decidable (_ = _))

def publishIfCurrent (p : Projection S V) : State S V α :=
  if s.current own p.scope then s.publish limits now own.cell p else s

/-- The `catch` block of `#refresh`. -/
def caught (error : Fault) : State S V α :=
  if m.aborted then s.settle c i own (.threw error)
  else match error with
    | .retryable =>
      (if s.current own i.scope then s.drop i.scope else s).settle c i own (.threw .retryable)
    | .other => s.settle c i own (.threw .other)
    | .transport =>
      let s := s.record (.transportError c)
      let s := if s.current own i.scope then
          let slot := s.slots i.scope
          (s.setSlot i.scope (slot.set own.cell { slot.cells own.cell with
            failedAtMs := some (m.now 2) })).record (.failed c i.scope (m.now 2))
        else s
      s.serve limits c i (.refresh own) (m.onServed 1) (m.now 3)

/-- `#refresh` after the `await` of `input.refresh`. -/
def finishRefresh : Refreshed S V → State S V α
  | .projectionFault fault => s.settle c i own (.threw fault)
  | .threw error => s.caught limits c i own m error
  | .completed completed =>
    if completed.scope ≠ i.scope then s.caught limits c i own m .retryable
    else
      let p : Projection S V := { completed with
        fetchedAtMs := resolveProjectionFetchedAtMs own.refreshStartedAtMs completed.origin }
      let s := (s.record (.completed c p)).publishIfCurrent limits own (m.now 0) p
      let source : Source := match p.origin with
        | .scan => .scan
        | .log _ => .log
      let s := s.record (.onServed c source (max 0 (m.now 1 - p.fetchedAtMs)))
      match m.onServed 0 with
      | some e => s.caught limits c i own m e
      | none => s.settle c i own (match i.project p with
        | .ok (_, value) => .value value
        | .error e => .threw e)

/-- The end of a call that awaited `#serve`. -/
def finish : State S V α :=
  match caller with
  | .refresh own => s.settle c i own outcome
  | _ => s.goto c (.done outcome)

/-- The rest of `peek`, `read` or the `catch` block after `await this.#serve`; `read` waits for at
most two refreshes before it starts its own. -/
def resume : Except Fault (Option (Candidate S V α)) → State S V α
  | .error e => s.finish c i caller (.threw e)
  | .ok (some candidate) => s.finish c i caller (.value candidate.value)
  | .ok none =>
    match caller with
    | .peek => s.goto c (.done .missed)
    | .refresh own => s.settle c i own (.threw .transport)
    | .read waits =>
      match (s.slots i.scope).cell?.bind Cell.refreshing with
      | none => s.startRefresh c i now
      | some r => if waits < 2 then s.goto c (.waiting i waits r) else s.startRefresh c i now

/-- A call runs up to its next `await`; `none` where it is not at that `await`, or waits for a
refresh that runs. -/
def proceed : Pc S V α → Turn S V α → Option (State S V α)
  | .idle, .peek i => some (s.invoke limits c i .peek m)
  | .idle, .read i => some (s.invoke limits c i (.read 0) m)
  | .validatingIncomplete i caller candidate, .incompleteValidated answer => some <|
    match answer with
    | .error e => s.goto c (.served i caller (.error e))
    | .ok false => s.goto c (.served i caller (.ok none))
    | .ok true =>
      if m.aborted then s.goto c (.served i caller (.error .other))
      else s.checkAnchor limits c i caller candidate (m.onServed 0)
  | .validatingAnchor i caller candidate, .anchorValidated answer => some <|
    match answer with
    | .error _ => s.goto c (.served i caller (if m.aborted then .error .other else .ok none))
    | .ok none => s.goto c (.served i caller (.ok none))
    | .ok (some false) => (s.drop i.scope).goto c (.served i caller (.ok none))
    | .ok (some true) => s.hit limits c i caller candidate (m.onServed 0)
  | .served i caller lookup, .resumed => some (s.resume c i caller (m.now 0) lookup)
  | .waiting i waits r, .woken =>
    if m.aborted then some (s.goto c (.done (.threw .other)))
    else match s.calls r with
      | .done _ => some (s.serve limits c i (.read (waits + 1)) (m.onServed 0) (m.now 0))
      | _ => none
  | .refreshing i own, .refreshed refreshed => some (s.finishRefresh limits c i own m refreshed)
  | _, _ => none

def step : Action S V α → Option (State S V α)
  | .call c turn m => s.proceed limits c m (s.calls c) turn
  | .drop scope => some (s.drop scope)
  | .clear => some s.clear

def result : Option (Outcome α) :=
  match s.calls c with
  | .done outcome => some outcome
  | _ => none

end State

/-- A run from the empty cache; a step that is not possible is left out. -/
def run [DecidableEq S] (limits : Limits) (actions : List (Action S V α)) : State S V α :=
  actions.foldl (fun s a => (s.step limits a).getD s) .initial

end Dkg.Authority
