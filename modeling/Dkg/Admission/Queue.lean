import Dkg.Lib.JsMapDelete
import Mathlib.Data.Rat.Defs
import Mathlib.Algebra.Order.Ring.Unbundled.Rat

/-!
The admission queue of the sync scheduler. Work is started at once if it may run, waits in a
bounded queue otherwise, and may displace work of lower priority. Running work can reserve a slot
of the queue and hand off to it later. What a caller is told is kept in a log.
-/

namespace Dkg.Admission

open Function

inductive SyncPriorityClass where
  | elevated | default | deprioritized
deriving DecidableEq

inductive SyncSchedulerLane where
  | durable | changelog | sharedMemory | swmRecovery | preAuthorization | responder | fast | slow
deriving DecidableEq

structure PriorityAdmissionEntry (Payload : Type*) where
  payload : Payload
  ownerKey : String
  queuePool : String
  lane : SyncSchedulerLane
  priority : ℚ
  priorityClass : SyncPriorityClass
  sequence : ℕ
  enqueuedAt : ℚ
  agingThresholdMs : ℚ
deriving DecidableEq

/-- A queued entry. Its `id` is the place of the admission among all admissions. -/
structure InternalEntry (Payload : Type*) extends PriorityAdmissionEntry Payload where
  id : ℕ
  reserveForHandoff : Bool
  queueLimit : ℕ
  ownerQueueLimit : Option ℕ
deriving DecidableEq

structure HandoffReservation where
  sequence : ℕ
  ownerKey : String
  queuePool : String
  queueLimit : ℕ
  ownerQueueLimit : Option ℕ
deriving DecidableEq

/-- The terms of an admission. -/
structure PriorityAdmissionAcquireOptions (Payload : Type*) where
  payload : Payload
  ownerKey : Option String
  queuePool : Option String
  lane : SyncSchedulerLane
  priority : ℚ
  priorityClass : SyncPriorityClass
  queueLimit : ℕ
  ownerQueueLimit : Option ℕ
  agingThresholdMs : ℚ
  reserveForHandoff : Bool
  /-- `signal.aborted` when the call is made. -/
  aborted : Bool
  /-- `signal.aborted` once the entry is in the queue. -/
  abortedInQueue : Bool

/-- The state of the hooks is theirs; `onStart` and the clock are read from it. -/
structure PriorityAdmissionQueueHooks (H Payload : Type*) where
  canRun : H → PriorityAdmissionEntry Payload → Bool
  /-- An error is a throw. -/
  onStart : H → PriorityAdmissionEntry Payload → Except H H
  onStartFailureRollback : H → PriorityAdmissionEntry Payload → H
  /-- What `onStart` returned. -/
  release : H → PriorityAdmissionEntry Payload → H
  onDepthChange : H → ℕ → H
  now : H → ℚ

inductive BusyReason where
  | globalQueueFull | ownerQueueFull
deriving DecidableEq

inductive RejectReason (Payload : Type*) where
  | displaced (victim displacer : PriorityAdmissionEntry Payload)
  | queueWaitTimeout
  | aborted
  | startFailed

/-- What the promise of an admission is told, and the handoffs of running admissions. -/
inductive Event (Payload : Type*) where
  | started (id : ℕ)
  | rejected (id : ℕ) (reason : RejectReason Payload)
  | handedOff (id : ℕ)

namespace Event
variable {Payload : Type*}

def isStarted (id : ℕ) : Event Payload → Bool
  | .started k => k = id
  | _ => false

def isRejected (id : ℕ) : Event Payload → Bool
  | .rejected k _ => k = id
  | _ => false

def isHandedOff (id : ℕ) : Event Payload → Bool
  | .handedOff k => k = id
  | _ => false

end Event

/-- What the caller of `acquire` holds. -/
structure Held (Payload : Type*) where
  entry : PriorityAdmissionEntry Payload
  /-- There is a `handoff`. -/
  reserveForHandoff : Bool

structure Ledger (Payload : Type*) where
  queue : List (InternalEntry Payload)
  handoffReservations : List (ℕ × HandoffReservation)
  nextSequence : ℕ
  admissions : List (Held Payload)
  settled : ℕ → Bool
  /-- The `released` of the closures returned by `start`. -/
  released : ℕ → Bool
  log : List (Event Payload)

structure State (H Payload : Type*) extends Ledger Payload where
  hooks : H
  agedTurnOwed : Bool

variable {H Payload : Type*}

namespace Ledger

def countOwner (l : Ledger Payload) (ownerKey : String) : ℕ :=
  l.queue.countP fun e => e.ownerKey = ownerKey

def countReservedOwner (l : Ledger Payload) (ownerKey : String) : ℕ :=
  l.handoffReservations.countP fun e => e.2.ownerKey = ownerKey

/-- Queued entries plus handoff reservations counted in one pool's budget. -/
def countPool (l : Ledger Payload) (queuePool : String) : ℕ :=
  (l.queue.countP fun e => e.queuePool = queuePool) +
    l.handoffReservations.countP fun e => e.2.queuePool = queuePool

/-- An owner without a limit is never full. -/
def isOwnerFull (l : Ledger Payload) (ownerQueueLimit : Option ℕ) (ownerKey : String) : Bool :=
  match ownerQueueLimit with
  | some limit => decide (l.countOwner ownerKey + l.countReservedOwner ownerKey ≥ limit)
  | none => false

def rejectOnce (l : Ledger Payload) (id : ℕ) (reason : RejectReason Payload) : Ledger Payload :=
  if l.settled id then l
  else { l with
    settled := update l.settled id true
    log := l.log ++ [.rejected id reason] }

/-- The reservation of a stage that starts. -/
def reserve (l : Ledger Payload) (entry : PriorityAdmissionEntry Payload)
    (reserveForHandoff : Bool) (queueLimit : ℕ) (ownerQueueLimit : Option ℕ) : Ledger Payload :=
  { l with
    handoffReservations := if reserveForHandoff then
        JsMap.set l.handoffReservations entry.sequence
          ⟨entry.sequence, entry.ownerKey, entry.queuePool, queueLimit, ownerQueueLimit⟩
      else l.handoffReservations }

/-- The promise of the admission has its release. -/
def hasStarted (l : Ledger Payload) (id : ℕ) : Bool := l.log.any (Event.isStarted id)

def unreserve (l : Ledger Payload) (sequence : ℕ) : Ledger Payload :=
  { l with handoffReservations := JsMap.delete l.handoffReservations sequence }

end Ledger

/-- The first element that no other precedes, which a stable sort puts in front. -/
def firstBy {α : Type*} (precedes : α → α → Bool) : List α → Option α
  | [] => none
  | x :: xs => some (xs.foldl (fun best y => if precedes y best then y else best) x)

inductive AdmissionDecision (Payload : Type*) where
  | start
  | queue
  | displace (victim : InternalEntry Payload)
  | refuse (reason : BusyReason)

/-- How a call of `acquire` or `handoff` ends. -/
inductive Outcome where
  /-- The signal was aborted. -/
  | aborted
  /-- `Priority admission handoff requires an active reservation`. -/
  | noReservation
  /-- The error of `onStart`. -/
  | startFailed
  /-- `createBusyError`. -/
  | busy (reason : BusyReason)
  | running (id : ℕ)
  | queued (id : ℕ)
deriving DecidableEq

structure Selected where
  index : ℕ
  aged : Bool
  createsDebt : Bool
  servesDebt : Bool

namespace State
variable (hk : PriorityAdmissionQueueHooks H Payload)

def isAged (s : State H Payload) (e : PriorityAdmissionEntry Payload) : Bool :=
  decide (hk.now s.hooks - e.enqueuedAt ≥ e.agingThresholdMs)

def reconcileAgedTurnOwed (s : State H Payload) : State H Payload :=
  if ¬s.agedTurnOwed then s
  else if s.queue.any fun e => !s.settled e.id && s.isAged hk e.toPriorityAdmissionEntry then s
  else { s with agedTurnOwed := false }

def depthChanged (s : State H Payload) : State H Payload :=
  { s with hooks := hk.onDepthChange s.hooks s.queue.length }

def queueChanged (s : State H Payload) : State H Payload :=
  (s.reconcileAgedTurnOwed hk).depthChanged hk

def entryFor (s : State H Payload) (options : PriorityAdmissionAcquireOptions Payload)
    (ownerKey queuePool : String) (sequence : ℕ) : PriorityAdmissionEntry Payload where
  payload := options.payload
  ownerKey := ownerKey
  queuePool := queuePool
  lane := options.lane
  priority := options.priority
  priorityClass := options.priorityClass
  sequence := sequence
  enqueuedAt := hk.now s.hooks
  agingThresholdMs := options.agingThresholdMs

/-- The oldest aged candidate is spared; of the others the lowest and latest goes. -/
def selectDisplacementVictim (s : State H Payload) (priority : ℚ) (ownerKey queuePool : String)
    (ownerFull : Bool) : Option (InternalEntry Payload) :=
  let candidates := s.queue.filter fun e =>
    decide (e.priority < priority) && decide (e.queuePool = queuePool) &&
      (!ownerFull || decide (e.ownerKey = ownerKey))
  let protectedAged := firstBy (fun a b => decide (a.sequence < b.sequence))
    (candidates.filter fun e => s.isAged hk e.toPriorityAdmissionEntry)
  firstBy
    (fun a b => decide (a.priority < b.priority ∨ a.priority = b.priority ∧ b.sequence < a.sequence))
    (candidates.filter fun e => decide (some e.id ≠ protectedAged.map (·.id)))

/-- `decide`: what the queue does with one admission, before anything changes. -/
def decideAdmission (s : State H Payload) (entry : PriorityAdmissionEntry Payload)
    (options : PriorityAdmissionAcquireOptions Payload)
    (handoffReservation : Option HandoffReservation) : AdmissionDecision Payload :=
  match handoffReservation with
  | some _ => .queue
  | none =>
    let globalFull := decide (s.countPool entry.queuePool ≥ options.queueLimit)
    let ownerFull := s.isOwnerFull options.ownerQueueLimit entry.ownerKey
    let reservationFull := options.reserveForHandoff && (globalFull || ownerFull)
    let queuedRunnable := s.queue.any fun queued =>
      !s.settled queued.id && hk.canRun s.hooks queued.toPriorityAdmissionEntry
    if hk.canRun s.hooks entry && !queuedRunnable && !reservationFull then .start
    else if !globalFull && !ownerFull then .queue
    else
      match s.selectDisplacementVictim hk options.priority entry.ownerKey entry.queuePool
        ownerFull with
      | some victim => .displace victim
      | none => .refuse (if globalFull then .globalQueueFull else .ownerQueueFull)

def wouldRefuse (s : State H Payload) (options : PriorityAdmissionAcquireOptions Payload) : Bool :=
  let probe := s.entryFor hk options (options.ownerKey.getD "") (options.queuePool.getD "")
    s.nextSequence
  match s.decideAdmission hk probe options none with
  | .refuse _ => true
  | _ => false

/-- A start that throws leaves no reservation. -/
def start (s : State H Payload) (entry : PriorityAdmissionEntry Payload) (reserveForHandoff : Bool)
    (queueLimit : ℕ) (ownerQueueLimit : Option ℕ) : Except (State H Payload) (State H Payload) :=
  match hk.onStart s.hooks entry with
  | .ok h => .ok { s with
      toLedger := s.toLedger.reserve entry reserveForHandoff queueLimit ownerQueueLimit
      hooks := h }
  | .error h => .error { s with
      toLedger := s.toLedger.unreserve entry.sequence
      hooks := hk.onStartFailureRollback h entry }

/-- The next entry to run: the oldest aged one if a turn is owed, else the highest. -/
def selectNext (s : State H Payload) : Option Selected :=
  let runnable := s.queue.zipIdx.filter fun e =>
    !s.settled e.1.id && hk.canRun s.hooks e.1.toPriorityAdmissionEntry
  let aged := firstBy (fun a b => decide (a.1.sequence < b.1.sequence))
    (runnable.filter fun e => s.isAged hk e.1.toPriorityAdmissionEntry)
  match (if s.agedTurnOwed then aged else none) with
  | some aged => some ⟨aged.2, true, false, true⟩
  | none =>
    match firstBy (fun a b => decide (a.1.priority > b.1.priority ∨
        a.1.priority = b.1.priority ∧ a.1.sequence < b.1.sequence)) runnable with
    | none => none
    | some highest =>
      let createsDebt := !s.agedTurnOwed && s.queue.any fun e =>
        !s.settled e.id && decide (e.id ≠ highest.1.id) && decide (e.priority < highest.1.priority) &&
          s.isAged hk e.toPriorityAdmissionEntry
      some ⟨highest.2, s.isAged hk highest.1.toPriorityAdmissionEntry, createsDebt, false⟩

/-- The debt after a selected entry has started. -/
def serveDebt (s : State H Payload) (selected : Selected) : State H Payload :=
  if selected.servesDebt then { s with agedTurnOwed := false }
  else if selected.createsDebt then { s with agedTurnOwed := true }
  else s

/-- One turn of `pump` with the entry that was taken from the queue. -/
def startNext (s : State H Payload) (selected : Selected) (entry : InternalEntry Payload) :
    State H Payload :=
  if s.settled entry.id then s
  else
    match s.start hk entry.toPriorityAdmissionEntry entry.reserveForHandoff entry.queueLimit
      entry.ownerQueueLimit with
    | .error s =>
      ({ s with toLedger := s.toLedger.rejectOnce entry.id .startFailed }).reconcileAgedTurnOwed hk
    | .ok s =>
      let s := { s with
        settled := update s.settled entry.id true
        log := s.log ++ [Event.started entry.id] }
      (s.serveDebt selected).reconcileAgedTurnOwed hk

theorem start_queue {s t : State H Payload} {entry : PriorityAdmissionEntry Payload} {r : Bool}
    {q : ℕ} {o : Option ℕ} (h : s.start hk entry r q o = .ok t ∨ s.start hk entry r q o = .error t) :
    t.queue = s.queue := by
  unfold start at h
  rcases h with h | h <;> split at h <;> cases h <;> rfl

@[simp] theorem reconcileAgedTurnOwed_toLedger (s : State H Payload) :
    (s.reconcileAgedTurnOwed hk).toLedger = s.toLedger := by
  unfold reconcileAgedTurnOwed
  split
  · rfl
  · split <;> rfl

@[simp] theorem depthChanged_toLedger (s : State H Payload) :
    (s.depthChanged hk).toLedger = s.toLedger := rfl

@[simp] theorem queueChanged_toLedger (s : State H Payload) :
    (s.queueChanged hk).toLedger = s.toLedger := by
  rw [queueChanged, depthChanged_toLedger, reconcileAgedTurnOwed_toLedger]

@[simp] theorem serveDebt_toLedger (s : State H Payload) (selected : Selected) :
    (s.serveDebt selected).toLedger = s.toLedger := by
  unfold serveDebt
  split
  · rfl
  · split <;> rfl

theorem startNext_queue (s : State H Payload) (selected : Selected)
    (entry : InternalEntry Payload) : (s.startNext hk selected entry).queue = s.queue := by
  unfold startNext
  split
  · rfl
  · split
    · next t ht =>
      rw [reconcileAgedTurnOwed_toLedger, ← start_queue hk (.inr ht), Ledger.rejectOnce]
      split <;> rfl
    · next t ht =>
      dsimp only
      rw [reconcileAgedTurnOwed_toLedger, serveDebt_toLedger, ← start_queue hk (.inl ht)]

/-- Entries are taken from the queue until none can run. -/
def pump (s : State H Payload) : State H Payload :=
  let s' := s.reconcileAgedTurnOwed hk
  match s'.selectNext hk with
  | none => s'
  | some selected =>
    match _h : s'.queue[selected.index]? with
    | none => s'
    | some entry =>
      pump ((({ s' with queue := s'.queue.eraseIdx selected.index } :
        State H Payload).depthChanged hk).startNext hk selected entry)
termination_by s.queue.length
decreasing_by
  have hin := (List.getElem?_eq_some_iff.mp _h).1
  have hqueue : s'.queue = s.queue := congrArg Ledger.queue (reconcileAgedTurnOwed_toLedger hk s)
  rw [startNext_queue]
  change (s'.queue.eraseIdx selected.index).length < s.queue.length
  rw [List.length_eraseIdx_of_lt hin, ← hqueue]
  omega

/-- Takes an entry out of the queue, if it is there. -/
def remove (s : State H Payload) (id : ℕ) : Option (State H Payload) :=
  match s.queue.findIdx? fun e => e.id = id with
  | none => none
  | some index => some (({ s with queue := s.queue.eraseIdx index } : State H Payload).queueChanged hk)

/-- What a timeout and an abort do to a queued entry. -/
def rejectQueued (s : State H Payload) (id : ℕ) (reason : RejectReason Payload) : State H Payload :=
  match s.remove hk id with
  | none => s
  | some s => { s with toLedger := s.toLedger.rejectOnce id reason }

def timeout (s : State H Payload) (id : ℕ) : State H Payload :=
  s.rejectQueued hk id .queueWaitTimeout

def onAbort (s : State H Payload) (id : ℕ) : State H Payload :=
  s.rejectQueued hk id .aborted

/-- The victim leaves the queue and is told so. -/
def displace (s : State H Payload) (victim : InternalEntry Payload)
    (displacer : PriorityAdmissionEntry Payload) : State H Payload :=
  let s := (s.remove hk victim.id).getD s
  { s with
    toLedger := s.toLedger.rejectOnce victim.id
      (.displaced victim.toPriorityAdmissionEntry displacer) }

/-- The entry is queued and the queue pumped. -/
def enqueue (s : State H Payload) (base : PriorityAdmissionEntry Payload)
    (options : PriorityAdmissionAcquireOptions Payload)
    (handoffReservation : Option HandoffReservation) : State H Payload × Outcome :=
  let id := s.admissions.length
  let s := match handoffReservation with
    | some reservation => { s with toLedger := s.toLedger.unreserve reservation.sequence }
    | none => s
  let internal : InternalEntry Payload :=
    { base with
      id
      reserveForHandoff := options.reserveForHandoff
      queueLimit := options.queueLimit
      ownerQueueLimit := options.ownerQueueLimit }
  let s := ({ s with
    queue := s.queue ++ [internal]
    admissions := s.admissions ++ [⟨base, options.reserveForHandoff⟩] } :
      State H Payload).queueChanged hk
  let s := if options.abortedInQueue then s.onAbort hk id else s
  (s.pump hk, .queued id)

/-- What follows the decision. -/
def admitEntry (s : State H Payload) (base : PriorityAdmissionEntry Payload)
    (options : PriorityAdmissionAcquireOptions Payload)
    (handoffReservation : Option HandoffReservation) : State H Payload × Outcome :=
  match s.decideAdmission hk base options handoffReservation with
  | .start =>
    match s.start hk base options.reserveForHandoff options.queueLimit options.ownerQueueLimit with
    | .error s => (s, .startFailed)
    | .ok s =>
      let id := s.admissions.length
      ({ s with
        admissions := s.admissions ++ [⟨base, options.reserveForHandoff⟩]
        log := s.log ++ [Event.started id] }, .running id)
  | .refuse reason => (s, .busy reason)
  | .displace victim => (s.displace hk victim base).enqueue hk base options handoffReservation
  | .queue => s.enqueue hk base options handoffReservation

def acquireInternal (s : State H Payload) (options : PriorityAdmissionAcquireOptions Payload)
    (handoffReservation : Option HandoffReservation) : State H Payload × Outcome :=
  if options.aborted then (s, .aborted)
  else
    let s := s.reconcileAgedTurnOwed hk
    match handoffReservation with
    | some reservation =>
      let base := s.entryFor hk options reservation.ownerKey reservation.queuePool
        reservation.sequence
      s.admitEntry hk base options handoffReservation
    | none =>
      let sequence := s.nextSequence
      let s := { s with nextSequence := s.nextSequence + 1 }
      let base := s.entryFor hk options (options.ownerKey.getD "") (options.queuePool.getD "")
        sequence
      s.admitEntry hk base options none

def acquire (s : State H Payload) (options : PriorityAdmissionAcquireOptions Payload) :
    State H Payload × Outcome :=
  s.acquireInternal hk options none

/-- `handoff` of the admission `id`; an admission that reserves nothing has none. -/
def handoff (s : State H Payload) (id : ℕ) (options : PriorityAdmissionAcquireOptions Payload) :
    State H Payload × Outcome :=
  match s.admissions[id]? with
  | none => (s, .noReservation)
  | some held =>
    if ¬held.reserveForHandoff then (s, .noReservation)
    else if options.aborted then (s, .aborted)
    else
      match JsMap.get? s.handoffReservations held.entry.sequence with
      | none => (s, .noReservation)
      | some reservation =>
        if reservation.ownerKey ≠ held.entry.ownerKey then (s, .noReservation)
        else
          State.acquireInternal hk { s with log := s.log ++ [Event.handedOff id] }
            { options with
              ownerKey := some reservation.ownerKey
              queueLimit := reservation.queueLimit
              ownerQueueLimit := reservation.ownerQueueLimit
              reserveForHandoff := false }
            (some reservation)

/-- The closure that a started admission was given. -/
def release (s : State H Payload) (id : ℕ) : State H Payload :=
  match s.admissions[id]? with
  | none => s
  | some held =>
    if ¬s.hasStarted id ∨ s.released id then s
    else
      State.pump hk { s with
        released := update s.released id true
        handoffReservations := JsMap.delete s.handoffReservations held.entry.sequence
        hooks := hk.release s.hooks held.entry }

end State

/-- The calls, and changes of the state of the hooks between them. -/
inductive Op (H Payload : Type*) where
  | acquire (options : PriorityAdmissionAcquireOptions Payload)
  | handoff (id : ℕ) (options : PriorityAdmissionAcquireOptions Payload)
  | release (id : ℕ)
  | abort (id : ℕ)
  | timeout (id : ℕ)
  | pump
  | hooks (h : H)

def step (hk : PriorityAdmissionQueueHooks H Payload) (s : State H Payload) :
    Op H Payload → State H Payload
  | .acquire options => (s.acquire hk options).1
  | .handoff id options => (s.handoff hk id options).1
  | .release id => s.release hk id
  | .abort id => s.onAbort hk id
  | .timeout id => s.timeout hk id
  | .pump => s.pump hk
  | .hooks h => { s with hooks := h }

def run (hk : PriorityAdmissionQueueHooks H Payload) (s : State H Payload)
    (ops : List (Op H Payload)) : State H Payload :=
  ops.foldl (step hk) s

/-- A queue that was just made. -/
def State.new (h : H) : State H Payload where
  queue := []
  handoffReservations := []
  nextSequence := 0
  admissions := []
  settled := fun _ => false
  released := fun _ => false
  log := []
  hooks := h
  agedTurnOwed := false

end Dkg.Admission
