import Dkg.Admission.Handoffs

/-!
The budgets of pools and owners hold in every state, displaced work had lower priority, and a probe
answers what an acquire would do.
-/

namespace Dkg.Admission

open List
variable {H Payload : Type*} {limits : Limits} {l l' : Ledger Payload}

/-- How many queued entries and reservations a test picks by pool and owner. -/
def Ledger.load (l : Ledger Payload) (picks : String → String → Bool) : ℕ :=
  (l.queue.countP fun e => picks e.queuePool e.ownerKey) +
    l.handoffReservations.countP fun e => picks e.2.queuePool e.2.ownerKey

/-- A row of the count. -/
def unit (picks : String → String → Bool) (queuePool ownerKey : String) : ℕ :=
  if picks queuePool ownerKey then 1 else 0

theorem countPool_eq_load (l : Ledger Payload) (queuePool : String) :
    l.countPool queuePool = l.load fun p _ => p = queuePool := rfl

theorem countOwner_eq_load (l : Ledger Payload) (ownerKey : String) :
    l.countOwner ownerKey + l.countReservedOwner ownerKey = l.load fun _ o => o = ownerKey := rfl

section Load
variable (picks : String → String → Bool)

theorem load_push (l : Ledger Payload) (q : InternalEntry Payload) :
    (l.push q).load picks = l.load picks + unit picks q.queuePool q.ownerKey := by
  simp only [Ledger.load, Ledger.push, countP_append, countP_singleton, unit]
  omega

theorem load_take {q : InternalEntry Payload} {index : ℕ} (hq : l.queue[index]? = some q) :
    l.load picks = (l.take index).load picks + unit picks q.queuePool q.ownerKey := by
  have hcount := countP_eraseIdx hq fun e => picks e.queuePool e.ownerKey
  simp only [Ledger.load, Ledger.take, unit]
  omega

theorem load_reserve_le (h : (l.handoffReservations.map Prod.fst).Nodup)
    (entry : PriorityAdmissionEntry Payload) (reserves : Bool) (queueLimit : ℕ)
    (ownerQueueLimit : Option ℕ) :
    (l.reserve entry reserves queueLimit ownerQueueLimit).load picks ≤
      l.load picks + if reserves then unit picks entry.queuePool entry.ownerKey else 0 := by
  unfold Ledger.reserve Ledger.load
  cases reserves with
  | false => exact le_rfl
  | true =>
    have hset := JsMap.countP_set_le (fun e => picks e.2.queuePool e.2.ownerKey) h
      (k := entry.sequence)
      (v := ⟨entry.sequence, entry.ownerKey, entry.queuePool, queueLimit, ownerQueueLimit⟩)
    simp only [if_true, unit] at hset ⊢
    omega

theorem load_unreserve_le (l : Ledger Payload) (sequence : ℕ) :
    (l.unreserve sequence).load picks ≤ l.load picks :=
  Nat.add_le_add_left (JsMap.countP_delete_le _) _

theorem load_unreserve {k : ℕ} {r : HandoffReservation}
    (hr : JsMap.get? l.handoffReservations k = some r) :
    (l.unreserve k).load picks + unit picks r.queuePool r.ownerKey ≤ l.load picks := by
  unfold unit
  split_ifs with hpick
  · exact Nat.add_lt_add_left (JsMap.countP_delete_lt
      (fun e => picks e.2.queuePool e.2.ownerKey) hr hpick) _
  · exact load_unreserve_le picks l k

theorem load_rejectOnce (l : Ledger Payload) (id : ℕ) (reason : RejectReason Payload) :
    (l.rejectOnce id reason).load picks = l.load picks := by
  obtain ⟨hqueue, hreservations, -⟩ := rejectOnce_frame l id reason
  rw [Ledger.load, Ledger.load, hqueue, hreservations]

end Load

/-- The budgets of pools and owners. -/
structure Budgeted (limits : Limits) (l : Ledger Payload) : Prop where
  pool : ∀ queuePool, l.countPool queuePool ≤ limits.queueLimit queuePool
  owner : ∀ ownerKey, ∀ limit ∈ limits.ownerQueueLimit ownerKey,
    l.countOwner ownerKey + l.countReservedOwner ownerKey ≤ limit

section Budgets

/-- One more in a pool that is not full. -/
theorem Budgeted.pool_of_room (h : Budgeted limits l) {queuePool ownerKey : String}
    (hload : ∀ picks, l'.load picks ≤ l.load picks + unit picks queuePool ownerKey)
    (hroom : ¬l.globalFull limits queuePool) (p : String) :
    l'.countPool p ≤ limits.queueLimit p := by
  have hle := hload fun p' _ => decide (p' = p)
  rw [← countPool_eq_load, ← countPool_eq_load] at hle
  by_cases hp : queuePool = p
  · subst hp
    have hlt := not_le.mp hroom
    simp only [unit, decide_true, if_true] at hle
    omega
  · simp only [unit, hp, decide_false, Bool.false_eq_true, if_false] at hle
    exact hle.trans (h.pool p)

/-- One more of an owner that is not full. -/
theorem Budgeted.owner_of_room (h : Budgeted limits l) {queuePool ownerKey : String}
    (hload : ∀ picks, l'.load picks ≤ l.load picks + unit picks queuePool ownerKey)
    (hroom : ¬l.ownerFull limits ownerKey) (o : String) (limit : ℕ)
    (hlimit : limit ∈ limits.ownerQueueLimit o) :
    l'.countOwner o + l'.countReservedOwner o ≤ limit := by
  have hle := hload fun _ o' => decide (o' = o)
  rw [← countOwner_eq_load, ← countOwner_eq_load] at hle
  by_cases ho : ownerKey = o
  · subst ho
    have hlt : ¬limit ≤ _ := fun hfull => hroom ⟨limit, hlimit, hfull⟩
    simp only [unit, decide_true, if_true] at hle
    omega
  · simp only [unit, ho, decide_false, Bool.false_eq_true, if_false] at hle
    exact hle.trans (h.owner o limit hlimit)

theorem Budgeted.of_le (h : Budgeted limits l) (hload : ∀ picks, l'.load picks ≤ l.load picks) :
    Budgeted limits l' := by
  refine ⟨fun queuePool => ?_, fun ownerKey limit hlimit => ?_⟩
  · rw [countPool_eq_load]
    exact (hload _).trans (h.pool queuePool)
  · rw [countOwner_eq_load]
    exact (hload _).trans (h.owner ownerKey limit hlimit)

/-- A move keeps the budgets. -/
theorem Budgeted.move (h : Budgeted limits l) (ha : Accounted l) (hs : Sequenced l)
    (hmove : Move limits l l') : Budgeted limits l' := by
  cases hmove with
  | skip => exact h.of_le fun _ => le_rfl
  | startNew entry reserves queueLimit ownerQueueLimit hsequence hroom =>
    have hload := fun picks => load_reserve_le picks hs.nodup entry reserves queueLimit
      ownerQueueLimit
    cases reserves with
    | false => exact h.of_le hload
    | true =>
      obtain ⟨hglobal, howner⟩ := hroom rfl
      exact ⟨h.pool_of_room hload hglobal, h.owner_of_room hload howner⟩
  | enqueue q hid hsequence hglobal howner =>
    have hload := fun picks => (load_push picks l q).le
    exact ⟨h.pool_of_room hload hglobal, h.owner_of_room hload howner⟩
  | displace victim v q index hid hsequence hvictim hv hsame hpriority hpool howner =>
    have heq : victim = v := ha.eq_of_id hv hvictim hsame.symm
    subst heq
    have hload : ∀ picks, (((l.take index).rejectOnce victim.id (.displaced
        victim.toPriorityAdmissionEntry q.toPriorityAdmissionEntry)).push q).load picks +
        unit picks victim.queuePool victim.ownerKey =
          l.load picks + unit picks q.queuePool q.ownerKey := by
      intro picks
      rw [load_push, load_rejectOnce, load_take picks hv]
      omega
    by_cases hfull : l.ownerFull limits q.ownerKey
    · refine h.of_le fun picks => ?_
      have hle := hload picks
      rw [hpool, howner hfull] at hle
      exact Nat.le_of_add_le_add_right hle.le
    · have hadd := fun picks => (Nat.le_add_right _ _).trans (hload picks).le
      refine ⟨fun p => ?_, h.owner_of_room hadd hfull⟩
      have hle := hload fun p' _ => decide (p' = p)
      rw [hpool] at hle
      exact (Nat.le_of_add_le_add_right hle.le).trans (h.pool p)
  | handoff id held r q hheld hreserve hr hid hsequence hpool howner hq =>
    have hk := (hs.holds hheld hreserve (JsMap.mem_of_get? hr)).1
    refine h.of_le fun picks => ?_
    rw [load_push, hpool, howner, hk]
    exact load_unreserve picks hr
  | startQueued q index hq =>
    refine h.of_le fun picks => ?_
    have hreserve := load_reserve_le picks (l := l.take index) hs.nodup q.toPriorityAdmissionEntry
      q.reserveForHandoff q.queueLimit q.ownerQueueLimit
    have htake := load_take picks hq
    change ((l.take index).reserve _ _ _ _).load picks ≤ _
    split at hreserve <;> omega
  | failQueued q index hq =>
    refine h.of_le fun picks => ?_
    have htake := load_take picks hq
    have hfree := load_unreserve_le picks (l.take index) q.sequence
    rw [load_rejectOnce]
    omega
  | reject q index hq reason hreason =>
    refine h.of_le fun picks => ?_
    have htake := load_take picks hq
    rw [load_rejectOnce]
    omega
  | drop q index hq hsettled =>
    refine h.of_le fun picks => ?_
    have htake := load_take picks hq
    omega
  | failNew => exact h.of_le fun picks => load_unreserve_le picks l l.nextSequence
  | release id held hheld hstarted =>
    exact h.of_le fun picks => load_unreserve_le picks l held.entry.sequence

end Budgets

section Displaced

/-- Displaced work had a lower priority and the pool of its displacer. -/
def Displaces (l : Ledger Payload) : Prop :=
  ∀ id victim displacer, Event.rejected id (.displaced victim displacer) ∈ l.log →
    victim.priority < displacer.priority ∧ victim.queuePool = displacer.queuePool

/-- Events that tell no displacement. -/
theorem Displaces.append (h : Displaces l) {event : Event Payload}
    (hevent : ∀ id victim displacer, event = .rejected id (.displaced victim displacer) →
      victim.priority < displacer.priority ∧ victim.queuePool = displacer.queuePool)
    (hlog : l'.log = l.log ∨ l'.log = l.log ++ [event]) : Displaces l' := by
  intro id victim displacer hmem
  rcases hlog with hlog | hlog
  · rw [hlog] at hmem
    exact h id victim displacer hmem
  · rw [hlog] at hmem
    rcases mem_append.mp hmem with hmem | hmem
    · exact h id victim displacer hmem
    · exact hevent id victim displacer (mem_singleton.mp hmem).symm

theorem Displaces.move (h : Displaces l) (hmove : Move limits l l') : Displaces l' := by
  cases hmove with
  | skip => exact h
  | startNew => exact h.append (fun _ _ _ he => by cases he) (.inr rfl)
  | enqueue => exact h
  | displace victim v q index hid hsequence hvictim hv hsame hpriority hpool howner =>
    refine h.append ?_ (rejectOnce_log (l.take index) victim.id (.displaced
      victim.toPriorityAdmissionEntry q.toPriorityAdmissionEntry))
    rintro id _ _ ⟨⟩
    exact ⟨hpriority, hpool⟩
  | handoff | startQueued => exact h.append (fun _ _ _ he => by cases he) (.inr rfl)
  | failQueued q index hq =>
    exact h.append (fun _ _ _ he => by cases he) (rejectOnce_log _ q.id .startFailed)
  | reject q index hq reason hreason =>
    refine h.append ?_ (rejectOnce_log (l.take index) q.id reason)
    rintro id victim displacer ⟨⟩
    exact absurd rfl (hreason victim displacer)
  | drop | failNew | release => exact h

end Displaced

/-- What holds in every state of the queue. -/
structure Invariant (limits : Limits) (l : Ledger Payload) : Prop where
  accounted : Accounted l
  sequenced : Sequenced l
  budgeted : Budgeted limits l
  displaces : Displaces l

theorem Invariant.moves (h : Invariant limits l) (hmoves : Moves limits l l') :
    Invariant limits l' := by
  induction hmoves with
  | refl => exact h
  | tail _ hmove ih =>
    exact ⟨ih.accounted.move hmove, ih.sequenced.move ih.accounted hmove,
      ih.budgeted.move ih.accounted ih.sequenced hmove, ih.displaces.move hmove⟩

theorem invariant_new (limits : Limits) (h : H) :
    Invariant limits (State.new h : State H Payload).toLedger := by
  refine ⟨⟨fun _ => rfl, ?_, ?_⟩, ⟨nodup_nil, ?_, ?_, ?_, ?_, ?_, ?_⟩,
    ⟨fun _ => Nat.zero_le _, fun _ _ _ => Nat.zero_le _⟩, ?_⟩
  · exact fun _ he => (not_mem_nil he).elim
  · exact fun _ hsettled => (Bool.false_ne_true hsettled).elim
  · exact fun _ he => (not_mem_nil he).elim
  · exact fun _ _ hheld => (not_mem_nil (mem_of_getElem? hheld)).elim
  · exact fun _ _ _ _ hheld => (not_mem_nil (mem_of_getElem? hheld)).elim
  · exact fun _ _ hr => (not_mem_nil hr).elim
  · exact fun _ hreleased => (Bool.false_ne_true hreleased).elim
  · exact fun _ => ⟨Nat.zero_le 1, fun hpos => absurd hpos (lt_irrefl 0)⟩
  · exact fun _ _ _ hmem => (not_mem_nil hmem).elim

/-- Every state that a run reaches. -/
theorem run_invariant (hk : PriorityAdmissionQueueHooks H Payload) (h : H)
    (ops : List (Op H Payload)) (hops : ∀ op ∈ ops, op.Within limits) :
    Invariant limits (run hk (State.new h) ops).toLedger :=
  (invariant_new limits h).moves (run_moves hk (State.new h) ops hops)

section Log

theorem rejectOnce_extends (l : Ledger Payload) (id : ℕ) (reason : RejectReason Payload) :
    ∃ events, (l.rejectOnce id reason).log = l.log ++ events := by
  rcases rejectOnce_log l id reason with hlog | hlog
  · exact ⟨[], hlog.trans (append_nil _).symm⟩
  · exact ⟨_, hlog⟩

/-- What was told stays told. -/
theorem move_log (hmove : Move limits l l') : ∃ events, l'.log = l.log ++ events := by
  cases hmove with
  | startNew | handoff | startQueued => exact ⟨_, rfl⟩
  | displace victim => exact rejectOnce_extends _ victim.id _
  | failQueued q => exact rejectOnce_extends _ q.id _
  | reject q index hq reason => exact rejectOnce_extends _ q.id reason
  | skip | enqueue | drop | failNew | release => exact ⟨[], (append_nil _).symm⟩

theorem moves_handedOff_le (hmoves : Moves limits l l') (id : ℕ) :
    l.handedOffCount id ≤ l'.handedOffCount id := by
  induction hmoves with
  | refl => exact le_rfl
  | tail _ hmove ih =>
    obtain ⟨events, hlog⟩ := move_log hmove
    refine ih.trans ?_
    rw [Ledger.handedOffCount, Ledger.handedOffCount, hlog, countP_append]
    exact Nat.le_add_right _ _

end Log

section Calls
variable (hk : PriorityAdmissionQueueHooks H Payload) {s : State H Payload}

/-- A handoff that succeeds is the first of an admission that runs, and is told. -/
theorem handoff_queued (h : Sequenced s.toLedger) {id k : ℕ}
    {options : PriorityAdmissionAcquireOptions Payload}
    (hqueued : (s.handoff hk id options).2 = .queued k) :
    Holds s.toLedger id ∧ 0 < (s.handoff hk id options).1.handedOffCount id := by
  have hlimits : Limits := ⟨fun _ => 0, fun _ => none⟩
  obtain ⟨-, hnot⟩ | ⟨held, r, q, hheld, hreserve, hr, -, hmoves⟩ :
    _ ∨ ∃ held r q, s.admissions[id]? = some held ∧ held.reserveForHandoff = true ∧
      JsMap.get? s.handoffReservations held.entry.sequence = some r ∧
      Move hlimits s.toLedger _ ∧ Moves hlimits _ _ := handoff_cases hk s id options
  · exact absurd hqueued (hnot k)
  · refine ⟨(h.holds hheld hreserve (JsMap.mem_of_get? hr)).2, ?_⟩
    refine lt_of_lt_of_le ?_ (moves_handedOff_le hmoves id)
    refine countP_pos_iff.mpr ⟨.handedOff id, mem_append_right _ mem_cons_self, ?_⟩
    exact decide_eq_true rfl

theorem reconcileAgedTurnOwed_hooks (s : State H Payload) :
    (s.reconcileAgedTurnOwed hk).hooks = s.hooks := by
  unfold State.reconcileAgedTurnOwed
  split
  · rfl
  · split <;> rfl

/-- The decision reads the queue, the reservations and the hooks. -/
theorem decideAdmission_congr {t : State H Payload} (hqueue : t.queue = s.queue)
    (hreservations : t.handoffReservations = s.handoffReservations)
    (hsettled : t.settled = s.settled) (hhooks : t.hooks = s.hooks)
    (entry : PriorityAdmissionEntry Payload) (options : PriorityAdmissionAcquireOptions Payload) :
    t.decideAdmission hk entry options none = s.decideAdmission hk entry options none := by
  unfold State.decideAdmission State.selectDisplacementVictim State.isAged Ledger.isOwnerFull
    Ledger.countPool Ledger.countOwner Ledger.countReservedOwner
  rw [hqueue, hreservations, hsettled, hhooks]

theorem admitEntry_busy (s : State H Payload) (base : PriorityAdmissionEntry Payload)
    (options : PriorityAdmissionAcquireOptions Payload) :
    (∃ reason, (s.admitEntry hk base options none).2 = .busy reason) ↔
      ∃ reason, s.decideAdmission hk base options none = .refuse reason := by
  unfold State.admitEntry
  cases s.decideAdmission hk base options none with
  | start =>
    dsimp only
    split <;> simp
  | refuse reason => simp
  | displace victim | queue => simp [State.enqueue]

/-- A probe answers what an acquire does. -/
theorem wouldRefuse_iff (s : State H Payload) (options : PriorityAdmissionAcquireOptions Payload)
    (haborted : options.aborted = false) :
    s.wouldRefuse hk options = true ↔ ∃ reason, (s.acquire hk options).2 = .busy reason := by
  have hledger := State.reconcileAgedTurnOwed_toLedger hk s
  have hhooks := reconcileAgedTurnOwed_hooks hk s
  unfold State.wouldRefuse State.acquire State.acquireInternal
  rw [if_neg (by rw [haborted]; exact Bool.false_ne_true)]
  generalize s.reconcileAgedTurnOwed hk = t at hledger hhooks
  have hbase : State.entryFor hk { t with nextSequence := t.nextSequence + 1 } options
      (options.ownerKey.getD "") (options.queuePool.getD "") t.nextSequence =
        s.entryFor hk options (options.ownerKey.getD "") (options.queuePool.getD "")
          s.nextSequence := by
    unfold State.entryFor
    dsimp only
    rw [hhooks, hledger]
  have hdecide : ∀ entry, State.decideAdmission hk { t with nextSequence := t.nextSequence + 1 }
      entry options none = s.decideAdmission hk entry options none := fun entry =>
    decideAdmission_congr hk (congrArg Ledger.queue hledger)
      (congrArg Ledger.handoffReservations hledger) (congrArg Ledger.settled hledger) hhooks entry
      options
  dsimp only
  rw [admitEntry_busy, hbase, hdecide]
  split
  · next reason hrefuse => simp [hrefuse]
  · next hnot =>
    refine ⟨fun h => (Bool.false_ne_true h).elim, ?_⟩
    rintro ⟨reason, hrefuse⟩
    exact absurd hrefuse (hnot reason)

end Calls

/-- The admission queue keeps its budgets in every state, settles every admission once, hands off at
most once and displaces only lower priorities, and a probe is true exactly when an acquire would be
refused. -/
theorem admissionQueue_safe (hk : PriorityAdmissionQueueHooks H Payload) (h : H) (limits : Limits)
    (ops : List (Op H Payload)) (hops : ∀ op ∈ ops, op.Within limits) :
    (∀ queuePool, (run hk (State.new h) ops).countPool queuePool ≤ limits.queueLimit queuePool) ∧
    (∀ ownerKey, ∀ limit ∈ limits.ownerQueueLimit ownerKey,
      (run hk (State.new h) ops).countOwner ownerKey +
        (run hk (State.new h) ops).countReservedOwner ownerKey ≤ limit) ∧
    (∀ id < (run hk (State.new h) ops).admissions.length,
      (run hk (State.new h) ops).queuedCount id + (run hk (State.new h) ops).startedCount id +
        (run hk (State.new h) ops).rejectedCount id = 1) ∧
    (∀ id, (run hk (State.new h) ops).handedOffCount id ≤ 1) ∧
    (∀ id options k, ((run hk (State.new h) ops).handoff hk id options).2 = .queued k →
      (run hk (State.new h) ops).hasStarted id = true ∧
      (run hk (State.new h) ops).released id = false ∧
      (run hk (State.new h) ops).handedOffCount id = 0 ∧
      0 < ((run hk (State.new h) ops).handoff hk id options).1.handedOffCount id) ∧
    (∀ id victim displacer,
      Event.rejected id (.displaced victim displacer) ∈ (run hk (State.new h) ops).log →
        victim.priority < displacer.priority ∧ victim.queuePool = displacer.queuePool) ∧
    ∀ options, options.aborted = false →
      ((run hk (State.new h) ops).wouldRefuse hk options = true ↔
        ∃ reason, ((run hk (State.new h) ops).acquire hk options).2 = .busy reason) := by
  have hinv := run_invariant hk h ops hops
  refine ⟨hinv.budgeted.pool, hinv.budgeted.owner, ?_, ?_, ?_, hinv.displaces, ?_⟩
  · intro id hid
    rw [hinv.accounted.account, if_pos hid]
  · intro id
    exact (hinv.sequenced.handedOff id).1
  · intro id options k hqueued
    obtain ⟨⟨hstarted, hreleased, hunused⟩, htold⟩ := handoff_queued hk hinv.sequenced hqueued
    exact ⟨hstarted, hreleased, hunused, htold⟩
  · intro options haborted
    exact wouldRefuse_iff hk _ options haborted

/-- Work that runs one at a time. -/
def oneAtATime : PriorityAdmissionQueueHooks ℕ Unit where
  canRun := fun running _ => running = 0
  onStart := fun running _ => .ok (running + 1)
  onStartFailureRollback := fun running _ => running
  release := fun running _ => running - 1
  onDepthChange := fun running _ => running
  now := fun _ => 0

def workOf (priority : ℚ) (reserveForHandoff : Bool) : PriorityAdmissionAcquireOptions Unit where
  payload := ()
  ownerKey := none
  queuePool := none
  lane := .durable
  priority := priority
  priorityClass := .default
  queueLimit := 2
  ownerQueueLimit := some 2
  agingThresholdMs := 1
  reserveForHandoff := reserveForHandoff
  aborted := false
  abortedInQueue := false

/-- Running work with a reservation, and an entry displaced by a higher one. -/
def displacing : List (Op ℕ Unit) :=
  [.acquire (workOf 0 true), .acquire (workOf 0 false), .acquire (workOf 1 false)]

/-- The budget of two is full, the second admission was rejected, the first can hand off, and more
work of low priority would be refused. -/
theorem admissionQueue_safe_displacing :
    (run oneAtATime (State.new 0) displacing).countPool "" = 2 ∧
      (run oneAtATime (State.new 0) displacing).queuedCount 1 +
        (run oneAtATime (State.new 0) displacing).startedCount 1 +
        (run oneAtATime (State.new 0) displacing).rejectedCount 1 = 1 ∧
      (run oneAtATime (State.new 0) displacing).hasStarted 0 = true ∧
      ∃ reason, ((run oneAtATime (State.new 0) displacing).acquire oneAtATime
        (workOf 0 false)).2 = .busy reason := by
  have hops : ∀ op ∈ displacing, op.Within ⟨fun _ => 2, fun _ => some 2⟩ := by
    intro op hop
    simp only [displacing, mem_cons, not_mem_nil, or_false] at hop
    rcases hop with rfl | rfl | rfl <;> exact ⟨rfl, rfl⟩
  obtain ⟨-, -, haccount, -, hhandoff, -, hprobe⟩ :=
    admissionQueue_safe oneAtATime 0 ⟨fun _ => 2, fun _ => some 2⟩ displacing hops
  refine ⟨by decide +kernel, haccount 1 (by decide +kernel), ?_, ?_⟩
  · exact (hhandoff 0 (workOf 0 false) 3 (by decide +kernel)).1
  · exact (hprobe (workOf 0 false) rfl).mp (by decide +kernel)

end Dkg.Admission
