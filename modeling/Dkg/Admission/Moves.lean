import Dkg.Admission.Queue
import Mathlib.Logic.Relation

/-!
What the calls of the admission queue do to its ledger, as a few moves. Every invariant of the
queue is proved for the moves.
-/

namespace Dkg.Admission

open List
variable {H Payload : Type*}

/-- The budgets of pools and owners. -/
structure Limits where
  queueLimit : String → ℕ
  ownerQueueLimit : String → Option ℕ

namespace Ledger

def ownerFull (l : Ledger Payload) (limits : Limits) (ownerKey : String) : Prop :=
  ∃ limit ∈ limits.ownerQueueLimit ownerKey,
    limit ≤ l.countOwner ownerKey + l.countReservedOwner ownerKey

def globalFull (l : Ledger Payload) (limits : Limits) (queuePool : String) : Prop :=
  limits.queueLimit queuePool ≤ l.countPool queuePool

/-- A new entry at the end of the queue. -/
def push (l : Ledger Payload) (q : InternalEntry Payload) : Ledger Payload :=
  { l with
    queue := l.queue ++ [q]
    admissions := l.admissions ++ [⟨q.toPriorityAdmissionEntry, q.reserveForHandoff⟩] }

def take (l : Ledger Payload) (index : ℕ) : Ledger Payload :=
  { l with queue := l.queue.eraseIdx index }

def settle (l : Ledger Payload) (id : ℕ) : Ledger Payload :=
  { l with
    settled := Function.update l.settled id true
    log := l.log ++ [.started id] }

end Ledger

theorem rejectOnce_frame (l : Ledger Payload) (id : ℕ) (reason : RejectReason Payload) :
    (l.rejectOnce id reason).queue = l.queue ∧
      (l.rejectOnce id reason).handoffReservations = l.handoffReservations ∧
      (l.rejectOnce id reason).nextSequence = l.nextSequence ∧
      (l.rejectOnce id reason).admissions = l.admissions ∧
      (l.rejectOnce id reason).released = l.released := by
  unfold Ledger.rejectOnce
  split <;> exact ⟨rfl, rfl, rfl, rfl, rfl⟩

/-- One change of the ledger. -/
inductive Move (limits : Limits) : Ledger Payload → Ledger Payload → Prop where
  /-- A sequence number is used up. -/
  | skip (l : Ledger Payload) : Move limits l { l with nextSequence := l.nextSequence + 1 }
  /-- Work that starts at once. -/
  | startNew (l : Ledger Payload) (entry : PriorityAdmissionEntry Payload) (reserves : Bool)
      (queueLimit : ℕ) (ownerQueueLimit : Option ℕ) (hsequence : entry.sequence = l.nextSequence)
      (hroom : reserves = true → ¬l.globalFull limits entry.queuePool ∧
        ¬l.ownerFull limits entry.ownerKey) :
      Move limits l { l.reserve entry reserves queueLimit ownerQueueLimit with
        nextSequence := l.nextSequence + 1
        admissions := l.admissions ++ [⟨entry, reserves⟩]
        log := l.log ++ [.started l.admissions.length] }
  | enqueue (l : Ledger Payload) (q : InternalEntry Payload) (hid : q.id = l.admissions.length)
      (hsequence : q.sequence = l.nextSequence) (hglobal : ¬l.globalFull limits q.queuePool)
      (howner : ¬l.ownerFull limits q.ownerKey) :
      Move limits l { l.push q with nextSequence := l.nextSequence + 1 }
  /-- An entry takes the place of one with the identity of `victim`. -/
  | displace (l : Ledger Payload) (victim v q : InternalEntry Payload) (index : ℕ)
      (hid : q.id = l.admissions.length) (hsequence : q.sequence = l.nextSequence)
      (hvictim : victim ∈ l.queue) (hv : l.queue[index]? = some v) (hsame : v.id = victim.id)
      (hpriority : victim.priority < q.priority) (hpool : victim.queuePool = q.queuePool)
      (howner : l.ownerFull limits q.ownerKey → victim.ownerKey = q.ownerKey) :
      Move limits l { ((l.take index).rejectOnce victim.id (.displaced
          victim.toPriorityAdmissionEntry q.toPriorityAdmissionEntry)).push q with
        nextSequence := l.nextSequence + 1 }
  /-- A reservation becomes an entry of the queue. -/
  | handoff (l : Ledger Payload) (id : ℕ) (held : Held Payload) (r : HandoffReservation)
      (q : InternalEntry Payload) (hheld : l.admissions[id]? = some held)
      (hreserve : held.reserveForHandoff = true)
      (hr : JsMap.get? l.handoffReservations held.entry.sequence = some r)
      (hid : q.id = l.admissions.length) (hsequence : q.sequence = r.sequence)
      (hpool : q.queuePool = r.queuePool) (howner : q.ownerKey = r.ownerKey)
      (hq : q.reserveForHandoff = false) :
      Move limits l (({ l with log := l.log ++ [Event.handedOff id] }.unreserve r.sequence).push q)
  | startQueued (l : Ledger Payload) (q : InternalEntry Payload) (index : ℕ)
      (hq : l.queue[index]? = some q) :
      Move limits l (((l.take index).reserve q.toPriorityAdmissionEntry q.reserveForHandoff
        q.queueLimit q.ownerQueueLimit).settle q.id)
  | failQueued (l : Ledger Payload) (q : InternalEntry Payload) (index : ℕ)
      (hq : l.queue[index]? = some q) :
      Move limits l (((l.take index).unreserve q.sequence).rejectOnce q.id .startFailed)
  /-- An entry that times out or is aborted. -/
  | reject (l : Ledger Payload) (q : InternalEntry Payload) (index : ℕ)
      (hq : l.queue[index]? = some q) (reason : RejectReason Payload)
      (hreason : ∀ victim displacer, reason ≠ .displaced victim displacer) :
      Move limits l ((l.take index).rejectOnce q.id reason)
  /-- An entry that is settled already is dropped. -/
  | drop (l : Ledger Payload) (q : InternalEntry Payload) (index : ℕ)
      (hq : l.queue[index]? = some q) (hsettled : l.settled q.id = true) :
      Move limits l (l.take index)
  /-- A start that fails takes the sequence number out of the reservations. -/
  | failNew (l : Ledger Payload) :
      Move limits l { l.unreserve l.nextSequence with nextSequence := l.nextSequence + 1 }
  | release (l : Ledger Payload) (id : ℕ) (held : Held Payload)
      (hheld : l.admissions[id]? = some held) (hstarted : l.hasStarted id = true) :
      Move limits l { l.unreserve held.entry.sequence with
        released := Function.update l.released id true }

/-- Some moves. -/
abbrev Moves (limits : Limits) : Ledger Payload → Ledger Payload → Prop :=
  Relation.ReflTransGen (Move limits)

section Calls
variable {limits : Limits} (hk : PriorityAdmissionQueueHooks H Payload) (s : State H Payload)
  {options : PriorityAdmissionAcquireOptions Payload} {l : Ledger Payload}

theorem start_cases (entry : PriorityAdmissionEntry Payload) (reserves : Bool) (queueLimit : ℕ)
    (ownerQueueLimit : Option ℕ) :
    (∃ t, s.start hk entry reserves queueLimit ownerQueueLimit = .ok t ∧
      t.toLedger = s.toLedger.reserve entry reserves queueLimit ownerQueueLimit) ∨
    ∃ t, s.start hk entry reserves queueLimit ownerQueueLimit = .error t ∧
      t.toLedger = s.toLedger.unreserve entry.sequence := by
  unfold State.start
  split
  · exact .inl ⟨_, rfl, rfl⟩
  · exact .inr ⟨_, rfl, rfl⟩

theorem startNext_move (selected : Selected) (q : InternalEntry Payload)
    {index : ℕ} (hq : l.queue[index]? = some q) (hs : s.toLedger = l.take index) :
    Move limits l (s.startNext hk selected q).toLedger := by
  unfold State.startNext
  split_ifs with hsettled
  · rw [hs] at hsettled ⊢
    exact .drop l q index hq hsettled
  · obtain ⟨t, ht, hledger⟩ | ⟨t, ht, hledger⟩ :=
      start_cases hk s q.toPriorityAdmissionEntry q.reserveForHandoff q.queueLimit q.ownerQueueLimit
    · rw [ht]
      dsimp only
      rw [State.reconcileAgedTurnOwed_toLedger, State.serveDebt_toLedger]
      have hmove : Move limits l _ := .startQueued l q index hq
      rw [← hs, ← hledger] at hmove
      exact hmove
    · rw [ht]
      dsimp only
      rw [State.reconcileAgedTurnOwed_toLedger]
      have hmove : Move limits l _ := .failQueued l q index hq
      rw [← hs, ← hledger] at hmove
      exact hmove

theorem pump_moves : Moves limits s.toLedger (s.pump hk).toLedger := by
  fun_induction State.pump hk s with
  | case1 s s' hnone | case2 s s' selected hsel hnone => rw [State.reconcileAgedTurnOwed_toLedger]
  | case3 s s' selected hsel entry hentry ih =>
    have hledger : s'.toLedger = s.toLedger := State.reconcileAgedTurnOwed_toLedger hk s
    have hmove : Move limits s'.toLedger _ := startNext_move hk
      (({ s' with queue := s'.queue.eraseIdx selected.index } : State H Payload).depthChanged hk)
      selected entry hentry rfl
    rw [← hledger]
    exact Relation.ReflTransGen.head hmove ih

theorem remove_some {id : ℕ} {t : State H Payload} (h : s.remove hk id = some t) :
    ∃ index q, s.queue[index]? = some q ∧ q.id = id ∧ t.toLedger = s.toLedger.take index := by
  unfold State.remove at h
  split at h
  · cases h
  · next index hindex =>
    cases h
    obtain ⟨hlt, hid, -⟩ := findIdx?_eq_some_iff_getElem.mp hindex
    exact ⟨index, _, getElem?_eq_getElem hlt, of_decide_eq_true hid,
      State.queueChanged_toLedger hk _⟩

theorem rejectQueued_moves (id : ℕ) (reason : RejectReason Payload)
    (hreason : ∀ victim displacer, reason ≠ .displaced victim displacer) :
    Moves limits s.toLedger (s.rejectQueued hk id reason).toLedger := by
  unfold State.rejectQueued
  split
  · exact .refl
  · next t ht =>
    obtain ⟨index, q, hq, rfl, hledger⟩ := remove_some hk s ht
    have hmove : Move limits s.toLedger _ := .reject s.toLedger q index hq reason hreason
    rw [← hledger] at hmove
    exact .single hmove

theorem remove_of_mem {q : InternalEntry Payload} (h : q ∈ s.queue) :
    ∃ t, s.remove hk q.id = some t := by
  unfold State.remove
  cases hindex : s.queue.findIdx? fun e => decide (e.id = q.id) with
  | none =>
    have hnone := findIdx?_eq_none_iff.mp hindex q h
    simp at hnone
  | some index => exact ⟨_, rfl⟩

/-- After the entry is in the queue only entries are taken from it. -/
theorem settleQueue_moves (id : ℕ) (aborted : Bool) (hs : Moves limits l s.toLedger) :
    Moves limits l ((if aborted then s.onAbort hk id else s).pump hk).toLedger := by
  refine hs.trans ?_
  split
  · exact (rejectQueued_moves hk s id _ (fun _ _ h => by cases h)).trans (pump_moves hk _)
  · exact pump_moves hk s

theorem firstBy_mem {α : Type*} {precedes : α → α → Bool} {xs : List α} {x : α}
    (h : firstBy precedes xs = some x) : x ∈ xs := by
  have hfold : ∀ (ys : List α) (best : α),
      ys.foldl (fun best y => if precedes y best then y else best) best ∈ best :: ys := by
    intro ys
    induction ys with
    | nil => exact fun best => mem_cons_self
    | cons y ys ih =>
      intro best
      rw [foldl_cons]
      rcases mem_cons.mp (ih (if precedes y best then y else best)) with heq | hmem
      · rw [heq]
        split
        · exact mem_cons_of_mem _ mem_cons_self
        · exact mem_cons_self
      · exact mem_cons_of_mem _ (mem_cons_of_mem _ hmem)
  cases xs with
  | nil => cases h
  | cons y ys =>
    cases h
    exact hfold ys y

theorem selectDisplacementVictim_some {priority : ℚ} {ownerKey queuePool : String}
    {ownerFull : Bool} {victim : InternalEntry Payload}
    (h : s.selectDisplacementVictim hk priority ownerKey queuePool ownerFull = some victim) :
    victim ∈ s.queue ∧ victim.priority < priority ∧ victim.queuePool = queuePool ∧
      (ownerFull = true → victim.ownerKey = ownerKey) := by
  have hmem := (mem_filter.mp (firstBy_mem h)).1
  obtain ⟨hqueue, hkept⟩ := mem_filter.mp hmem
  simp only [Bool.and_eq_true, decide_eq_true_eq, Bool.or_eq_true, Bool.not_eq_true'] at hkept
  obtain ⟨⟨hpriority, hpool⟩, howner⟩ := hkept
  refine ⟨hqueue, hpriority, hpool, fun hfull => ?_⟩
  rcases howner with hnot | howner
  · exact absurd hfull (by rw [hnot]; exact Bool.false_ne_true)
  · exact howner

/-- What each decision says about the queue. -/
def DecisionOk (limits : Limits) (l : Ledger Payload) (entry : PriorityAdmissionEntry Payload)
    (reserves : Bool) : AdmissionDecision Payload → Prop
  | .start => reserves = true →
      ¬l.globalFull limits entry.queuePool ∧ ¬l.ownerFull limits entry.ownerKey
  | .queue => ¬l.globalFull limits entry.queuePool ∧ ¬l.ownerFull limits entry.ownerKey
  | .displace victim => victim ∈ l.queue ∧ victim.priority < entry.priority ∧
      victim.queuePool = entry.queuePool ∧
      (l.ownerFull limits entry.ownerKey → victim.ownerKey = entry.ownerKey)
  | .refuse _ => True

theorem decideAdmission_ok {entry : PriorityAdmissionEntry Payload}
    (hpool : options.queueLimit = limits.queueLimit entry.queuePool)
    (howner : options.ownerQueueLimit = limits.ownerQueueLimit entry.ownerKey)
    (hpriority : options.priority = entry.priority) :
    DecisionOk limits s.toLedger entry options.reserveForHandoff
      (s.decideAdmission hk entry options none) := by
  unfold State.decideAdmission
  dsimp only
  generalize hg : decide (s.countPool entry.queuePool ≥ options.queueLimit) = globalFull
  generalize ho : s.isOwnerFull options.ownerQueueLimit entry.ownerKey = ownerFull
  have hglobal : s.toLedger.globalFull limits entry.queuePool ↔ globalFull = true := by
    rw [← hg, decide_eq_true_eq, hpool]
    rfl
  have hfull : s.toLedger.ownerFull limits entry.ownerKey ↔ ownerFull = true := by
    rw [← ho, Ledger.ownerFull, ← howner]
    cases options.ownerQueueLimit <;> simp [Ledger.isOwnerFull]
  split
  · next hstart =>
    intro hreserve
    rw [hglobal, hfull]
    rw [hreserve] at hstart
    cases globalFull <;> cases ownerFull <;> simp_all
  · split
    · next hfree =>
      show ¬_ ∧ ¬_
      rw [hglobal, hfull]
      cases globalFull <;> cases ownerFull <;> simp_all
    · split
      · next victim hvictim =>
        obtain ⟨hmem, hlt, hsame, hown⟩ := selectDisplacementVictim_some hk s hvictim
        exact ⟨hmem, hpriority ▸ hlt, hsame, fun h => hown (hfull.mp h)⟩
      · trivial

/-- The entry that `acquireInternal` queues. -/
def internalEntry (l : Ledger Payload) (base : PriorityAdmissionEntry Payload)
    (options : PriorityAdmissionAcquireOptions Payload) : InternalEntry Payload :=
  { base with
    id := l.admissions.length
    reserveForHandoff := options.reserveForHandoff
    queueLimit := options.queueLimit
    ownerQueueLimit := options.ownerQueueLimit }

theorem enqueue_moves (base : PriorityAdmissionEntry Payload)
    (options : PriorityAdmissionAcquireOptions Payload)
    (hmove : Move limits l (s.toLedger.push (internalEntry s.toLedger base options))) :
    Moves limits l (s.enqueue hk base options none).1.toLedger := by
  refine settleQueue_moves hk _ _ _ ?_
  rw [State.queueChanged_toLedger]
  exact .single hmove

/-- The sequence number that was used up changes nothing else. -/
theorem push_displaced {index id : ℕ} {reason : RejectReason Payload}
    {base : PriorityAdmissionEntry Payload} :
    { ((l.take index).rejectOnce id reason).push (internalEntry l base options) with
        nextSequence := l.nextSequence + 1 } =
      (({ l with nextSequence := l.nextSequence + 1 }.take index).rejectOnce id reason).push
        (internalEntry (({ l with nextSequence := l.nextSequence + 1 }.take index).rejectOnce id
          reason) base options) := by
  unfold Ledger.rejectOnce Ledger.take
  dsimp only
  split <;> rfl

/-- An admission under a new sequence number. -/
theorem admitEntry_moves {t : State H Payload} {base : PriorityAdmissionEntry Payload}
    (hl : t.toLedger = { l with nextSequence := l.nextSequence + 1 })
    (hsequence : base.sequence = l.nextSequence)
    (hok : DecisionOk limits l base options.reserveForHandoff
      (t.decideAdmission hk base options none)) :
    Moves limits l (t.admitEntry hk base options none).1.toLedger := by
  unfold State.admitEntry
  generalize t.decideAdmission hk base options none = decision at hok
  have hqueue : t.queue = l.queue := by rw [hl]
  cases decision with
  | start =>
    obtain ⟨u, hu, hul⟩ | ⟨u, hu, hul⟩ := start_cases hk t base options.reserveForHandoff
      options.queueLimit options.ownerQueueLimit
    · have hmove : Move limits l _ := .startNew l base options.reserveForHandoff
        options.queueLimit options.ownerQueueLimit hsequence hok
      rw [hu]
      dsimp only
      rw [hul, hl]
      exact .single hmove
    · have hmove : Move limits l _ := .failNew l
      rw [hu]
      dsimp only
      rw [hul, hl, hsequence]
      exact .single hmove
  | refuse reason =>
    dsimp only
    rw [hl]
    exact .single (.skip l)
  | displace victim =>
    obtain ⟨hvictim, hpriority, hsame, hfull⟩ := hok
    rw [← hqueue] at hvictim
    obtain ⟨u, hu⟩ := remove_of_mem hk t hvictim
    obtain ⟨index, v, hv, hid, hul⟩ := remove_some hk t hu
    rw [hqueue] at hv hvictim
    have hmove : Move limits l _ := .displace l victim v (internalEntry l base options) index rfl
      hsequence hvictim hv hid hpriority hsame hfull
    refine enqueue_moves hk _ base options ?_
    unfold State.displace
    rw [hu, Option.getD_some]
    dsimp only
    rw [hul, hl]
    rw [push_displaced] at hmove
    exact hmove
  | queue =>
    have hmove : Move limits l _ := .enqueue l (internalEntry l base options) rfl hsequence hok.1
      hok.2
    refine enqueue_moves hk t base options ?_
    rw [hl]
    exact hmove

theorem acquire_moves (options : PriorityAdmissionAcquireOptions Payload)
    (hpool : options.queueLimit = limits.queueLimit (options.queuePool.getD ""))
    (howner : options.ownerQueueLimit = limits.ownerQueueLimit (options.ownerKey.getD "")) :
    Moves limits s.toLedger (s.acquire hk options).1.toLedger := by
  unfold State.acquire State.acquireInternal
  split
  · exact .refl
  · have hledger := State.reconcileAgedTurnOwed_toLedger hk s
    generalize s.reconcileAgedTurnOwed hk = t at hledger
    rw [← hledger]
    refine admitEntry_moves hk rfl rfl ?_
    exact decideAdmission_ok hk _ hpool howner rfl

/-- With a reservation the entry is queued in its place. -/
theorem acquireReserved_moves (options : PriorityAdmissionAcquireOptions Payload)
    (haborted : ¬options.aborted) (r : HandoffReservation) :
    ∃ q, q.id = s.admissions.length ∧ q.sequence = r.sequence ∧ q.queuePool = r.queuePool ∧
      q.ownerKey = r.ownerKey ∧ q.reserveForHandoff = options.reserveForHandoff ∧
      Moves limits ((s.toLedger.unreserve r.sequence).push q)
        (s.acquireInternal hk options (some r)).1.toLedger := by
  unfold State.acquireInternal
  rw [if_neg haborted]
  have hledger := State.reconcileAgedTurnOwed_toLedger hk s
  generalize s.reconcileAgedTurnOwed hk = t at hledger
  rw [← hledger]
  refine ⟨internalEntry t.toLedger (t.entryFor hk options r.ownerKey r.queuePool r.sequence) options,
    rfl, rfl, rfl, rfl, rfl, settleQueue_moves hk _ _ _ ?_⟩
  rw [State.queueChanged_toLedger]
  exact .refl

/-- A handoff is refused, or turns the reservation of the admission into an entry. -/
theorem handoff_cases (id : ℕ) (options : PriorityAdmissionAcquireOptions Payload) :
    ((s.handoff hk id options).1 = s ∧ ∀ k, (s.handoff hk id options).2 ≠ .queued k) ∨
    ∃ held r q, s.admissions[id]? = some held ∧ held.reserveForHandoff = true ∧
      JsMap.get? s.handoffReservations held.entry.sequence = some r ∧
      Move limits s.toLedger
        (({ s.toLedger with log := s.log ++ [Event.handedOff id] }.unreserve r.sequence).push q) ∧
      Moves limits
        (({ s.toLedger with log := s.log ++ [Event.handedOff id] }.unreserve r.sequence).push q)
        (s.handoff hk id options).1.toLedger := by
  unfold State.handoff
  split
  · exact .inl ⟨rfl, fun _ h => by cases h⟩
  · next held hheld =>
    split
    · exact .inl ⟨rfl, fun _ h => by cases h⟩
    · next hreserve =>
      split_ifs with haborted
      · exact .inl ⟨rfl, fun _ h => by cases h⟩
      · split
        · exact .inl ⟨rfl, fun _ h => by cases h⟩
        · next r hr =>
          split
          · exact .inl ⟨rfl, fun _ h => by cases h⟩
          · obtain ⟨q, hid, hsequence, hpool, howner, hq, hmoves⟩ := acquireReserved_moves hk
              { s with log := s.log ++ [Event.handedOff id] }
              { options with
                ownerKey := some r.ownerKey
                queueLimit := r.queueLimit
                ownerQueueLimit := r.ownerQueueLimit
                reserveForHandoff := false } haborted r
            exact .inr ⟨held, r, q, hheld, not_not.mp hreserve, hr, .handoff s.toLedger id held r q
              hheld (not_not.mp hreserve) hr hid hsequence hpool howner hq, hmoves⟩

theorem handoff_moves (id : ℕ) (options : PriorityAdmissionAcquireOptions Payload) :
    Moves limits s.toLedger (s.handoff hk id options).1.toLedger := by
  obtain ⟨heq, -⟩ | ⟨held, r, q, -, -, -, hmove, hmoves⟩ := handoff_cases hk s id options
  · rw [heq]
  · exact .head hmove hmoves

theorem release_moves (id : ℕ) : Moves limits s.toLedger (s.release hk id).toLedger := by
  unfold State.release
  split
  · exact .refl
  · next held hheld =>
    split_ifs with hnot
    · exact .refl
    · push Not at hnot
      refine .head ?_ (pump_moves hk _)
      exact .release s.toLedger id held hheld hnot.1

/-- Every acquire uses the budget of its pool and of its owner. -/
def Op.Within (limits : Limits) : Op H Payload → Prop
  | .acquire options => options.queueLimit = limits.queueLimit (options.queuePool.getD "") ∧
      options.ownerQueueLimit = limits.ownerQueueLimit (options.ownerKey.getD "")
  | _ => True

theorem step_moves (op : Op H Payload) (h : op.Within limits) :
    Moves limits s.toLedger (step hk s op).toLedger := by
  cases op with
  | acquire options => exact acquire_moves hk s options h.1 h.2
  | handoff id options => exact handoff_moves hk s id options
  | release id => exact release_moves hk s id
  | abort id | timeout id => exact rejectQueued_moves hk s id _ (fun _ _ h => by cases h)
  | pump => exact pump_moves hk s
  | hooks h => exact .refl

theorem run_moves (ops : List (Op H Payload)) (h : ∀ op ∈ ops, op.Within limits) :
    Moves limits s.toLedger (run hk s ops).toLedger := by
  induction ops generalizing s with
  | nil => exact .refl
  | cons op ops ih =>
    obtain ⟨hop, hops⟩ := forall_mem_cons.mp h
    exact (step_moves hk s op hop).trans (ih (step hk s op) hops)

end Calls

end Dkg.Admission
