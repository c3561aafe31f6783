import Dkg.Admission.Moves
import Mathlib.Data.List.Perm.Basic

/-!
Every admission is in the queue, was started or was rejected, and only one of these.
-/

namespace Dkg.Admission

open List Function
variable {Payload : Type*} {limits : Limits} {l l' : Ledger Payload}

theorem countP_eraseIdx {α : Type*} {xs : List α} {index : ℕ} {x : α} (h : xs[index]? = some x)
    (p : α → Bool) : xs.countP p = (xs.eraseIdx index).countP p + if p x then 1 else 0 := by
  obtain ⟨hlt, hx⟩ := List.getElem?_eq_some_iff.mp h
  have hperm := (getElem_cons_eraseIdx_perm hlt).countP_eq p
  rw [← hperm, countP_cons, hx]

namespace Ledger

def queuedCount (l : Ledger Payload) (id : ℕ) : ℕ := l.queue.countP fun e => e.id = id

def startedCount (l : Ledger Payload) (id : ℕ) : ℕ := l.log.countP (Event.isStarted id)

def rejectedCount (l : Ledger Payload) (id : ℕ) : ℕ := l.log.countP (Event.isRejected id)

end Ledger

/-- The account of every admission. -/
structure Accounted (l : Ledger Payload) : Prop where
  account : ∀ id, l.queuedCount id + l.startedCount id + l.rejectedCount id =
    if id < l.admissions.length then 1 else 0
  unsettled : ∀ e ∈ l.queue, l.settled e.id = false
  settled_lt : ∀ id, l.settled id = true → id < l.admissions.length

section Accounts

theorem Accounted.queued_lt (h : Accounted l) {e : InternalEntry Payload} (he : e ∈ l.queue) :
    e.id < l.admissions.length := by
  by_contra hge
  have hzero := h.account e.id
  have hpos : 0 < l.queuedCount e.id := countP_pos_iff.mpr ⟨e, he, decide_eq_true rfl⟩
  rw [if_neg hge] at hzero
  omega

/-- An entry that leaves the queue leaves no other with its identity. -/
theorem Accounted.ne_of_take (h : Accounted l) {q e : InternalEntry Payload} {index : ℕ}
    (hq : l.queue[index]? = some q) (he : e ∈ l.queue.eraseIdx index) : e.id ≠ q.id := by
  intro heq
  have haccount := h.account q.id
  have hcount := countP_eraseIdx hq fun e => decide (e.id = q.id)
  have hpos : 0 < (l.queue.eraseIdx index).countP fun e => decide (e.id = q.id) :=
    countP_pos_iff.mpr ⟨e, he, decide_eq_true heq⟩
  rw [if_pos (decide_eq_true rfl)] at hcount
  have htwo : 2 ≤ l.queuedCount q.id := by
    unfold Ledger.queuedCount
    omega
  split at haccount <;> omega

theorem Accounted.eq_of_id (h : Accounted l) {q e : InternalEntry Payload} {index : ℕ}
    (hq : l.queue[index]? = some q) (he : e ∈ l.queue) (hid : e.id = q.id) : e = q := by
  obtain ⟨hlt, hx⟩ := List.getElem?_eq_some_iff.mp hq
  have hperm := (getElem_cons_eraseIdx_perm hlt).mem_iff.mpr he
  rcases mem_cons.mp hperm with heq | hmem
  · rw [heq, hx]
  · exact absurd hid (h.ne_of_take hq hmem)

/-- A new entry of the queue. -/
theorem Accounted.push (h : Accounted l) {q : InternalEntry Payload}
    (hid : q.id = l.admissions.length) : Accounted (l.push q) := by
  refine ⟨?_, ?_, ?_⟩
  · intro id
    have haccount := h.account id
    have hcount : (l.push q).queuedCount id = l.queuedCount id + if q.id = id then 1 else 0 := by
      simp [Ledger.queuedCount, Ledger.push, countP_append, countP_singleton]
    have hlength : (l.push q).admissions.length = l.admissions.length + 1 := length_append
    rw [hcount, hlength, hid]
    change _ + l.startedCount id + l.rejectedCount id = _
    split at haccount <;> split <;> split <;> omega
  · intro e he
    rcases mem_append.mp he with he | he
    · exact h.unsettled e he
    · cases mem_singleton.mp he
      by_contra hsettled
      have hlt := h.settled_lt q.id (Bool.not_eq_false _ ▸ hsettled)
      omega
  · intro id hsettled
    have hlt := h.settled_lt id hsettled
    change id < (l.admissions ++ _).length
    rw [length_append]
    omega

/-- Work that starts without having been queued. -/
theorem Accounted.startNew (h : Accounted l) (held : Held Payload) :
    Accounted { l with
      admissions := l.admissions ++ [held]
      log := l.log ++ [.started l.admissions.length] } := by
  refine ⟨?_, h.unsettled, ?_⟩
  · intro id
    have haccount := h.account id
    simp only [Ledger.queuedCount, Ledger.startedCount, Ledger.rejectedCount, countP_append,
      countP_singleton, length_append, length_singleton, Event.isStarted,
      Event.isRejected, decide_eq_true_eq, Bool.false_eq_true, if_false] at haccount ⊢
    split at haccount <;> split <;> split <;> omega
  · intro id hsettled
    have hlt := h.settled_lt id hsettled
    simp only [length_append, length_singleton]
    omega

/-- An entry of the queue that gets its outcome. -/
theorem Accounted.settleTaken (h : Accounted l) {q : InternalEntry Payload} {index : ℕ}
    (hq : l.queue[index]? = some q) {event : Event Payload}
    (hevent : event = .started q.id ∨ ∃ reason, event = .rejected q.id reason) :
    Accounted { l.take index with
      settled := update l.settled q.id true
      log := l.log ++ [event] } := by
  refine ⟨?_, ?_, ?_⟩
  · intro id
    refine Eq.trans ?_ (h.account id)
    have hcount := countP_eraseIdx hq fun e => decide (e.id = id)
    have hone : (if Event.isStarted id event then 1 else 0) +
        (if Event.isRejected id event then 1 else 0) = if q.id = id then 1 else 0 := by
      rcases hevent with rfl | ⟨reason, rfl⟩ <;> simp [Event.isStarted, Event.isRejected]
    simp only [Ledger.queuedCount, Ledger.startedCount, Ledger.rejectedCount, countP_append,
      countP_singleton, Ledger.take, decide_eq_true_eq] at hcount ⊢
    omega
  · intro e he
    have hne := h.ne_of_take hq he
    change update l.settled q.id true e.id = false
    rw [update_of_ne hne]
    exact h.unsettled e (mem_of_mem_eraseIdx he)
  · intro id hsettled
    by_cases hid : id = q.id
    · rw [hid]
      exact h.queued_lt (mem_of_getElem? hq)
    · refine h.settled_lt id ?_
      change update l.settled q.id true id = true at hsettled
      rwa [update_of_ne hid] at hsettled

theorem Accounted.rejectTaken (h : Accounted l) {q : InternalEntry Payload} {index : ℕ}
    (hq : l.queue[index]? = some q) (reason : RejectReason Payload) :
    Accounted ((l.take index).rejectOnce q.id reason) := by
  have hsettled := h.unsettled q (mem_of_getElem? hq)
  unfold Ledger.rejectOnce
  rw [if_neg (by rw [Ledger.take, hsettled]; exact Bool.false_ne_true)]
  exact h.settleTaken hq (.inr ⟨reason, rfl⟩)

theorem Accounted.handedOff (h : Accounted l) (id : ℕ) :
    Accounted { l with log := l.log ++ [.handedOff id] } := by
  refine ⟨?_, h.unsettled, h.settled_lt⟩
  intro k
  have haccount := h.account k
  simpa [Ledger.queuedCount, Ledger.startedCount, Ledger.rejectedCount, countP_append,
    countP_singleton, Event.isStarted, Event.isRejected] using haccount

/-- A move keeps the accounts. -/
theorem Accounted.move (h : Accounted l) (hmove : Move limits l l') : Accounted l' := by
  cases hmove with
  | skip => exact ⟨h.account, h.unsettled, h.settled_lt⟩
  | startNew entry reserves queueLimit ownerQueueLimit hsequence hroom =>
    have hnew := h.startNew ⟨entry, reserves⟩
    exact ⟨hnew.account, hnew.unsettled, hnew.settled_lt⟩
  | enqueue q hid hsequence hglobal howner =>
    have hpush := h.push hid
    exact ⟨hpush.account, hpush.unsettled, hpush.settled_lt⟩
  | displace victim v q index hid hsequence hvictim hv hsame hpriority hpool howner =>
    have hreject := h.rejectTaken hv (.displaced victim.toPriorityAdmissionEntry
      q.toPriorityAdmissionEntry)
    rw [hsame] at hreject
    have hpush := hreject.push (q := q) (by
      rw [hid, Ledger.rejectOnce]
      split <;> rfl)
    exact ⟨hpush.account, hpush.unsettled, hpush.settled_lt⟩
  | handoff id held r q hheld hreserve hr hid hsequence hpool howner hq =>
    have hoff := h.handedOff id
    have hfree : Accounted ({ l with log := l.log ++ [Event.handedOff id] }.unreserve r.sequence) :=
      ⟨hoff.account, hoff.unsettled, hoff.settled_lt⟩
    exact hfree.push hid
  | startQueued q index hq =>
    have hsettle := h.settleTaken hq (.inl rfl)
    exact ⟨hsettle.account, hsettle.unsettled, hsettle.settled_lt⟩
  | failQueued q index hq =>
    have hfree : Accounted (l.unreserve q.sequence) := ⟨h.account, h.unsettled, h.settled_lt⟩
    exact hfree.rejectTaken hq .startFailed
  | reject q index hq reason hreason => exact h.rejectTaken hq reason
  | drop q index hq hsettled =>
    rw [h.unsettled q (mem_of_getElem? hq)] at hsettled
    cases hsettled
  | failNew | release id held hheld hstarted => exact ⟨h.account, h.unsettled, h.settled_lt⟩

end Accounts

end Dkg.Admission
