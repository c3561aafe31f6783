import Dkg.Admission.Accounts
import Dkg.Lib.SwapPop

/-!
A reservation belongs to one admission that has started, is not released and has not handed off.
-/

namespace Dkg.Admission

open Function List

variable {Payload : Type*} {limits : Limits} {l l' : Ledger Payload} {id : ℕ} {held : Held Payload}

def Ledger.handedOffCount (l : Ledger Payload) (id : ℕ) : ℕ := l.log.countP (Event.isHandedOff id)

/-- The admission may hand off. -/
def Holds (l : Ledger Payload) (id : ℕ) : Prop :=
  l.hasStarted id = true ∧ l.released id = false ∧ l.handedOffCount id = 0

/-- Whose the reservations are. -/
structure Sequenced (l : Ledger Payload) : Prop where
  nodup : (l.handoffReservations.map Prod.fst).Nodup
  queued : ∀ e ∈ l.queue,
    l.admissions[e.id]? = some ⟨e.toPriorityAdmissionEntry, e.reserveForHandoff⟩
  below : ∀ (id : ℕ) (held : Held Payload), l.admissions[id]? = some held →
    held.entry.sequence < l.nextSequence
  distinct : ∀ (i j : ℕ) (a b : Held Payload), l.admissions[i]? = some a → l.admissions[j]? = some b →
    a.reserveForHandoff = true → b.reserveForHandoff = true →
    a.entry.sequence = b.entry.sequence → i = j
  reserved : ∀ k r, (k, r) ∈ l.handoffReservations → r.sequence = k ∧
    ∃ (id : ℕ) (held : Held Payload), l.admissions[id]? = some held ∧
      held.reserveForHandoff = true ∧ held.entry.sequence = k ∧ Holds l id
  released : ∀ id, l.released id = true → l.hasStarted id = true
  handedOff : ∀ id, l.handedOffCount id ≤ 1 ∧ (0 < l.handedOffCount id → l.hasStarted id = true)

section Parts

/-- Entries and reservations may go, and outcomes be told. -/
theorem Sequenced.shrink (h : Sequenced l) (hadmissions : l'.admissions = l.admissions)
    (hqueue : ∀ e ∈ l'.queue, e ∈ l.queue)
    (hreservations : l'.handoffReservations.Sublist l.handoffReservations)
    (hnext : l.nextSequence ≤ l'.nextSequence)
    (hstarted : ∀ id, l.hasStarted id = true → l'.hasStarted id = true)
    (hhanded : ∀ id, l'.handedOffCount id = l.handedOffCount id)
    (hreleased : l'.released = l.released) : Sequenced l' := by
  refine ⟨h.nodup.sublist (hreservations.map _), ?_, ?_, ?_, ?_, ?_, ?_⟩
  · intro e he
    rw [hadmissions]
    exact h.queued e (hqueue e he)
  · intro id held hheld
    rw [hadmissions] at hheld
    exact (h.below id held hheld).trans_le hnext
  · rw [hadmissions]
    exact h.distinct
  · intro k r hr
    obtain ⟨hk, id, held, hheld, hreserve, hsequence, hholds⟩ :=
      h.reserved k r (hreservations.subset hr)
    refine ⟨hk, id, held, by rw [hadmissions]; exact hheld, hreserve, hsequence, ?_⟩
    rw [Holds, hreleased, hhanded]
    exact ⟨hstarted id hholds.1, hholds.2⟩
  · intro id hid
    rw [hreleased] at hid
    exact hstarted id (h.released id hid)
  · intro id
    rw [hhanded]
    exact ⟨(h.handedOff id).1, fun hpos => hstarted id ((h.handedOff id).2 hpos)⟩

/-- A new admission; one that reserves has a new sequence number. -/
theorem Sequenced.admitted (h : Sequenced l) (held : Held Payload) {n : ℕ}
    (hnew : held.reserveForHandoff = true → held.entry.sequence = l.nextSequence)
    (hlt : held.entry.sequence < n) (hle : l.nextSequence ≤ n) :
    Sequenced { l with admissions := l.admissions ++ [held], nextSequence := n } := by
  have hcases : ∀ {id : ℕ} {a : Held Payload}, (l.admissions ++ [held])[id]? = some a ↔
      l.admissions[id]? = some a ∨ id = l.admissions.length ∧ held = a :=
    SwapPop.getElem?_concat_eq_some
  refine ⟨h.nodup, fun e he => hcases.mpr (.inl (h.queued e he)), ?_, ?_, ?_, h.released, h.handedOff⟩
  · intro id a ha
    rcases hcases.mp ha with ha | ⟨-, rfl⟩
    · exact (h.below id a ha).trans_le hle
    · exact hlt
  · intro i j a b ha hb hra hrb heq
    rcases hcases.mp ha with hia | ⟨hi, rfl⟩ <;> rcases hcases.mp hb with hjb | ⟨hj, rfl⟩
    · exact h.distinct i j a b hia hjb hra hrb heq
    · have hlt := h.below i a hia
      rw [heq, hnew hrb] at hlt
      exact absurd hlt (lt_irrefl _)
    · have hlt := h.below j b hjb
      rw [← heq, hnew hra] at hlt
      exact absurd hlt (lt_irrefl _)
    · rw [hi, hj]
  · intro k r hr
    obtain ⟨hk, id, a, ha, hreserve, hsequence, hholds⟩ := h.reserved k r hr
    exact ⟨hk, id, a, hcases.mpr (.inl ha), hreserve, hsequence, hholds⟩

/-- The new admission is queued. -/
theorem Sequenced.push (h : Sequenced l) {q : InternalEntry Payload} {n : ℕ}
    (hid : q.id = l.admissions.length)
    (hnew : q.reserveForHandoff = true → q.sequence = l.nextSequence) (hlt : q.sequence < n)
    (hle : l.nextSequence ≤ n) : Sequenced { l.push q with nextSequence := n } := by
  have hadmitted := h.admitted ⟨q.toPriorityAdmissionEntry, q.reserveForHandoff⟩ hnew hlt hle
  refine ⟨hadmitted.nodup, ?_, hadmitted.below, hadmitted.distinct, hadmitted.reserved, hadmitted.released,
    hadmitted.handedOff⟩
  intro e he
  rcases mem_append.mp he with he | he
  · exact hadmitted.queued e he
  · cases mem_singleton.mp he
    change (l.admissions ++ _)[q.id]? = _
    rw [hid]
    exact getElem?_concat_length

/-- An admission that has started reserves a slot. -/
theorem Sequenced.reserve (h : Sequenced l)
    (hheld : l.admissions[id]? = some held) (hholds : Holds l id) (queueLimit : ℕ)
    (ownerQueueLimit : Option ℕ) :
    Sequenced (l.reserve held.entry held.reserveForHandoff queueLimit ownerQueueLimit) := by
  unfold Ledger.reserve
  split_ifs with hreserve
  · refine ⟨JsMap.nodup_keys_set h.nodup, h.queued, h.below, h.distinct, ?_, h.released,
      h.handedOff⟩
    intro k r hr
    rcases JsMap.mem_set.mp hr with heq | ⟨-, hold⟩
    · cases heq
      exact ⟨rfl, id, held, hheld, hreserve, rfl, hholds⟩
    · exact h.reserved k r hold
  · exact h

end Parts

section Moves

theorem hasStarted_append {log events : List (Event Payload)}
    (h : log.any (Event.isStarted id) = true) : (log ++ events).any (Event.isStarted id) = true := by
  rw [any_append, h, Bool.true_or]

theorem rejectOnce_log (l : Ledger Payload) (id : ℕ) (reason : RejectReason Payload) :
    (l.rejectOnce id reason).log = l.log ∨
      (l.rejectOnce id reason).log = l.log ++ [.rejected id reason] := by
  unfold Ledger.rejectOnce
  split
  · exact .inl rfl
  · exact .inr rfl

/-- A rejection tells no start and no handoff. -/
theorem rejectOnce_tells (l : Ledger Payload) (id : ℕ) (reason : RejectReason Payload) (k : ℕ) :
    (l.rejectOnce id reason).hasStarted k = l.hasStarted k ∧
      (l.rejectOnce id reason).handedOffCount k = l.handedOffCount k := by
  rcases rejectOnce_log l id reason with hlog | hlog <;>
    simp [Ledger.hasStarted, Ledger.handedOffCount, hlog, Event.isStarted, Event.isHandedOff]

/-- An entry leaves the queue and is rejected. -/
theorem Sequenced.rejectTaken (h : Sequenced l) (index id : ℕ) (reason : RejectReason Payload) :
    Sequenced ((l.take index).rejectOnce id reason) := by
  obtain ⟨hqueue, hreservations, hnext, hadmissions, hreleased⟩ :=
    rejectOnce_frame (l.take index) id reason
  refine h.shrink hadmissions ?_ (by rw [hreservations]; exact List.Sublist.refl _) hnext.ge ?_ ?_
    hreleased
  · intro e he
    rw [hqueue] at he
    exact mem_of_mem_eraseIdx he
  · intro k hk
    rw [(rejectOnce_tells _ _ _ k).1]
    exact hk
  · intro k
    exact (rejectOnce_tells _ _ _ k).2

theorem Sequenced.unreserve (h : Sequenced l) (sequence : ℕ) : Sequenced (l.unreserve sequence) :=
  h.shrink rfl (fun _ he => he) filter_sublist le_rfl (fun _ hid => hid) (fun _ => rfl) rfl

/-- An admission that starts may hand off from then on. -/
theorem Sequenced.tellStarted (h : Sequenced l) (hnew : l.startedCount id = 0) :
    Sequenced { l with log := l.log ++ [.started id] } ∧
      Holds { l with log := l.log ++ [.started id] } id := by
  have hnot : ¬l.hasStarted id = true := by
    intro hstarted
    obtain ⟨e, he, hid⟩ := any_eq_true.mp hstarted
    have hpos : 0 < l.startedCount id := countP_pos_iff.mpr ⟨e, he, hid⟩
    omega
  have hhanded : ∀ k, (l.log ++ [Event.started id]).countP (Event.isHandedOff k) =
      l.handedOffCount k := by
    intro k
    simp [Ledger.handedOffCount, Event.isHandedOff]
  refine ⟨?_, ?_, ?_, ?_⟩
  · exact h.shrink rfl (fun _ he => he) (List.Sublist.refl _) le_rfl
      (fun _ hk => hasStarted_append hk) hhanded rfl
  · simp [Ledger.hasStarted, Event.isStarted]
  · by_contra hreleased
    exact hnot (h.released id (Bool.not_eq_false _ ▸ hreleased))
  · refine (hhanded id).trans ?_
    by_contra hpos
    exact hnot ((h.handedOff id).2 (Nat.pos_of_ne_zero hpos))

/-- The reservation under the number of an admission is its own. -/
theorem Sequenced.holds (h : Sequenced l) {r : HandoffReservation}
    (hheld : l.admissions[id]? = some held) (hreserve : held.reserveForHandoff = true)
    (hr : (held.entry.sequence, r) ∈ l.handoffReservations) :
    r.sequence = held.entry.sequence ∧ Holds l id := by
  obtain ⟨hk, id', held', hheld', hreserve', hsequence, hholds⟩ := h.reserved _ r hr
  have hid := h.distinct id' id held' held hheld' hheld hreserve' hreserve hsequence
  subst hid
  exact ⟨hk, hholds⟩

/-- A handoff uses the reservation up. -/
theorem Sequenced.useReservation (h : Sequenced l)
    {r : HandoffReservation} (hheld : l.admissions[id]? = some held)
    (hreserve : held.reserveForHandoff = true)
    (hr : (held.entry.sequence, r) ∈ l.handoffReservations) :
    Sequenced ({ l with log := l.log ++ [Event.handedOff id] }.unreserve r.sequence) := by
  obtain ⟨hsequence, hstarted, hreleased, hunused⟩ := h.holds hheld hreserve hr
  have hcount : ∀ k, (l.log ++ [Event.handedOff id]).countP (Event.isHandedOff k) =
      l.handedOffCount k + if id = k then 1 else 0 := by
    intro k
    simp [Ledger.handedOffCount, Event.isHandedOff, countP_singleton]
  refine ⟨JsMap.nodup_keys_delete h.nodup, h.queued, h.below, h.distinct, ?_, ?_, ?_⟩
  · intro k r' hr'
    obtain ⟨hne, hmem⟩ := JsMap.mem_delete.mp hr'
    obtain ⟨hk, id', held', hheld', hreserve', hsequence', hstarted', hreleased', hunused'⟩ :=
      h.reserved k r' hmem
    refine ⟨hk, id', held', hheld', hreserve', hsequence', hasStarted_append hstarted', hreleased',
      ?_⟩
    refine (hcount id').trans ?_
    rw [hunused', if_neg]
    rintro rfl
    rw [hheld] at hheld'
    cases hheld'
    exact hne (hsequence'.symm.trans hsequence.symm)
  · intro k hk
    exact hasStarted_append (h.released k hk)
  · intro k
    change (l.log ++ [Event.handedOff id]).countP (Event.isHandedOff k) ≤ 1 ∧
      (0 < (l.log ++ [Event.handedOff id]).countP (Event.isHandedOff k) → _)
    rw [hcount]
    by_cases hid : id = k
    · subst hid
      rw [hunused, if_pos rfl]
      exact ⟨le_rfl, fun _ => hasStarted_append hstarted⟩
    · rw [if_neg hid]
      exact ⟨(h.handedOff k).1, fun hpos => hasStarted_append ((h.handedOff k).2 hpos)⟩

/-- A release takes the reservation with it. -/
theorem Sequenced.release (h : Sequenced l)
    (hheld : l.admissions[id]? = some held) (hstarted : l.hasStarted id = true) :
    Sequenced { l.unreserve held.entry.sequence with
      released := update l.released id true } := by
  refine ⟨JsMap.nodup_keys_delete h.nodup, h.queued, h.below, h.distinct, ?_, ?_, h.handedOff⟩
  · intro k r' hr'
    obtain ⟨hne, hmem⟩ := JsMap.mem_delete.mp hr'
    obtain ⟨hk, id', held', hheld', hreserve', hsequence', hstarted', hreleased', hunused'⟩ :=
      h.reserved k r' hmem
    refine ⟨hk, id', held', hheld', hreserve', hsequence', hstarted', ?_, hunused'⟩
    have hid : id' ≠ id := by
      rintro rfl
      rw [hheld] at hheld'
      cases hheld'
      exact hne hsequence'.symm
    change update l.released id true id' = false
    rw [update_of_ne hid]
    exact hreleased'
  · intro k hk
    change update l.released id true k = true at hk
    by_cases hid : k = id
    · rw [hid]
      exact hstarted
    · rw [update_of_ne hid] at hk
      exact h.released k hk

/-- A move keeps the reservations with their admissions. -/
theorem Sequenced.move (h : Sequenced l) (ha : Accounted l) (hmove : Move limits l l') :
    Sequenced l' := by
  cases hmove with
  | skip =>
    exact h.shrink rfl (fun _ he => he) (List.Sublist.refl _) (Nat.le_succ _) (fun _ hk => hk)
      (fun _ => rfl) rfl
  | startNew entry reserves queueLimit ownerQueueLimit hsequence hroom =>
    have hadmitted := h.admitted ⟨entry, reserves⟩ (fun _ => hsequence)
      (hsequence.trans_lt (Nat.lt_succ_self _)) (Nat.le_succ _)
    have hnew : l.startedCount l.admissions.length = 0 := by
      have haccount := ha.account l.admissions.length
      rw [if_neg (lt_irrefl _)] at haccount
      omega
    obtain ⟨htold, hholds⟩ := hadmitted.tellStarted hnew
    exact htold.reserve getElem?_concat_length hholds queueLimit ownerQueueLimit
  | enqueue q hid hsequence hglobal howner =>
    exact h.push hid (fun _ => hsequence) (hsequence.trans_lt (Nat.lt_succ_self _)) (Nat.le_succ _)
  | displace victim v q index hid hsequence hvictim hv hsame hpriority hpool howner =>
    have hreject := h.rejectTaken index victim.id (.displaced victim.toPriorityAdmissionEntry
      q.toPriorityAdmissionEntry)
    obtain ⟨-, -, hnext, hadmissions, -⟩ := rejectOnce_frame (l.take index) victim.id
      (.displaced victim.toPriorityAdmissionEntry q.toPriorityAdmissionEntry)
    refine hreject.push ?_ ?_ ?_ ?_
    · rw [hadmissions]
      exact hid
    · intro _
      rw [hnext]
      exact hsequence
    · exact hsequence.trans_lt (Nat.lt_succ_self _)
    · rw [hnext]
      exact Nat.le_succ _
  | handoff id held r q hheld hreserve hr hid hsequence hpool howner hq =>
    have hmem := JsMap.mem_of_get? hr
    have hused := h.useReservation hheld hreserve hmem
    have hlt := h.below id held hheld
    rw [← (h.holds hheld hreserve hmem).1, ← hsequence] at hlt
    refine hused.push hid ?_ hlt le_rfl
    intro hreserves
    rw [hq] at hreserves
    cases hreserves
  | startQueued q index hq =>
    have hmem := mem_of_getElem? hq
    have hnew : l.startedCount q.id = 0 := by
      have haccount := ha.account q.id
      have hpos : 0 < l.queuedCount q.id := countP_pos_iff.mpr ⟨q, hmem, decide_eq_true rfl⟩
      rw [if_pos (ha.queued_lt hmem)] at haccount
      omega
    have htaken : Sequenced (l.take index) := h.shrink rfl
      (fun _ he => mem_of_mem_eraseIdx he) (List.Sublist.refl _) le_rfl (fun _ hk => hk)
      (fun _ => rfl) rfl
    obtain ⟨htold, hholds⟩ := htaken.tellStarted hnew
    have hreserve := htold.reserve (h.queued q hmem) hholds q.queueLimit q.ownerQueueLimit
    exact ⟨hreserve.nodup, hreserve.queued, hreserve.below, hreserve.distinct, hreserve.reserved,
      hreserve.released, hreserve.handedOff⟩
  | failQueued q index hq => exact (h.unreserve q.sequence).rejectTaken index q.id .startFailed
  | reject q index hq reason hreason => exact h.rejectTaken index q.id reason
  | drop q index hq hsettled =>
    rw [ha.unsettled q (mem_of_getElem? hq)] at hsettled
    cases hsettled
  | failNew =>
    exact (h.unreserve l.nextSequence).shrink rfl (fun _ he => he) (List.Sublist.refl _)
      (Nat.le_succ _) (fun _ hk => hk) (fun _ => rfl) rfl
  | release id held hheld hstarted => exact h.release hheld hstarted

end Moves

end Dkg.Admission
