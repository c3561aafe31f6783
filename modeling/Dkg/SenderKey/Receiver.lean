import Dkg.SenderKey.Messages
import Mathlib.Data.Finset.Card
import Mathlib.Order.Interval.Finset.Nat

/-!
The receiver against the messages of the sender. A call changes the cache before it has
authenticated its message and the rest of the state after an await, so what follows is about
calls that do not overlap, with no forged message that names a key the cache is about to lose
or to gain.
-/

namespace Dkg.SenderKey

open List Function

variable {Bytes : Type}

section Cache
variable {skipped : List (ℕ × Bytes)} {e : ℕ × Bytes} {i index : ℕ} {k chainKey : Bytes}

theorem mem_of_lookup (h : skipped.lookup i = some k) : (i, k) ∈ skipped := by
  induction skipped with
  | nil => cases h
  | cons e skipped ih =>
    obtain ⟨j, x⟩ := e
    rw [lookup_cons] at h
    split at h
    · rename_i hij
      rw [Option.some.injEq] at h
      rw [beq_iff_eq.mp hij, h]
      exact mem_cons_self
    · exact mem_cons_of_mem _ (ih h)

theorem lookup_eq_none_iff : skipped.lookup i = none ↔ ∀ e ∈ skipped, e.1 ≠ i := by
  rw [List.lookup_eq_none_iff]
  refine forall₂_congr fun e _ => ?_
  rw [bne_iff_ne, ne_comm]

theorem mem_deleteKey : e ∈ deleteKey skipped index ↔ e ∈ skipped ∧ e.1 ≠ index := by
  simp [deleteKey]

/-- The keys of the messages skipped, and the key of the message that skips them. -/
theorem skipKeys_eq (ratchet : Bytes → Bytes) (count : ℕ) (h : ∀ e ∈ skipped, e.1 < index) :
    skipKeys ratchet count index skipped chainKey =
      (skipped ++ (range count).map fun j => (index + j, ratchet^[j] chainKey),
        ratchet^[count] chainKey) := by
  induction count generalizing index skipped chainKey with
  | zero => simp [skipKeys]
  | succ count ih =>
    have hfresh : JsMap.set skipped index chainKey = skipped ++ [(index, chainKey)] :=
      JsMap.set_of_fresh fun e he => (h e he).ne
    have hbelow : ∀ e ∈ JsMap.set skipped index chainKey, e.1 < index + 1 := by
      intro e he
      rw [hfresh] at he
      rcases mem_append.mp he with he | he
      · exact (h e he).trans (Nat.lt_succ_self _)
      · rw [mem_singleton.mp he]
        exact Nat.lt_succ_self _
    rw [skipKeys, ih hbelow, hfresh, range_succ_eq_map, map_cons, map_map, append_assoc]
    refine Prod.ext ?_ rfl
    simp [comp_def, add_assoc, add_comm 1]

theorem oldestKey_le (h : e ∈ skipped) : oldestKey skipped ≤ e.1 := by
  induction skipped with
  | nil => cases h
  | cons first skipped ih =>
    cases skipped with
    | nil => rw [mem_singleton.mp h, oldestKey]
    | cons second rest =>
      rw [oldestKey]
      · rcases mem_cons.mp h with rfl | h
        · exact min_le_left _ _
        · exact (min_le_right _ _).trans (ih h)
      · simp

/-- The keys from `e` on are few, so none of them is pruned. -/
theorem mem_pruneKeys {fuel : ℕ} (h : e ∈ skipped)
    (hfew : (skipped.filter fun x => e.1 ≤ x.1).length ≤
      SWM_SENDER_KEY_SKIPPED_MESSAGE_CACHE_LIMIT) : e ∈ pruneKeys fuel skipped := by
  induction fuel generalizing skipped with
  | zero => exact h
  | succ fuel ih =>
    rw [pruneKeys]
    split_ifs with hmany
    · have hne : e.1 ≠ oldestKey skipped := by
        intro heq
        have hall : (skipped.filter fun x => e.1 ≤ x.1) = skipped := by
          refine filter_eq_self.mpr fun x hx => decide_eq_true ?_
          rw [heq]
          exact oldestKey_le hx
        rw [hall] at hfew
        omega
      refine ih (mem_deleteKey.mpr ⟨h, hne⟩) (le_trans ?_ hfew)
      exact (filter_sublist.filter _).length_le
    · exact h

theorem pruneKeys_sublist (fuel : ℕ) (skipped : List (ℕ × Bytes)) :
    (pruneKeys fuel skipped).Sublist skipped := by
  induction fuel generalizing skipped with
  | zero => exact List.Sublist.refl _
  | succ fuel ih =>
    rw [pruneKeys]
    split
    · exact (ih _).trans filter_sublist
    · exact List.Sublist.refl _

end Cache

section Messages
variable (prims : Primitives Bytes) (epoch : Fields) (k₀ : Bytes) (plain : ℕ → Bytes)

/-- The chain key of message number `i`. -/
def chainKeyAt (i : ℕ) : Bytes := prims.ratchetSwmSenderChainKey^[i] k₀

/-- Message number `i` of the sender. -/
def genuine (i : ℕ) : Message Bytes :=
  encryptSwmSenderKeyMessage prims (chainKeyAt prims k₀ i) (plain i)
    { epoch with messageIndex := i }

/-- A message with the signed content of message number `i`. -/
structure IsGenuine (i : ℕ) (m : Message Bytes) : Prop where
  payload : m.payload = (genuine prims epoch k₀ plain i).payload
  verified : prims.verify m.senderKeySignature m.payload = true
  supported : prims.supported m = true

/-- The signature verifies only for what the sender signed, and decryption inverts
encryption. -/
structure Secure : Prop where
  signed : ∀ signature payload, prims.verify signature payload = true →
    ∃ i, payload = (genuine prims epoch k₀ plain i).payload
  inverts : ∀ key plaintext nonce aad,
    prims.aesGcmDecrypt key (prims.aesGcmEncrypt key plaintext nonce aad) nonce aad =
      some plaintext

variable {prims epoch k₀ plain} {m : Message Bytes} {i : ℕ}

theorem IsGenuine.fields (h : IsGenuine prims epoch k₀ plain i m) :
    m.fields = { epoch with messageIndex := i } :=
  congrArg (fun p : Payload Bytes => p.aad.fields) h.payload

theorem IsGenuine.messageIndex (h : IsGenuine prims epoch k₀ plain i m) : m.messageIndex = i :=
  congrArg Fields.messageIndex h.fields

variable [DecidableEq Bytes]

theorem decrypt_genuine (hsec : Secure prims epoch k₀ plain)
    (h : IsGenuine prims epoch k₀ plain i m) :
    decryptSwmSenderKeyMessage prims (chainKeyAt prims k₀ i) m = .ok (plain i) := by
  have hnonce : m.nonce = (genuine prims epoch k₀ plain i).nonce :=
    congrArg (fun p : Payload Bytes => p.aad.nonce) h.payload
  have haad : m.aad = (genuine prims epoch k₀ plain i).aad := congrArg Payload.aad h.payload
  have hhash : m.aadHash = (genuine prims epoch k₀ plain i).aadHash :=
    congrArg Payload.aadHash h.payload
  have hcipher : m.ciphertext = (genuine prims epoch k₀ plain i).ciphertext :=
    congrArg Payload.ciphertext h.payload
  unfold decryptSwmSenderKeyMessage
  rw [if_neg (by simp [h.supported]), if_neg, if_neg, if_neg (by simp [h.verified]), haad, hnonce,
    hcipher]
  · simp only [genuine, encryptSwmSenderKeyMessage, Message.aad, hsec.inverts]
  · rw [haad, hhash, not_not]
    rfl
  · rw [h.fields, hnonce, not_not]
    rfl

theorem decrypt_forged (hsec : Secure prims epoch k₀ plain)
    (h : ∀ i, ¬IsGenuine prims epoch k₀ plain i m) (key : Bytes) :
    ∃ e, decryptSwmSenderKeyMessage prims key m = .error e := by
  unfold decryptSwmSenderKeyMessage
  split
  · exact ⟨_, rfl⟩
  rename_i hsupported
  split
  · exact ⟨_, rfl⟩
  split
  · exact ⟨_, rfl⟩
  split
  · exact ⟨_, rfl⟩
  rename_i hverified
  have hverify := Bool.eq_true_of_not_eq_false hverified
  obtain ⟨i, hi⟩ := hsec.signed _ _ hverify
  exact absurd ⟨hi, hverify, Bool.eq_true_of_not_eq_false hsupported⟩ (h i)

end Messages

section Calls
variable {prims : Primitives Bytes} {epoch : Fields} {k₀ : Bytes} {plain : ℕ → Bytes}
  {s : State Bytes} {m : Message Bytes} {i : ℕ} {dec : List ℕ}

/-- What the state says about the indexes decrypted so far: it is ratcheted past the highest of
them and holds the keys of the last ones that are missing. -/
structure Follows (prims : Primitives Bytes) (epoch : Fields) (k₀ : Bytes) (dec : List ℕ)
    (s : State Bytes) : Prop where
  fields : s.fields = epoch
  chainKey : s.chainKey = chainKeyAt prims k₀ s.nextMessageIndex
  keys : ∀ e ∈ s.skippedChainKeys,
    e.1 < s.nextMessageIndex ∧ e.1 ∉ dec ∧ e.2 = chainKeyAt prims k₀ e.1
  nodup : (s.skippedChainKeys.map Prod.fst).Nodup
  below : ∀ i ∈ dec, i < s.nextMessageIndex
  top : s.nextMessageIndex = 0 ∨ ∃ h ∈ dec, s.nextMessageIndex = h + 1
  window : ∀ i < s.nextMessageIndex, s.nextMessageIndex ≤ i + 65 → i ∉ dec →
    ∃ k, (i, k) ∈ s.skippedChainKeys

/-- The state of a receiver that has just been set up. -/
def State.initial (epoch : Fields) (k₀ : Bytes) : State Bytes := ⟨epoch, k₀, 0, []⟩

theorem follows_initial : Follows prims epoch k₀ [] (.initial epoch k₀) where
  fields := rfl
  chainKey := rfl
  keys := by simp [State.initial]
  nodup := by simp [State.initial]
  below := by simp
  top := .inl rfl
  window i hi := absurd hi (Nat.not_lt_zero i)

/-- The message leaves the cache alone up to its await. -/
def Untouching (s : State Bytes) (m : Message Bytes) : Prop :=
  (∀ e ∈ s.skippedChainKeys, e.1 ≠ m.messageIndex) ∧
    (m.messageIndex ≤ s.nextMessageIndex ∨ s.nextMessageIndex + 64 < m.messageIndex)

theorem start_message {s' : State Bytes} {p : Pending Bytes}
    (h : s.start prims m = (s', .ok p)) : p.message = m := by
  unfold State.start at h
  split at h
  · cases h
  · split at h
    · cases h
    · cases h
      rfl

theorem takeKey_cached {k : Bytes} (h : s.skippedChainKeys.lookup i = some k) :
    s.takeKey prims i =
      ({ s with skippedChainKeys := deleteKey s.skippedChainKeys i }, .ok (k, true)) := by
  rw [State.takeKey, h]

theorem takeKey_replay (h : s.skippedChainKeys.lookup i = none) (hlt : i < s.nextMessageIndex) :
    s.takeKey prims i = (s, .error (.replay i)) := by
  simp only [State.takeKey, h, if_pos hlt]

theorem takeKey_gap (h : s.skippedChainKeys.lookup i = none) (hgt : s.nextMessageIndex + 64 < i) :
    s.takeKey prims i = (s, .error (.gap (i - s.nextMessageIndex))) := by
  have hgap : i - s.nextMessageIndex > SWM_SENDER_KEY_SKIPPED_MESSAGE_CACHE_LIMIT := by
    rw [SWM_SENDER_KEY_SKIPPED_MESSAGE_CACHE_LIMIT]
    omega
  simp only [State.takeKey, h, if_neg (show ¬i < s.nextMessageIndex by omega), if_pos hgap]

/-- The cache with the keys up to an index. -/
def State.cacheUpTo (prims : Primitives Bytes) (s : State Bytes) (i : ℕ) : List (ℕ × Bytes) :=
  s.skippedChainKeys ++ (range (i - s.nextMessageIndex)).map
    fun j => (s.nextMessageIndex + j, prims.ratchetSwmSenderChainKey^[j] s.chainKey)

theorem takeKey_ahead (h : s.skippedChainKeys.lookup i = none) (hge : s.nextMessageIndex ≤ i)
    (hle : i ≤ s.nextMessageIndex + 64) (hkeys : ∀ e ∈ s.skippedChainKeys, e.1 < s.nextMessageIndex) :
    s.takeKey prims i = ({ s with skippedChainKeys := s.cacheUpTo prims i },
        .ok (prims.ratchetSwmSenderChainKey^[i - s.nextMessageIndex] s.chainKey, false)) := by
  have hgap : ¬i - s.nextMessageIndex > SWM_SENDER_KEY_SKIPPED_MESSAGE_CACHE_LIMIT := by
    rw [SWM_SENDER_KEY_SKIPPED_MESSAGE_CACHE_LIMIT]
    omega
  simp only [State.takeKey, h, if_neg (show ¬i < s.nextMessageIndex by omega), if_neg hgap,
    skipKeys_eq _ _ hkeys, State.cacheUpTo]

theorem addressed_genuine (hfields : s.fields = epoch)
    (h : IsGenuine prims epoch k₀ plain i m) : s.addressed m = .ok () := by
  rw [State.addressed, h.fields, hfields]
  simp

/-- The missing ones among the last indexes have few keys after them. -/
theorem Follows.few (h : Follows prims epoch k₀ dec s) (hi : i < s.nextMessageIndex)
    (hwindow : s.nextMessageIndex ≤ i + 65) :
    (s.skippedChainKeys.filter fun e => i ≤ e.1).length ≤
      SWM_SENDER_KEY_SKIPPED_MESSAGE_CACHE_LIMIT := by
  obtain ⟨last, hlast, hnext⟩ := h.top.resolve_left (by omega)
  have hsub : ((s.skippedChainKeys.filter fun e => i ≤ e.1).map Prod.fst).toFinset ⊆
      Finset.Ico i last := by
    intro x hx
    simp only [mem_toFinset, mem_map, mem_filter, decide_eq_true_eq] at hx
    obtain ⟨e, ⟨he, hle⟩, rfl⟩ := hx
    obtain ⟨hlt, hnew, -⟩ := h.keys e he
    have hne : e.1 ≠ last := fun heq => hnew (heq ▸ hlast)
    rw [Finset.mem_Ico]
    omega
  have hnodup : ((s.skippedChainKeys.filter fun e => i ≤ e.1).map Prod.fst).Nodup :=
    h.nodup.sublist (filter_sublist.map _)
  have hcard := Finset.card_le_card hsub
  rw [toFinset_card_of_nodup hnodup, length_map, Nat.card_Ico] at hcard
  rw [SWM_SENDER_KEY_SKIPPED_MESSAGE_CACHE_LIMIT]
  omega

theorem Follows.prune (h : Follows prims epoch k₀ dec s) (fuel : ℕ) :
    Follows prims epoch k₀ dec
      { s with skippedChainKeys := pruneKeys fuel s.skippedChainKeys } where
  fields := h.fields
  chainKey := h.chainKey
  keys e he := h.keys e ((pruneKeys_sublist fuel _).subset he)
  nodup := h.nodup.sublist ((pruneKeys_sublist fuel _).map _)
  below := h.below
  top := h.top
  window i hi hwindow hnew := by
    obtain ⟨k, hk⟩ := h.window i hi hwindow hnew
    exact ⟨k, mem_pruneKeys hk (h.few hi hwindow)⟩

theorem Follows.cached (h : Follows prims epoch k₀ dec s) (hi : i < s.nextMessageIndex) :
    Follows prims epoch k₀ (dec ++ [i])
      { s with skippedChainKeys := deleteKey s.skippedChainKeys i } where
  fields := h.fields
  chainKey := h.chainKey
  keys e he := by
    obtain ⟨hmem, hne⟩ := mem_deleteKey.mp he
    obtain ⟨hlt, hnew, hkey⟩ := h.keys e hmem
    exact ⟨hlt, by simp [hnew, hne], hkey⟩
  nodup := h.nodup.sublist (filter_sublist.map _)
  below j hj := by
    rcases mem_append.mp hj with hj | hj
    · exact h.below j hj
    · rw [mem_singleton.mp hj]
      exact hi
  top := h.top.imp_right fun ⟨last, hlast, hnext⟩ => ⟨last, by simp [hlast], hnext⟩
  window j hj hwindow hnew := by
    simp only [mem_append, mem_singleton, not_or] at hnew
    obtain ⟨k, hk⟩ := h.window j hj hwindow hnew.1
    exact ⟨k, mem_deleteKey.mpr ⟨hk, hnew.2⟩⟩

theorem Follows.ahead (h : Follows prims epoch k₀ dec s) (hi : s.nextMessageIndex ≤ i) :
    Follows prims epoch k₀ (dec ++ [i])
      { s with
        chainKey := chainKeyAt prims k₀ (i + 1)
        nextMessageIndex := i + 1
        skippedChainKeys := s.cacheUpTo prims i } where
  fields := h.fields
  chainKey := rfl
  keys e he := by
    rcases mem_append.mp he with he | he
    · obtain ⟨hlt, hnew, hkey⟩ := h.keys e he
      have hne : e.1 ≠ i := by omega
      exact ⟨by dsimp only; omega, by simp [hnew, hne], hkey⟩
    · obtain ⟨j, hj, rfl⟩ := mem_map.mp he
      rw [mem_range] at hj
      have hnew : s.nextMessageIndex + j ∉ dec := fun hmem => by
        have hlt := h.below _ hmem
        omega
      have hne : s.nextMessageIndex + j ≠ i := by omega
      refine ⟨by dsimp only; omega, by simp [hnew, hne], ?_⟩
      dsimp only
      rw [h.chainKey, chainKeyAt, chainKeyAt, ← iterate_add_apply, add_comm]
  nodup := by
    rw [State.cacheUpTo, map_append, map_map]
    refine nodup_append.mpr ⟨h.nodup, ?_, ?_⟩
    · exact nodup_range.map fun a b hab => Nat.add_left_cancel hab
    · rintro a ha b hb rfl
      obtain ⟨e, he, rfl⟩ := mem_map.mp ha
      obtain ⟨j, -, hj⟩ := mem_map.mp hb
      have hlt := (h.keys e he).1
      simp only [Function.comp_apply] at hj
      omega
  below j hj := by
    dsimp only
    rcases mem_append.mp hj with hj | hj
    · have hlt := h.below j hj
      omega
    · rw [mem_singleton.mp hj]
      omega
  top := .inr ⟨i, by simp, rfl⟩
  window j hj hwindow hnew := by
    simp only [mem_append, mem_singleton, not_or] at hnew
    dsimp only at hj hwindow
    by_cases hold : j < s.nextMessageIndex
    · obtain ⟨k, hk⟩ := h.window j hold (by omega) hnew.1
      exact ⟨k, mem_append_left _ hk⟩
    · refine ⟨prims.ratchetSwmSenderChainKey^[j - s.nextMessageIndex] s.chainKey,
        mem_append_right _ (mem_map.mpr ⟨j - s.nextMessageIndex, ?_, ?_⟩)⟩
      · exact mem_range.mpr (by omega)
      · rw [Nat.add_sub_cancel' (by omega)]

variable [DecidableEq Bytes]

/-- A call from start to end. -/
def State.receive (prims : Primitives Bytes) (s : State Bytes) (m : Message Bytes) :
    State Bytes × Except Err Bytes :=
  match s.start prims m with
  | (s, .ok p) => s.finish prims p
  | (s, .error e) => (s, .error e)

theorem run_deliver (log : List (Message Bytes × Except Err Bytes)) :
    run prims ⟨s, [], log⟩ (deliver m) =
      ⟨(s.receive prims m).1, [], log ++ [(m, (s.receive prims m).2)]⟩ := by
  simp only [run, deliver, foldl_cons, foldl_nil, step, State.receive]
  rcases hstart : s.start prims m with ⟨s', e | p⟩
  · rfl
  · obtain rfl := start_message hstart
    rfl

/-- A forged message that leaves the cache alone is rejected without a trace. -/
theorem receive_forged (hsec : Secure prims epoch k₀ plain)
    (hforged : ∀ i, ¬IsGenuine prims epoch k₀ plain i m) (h : Untouching s m)
    (hkeys : ∀ e ∈ s.skippedChainKeys, e.1 < s.nextMessageIndex) :
    ∃ e, s.receive prims m = (s, .error e) := by
  have hnone := lookup_eq_none_iff.mpr h.1
  unfold State.receive State.start
  cases s.addressed m with
  | error e => exact ⟨e, rfl⟩
  | ok u =>
    rcases Nat.lt_trichotomy m.messageIndex s.nextMessageIndex with hlt | heq | hgt
    · exact ⟨_, by rw [takeKey_replay hnone hlt]⟩
    · obtain ⟨e, he⟩ := decrypt_forged hsec hforged s.chainKey
      have hcache : s.cacheUpTo prims s.nextMessageIndex = s.skippedChainKeys := by
        simp [State.cacheUpTo]
      refine ⟨e, ?_⟩
      rw [takeKey_ahead hnone heq.ge (by omega) hkeys, heq, Nat.sub_self, hcache]
      simp [State.finish, he]
    · have hfar := h.2.resolve_left (by omega)
      exact ⟨_, by rw [takeKey_gap hnone hfar]⟩

/-- A genuine message is decrypted if it is new and in reach, and rejected without a trace
otherwise. -/
theorem receive_genuine (hsec : Secure prims epoch k₀ plain) (hs : Follows prims epoch k₀ dec s)
    (h : IsGenuine prims epoch k₀ plain i m) :
    (∃ s', s.receive prims m = (s', .ok (plain i)) ∧ i ∉ dec ∧
      Follows prims epoch k₀ (dec ++ [i]) s') ∨
    ((∃ e, s.receive prims m = (s, .error e)) ∧
      (i ∈ dec ∨ i + 65 < s.nextMessageIndex ∨ s.nextMessageIndex + 64 < i)) := by
  have haddressed := addressed_genuine hs.fields h
  unfold State.receive State.start
  rw [haddressed, h.messageIndex]
  dsimp only
  cases hlookup : s.skippedChainKeys.lookup i with
  | some k =>
    obtain ⟨hlt, hnew, hk⟩ := hs.keys _ (mem_of_lookup hlookup)
    dsimp only at hlt hnew hk
    refine .inl ⟨_, ?_, hnew, (hs.cached hlt).prune (deleteKey s.skippedChainKeys i).length⟩
    rw [takeKey_cached hlookup]
    simp only [State.finish, hk, decrypt_genuine hsec h, if_true]
  | none =>
    have hnone := lookup_eq_none_iff.mp hlookup
    by_cases hlt : i < s.nextMessageIndex
    · refine .inr ⟨⟨_, by rw [takeKey_replay hlookup hlt]⟩, ?_⟩
      by_contra hmissing
      simp only [not_or, not_lt] at hmissing
      obtain ⟨k, hk⟩ := hs.window i hlt hmissing.2.1 hmissing.1
      exact hnone _ hk rfl
    · by_cases hgt : s.nextMessageIndex + 64 < i
      · exact .inr ⟨⟨_, by rw [takeKey_gap hlookup hgt]⟩, .inr (.inr hgt)⟩
      · have hnew : i ∉ dec := fun hmem => hlt (hs.below i hmem)
        have hkey : prims.ratchetSwmSenderChainKey^[i - s.nextMessageIndex] s.chainKey =
            chainKeyAt prims k₀ i := by
          rw [hs.chainKey, chainKeyAt, chainKeyAt, ← iterate_add_apply,
            Nat.sub_add_cancel (by omega)]
        have hnext : prims.ratchetSwmSenderChainKey (chainKeyAt prims k₀ i) =
            chainKeyAt prims k₀ (i + 1) := (iterate_succ_apply' ..).symm
        have hfollows := (hs.ahead (not_lt.mp hlt)).prune (s.cacheUpTo prims i).length
        refine .inl ⟨_, ?_, hnew, hfollows⟩
        rw [takeKey_ahead hlookup (not_lt.mp hlt) (not_lt.mp hgt) fun e he => (hs.keys e he).1]
        simp [State.finish, hkey, decrypt_genuine hsec h, h.messageIndex, hnext]

end Calls

section Runs
variable {prims : Primitives Bytes} {epoch : Fields} {k₀ : Bytes} {plain : ℕ → Bytes}
  {s : State Bytes} {m : Message Bytes} {dec : List ℕ} {r : Receiver Bytes}

theorem le_highest {i : ℕ} (h : i ∈ dec) : (i : ℤ) ≤ highest dec := by
  induction dec with
  | nil => cases h
  | cons j dec ih =>
    rcases mem_cons.mp h with rfl | h
    · exact le_max_left _ _
    · exact (ih h).trans (le_max_right _ _)

theorem highest_lt {n : ℕ} (h : ∀ i ∈ dec, i < n) : highest dec < n := by
  induction dec with
  | nil => exact neg_one_lt_zero.trans_le (Int.natCast_nonneg n)
  | cons j dec ih =>
    exact max_lt (Int.ofNat_lt.mpr (h j mem_cons_self))
      (ih fun i hi => h i (mem_cons_of_mem _ hi))

theorem neg_one_le_highest (dec : List ℕ) : -1 ≤ highest dec := by
  induction dec with
  | nil => exact le_rfl
  | cons j dec ih => exact ih.trans (le_max_right _ _)

/-- The next index is the one after the highest decrypted. -/
theorem Follows.highest_eq (h : Follows prims epoch k₀ dec s) :
    highest dec = s.nextMessageIndex - 1 := by
  have hlt := highest_lt h.below
  rcases h.top with hzero | ⟨i, hi, hnext⟩
  · have hge := neg_one_le_highest dec
    omega
  · have hle := le_highest hi
    omega

/-- Between calls the receiver follows what it has decrypted. -/
structure Settled (prims : Primitives Bytes) (epoch : Fields) (k₀ : Bytes)
    (r : Receiver Bytes) : Prop where
  idle : r.pending = []
  nodup : (decrypted r.log).Nodup
  follows : Follows prims epoch k₀ (decrypted r.log) r.state

theorem Settled.rejected {e : Err} (hr : Settled prims epoch k₀ r) :
    Settled prims epoch k₀ ⟨r.state, [], r.log ++ [(m, .error e)]⟩ := by
  have hdec : decrypted (r.log ++ [(m, .error e)]) = decrypted r.log := by
    simp [decrypted]
  exact ⟨rfl, hdec ▸ hr.nodup, hdec ▸ hr.follows⟩

variable [DecidableEq Bytes]

/-- The receiver after calls that do not overlap. -/
def receiveAll (prims : Primitives Bytes) (epoch : Fields) (k₀ : Bytes)
    (ms : List (Message Bytes)) : Receiver Bytes :=
  run prims ⟨.initial epoch k₀, [], []⟩ (ms.flatMap deliver)

theorem receiveAll_append (before : List (Message Bytes)) (m : Message Bytes) :
    receiveAll prims epoch k₀ (before ++ [m]) =
      run prims (receiveAll prims epoch k₀ before) (deliver m) := by
  simp [receiveAll, run, foldl_append]

/-- Forged messages leave the cache alone when they arrive. -/
def Harmless (prims : Primitives Bytes) (epoch : Fields) (k₀ : Bytes) (plain : ℕ → Bytes)
    (ms : List (Message Bytes)) : Prop :=
  ∀ before m after, ms = before ++ m :: after → (∀ i, ¬IsGenuine prims epoch k₀ plain i m) →
    Untouching (receiveAll prims epoch k₀ before).state m

theorem Settled.run_deliver (h : Settled prims epoch k₀ r) : run prims r (deliver m) =
      ⟨(r.state.receive prims m).1, [], r.log ++ [(m, (r.state.receive prims m).2)]⟩ := by
  obtain ⟨s, pending, log⟩ := r
  obtain rfl : pending = [] := h.idle
  exact SenderKey.run_deliver log

theorem Settled.forged (hr : Settled prims epoch k₀ r)
    (hsec : Secure prims epoch k₀ plain) (hforged : ∀ i, ¬IsGenuine prims epoch k₀ plain i m)
    (h : Untouching r.state m) :
    ∃ e, run prims r (deliver m) = ⟨r.state, [], r.log ++ [(m, .error e)]⟩ := by
  obtain ⟨e, he⟩ := receive_forged hsec hforged h fun e he => (hr.follows.keys e he).1
  exact ⟨e, by rw [hr.run_deliver, he]⟩

theorem Settled.step (hr : Settled prims epoch k₀ r) (hsec : Secure prims epoch k₀ plain)
    (h : (∀ i, ¬IsGenuine prims epoch k₀ plain i m) → Untouching r.state m) :
    Settled prims epoch k₀ (run prims r (deliver m)) := by
  by_cases hm : ∀ i, ¬IsGenuine prims epoch k₀ plain i m
  · obtain ⟨e, he⟩ := hr.forged hsec hm (h hm)
    rw [he]
    exact hr.rejected
  · push Not at hm
    obtain ⟨i, hi⟩ := hm
    rw [hr.run_deliver]
    rcases receive_genuine hsec hr.follows hi with ⟨s', hs', hnew, hfollows⟩ | ⟨⟨e, he⟩, -⟩
    · have hdec : decrypted (r.log ++ [(m, .ok (plain i))]) = decrypted r.log ++ [i] := by
        simp [decrypted, hi.messageIndex]
      rw [hs']
      refine ⟨rfl, ?_, hdec ▸ hfollows⟩
      rw [hdec]
      exact hr.nodup.append (nodup_singleton i) (disjoint_singleton.mpr hnew)
    · rw [he]
      exact hr.rejected

theorem settled_receiveAll (hsec : Secure prims epoch k₀ plain) {ms : List (Message Bytes)}
    (h : Harmless prims epoch k₀ plain ms) :
    Settled prims epoch k₀ (receiveAll prims epoch k₀ ms) := by
  induction ms using reverseRecOn with
  | nil => exact ⟨rfl, nodup_nil, follows_initial⟩
  | append_singleton ms m ih =>
    have hbefore : Harmless prims epoch k₀ plain ms := fun before m' after hms =>
      h before m' (after ++ [m]) (by rw [hms, append_assoc, cons_append])
    rw [receiveAll_append]
    exact (ih hbefore).step hsec (h ms m [] rfl)

/-- Calls that do not overlap, with harmless forgeries among them: no index is decrypted twice,
the next message is rejected without a trace if it is forged and harmless, and decrypted to its
plaintext if it is genuine, new and within the window. -/
theorem receiveAll_decrypts_once (hsec : Secure prims epoch k₀ plain)
    (ms : List (Message Bytes)) (h : Harmless prims epoch k₀ plain ms) :
    let r := receiveAll prims epoch k₀ ms
    (decrypted r.log).Nodup ∧
      ∀ m, ((∀ i, ¬IsGenuine prims epoch k₀ plain i m) → Untouching r.state m →
          ∃ e, run prims r (deliver m) = ⟨r.state, [], r.log ++ [(m, .error e)]⟩) ∧
        ∀ i : ℕ, IsGenuine prims epoch k₀ plain i m → i ∉ decrypted r.log →
          highest (decrypted r.log) - 64 ≤ i → i ≤ highest (decrypted r.log) + 65 →
          (run prims r (deliver m)).log = r.log ++ [(m, .ok (plain i))] := by
  intro r
  have hr : Settled prims epoch k₀ r := settled_receiveAll hsec h
  refine ⟨hr.nodup, fun m => ⟨hr.forged hsec, fun i hi hnew hlow hhigh => ?_⟩⟩
  have hhighest := hr.follows.highest_eq
  rcases receive_genuine hsec hr.follows hi with ⟨s', hs', -, -⟩ | ⟨-, hold | hlow' | hhigh'⟩
  · rw [hr.run_deliver, hs']
  · exact absurd hold hnew
  · omega
  · omega

end Runs

section Toy

/-- An epoch over numbers: keys count up, and a message is verified against the sender's own. -/
def toyEpoch : Fields := ⟨"graph", "", "sender", "epoch", "members", 0⟩

def unsigned : Primitives ℕ where
  ratchetSwmSenderChainKey key := key + 1
  deriveMessageNonce key _ := key
  derivePayloadKey key _ := key
  sha256 aad := aad.nonce
  aesGcmEncrypt key plaintext _ _ := plaintext + key
  aesGcmDecrypt key ciphertext _ _ := some (ciphertext - key)
  sign _ := 1
  verify _ _ := false
  supported _ := true

def toyPlain (i : ℕ) : ℕ := 100 + i

def toy : Primitives ℕ :=
  { unsigned with
    verify := fun signature payload => signature = 1 ∧
      payload = (genuine unsigned toyEpoch 0 toyPlain payload.aad.fields.messageIndex).payload }

theorem secure_toy : Secure toy toyEpoch 0 toyPlain where
  signed _ payload h := ⟨payload.aad.fields.messageIndex, (of_decide_eq_true h).2⟩
  inverts _ _ _ _ := congrArg some (Nat.add_sub_cancel ..)

def toyMessage (i : ℕ) : Message ℕ := genuine toy toyEpoch 0 toyPlain i

theorem isGenuine_toyMessage (i : ℕ) : IsGenuine toy toyEpoch 0 toyPlain i (toyMessage i) where
  payload := rfl
  verified := decide_eq_true ⟨rfl, rfl⟩
  supported := rfl

/-- A message of the epoch without its signature. -/
def toyForged (i : ℕ) : Message ℕ := { toyMessage i with senderKeySignature := 0 }

theorem not_isGenuine_toyForged (i j : ℕ) : ¬IsGenuine toy toyEpoch 0 toyPlain j (toyForged i) :=
  fun h => absurd h.verified (by simp [toy, toyForged])

theorem receiveAll_decrypts_once_reordered :
    let r := receiveAll toy toyEpoch 0 [toyMessage 1, toyForged 1]
    decrypted r.log = [1] ∧
      (run toy r (deliver (toyMessage 0))).log = r.log ++ [(toyMessage 0, .ok 100)] := by
  have h : Harmless toy toyEpoch 0 toyPlain [toyMessage 1, toyForged 1] := by
    intro before m after hms hm
    rcases before with - | ⟨m₁, - | ⟨m₂, before⟩⟩
    · cases hms
      exact absurd (isGenuine_toyMessage 1) (hm 1)
    · cases hms
      exact ⟨by decide, .inl (by decide)⟩
    · simp at hms
  refine ⟨by decide, ?_⟩
  exact ((receiveAll_decrypts_once secure_toy _ h).2 (toyMessage 0)).2 0 (isGenuine_toyMessage 0)
    (by decide) (by decide) (by decide)

/-- A forged message takes the cached key of a genuine one with it, which is then rejected; one
that names an index ahead lets the next message be decrypted twice, and so do two calls for one
message that overlap. -/
theorem forged_message_takes_key :
    Secure toy toyEpoch 0 toyPlain ∧ (∀ i, IsGenuine toy toyEpoch 0 toyPlain i (toyMessage i)) ∧
      (∀ i j, ¬IsGenuine toy toyEpoch 0 toyPlain j (toyForged i)) ∧
      decrypted (receiveAll toy toyEpoch 0 [toyMessage 1, toyMessage 0]).log = [1, 0] ∧
      decrypted (receiveAll toy toyEpoch 0 [toyMessage 1, toyForged 0, toyMessage 0]).log = [1] ∧
      decrypted (receiveAll toy toyEpoch 0 [toyForged 1, toyMessage 0, toyMessage 0]).log =
        [0, 0] ∧
      decrypted (run toy ⟨.initial toyEpoch 0, [], []⟩
        [.start (toyMessage 0), .start (toyMessage 0), .finish 0, .finish 0]).log = [0, 0] :=
  ⟨secure_toy, isGenuine_toyMessage, not_isGenuine_toyForged, by decide, by decide, by decide,
    by decide⟩

end Toy

end Dkg.SenderKey
