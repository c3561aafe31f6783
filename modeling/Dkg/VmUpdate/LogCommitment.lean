import Dkg.Wire.LengthPrefixed

/-!
The ordered commitment over a page of raw logs: the fields of all logs in one list of strings, each
after its length, without a count of the logs.
-/

namespace Dkg.VmUpdate
open Revert Utf16 Json Wire List

def MAX_SCALAR_BYTES : ℕ := 4096
def MAX_ENCODED_UPDATE_LOG_BYTES_PER_PAGE : ℕ := 8 * 1024 * 1024
def MAX_UPDATE_PAGE_EVENTS : ℕ := 4096
def MAX_LOG_TOPICS : ℕ := 4

inductive VmUpdateError where
  | noncanonicalScalar (label : String)
  | notAscending
  | samePosition
  | oversizedArray (label : String)
  | oversizedPage (label : String)
deriving DecidableEq

structure FinalizedEventPosition where
  blockNumber : ℤ
  blockHash : Text
  transactionHash : Text
  transactionIndex : ℤ
  logIndex : ℤ
deriving DecidableEq

structure RawLog where
  address : Text
  topics : List Text
  data : Text
  position : FinalizedEventPosition
deriving DecidableEq

def boundedString (value : Text) (label : String) : Except VmUpdateError Unit :=
  require (¬(value.length > MAX_SCALAR_BYTES ∨ (utf8 value).length > MAX_SCALAR_BYTES))
    (.noncanonicalScalar label)

def canonicalEvmAddress (value : Text) (label : String) : Except VmUpdateError Text := do
  boundedString value label
  (assertCanonicalEvmAddress label value).mapError fun _ => .noncanonicalScalar label
  return value

def canonicalDigest32 (value : Text) (label : String) : Except VmUpdateError Text := do
  boundedString value label
  (assertCanonicalDigest label value).mapError fun _ => .noncanonicalScalar label
  return value

def canonicalBlockNumber (value : ℤ) (label : String) : Except VmUpdateError ℤ := do
  require (¬(¬isSafeInteger value ∨ value < 0)) (.noncanonicalScalar label)
  return value

/-- `assertCanonicalHexBytes`: `0x` and pairs of lowercase digits, as many as the limits allow. -/
def isCanonicalHexBytes (value : Text) (minBytes maxBytes : ℕ) : Bool :=
  value.take 2 == text "0x" && (value.length - 2) % 2 == 0 &&
    decide (minBytes * 2 ≤ value.length - 2) && decide (value.length - 2 ≤ maxBytes * 2) &&
    (value.drop 2).all isLowerHex

def canonicalPosition (input : FinalizedEventPosition) (label : String) :
    Except VmUpdateError FinalizedEventPosition := do
  let blockNumber ← canonicalBlockNumber input.blockNumber (label ++ ".blockNumber")
  let blockHash ← canonicalDigest32 input.blockHash (label ++ ".blockHash")
  let transactionHash ← canonicalDigest32 input.transactionHash (label ++ ".transactionHash")
  let transactionIndex ← canonicalBlockNumber input.transactionIndex (label ++ ".transactionIndex")
  let logIndex ← canonicalBlockNumber input.logIndex (label ++ ".logIndex")
  return ⟨blockNumber, blockHash, transactionHash, transactionIndex, logIndex⟩

def compareEventPosition (a b : FinalizedEventPosition) : ℤ :=
  if a.blockNumber ≠ b.blockNumber then if a.blockNumber < b.blockNumber then -1 else 1
  else if a.transactionIndex ≠ b.transactionIndex then
    if a.transactionIndex < b.transactionIndex then -1 else 1
  else if a.logIndex ≠ b.logIndex then if a.logIndex < b.logIndex then -1 else 1
  else 0

/-- The budget of the page after a text. -/
def charge (encodedBytes : ℕ) (hex : Text) (label : String) : Except VmUpdateError ℕ := do
  require (¬encodedBytes + hex.length > MAX_ENCODED_UPDATE_LOG_BYTES_PER_PAGE) (.oversizedPage label)
  return encodedBytes + hex.length

/-- The topics of a log from an index on, each checked and charged in turn. -/
def canonicalTopics : ℕ → List Text → ℕ → Except VmUpdateError ℕ
  | _, [], encodedBytes => return encodedBytes
  | index, topic :: topics, encodedBytes => do
    let label := "log.topics[" ++ toString index ++ "]"
    let digest ← canonicalDigest32 topic label
    let encodedBytes ← charge encodedBytes digest label
    canonicalTopics (index + 1) topics encodedBytes

/-- The check of a position against the one before. -/
def checkOrder (previous : Option FinalizedEventPosition) (position : FinalizedEventPosition) :
    Except VmUpdateError Unit :=
  match previous with
  | none => .ok ()
  | some previous => do
    require (¬compareEventPosition previous position > 0) .notAscending
    require (compareEventPosition previous position ≠ 0) .samePosition

/-- The strings that a log adds to the commitment. -/
def logParts (log : RawLog) : List Text :=
  [log.address, digitsOf log.topics.length] ++ log.topics ++
    [log.data, digitsOf log.position.blockNumber.toNat, log.position.blockHash,
      log.position.transactionHash, digitsOf log.position.transactionIndex.toNat,
      digitsOf log.position.logIndex.toNat]

/-- One turn of the loop: the checks of a log and the budget after it. -/
def checkLog (previous : Option FinalizedEventPosition) (encodedBytes : ℕ) (log : RawLog) :
    Except VmUpdateError ℕ := do
  let position ← canonicalPosition log.position "log"
  checkOrder previous position
  require (¬log.topics.length > MAX_LOG_TOPICS) (.oversizedArray "log.topics")
  let encodedBytes ← charge encodedBytes log.data "log.data"
  require (isCanonicalHexBytes log.data 0 MAX_ENCODED_UPDATE_LOG_BYTES_PER_PAGE = true)
    (.noncanonicalScalar "log.data")
  let encodedBytes ← canonicalTopics 0 log.topics encodedBytes
  let _ ← canonicalEvmAddress log.address "log.address"
  return encodedBytes

/-- The strings of the logs from one on. -/
def collectParts : List RawLog → Option FinalizedEventPosition → ℕ → Except VmUpdateError (List Text)
  | [], _, _ => return []
  | log :: logs, previous, encodedBytes => do
    let encodedBytes ← checkLog previous encodedBytes log
    let parts ← collectParts logs (some log.position) encodedBytes
    return logParts log ++ parts

def LOG_COMMITMENT_DOMAIN : List UInt8 := utf8Bytes (text "dkg:w2:ordered-log-commitment:v1")

variable (sha256 : List UInt8 → Digest)

def digestWithDomain (domain canonicalBytes : List UInt8) : Text :=
  digestToLowerHex (digestBytes sha256 domain [canonicalBytes])

def orderedLogCommitment (logs : List RawLog) : Except VmUpdateError Text := do
  require (¬logs.length > MAX_UPDATE_PAGE_EVENTS) (.oversizedArray "page logs")
  let parts ← collectParts logs none 0
  return digestWithDomain sha256 LOG_COMMITMENT_DOMAIN (lengthPrefixed parts)

section Checked
variable {t : Text} {log log' : RawLog} {previous : Option FinalizedEventPosition}
  {budget budget' : ℕ} {position : FinalizedEventPosition} {label : String}

theorem encodable_of_isHexOf {bytes : ℕ} (h : isHexOf bytes t = true) (hsmall : bytes < 2 ^ 30) :
    Encodable t := by
  refine .of_ascii (isHexOf_ascii h) ?_
  obtain ⟨x, rfl, hlen, -⟩ := isHexOf_iff.mp h
  have : (text "0x").length = 2 := rfl
  rw [length_append]
  omega

/-- What the checks of a log establish. -/
structure RawLog.Ok (log : RawLog) : Prop where
  parts : ∀ t ∈ logParts log, Encodable t
  blockNumber : 0 ≤ log.position.blockNumber
  transactionIndex : 0 ≤ log.position.transactionIndex
  logIndex : 0 ≤ log.position.logIndex

theorem canonicalDigest32_ok {r : Text}
    (h : canonicalDigest32 t label = .ok r) : r = t ∧ Encodable t := by
  simp only [canonicalDigest32, bind_eq_ok, mapError_eq_ok, pure_eq_ok] at h
  obtain ⟨_, -, _, hdigest, rfl⟩ := h
  exact ⟨rfl, encodable_of_isHexOf (require_eq_ok.mp hdigest) (by decide)⟩

theorem canonicalEvmAddress_ok {r : Text}
    (h : canonicalEvmAddress t label = .ok r) : Encodable t := by
  simp only [canonicalEvmAddress, assertCanonicalEvmAddress, bind_eq_ok, mapError_eq_ok,
    require_eq_ok] at h
  obtain ⟨_, -, _, ⟨_, haddress, -⟩, -⟩ := h
  exact encodable_of_isHexOf haddress (by decide)

theorem canonicalBlockNumber_ok {value r : ℤ} (h : canonicalBlockNumber value label = .ok r) :
    r = value ∧ 0 ≤ value ∧ Encodable (digitsOf value.toNat) := by
  simp only [canonicalBlockNumber, bind_eq_ok, require_eq_ok, pure_eq_ok] at h
  obtain ⟨_, hvalue, rfl⟩ := h
  rw [isSafeInteger, decide_eq_true_eq] at hvalue
  exact ⟨rfl, by omega, encodable_digitsOf (by omega)⟩

theorem canonicalTopics_ok {index : ℕ} {topics : List Text}
    (h : canonicalTopics index topics budget = .ok budget') : ∀ t ∈ topics, Encodable t := by
  induction topics generalizing index budget with
  | nil => nofun
  | cons topic topics ih =>
    simp only [canonicalTopics, bind_eq_ok] at h
    obtain ⟨digest, hdigest, budget₁, -, hrest⟩ := h
    exact forall_mem_cons.mpr ⟨(canonicalDigest32_ok hdigest).2, ih hrest⟩

theorem charge_ok (h : charge budget t label = .ok budget') :
    t.length ≤ MAX_ENCODED_UPDATE_LOG_BYTES_PER_PAGE := by
  simp only [charge, bind_eq_ok, require_eq_ok] at h
  obtain ⟨-, hle, -⟩ := h
  omega

theorem canonicalPosition_ok {r : FinalizedEventPosition}
    (h : canonicalPosition position label = .ok r) :
    r = position ∧ 0 ≤ position.blockNumber ∧ 0 ≤ position.transactionIndex ∧
      0 ≤ position.logIndex ∧ ∀ t ∈ [digitsOf position.blockNumber.toNat, position.blockHash,
        position.transactionHash, digitsOf position.transactionIndex.toNat,
        digitsOf position.logIndex.toNat], Encodable t := by
  simp only [canonicalPosition, bind_eq_ok, pure_eq_ok] at h
  obtain ⟨bn, hbn, bh, hbh, th, hth, ti, hti, li, hli, rfl⟩ := h
  obtain ⟨rfl, hbn0, hblock⟩ := canonicalBlockNumber_ok hbn
  obtain ⟨rfl, hblockHash⟩ := canonicalDigest32_ok hbh
  obtain ⟨rfl, htransactionHash⟩ := canonicalDigest32_ok hth
  obtain ⟨rfl, hti0, htransaction⟩ := canonicalBlockNumber_ok hti
  obtain ⟨rfl, hli0, hlog⟩ := canonicalBlockNumber_ok hli
  refine ⟨rfl, hbn0, hti0, hli0, ?_⟩
  simp only [forall_mem_cons]
  exact ⟨hblock, hblockHash, htransactionHash, htransaction, hlog, forall_mem_nil _⟩

theorem checkLog_ok (h : checkLog previous budget log = .ok budget') :
    log.Ok ∧ checkOrder previous log.position = .ok () := by
  simp only [checkLog, bind_eq_ok, require_eq_ok] at h
  obtain ⟨position, hposition, ⟨⟩, horder, _, htopics, budget₁, hcharge, _, hdata, budget₂, hall, _,
    haddress, -⟩ := h
  obtain ⟨rfl, hbn, hti, hli, hparts⟩ := canonicalPosition_ok hposition
  refine ⟨⟨?_, hbn, hti, hli⟩, horder⟩
  have hcount : Encodable (digitsOf log.topics.length) :=
    encodable_digitsOf (by unfold MAX_LOG_TOPICS MAX_SAFE_INTEGER at *; omega)
  have hdataPart : Encodable log.data := by
    have hlen := charge_ok hcharge
    simp only [isCanonicalHexBytes, Bool.and_eq_true, beq_iff_eq, all_eq_true] at hdata
    unfold MAX_ENCODED_UPDATE_LOG_BYTES_PER_PAGE at hlen
    refine .of_ascii ?_ (by omega)
    rw [← take_append_drop 2 log.data, hdata.1.1.1.1]
    exact ascii_hex hdata.2
  simp only [logParts, forall_mem_append, forall_mem_cons]
  simp only [forall_mem_cons] at hparts
  exact ⟨⟨⟨canonicalEvmAddress_ok haddress, hcount, forall_mem_nil _⟩, canonicalTopics_ok hall⟩,
    hdataPart, hparts⟩

end Checked

/-- The order of the chain: block, then transaction, then log. -/
def FinalizedEventPosition.place (p : FinalizedEventPosition) : ℤ ×ₗ ℤ ×ₗ ℤ :=
  toLex (p.blockNumber, toLex (p.transactionIndex, p.logIndex))

theorem checkOrder_ok {a b : FinalizedEventPosition} (h : checkOrder (some a) b = .ok ()) :
    a.place < b.place := by
  simp only [checkOrder, bind_eq_ok, require_eq_ok] at h
  obtain ⟨-, hle, hne⟩ := h
  rw [FinalizedEventPosition.place, FinalizedEventPosition.place, Prod.Lex.toLex_lt_toLex,
    Prod.Lex.toLex_lt_toLex]
  dsimp only
  unfold compareEventPosition at hle hne
  split_ifs at hle hne <;> omega

section Page
variable {sha256} {logs logs' : List RawLog} {previous : Option FinalizedEventPosition} {budget : ℕ}
  {parts : List Text} {log log' : RawLog} {commitment : Text}

/-- What the loop over a page establishes. -/
theorem collectParts_ok (h : collectParts logs previous budget = .ok parts) :
    parts = logs.flatMap logParts ∧ (∀ log ∈ logs, log.Ok) ∧
      (∀ p ∈ previous, ∀ log ∈ logs, p.place < log.position.place) ∧
      logs.Pairwise (fun a b => a.position.place < b.position.place) := by
  induction logs generalizing previous budget parts with
  | nil =>
    cases h
    exact ⟨rfl, nofun, fun _ _ => nofun, .nil⟩
  | cons log logs ih =>
    simp only [collectParts, bind_eq_ok, pure_eq_ok] at h
    obtain ⟨budget', hlog, rest, hrest, rfl⟩ := h
    obtain ⟨hok, horder⟩ := checkLog_ok hlog
    obtain ⟨rfl, hall, hafter, hsorted⟩ := ih hrest
    have hafter := hafter log.position rfl
    refine ⟨by rw [flatMap_cons], forall_mem_cons.mpr ⟨hok, hall⟩, ?_,
      pairwise_cons.mpr ⟨hafter, hsorted⟩⟩
    rintro p rfl
    have hp := checkOrder_ok horder
    exact forall_mem_cons.mpr ⟨hp, fun log' hlog' => hp.trans (hafter log' hlog')⟩

/-- The strings of a log determine it, whatever strings follow. -/
theorem logParts_append_inj (h : log.Ok) (h' : log'.Ok) {x y : List Text}
    (heq : logParts log ++ x = logParts log' ++ y) : log = log' ∧ x = y := by
  obtain ⟨address, topics, data, bn, bh, th, ti, li⟩ := log
  obtain ⟨address', topics', data', bn', bh', th', ti', li'⟩ := log'
  simp only [logParts, append_assoc, cons_append, nil_append, cons.injEq] at heq
  obtain ⟨rfl, hcount, heq⟩ := heq
  obtain ⟨rfl, hrest⟩ := append_inj heq (digitsOf_inj hcount)
  simp only [cons.injEq] at hrest
  obtain ⟨rfl, hbn, rfl, rfl, hti, hli, rfl⟩ := hrest
  have hbn : bn = bn' := by
    have := digitsOf_inj hbn
    have := h.blockNumber
    have := h'.blockNumber
    dsimp only at *
    omega
  have hti : ti = ti' := by
    have := digitsOf_inj hti
    have := h.transactionIndex
    have := h'.transactionIndex
    dsimp only at *
    omega
  have hli : li = li' := by
    have := digitsOf_inj hli
    have := h.logIndex
    have := h'.logIndex
    dsimp only at *
    omega
  rw [hbn, hti, hli]
  exact ⟨rfl, rfl⟩

/-- The bytes that are hashed for the commitment of a page. -/
def commitmentInput (logs : List RawLog) : List UInt8 :=
  LOG_COMMITMENT_DOMAIN ++ lengthPrefixed (logs.flatMap logParts)

theorem orderedLogCommitment_ok (h : orderedLogCommitment sha256 logs = .ok commitment) :
    commitment = digestToLowerHex (sha256 (commitmentInput logs)) ∧ (∀ log ∈ logs, log.Ok) ∧
      logs.Pairwise (fun a b => a.position.place < b.position.place) := by
  simp only [orderedLogCommitment, bind_eq_ok, pure_eq_ok] at h
  obtain ⟨-, -, parts, hparts, rfl⟩ := h
  obtain ⟨rfl, hok, -, hsorted⟩ := collectParts_ok hparts
  refine ⟨?_, hok, hsorted⟩
  rw [digestWithDomain, digestBytes, flatten_singleton]
  rfl

theorem commitmentInput_inj (h : ∀ log ∈ logs, log.Ok) (h' : ∀ log ∈ logs', log.Ok)
    (heq : commitmentInput logs = commitmentInput logs') : logs = logs' := by
  have hparts : ∀ {logs : List RawLog}, (∀ log ∈ logs, log.Ok) →
      ∀ t ∈ logs.flatMap logParts, Encodable t := fun hok t ht => by
    obtain ⟨log, hlog, ht⟩ := mem_flatMap.mp ht
    exact (hok log hlog).parts t ht
  exact LengthPrefix.flatMap_inj (f := logParts) (fun log => cons_ne_nil _ _)
    (fun h h' => logParts_append_inj h h') h h'
    (lengthPrefixed_inj (hparts h) (hparts h') (append_cancel_left heq))

end Page

/-- Pages with one commitment are the same log by log, or their inputs collide; and a page with a
commitment is in the order of the chain. -/
theorem orderedLogCommitment_binds :
    (∀ logs logs' commitment, orderedLogCommitment sha256 logs = .ok commitment →
      orderedLogCommitment sha256 logs' = .ok commitment →
      logs = logs' ∨ (commitmentInput logs ≠ commitmentInput logs' ∧
        sha256 (commitmentInput logs) = sha256 (commitmentInput logs'))) ∧
      ∀ logs commitment, orderedLogCommitment sha256 logs = .ok commitment →
        logs.Pairwise (fun a b => a.position.place < b.position.place) := by
  refine ⟨?_, fun logs commitment h => (orderedLogCommitment_ok h).2.2⟩
  intro logs logs' commitment h h'
  obtain ⟨hc, hok, -⟩ := orderedLogCommitment_ok h
  obtain ⟨hc', hok', -⟩ := orderedLogCommitment_ok h'
  by_cases heq : commitmentInput logs = commitmentInput logs'
  · exact .inl (commitmentInput_inj hok hok' heq)
  · exact .inr ⟨heq, digestToLowerHex_injective (hc.symm.trans hc')⟩

def zeroHash : Text := text "0x" ++ replicate 64 0x30

/-- A log of the first transaction, with its topics and its index. -/
def logAt (topics : List Text) (index : ℤ) : RawLog where
  address := text "0x" ++ replicate 40 0x31
  topics := topics
  data := text "0x"
  position := ⟨0, zeroHash, zeroHash, 0, index⟩

/-- A hash with one value tells no pages apart, so the inputs of two of them collide. -/
theorem orderedLogCommitment_binds_constantHash :
    commitmentInput [logAt [] 0, logAt [zeroHash, zeroHash] 1] ≠
        commitmentInput [logAt [zeroHash] 0, logAt [] 2] ∧
      [logAt [] 0, logAt [zeroHash, zeroHash] 1].Pairwise
        (fun a b => a.position.place < b.position.place) := by
  obtain ⟨hbinds, hsorted⟩ := orderedLogCommitment_binds fun _ => ⟨replicate 32 0, rfl⟩
  have hpage : orderedLogCommitment (fun _ => ⟨replicate 32 0, rfl⟩)
      [logAt [] 0, logAt [zeroHash, zeroHash] 1] = .ok zeroHash := by decide +kernel
  have hother : orderedLogCommitment (fun _ => ⟨replicate 32 0, rfl⟩)
      [logAt [zeroHash] 0, logAt [] 2] = .ok zeroHash := by decide +kernel
  refine ⟨?_, hsorted _ _ hpage⟩
  rcases hbinds _ _ _ hpage hother with hsame | ⟨hinput, -⟩
  · exact absurd hsame (by decide +kernel)
  · exact hinput

end Dkg.VmUpdate
