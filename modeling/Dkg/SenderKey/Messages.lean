import Dkg.Lib.JsMap
import Mathlib.Algebra.Order.Ring.Int
import Mathlib.Data.List.Basic
import Mathlib.Logic.Function.Iterate

/-!
Sender keys: the messages of one epoch of a sender, and the receiver that ratchets its chain key
along them. Framed fields are taken as the fields themselves, and the primitives as parameters.
-/

namespace Dkg.SenderKey

/-- What a message says about itself, with the address of the sender in normal form. -/
structure Fields where
  contextGraphId : String
  subGraphName : String
  senderAgentAddress : String
  epochId : String
  membershipHash : String
  messageIndex : ℕ
  deriving DecidableEq, Repr

/-- `computeSwmSenderKeyMessageAAD`. -/
structure AAD (Bytes : Type) where
  fields : Fields
  nonce : Bytes
  deriving DecidableEq, Repr

/-- `computeSwmSenderKeySignaturePayload`. -/
structure Payload (Bytes : Type) where
  aad : AAD Bytes
  aadHash : Bytes
  ciphertext : Bytes
  deriving DecidableEq, Repr

structure Message (Bytes : Type) where
  fields : Fields
  nonce : Bytes
  ciphertext : Bytes
  aadHash : Bytes
  senderKeySignature : Bytes
  deriving DecidableEq, Repr

structure Primitives (Bytes : Type) where
  ratchetSwmSenderChainKey : Bytes → Bytes
  deriveMessageNonce : Bytes → Fields → Bytes
  derivePayloadKey : Bytes → AAD Bytes → Bytes
  sha256 : AAD Bytes → Bytes
  aesGcmEncrypt : Bytes → Bytes → Bytes → AAD Bytes → Bytes
  aesGcmDecrypt : Bytes → Bytes → Bytes → AAD Bytes → Option Bytes
  /-- `ed25519Sign` with the signing key of the epoch. -/
  sign : Payload Bytes → Bytes
  /-- `ed25519Verify` with its public key. -/
  verify : Bytes → Payload Bytes → Bool
  /-- `assertSupportedSwmSenderKeyMessage`: version, type, cipher and lengths. -/
  supported : Message Bytes → Bool

inductive Err where
  | contextGraphMismatch
  | noState
  | membershipHashMismatch
  | replay (index : ℕ)
  | gap (gap : ℕ)
  | unsupported
  | nonceMismatch
  | aadHashMismatch
  | invalidSignature
  | decryptionFailed
  deriving DecidableEq, Repr

def SWM_SENDER_KEY_SKIPPED_MESSAGE_CACHE_LIMIT : ℕ := 64

variable {Bytes : Type}

namespace Message

def aad (m : Message Bytes) : AAD Bytes := ⟨m.fields, m.nonce⟩

def payload (m : Message Bytes) : Payload Bytes := ⟨m.aad, m.aadHash, m.ciphertext⟩

def messageIndex (m : Message Bytes) : ℕ := m.fields.messageIndex

end Message

section Cryptography
variable (prims : Primitives Bytes)

def encryptSwmSenderKeyMessage (chainKey plaintext : Bytes) (fields : Fields) : Message Bytes :=
  let nonce := prims.deriveMessageNonce chainKey fields
  let aad : AAD Bytes := ⟨fields, nonce⟩
  let ciphertext := prims.aesGcmEncrypt (prims.derivePayloadKey chainKey aad) plaintext nonce aad
  let aadHash := prims.sha256 aad
  ⟨fields, nonce, ciphertext, aadHash, prims.sign ⟨aad, aadHash, ciphertext⟩⟩

variable [DecidableEq Bytes]

/-- The plaintext; the next chain key is the ratchet of the one given. -/
def decryptSwmSenderKeyMessage (chainKey : Bytes) (m : Message Bytes) : Except Err Bytes :=
  if prims.supported m = false then .error .unsupported
  else if prims.deriveMessageNonce chainKey m.fields ≠ m.nonce then .error .nonceMismatch
  else if prims.sha256 m.aad ≠ m.aadHash then .error .aadHashMismatch
  else if prims.verify m.senderKeySignature m.payload = false then .error .invalidSignature
  else
    match prims.aesGcmDecrypt (prims.derivePayloadKey chainKey m.aad) m.ciphertext m.nonce m.aad with
    | some plaintext => .ok plaintext
    | none => .error .decryptionFailed

end Cryptography

/-- The state for one epoch: `fields` but the index are those it is kept under. -/
structure State (Bytes : Type) where
  fields : Fields
  chainKey : Bytes
  nextMessageIndex : ℕ
  skippedChainKeys : List (ℕ × Bytes)

/-- A call of `decryptWorkspacePayloadWithSenderKey` at its await. -/
structure Pending (Bytes : Type) where
  message : Message Bytes
  chainKey : Bytes
  usedSkippedKey : Bool

section Receiver

/-- `skippedChainKeys.delete`. -/
def deleteKey (skipped : List (ℕ × Bytes)) (index : ℕ) : List (ℕ × Bytes) :=
  skipped.filter fun entry => entry.1 ≠ index

/-- The loop that caches the keys of `count` messages from `index` on. -/
def skipKeys (ratchet : Bytes → Bytes) :
    ℕ → ℕ → List (ℕ × Bytes) → Bytes → List (ℕ × Bytes) × Bytes
  | 0, _, skipped, chainKey => (skipped, chainKey)
  | count + 1, index, skipped, chainKey =>
    skipKeys ratchet count (index + 1) (JsMap.set skipped index chainKey) (ratchet chainKey)

/-- The smallest key; 0 for an empty cache. -/
def oldestKey : List (ℕ × Bytes) → ℕ
  | [] => 0
  | [entry] => entry.1
  | entry :: skipped => min entry.1 (oldestKey skipped)

/-- The loop that deletes the oldest keys, `fuel` of them at most. -/
def pruneKeys : ℕ → List (ℕ × Bytes) → List (ℕ × Bytes)
  | 0, skipped => skipped
  | fuel + 1, skipped =>
    if skipped.length > SWM_SENDER_KEY_SKIPPED_MESSAGE_CACHE_LIMIT then
      pruneKeys fuel (deleteKey skipped (oldestKey skipped))
    else skipped

variable (prims : Primitives Bytes)

/-- The message is for this state, and for the members it was set up for. -/
def State.addressed (s : State Bytes) (m : Message Bytes) : Except Err Unit :=
  if m.fields.contextGraphId ≠ s.fields.contextGraphId then .error .contextGraphMismatch
  else if m.fields.subGraphName ≠ s.fields.subGraphName ∨
      m.fields.senderAgentAddress ≠ s.fields.senderAgentAddress ∨
      m.fields.epochId ≠ s.fields.epochId then .error .noState
  else if m.fields.membershipHash ≠ s.fields.membershipHash then .error .membershipHashMismatch
  else .ok ()

/-- The chain key for an index, and whether it comes from the cache. -/
def State.takeKey (s : State Bytes) (index : ℕ) : State Bytes × Except Err (Bytes × Bool) :=
  match s.skippedChainKeys.lookup index with
  | some chainKey =>
    ({ s with skippedChainKeys := deleteKey s.skippedChainKeys index }, .ok (chainKey, true))
  | none =>
    let gap := index - s.nextMessageIndex
    if index < s.nextMessageIndex then (s, .error (.replay index))
    else if gap > SWM_SENDER_KEY_SKIPPED_MESSAGE_CACHE_LIMIT then (s, .error (.gap gap))
    else
      let r := skipKeys prims.ratchetSwmSenderChainKey gap s.nextMessageIndex s.skippedChainKeys
        s.chainKey
      ({ s with skippedChainKeys := r.1 }, .ok (r.2, false))

/-- The call up to its await: the cache changes before the message is authenticated. -/
def State.start (s : State Bytes) (m : Message Bytes) :
    State Bytes × Except Err (Pending Bytes) :=
  match s.addressed m with
  | .error e => (s, .error e)
  | .ok _ =>
    match s.takeKey prims m.messageIndex with
    | (s, .error e) => (s, .error e)
    | (s, .ok (chainKey, usedSkippedKey)) => (s, .ok ⟨m, chainKey, usedSkippedKey⟩)

variable [DecidableEq Bytes]

/-- The call after its await. -/
def State.finish (s : State Bytes) (p : Pending Bytes) : State Bytes × Except Err Bytes :=
  match decryptSwmSenderKeyMessage prims p.chainKey p.message with
  | .error e => (s, .error e)
  | .ok plaintext =>
    let s :=
      if p.usedSkippedKey then s
      else { s with
        chainKey := prims.ratchetSwmSenderChainKey p.chainKey
        nextMessageIndex := p.message.messageIndex + 1 }
    ({ s with skippedChainKeys := pruneKeys s.skippedChainKeys.length s.skippedChainKeys },
      .ok plaintext)

/-- The receiver with its calls in progress and the outcomes of those that ended. -/
structure Receiver (Bytes : Type) where
  state : State Bytes
  pending : List (Pending Bytes)
  log : List (Message Bytes × Except Err Bytes)

inductive Event (Bytes : Type) where
  | start (m : Message Bytes)
  /-- The call at this place among those in progress goes on. -/
  | finish (call : ℕ)

def step (r : Receiver Bytes) : Event Bytes → Receiver Bytes
  | .start m =>
    match r.state.start prims m with
    | (state, .ok p) => { r with state, pending := r.pending ++ [p] }
    | (state, .error e) => { r with state, log := r.log ++ [(m, .error e)] }
  | .finish call =>
    match r.pending[call]? with
    | none => r
    | some p =>
      let (state, out) := r.state.finish prims p
      { state, pending := r.pending.eraseIdx call, log := r.log ++ [(p.message, out)] }

def run (r : Receiver Bytes) (events : List (Event Bytes)) : Receiver Bytes :=
  events.foldl (step prims) r

/-- A call that no other call overlaps. -/
def deliver (m : Message Bytes) : List (Event Bytes) := [.start m, .finish 0]

/-- The indexes decrypted so far. -/
def decrypted (log : List (Message Bytes × Except Err Bytes)) : List ℕ :=
  log.filterMap fun entry =>
    match entry.2 with
    | .ok _ => some entry.1.messageIndex
    | .error _ => none

/-- The highest index decrypted so far, -1 at the start. -/
def highest (indexes : List ℕ) : ℤ := indexes.foldr (fun i h => max (i : ℤ) h) (-1)

end Receiver

end Dkg.SenderKey
