import Dkg.Lib.Revert
import Dkg.Lib.StreamCut

/-!
Frames of the message transport: a varint length, a varint type and the payload. The decoder keeps
the bytes it has not used yet and reads chunks from its source when it needs more.
-/

namespace Dkg.Framing
open Revert StreamCut List

def MAX_VARINT_BYTES : ℕ := 5

/-- A frame. The values in use are REQUEST 1, RESPONSE 2, ERROR 3, PING 4 and PONG 5. -/
structure Frame where
  type : ℕ
  payload : List UInt8
deriving DecidableEq

inductive FrameError where
  | encodeOutOfRange (value : ℕ)
  | varintExceeds32Bits
  | varintExceeds5Bytes
  | midLengthPrefix
  | exceedsCap (bodyLength maxFrameBytes : ℕ)
  | midFrameBody
  | emptyBody
  | bodyTooShort
deriving DecidableEq

/-- The loop of `encodeVarint`, seven bits at a time. -/
def varintBytes (v : ℕ) : List UInt8 :=
  if 0x80 ≤ v then UInt8.ofNat (v &&& 0x7f ||| 0x80) :: varintBytes (v >>> 7)
  else [UInt8.ofNat (v &&& 0x7f)]
termination_by v
decreasing_by
  rw [Nat.shiftRight_eq_div_pow]
  omega

def encodeVarint (value : ℕ) : Except FrameError (List UInt8) := do
  require (value ≤ 0xffffffff) (.encodeOutOfRange value)
  return varintBytes value

/-- The loop of `tryDecodeVarint` from its byte `i` on. -/
def decodeVarintFrom : List UInt8 → ℕ → ℕ → Except FrameError (Option (ℕ × ℕ))
  | rest, i, value =>
    if i < MAX_VARINT_BYTES then
      match rest with
      | [] => .ok none
      | byte :: rest =>
        let payload := byte.toNat &&& 0x7f
        if i = 4 ∧ payload > 0x0f then .error .varintExceeds32Bits
        else
          let value := value + payload * 2 ^ (7 * i)
          if byte.toNat &&& 0x80 = 0 then
            if value > 0xffffffff then .error .varintExceeds32Bits else .ok (some (value, i + 1))
          else decodeVarintFrom rest (i + 1) value
    else .error .varintExceeds5Bytes

/-- The value and the bytes read, or nothing if the buffer ends before the varint does. -/
def tryDecodeVarint (buf : List UInt8) (offset : ℕ) : Except FrameError (Option (ℕ × ℕ)) :=
  decodeVarintFrom (buf.drop offset) 0 0

def encodeFrame (frame : Frame) : Except FrameError (List UInt8) := do
  let typeBytes ← encodeVarint frame.type
  let bodyLength := typeBytes.length + frame.payload.length
  let lengthBytes ← encodeVarint bodyLength
  return lengthBytes ++ typeBytes ++ frame.payload

/-- The buffer with the next chunk that is not empty, and the chunks after it. -/
def readMore (buf : List UInt8) : List (List UInt8) → Option (List UInt8 × List (List UInt8))
  | [] => none
  | chunk :: chunks => if chunk.length = 0 then readMore buf chunks else some (buf ++ chunk, chunks)

theorem readMore_some {buf buf' : List UInt8} {chunks chunks' : List (List UInt8)}
    (h : readMore buf chunks = some (buf', chunks')) :
    buf' ++ chunks'.flatten = buf ++ chunks.flatten ∧ chunks'.length < chunks.length := by
  induction chunks with
  | nil => cases h
  | cons chunk chunks ih =>
    rw [readMore] at h
    split_ifs at h with hempty
    · obtain ⟨hflat, hlen⟩ := ih h
      rw [length_eq_zero_iff.mp hempty]
      exact ⟨hflat, hlen.trans (Nat.lt_succ_self _)⟩
    · cases h
      exact ⟨by rw [flatten_cons, append_assoc], Nat.lt_succ_self _⟩

theorem readMore_none {buf : List UInt8} {chunks : List (List UInt8)}
    (h : readMore buf chunks = none) : chunks.flatten = [] := by
  induction chunks with
  | nil => rfl
  | cons chunk chunks ih =>
    rw [readMore] at h
    split at h
    · next hempty => rw [flatten_cons, length_eq_zero_iff.mp hempty, ih h]; rfl
    · cases h

/-- The loop that reads until the length is there; nothing at the end of the stream. -/
def readLength (buf : List UInt8) (chunks : List (List UInt8)) :
    Except FrameError (Option ((ℕ × ℕ) × List UInt8 × List (List UInt8))) :=
  match tryDecodeVarint buf 0 with
  | .error e => .error e
  | .ok (some header) => .ok (some (header, buf, chunks))
  | .ok none =>
    match _h : readMore buf chunks with
    | some (buf', chunks') => readLength buf' chunks'
    | none => if buf.length = 0 then .ok none else .error .midLengthPrefix
termination_by chunks.length
decreasing_by exact (readMore_some _h).2

/-- The loop that reads until the body is there. -/
def readBody (bodyEnd : ℕ) (buf : List UInt8) (chunks : List (List UInt8)) :
    Except FrameError (List UInt8 × List (List UInt8)) :=
  if buf.length < bodyEnd then
    match _h : readMore buf chunks with
    | some (buf', chunks') => readBody bodyEnd buf' chunks'
    | none => .error .midFrameBody
  else .ok (buf, chunks)
termination_by chunks.length
decreasing_by exact (readMore_some _h).2

/-- The type and payload of the body that lies in the buffer up to `bodyStart + bodyLength`. -/
def decodeBody (buf : List UInt8) (bodyStart bodyLength : ℕ) : Except FrameError Frame :=
  match tryDecodeVarint buf bodyStart with
  | .error e => .error e
  | .ok none => .error .emptyBody
  | .ok (some (type, bytesRead)) =>
    if bytesRead > bodyLength then .error .bodyTooShort
    else .ok ⟨type, (buf.take (bodyStart + bodyLength)).drop (bodyStart + bytesRead)⟩

/-- One turn of the decoder: the frame it yields with the buffer and chunks after it, or nothing
at a clean end. -/
def nextFrame (maxFrameBytes : ℕ) (buf : List UInt8) (chunks : List (List UInt8)) :
    Except FrameError (Option (Frame × List UInt8 × List (List UInt8))) :=
  match readLength buf chunks with
  | .error e => .error e
  | .ok none => .ok none
  | .ok (some ((bodyLength, bodyStart), buf, chunks)) =>
    if bodyLength > maxFrameBytes then .error (.exceedsCap bodyLength maxFrameBytes)
    else
      let bodyEnd := bodyStart + bodyLength
      match readBody bodyEnd buf chunks with
      | .error e => .error e
      | .ok (buf, chunks) =>
        match decodeBody buf bodyStart bodyLength with
        | .error e => .error e
        | .ok frame => .ok (some (frame, buf.drop bodyEnd, chunks))

section Varint
variable {rest c : List UInt8} {i n value v : ℕ} {e : FrameError}

/-- A byte of a varint: an error, the end of the varint, or a byte before others. -/
theorem decodeVarintFrom_cons (value : ℕ) (hi : i < MAX_VARINT_BYTES) (byte : UInt8) :
    (∃ e, ∀ rest, decodeVarintFrom (byte :: rest) i value = .error e) ∨
      (∃ v, ∀ rest, decodeVarintFrom (byte :: rest) i value = .ok (some (v, i + 1))) ∨
      ∃ v, ∀ rest, decodeVarintFrom (byte :: rest) i value = decodeVarintFrom rest (i + 1) v := by
  by_cases hlarge : i = 4 ∧ byte.toNat &&& 0x7f > 0x0f
  · exact .inl ⟨_, fun rest => by rw [decodeVarintFrom, if_pos hi]; exact if_pos hlarge⟩
  · by_cases hlast : byte.toNat &&& 0x80 = 0
    · by_cases hrange : value + (byte.toNat &&& 0x7f) * 2 ^ (7 * i) > 0xffffffff
      · refine .inl ⟨.varintExceeds32Bits, fun rest => ?_⟩
        rw [decodeVarintFrom, if_pos hi]
        exact (if_neg hlarge).trans ((if_pos hlast).trans (if_pos hrange))
      · refine .inr (.inl ⟨value + (byte.toNat &&& 0x7f) * 2 ^ (7 * i), fun rest => ?_⟩)
        rw [decodeVarintFrom, if_pos hi]
        exact (if_neg hlarge).trans ((if_pos hlast).trans (if_neg hrange))
    · refine .inr (.inr ⟨value + (byte.toNat &&& 0x7f) * 2 ^ (7 * i), fun rest => ?_⟩)
      rw [decodeVarintFrom, if_pos hi]
      exact (if_neg hlarge).trans (if_neg hlast)

theorem decodeVarintFrom_stop (hi : ¬i < MAX_VARINT_BYTES) (rest : List UInt8) :
    decodeVarintFrom rest i value = .error .varintExceeds5Bytes := by
  rw [decodeVarintFrom.eq_def]
  exact if_neg hi

/-- A varint that the buffer holds is not changed by what follows. -/
theorem decodeVarintFrom_some (h : decodeVarintFrom rest i value = .ok (some (v, n))) :
    decodeVarintFrom (rest ++ c) i value = .ok (some (v, n)) ∧ i < n ∧ n ≤ i + rest.length := by
  by_cases hi : i < MAX_VARINT_BYTES
  · induction rest generalizing i value with
    | nil =>
      rw [decodeVarintFrom, if_pos hi] at h
      cases h
    | cons byte rest ih =>
      rw [cons_append]
      rcases decodeVarintFrom_cons value hi byte with ⟨e, he⟩ | ⟨w, hw⟩ | ⟨w, hw⟩
      · rw [he] at h
        cases h
      · rw [hw] at h ⊢
        cases h
        exact ⟨rfl, by omega, by rw [length_cons]; omega⟩
      · rw [hw] at h ⊢
        by_cases hi' : i + 1 < MAX_VARINT_BYTES
        · obtain ⟨happ, hlt, hle⟩ := ih h hi'
          exact ⟨happ, by omega, by rw [length_cons]; omega⟩
        · rw [decodeVarintFrom_stop hi'] at h
          cases h
  · rw [decodeVarintFrom_stop hi] at h
    cases h

theorem decodeVarintFrom_error (h : decodeVarintFrom rest i value = .error e) :
    decodeVarintFrom (rest ++ c) i value = .error e := by
  by_cases hi : i < MAX_VARINT_BYTES
  · induction rest generalizing i value with
    | nil =>
      rw [decodeVarintFrom, if_pos hi] at h
      cases h
    | cons byte rest ih =>
      rw [cons_append]
      rcases decodeVarintFrom_cons value hi byte with ⟨e, he⟩ | ⟨w, hw⟩ | ⟨w, hw⟩
      · rw [he] at h ⊢
        exact h
      · rw [hw] at h
        cases h
      · rw [hw] at h ⊢
        by_cases hi' : i + 1 < MAX_VARINT_BYTES
        · exact ih h hi'
        · rw [decodeVarintFrom_stop hi'] at h ⊢
          exact h
  · rw [decodeVarintFrom_stop hi] at h ⊢
    exact h

/-- A varint that the buffer holds only a part of ends after the buffer. -/
theorem decodeVarintFrom_none (h : decodeVarintFrom rest i value = .ok none)
    (hmore : decodeVarintFrom (rest ++ c) i value = .ok (some (v, n))) : i + rest.length < n := by
  induction rest generalizing i value with
  | nil => exact (decodeVarintFrom_some (c := []) hmore).2.1
  | cons byte rest ih =>
    by_cases hi : i < MAX_VARINT_BYTES
    · rw [cons_append] at hmore
      rcases decodeVarintFrom_cons value hi byte with ⟨e, he⟩ | ⟨w, hw⟩ | ⟨w, hw⟩
      · rw [he] at h
        cases h
      · rw [hw] at h
        cases h
      · rw [hw] at h hmore
        have hlt := ih h hmore
        rw [length_cons]
        omega
    · rw [decodeVarintFrom_stop hi] at h
      cases h

theorem and_127 (v : ℕ) : v &&& 0x7f = v % 128 := Nat.and_two_pow_sub_one_eq_mod v 7

theorem group_toNat (v : ℕ) : (UInt8.ofNat (v &&& 0x7f ||| 0x80)).toNat = v % 128 + 128 := by
  have hlt : v % 128 < 2 ^ 7 := Nat.mod_lt _ (by decide)
  have hor : v % 128 ||| 128 = v % 128 + 128 := by
    rw [Nat.or_comm, add_comm]
    exact (Nat.two_pow_add_eq_or_of_lt hlt 1).symm
  rw [and_127, hor, UInt8.toNat_ofNat']
  omega

theorem last_toNat (h : v < 128) : (UInt8.ofNat (v &&& 0x7f)).toNat = v := by
  rw [and_127, UInt8.toNat_ofNat']
  omega

theorem and_128 (h : v < 128) : v &&& 0x80 = 0 ∧ (v + 128) &&& 0x80 ≠ 0 := by
  have hall : ∀ v : Fin 128, v.val &&& 0x80 = 0 ∧ (v.val + 128) &&& 0x80 ≠ 0 := by decide
  exact hall ⟨v, h⟩

/-- Decoding an encoded value returns it, with the bytes that were written. -/
theorem decodeVarintFrom_varintBytes (hi : i < MAX_VARINT_BYTES)
    (hv : value + v * 2 ^ (7 * i) < 2 ^ 32) :
    decodeVarintFrom (varintBytes v ++ c) i value =
      .ok (some (value + v * 2 ^ (7 * i), i + (varintBytes v).length)) := by
  induction v using varintBytes.induct generalizing i value with
  | case1 v hlarge ih =>
    have hne : i ≠ 4 := by
      rintro rfl
      omega
    have hgroup := group_toNat v
    have hlow := (and_128 (Nat.mod_lt v (by decide : 0 < 128))).2
    rw [Nat.shiftRight_eq_div_pow] at ih
    have hsum : value + v % 128 * 2 ^ (7 * i) + v / 2 ^ 7 * 2 ^ (7 * (i + 1)) =
        value + v * 2 ^ (7 * i) := by
      have hdiv := Nat.mod_add_div v 128
      rw [show 7 * (i + 1) = 7 + 7 * i by ring, pow_add]
      calc value + v % 128 * 2 ^ (7 * i) + v / 2 ^ 7 * (2 ^ 7 * 2 ^ (7 * i))
          = value + (v % 128 + 128 * (v / 128)) * 2 ^ (7 * i) := by norm_num; ring
        _ = value + v * 2 ^ (7 * i) := by rw [hdiv]
    have hnext : decodeVarintFrom (varintBytes (v / 2 ^ 7) ++ c) (i + 1)
        (value + v % 128 * 2 ^ (7 * i)) = _ :=
      ih (by unfold MAX_VARINT_BYTES at *; omega) (by rwa [hsum])
    rw [hsum] at hnext
    rw [varintBytes, if_pos hlarge, cons_append, decodeVarintFrom, if_pos hi, hgroup, and_127]
    have hmod : (v % 128 + 128) % 128 = v % 128 := by omega
    rw [hmod, if_neg (fun h => hne h.1), if_neg hlow, Nat.shiftRight_eq_div_pow, hnext,
      length_cons]
    congr 3
    omega
  | case2 v hsmall =>
    have hlast := last_toNat (v := v) (by omega)
    have hhigh := (and_128 (v := v) (by omega)).1
    rw [varintBytes, if_neg hsmall, cons_append, decodeVarintFrom, if_pos hi, hlast, and_127,
      Nat.mod_eq_of_lt (by omega), if_neg, if_pos hhigh]
    · exact if_neg (by omega)
    · rintro ⟨rfl, hlarge⟩
      omega

end Varint

section Cut
variable {maxFrameBytes bodyStart bodyLength : ℕ} {buf buf' c : List UInt8}
  {chunks chunks' : List (List UInt8)} {frame : Frame} {e : FrameError}

/-- The first frame of a stream, as its bytes tell it. -/
def cutFrame (maxFrameBytes : ℕ) (bytes : List UInt8) : Cut FrameError Frame :=
  match tryDecodeVarint bytes 0 with
  | .error e => .fail e
  | .ok none => .more
  | .ok (some (bodyLength, bodyStart)) =>
    if bodyLength > maxFrameBytes then .fail (.exceedsCap bodyLength maxFrameBytes)
    else if bytes.length < bodyStart + bodyLength then .more
    else
      match decodeBody bytes bodyStart bodyLength with
      | .error e => .fail e
      | .ok frame => .frame frame (bodyStart + bodyLength)

/-- What reading the length says about the bytes of the whole stream. -/
theorem readLength_spec (buf : List UInt8) (chunks : List (List UInt8)) :
    match readLength buf chunks with
    | .error e => tryDecodeVarint (buf ++ chunks.flatten) 0 = .error e ∨
        tryDecodeVarint (buf ++ chunks.flatten) 0 = .ok none ∧ buf ++ chunks.flatten ≠ []
    | .ok none => buf ++ chunks.flatten = []
    | .ok (some (header, buf', chunks')) =>
        tryDecodeVarint buf' 0 = .ok (some header) ∧
          buf' ++ chunks'.flatten = buf ++ chunks.flatten := by
  fun_induction readLength buf chunks with
  | case1 buf chunks e h => exact .inl (decodeVarintFrom_error h)
  | case2 buf chunks header h => exact ⟨h, rfl⟩
  | case3 buf chunks h buf' chunks' hread ih =>
    rw [(readMore_some hread).1] at ih
    exact ih
  | case4 buf chunks h hread hempty =>
    rw [length_eq_zero_iff.mp hempty, readMore_none hread]
    rfl
  | case5 buf chunks h hread hne =>
    rw [readMore_none hread, append_nil]
    exact .inr ⟨h, fun hnil => hne (length_eq_zero_iff.mpr hnil)⟩

theorem readBody_spec (bodyEnd : ℕ) (buf : List UInt8) (chunks : List (List UInt8)) :
    match readBody bodyEnd buf chunks with
    | .error _ => (buf ++ chunks.flatten).length < bodyEnd
    | .ok (buf', chunks') => bodyEnd ≤ buf'.length ∧
        buf' ++ chunks'.flatten = buf ++ chunks.flatten := by
  fun_induction readBody bodyEnd buf chunks with
  | case1 buf chunks hlt buf' chunks' hread ih =>
    rw [(readMore_some hread).1] at ih
    exact ih
  | case2 buf chunks hlt hread => rwa [readMore_none hread, append_nil]
  | case3 buf chunks hle => exact ⟨Nat.le_of_not_lt hle, rfl⟩

/-- The body at the front of a stream does not depend on what follows. The type may be read past
the end of the body, and then it is an error whatever is found there. -/
theorem decodeBody_append (hle : bodyStart + bodyLength ≤ buf.length) (c : List UInt8) :
    match decodeBody buf bodyStart bodyLength with
    | .error _ => ∃ e, decodeBody (buf ++ c) bodyStart bodyLength = .error e
    | .ok frame => decodeBody (buf ++ c) bodyStart bodyLength = .ok frame := by
  have hdrop : (buf ++ c).drop bodyStart = buf.drop bodyStart ++ c :=
    drop_append_of_le_length (by omega)
  have htake : (buf ++ c).take (bodyStart + bodyLength) = buf.take (bodyStart + bodyLength) :=
    take_append_of_le_length hle
  unfold decodeBody tryDecodeVarint
  rw [hdrop, htake]
  cases h : decodeVarintFrom (buf.drop bodyStart) 0 0 with
  | error e =>
    rw [decodeVarintFrom_error h]
    exact ⟨e, rfl⟩
  | ok r =>
    rcases r with - | ⟨type, bytesRead⟩
    · rcases hmore : decodeVarintFrom (buf.drop bodyStart ++ c) 0 0 with e | - | ⟨type, bytesRead⟩
      · exact ⟨e, rfl⟩
      · exact ⟨.emptyBody, rfl⟩
      · have hlt := decodeVarintFrom_none h hmore
        rw [length_drop] at hlt
        exact ⟨.bodyTooShort, if_pos (by omega)⟩
    · rw [(decodeVarintFrom_some h).1]
      dsimp only
      split
      · next e herr => exact ⟨e, herr⟩
      · next frame hok => exact hok

/-- One turn of the decoder against the bytes of the whole stream. -/
theorem nextFrame_spec (maxFrameBytes : ℕ) (buf : List UInt8) (chunks : List (List UInt8)) :
    match nextFrame maxFrameBytes buf chunks with
    | .error _ => (∃ e, cutFrame maxFrameBytes (buf ++ chunks.flatten) = .fail e) ∨
        cutFrame maxFrameBytes (buf ++ chunks.flatten) = .more ∧ buf ++ chunks.flatten ≠ []
    | .ok none => buf ++ chunks.flatten = []
    | .ok (some (frame, buf', chunks')) =>
        ∃ n, cutFrame maxFrameBytes (buf ++ chunks.flatten) = .frame frame n ∧ 0 < n ∧
          n ≤ (buf ++ chunks.flatten).length ∧
          buf' ++ chunks'.flatten = (buf ++ chunks.flatten).drop n := by
  have hlength := readLength_spec buf chunks
  unfold nextFrame
  cases hread : readLength buf chunks with
  | error e =>
    rw [hread] at hlength
    rcases hlength with h | ⟨h, hne⟩
    · exact .inl ⟨e, by rw [cutFrame, h]⟩
    · exact .inr ⟨by rw [cutFrame, h], hne⟩
  | ok r =>
    rw [hread] at hlength
    cases r with
    | none => exact hlength
    | some r =>
      obtain ⟨⟨bodyLength, bodyStart⟩, buf₁, chunks₁⟩ := r
      obtain ⟨hheader, hflat⟩ := hlength
      obtain ⟨hwhole, hpos, hstart⟩ := decodeVarintFrom_some (c := chunks₁.flatten) hheader
      have hbody := readBody_spec (bodyStart + bodyLength) buf₁ chunks₁
      have hcut : cutFrame maxFrameBytes (buf₁ ++ chunks₁.flatten) =
          if bodyLength > maxFrameBytes then .fail (.exceedsCap bodyLength maxFrameBytes)
          else if (buf₁ ++ chunks₁.flatten).length < bodyStart + bodyLength then .more
          else match decodeBody (buf₁ ++ chunks₁.flatten) bodyStart bodyLength with
            | .error e => .fail e
            | .ok frame => .frame frame (bodyStart + bodyLength) := by
        rw [cutFrame, tryDecodeVarint, drop_zero]
        rw [drop_zero] at hwhole
        rw [hwhole]
      rw [← hflat, hcut]
      dsimp only
      by_cases hcap : bodyLength > maxFrameBytes
      · rw [if_pos hcap, if_pos hcap]
        exact .inl ⟨_, rfl⟩
      · rw [if_neg hcap, if_neg hcap]
        rcases hbytes : readBody (bodyStart + bodyLength) buf₁ chunks₁ with e | ⟨buf₂, chunks₂⟩
        · rw [hbytes] at hbody
          rw [if_pos hbody]
          rw [length_drop] at hstart
          exact .inr ⟨rfl, ne_nil_of_length_pos (by rw [length_append]; omega)⟩
        · rw [hbytes] at hbody
          obtain ⟨hle, hflat₂⟩ := hbody
          have happend := decodeBody_append hle chunks₂.flatten
          rw [← hflat₂, if_neg (by rw [length_append]; omega)]
          dsimp only
          cases hframe : decodeBody buf₂ bodyStart bodyLength with
          | error e =>
            rw [hframe] at happend
            obtain ⟨e', he'⟩ := happend
            rw [he']
            exact .inl ⟨e', rfl⟩
          | ok frame =>
            rw [hframe] at happend
            rw [happend]
            refine ⟨_, rfl, by omega, by rw [length_append]; omega, ?_⟩
            exact (drop_append_of_le_length hle).symm

end Cut

theorem nextFrame_total {maxFrameBytes : ℕ} {buf buf' : List UInt8}
    {chunks chunks' : List (List UInt8)} {frame : Frame}
    (h : nextFrame maxFrameBytes buf chunks = .ok (some (frame, buf', chunks'))) :
    (buf' ++ chunks'.flatten).length < (buf ++ chunks.flatten).length := by
  have hspec := nextFrame_spec maxFrameBytes buf chunks
  rw [h] at hspec
  obtain ⟨n, -, hpos, hle, hflat⟩ := hspec
  rw [hflat, length_drop]
  omega

/-- The decoder from a buffer on. -/
def decodeFrom (maxFrameBytes : ℕ) (buf : List UInt8) (chunks : List (List UInt8)) :
    Yielded FrameError Frame :=
  match _h : nextFrame maxFrameBytes buf chunks with
  | .error e => ⟨[], some e⟩
  | .ok none => ⟨[], none⟩
  | .ok (some (frame, buf', chunks')) => .cons frame (decodeFrom maxFrameBytes buf' chunks')
termination_by (buf ++ chunks.flatten).length
decreasing_by exact nextFrame_total _h

/-- What the generator yields for the chunks of its source. -/
def decodeFrames (maxFrameBytes : ℕ) (source : List (List UInt8)) : Yielded FrameError Frame :=
  decodeFrom maxFrameBytes [] source

theorem decodeFrom_reads (maxFrameBytes : ℕ) (buf : List UInt8) (chunks : List (List UInt8)) :
    Reads (cutFrame maxFrameBytes) (buf ++ chunks.flatten)
      (decodeFrom maxFrameBytes buf chunks).frames
      (decodeFrom maxFrameBytes buf chunks).error.isNone := by
  fun_induction decodeFrom maxFrameBytes buf chunks with
  | case1 buf chunks e h =>
    have hspec := nextFrame_spec maxFrameBytes buf chunks
    rw [h] at hspec
    rcases hspec with ⟨e, he⟩ | ⟨hmore, hne⟩
    · exact .fail he
    · have hstop := Reads.stop hmore
      rwa [isEmpty_eq_false_iff.mpr hne] at hstop
  | case2 buf chunks h =>
    have hspec := nextFrame_spec maxFrameBytes buf chunks
    rw [h] at hspec
    rw [show buf ++ chunks.flatten = [] from hspec]
    exact .stop rfl
  | case3 buf chunks frame buf' chunks' h ih =>
    have hspec := nextFrame_spec maxFrameBytes buf chunks
    rw [h] at hspec
    obtain ⟨n, hcut, -, -, hflat⟩ := hspec
    rw [hflat] at ih
    exact .frame hcut ih

theorem decodeFrames_decodes (maxFrameBytes : ℕ) :
    Decodes (cutFrame maxFrameBytes) (decodeFrames maxFrameBytes) :=
  fun chunks => decodeFrom_reads maxFrameBytes [] chunks

section Encoded
variable {maxFrameBytes : ℕ} {frame : Frame}

/-- The length of the type and the payload of a frame. -/
def Frame.bodyLength (frame : Frame) : ℕ := (varintBytes frame.type).length + frame.payload.length

/-- The bytes of a frame. -/
def Frame.bytes (frame : Frame) : List UInt8 :=
  varintBytes frame.bodyLength ++ (varintBytes frame.type ++ frame.payload)

/-- Frames that can be sent with a cap on the length of the body. -/
structure Frame.Fits (maxFrameBytes : ℕ) (frame : Frame) : Prop where
  type_lt : frame.type < 2 ^ 32
  cap : frame.bodyLength ≤ maxFrameBytes
  length_lt : frame.bodyLength < 2 ^ 32

theorem encodeFrame_ok (h : frame.Fits maxFrameBytes) : encodeFrame frame = .ok frame.bytes := by
  have htype : encodeVarint frame.type = .ok (varintBytes frame.type) := by
    rw [encodeVarint, require_of (Nat.le_of_lt_succ h.type_lt)]
    rfl
  have hlength : encodeVarint frame.bodyLength = .ok (varintBytes frame.bodyLength) := by
    rw [encodeVarint, require_of (Nat.le_of_lt_succ h.length_lt)]
    rfl
  rw [encodeFrame, htype, ok_bind]
  change (encodeVarint frame.bodyLength >>= _) = _
  rw [hlength, ok_bind, append_assoc]
  rfl

theorem decodeVarintFrom_zero {v : ℕ} (h : v < 2 ^ 32) (c : List UInt8) :
    decodeVarintFrom (varintBytes v ++ c) 0 0 = .ok (some (v, (varintBytes v).length)) := by
  have hv : 0 + v * 2 ^ (7 * 0) = v := by ring
  rw [decodeVarintFrom_varintBytes (by decide) (by rwa [hv]), hv, zero_add]

/-- The bytes of a frame are cut off as that frame, whatever follows. -/
theorem cutFrame_bytes (h : frame.Fits maxFrameBytes) (c : List UInt8) :
    cutFrame maxFrameBytes (frame.bytes ++ c) = .frame frame frame.bytes.length := by
  have hlen : frame.bytes.length = (varintBytes frame.bodyLength).length + frame.bodyLength := by
    rw [Frame.bytes, length_append, length_append, Frame.bodyLength]
  have hlength : tryDecodeVarint (frame.bytes ++ c) 0 =
      .ok (some (frame.bodyLength, (varintBytes frame.bodyLength).length)) := by
    rw [tryDecodeVarint, drop_zero, Frame.bytes, append_assoc]
    exact decodeVarintFrom_zero h.length_lt _
  have htype : tryDecodeVarint (frame.bytes ++ c) (varintBytes frame.bodyLength).length =
      .ok (some (frame.type, (varintBytes frame.type).length)) := by
    rw [tryDecodeVarint, Frame.bytes, append_assoc, drop_left, append_assoc]
    exact decodeVarintFrom_zero h.type_lt _
  have hpayload : ((frame.bytes ++ c).take frame.bytes.length).drop
      ((varintBytes frame.bodyLength).length + (varintBytes frame.type).length) =
        frame.payload := by
    rw [take_left, Frame.bytes, ← append_assoc, ← length_append, drop_left]
  have hbody : decodeBody (frame.bytes ++ c) (varintBytes frame.bodyLength).length
      frame.bodyLength = .ok frame := by
    rw [decodeBody, htype]
    dsimp only
    rw [if_neg (by unfold Frame.bodyLength; omega), ← hlen, hpayload]
  rw [cutFrame, hlength]
  dsimp only
  rw [if_neg (Nat.not_lt.mpr h.cap), if_neg (by rw [length_append, hlen]; omega), hbody, hlen]

/-- A payload that is cut off is not longer than the cap. -/
theorem payload_le {b : List UInt8} {n : ℕ} (h : cutFrame maxFrameBytes b = .frame frame n) :
    frame.payload.length ≤ maxFrameBytes := by
  unfold cutFrame at h
  split at h
  · cases h
  · cases h
  · next bodyLength bodyStart _ =>
    split at h
    · cases h
    · next hcap =>
      split at h
      · cases h
      · split at h
        · cases h
        · next frame' hbody =>
          cases h
          unfold decodeBody at hbody
          split at hbody
          · cases hbody
          · cases hbody
          · split at hbody
            · cases hbody
            · cases hbody
              dsimp only
              rw [length_drop, length_take]
              omega

end Encoded

/-- Frames survive any chunking, what is yielded depends on the bytes alone, and no payload is
longer than the cap. -/
theorem decodeFrames_chunking (maxFrameBytes : ℕ) :
    (∀ frames : List Frame, (∀ f ∈ frames, f.Fits maxFrameBytes) →
      ∃ encoded, frames.mapM encodeFrame = .ok encoded ∧
        ∀ chunks, chunks.flatten = encoded.flatten →
          decodeFrames maxFrameBytes chunks = ⟨frames, none⟩) ∧
      (∀ chunks chunks', chunks.flatten = chunks'.flatten →
        (decodeFrames maxFrameBytes chunks).frames = (decodeFrames maxFrameBytes chunks').frames ∧
          (decodeFrames maxFrameBytes chunks).error.isNone =
            (decodeFrames maxFrameBytes chunks').error.isNone) ∧
      ∀ chunks, ∀ f ∈ (decodeFrames maxFrameBytes chunks).frames,
        f.payload.length ≤ maxFrameBytes := by
  have hdecodes := decodeFrames_decodes maxFrameBytes
  refine ⟨?_, fun chunks chunks' hflat => hdecodes.independent hflat, ?_⟩
  · intro frames hfits
    refine ⟨frames.map Frame.bytes, mapM_ok fun f hf => encodeFrame_ok (hfits f hf), ?_⟩
    intro chunks hflat
    apply hdecodes.eq
    have hreads : Reads (cutFrame maxFrameBytes) (frames.flatMap Frame.bytes ++ []) frames true :=
      reads_encoded (fun f hf => cutFrame_bytes (hfits f hf)) rfl
    rw [append_nil, flatMap_def] at hreads
    rwa [hflat]
  · intro chunks f hf
    obtain ⟨b, n, hcut⟩ := (hdecodes chunks).exists_cut hf
    exact payload_le hcut

/-- A ping and a request of one byte, cut inside both frames. -/
theorem decodeFrames_chunking_ping :
    decodeFrames 10 [[1], [], [4, 2], [1, 9]] = ⟨[⟨4, []⟩, ⟨1, [9]⟩], none⟩ := by
  have hvarint : ∀ v < 128, varintBytes v = [UInt8.ofNat v] := fun v hv => by
    rw [varintBytes, if_neg (by omega), and_127, Nat.mod_eq_of_lt hv]
  have hfits : ∀ f ∈ ([⟨4, []⟩, ⟨1, [9]⟩] : List Frame), f.Fits 10 := by
    simp only [forall_mem_cons, not_mem_nil, false_imp_iff, implies_true, and_true]
    constructor <;> constructor <;> simp [Frame.bodyLength, hvarint]
  have hbytes : mapM encodeFrame [⟨4, []⟩, ⟨1, [9]⟩] = .ok [[1, 4], [2, 1, 9]] := by
    rw [mapM_ok fun f hf => encodeFrame_ok (hfits f hf)]
    simp [Frame.bytes, Frame.bodyLength, hvarint]
  obtain ⟨encoded, hencoded, hdecode⟩ := (decodeFrames_chunking 10).1 _ hfits
  rw [hbytes] at hencoded
  cases hencoded
  exact hdecode _ rfl

end Dkg.Framing
