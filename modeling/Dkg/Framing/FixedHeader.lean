import Dkg.Lib.Revert
import Dkg.Lib.StreamCut

/-!
The decoder of streams whose frames have a header of fixed size that tells the length of the
payload. It assembles the header, then the payload, and keeps what is not complete between chunks.
-/

namespace Dkg.FixedHeader
open StreamCut List
variable {η φ ε : Type}

/-- What a protocol gives to the decoder. -/
structure Options (η φ ε : Type) where
  headerBytes : ℕ
  headerBytes_pos : 0 < headerBytes
  parseHeader : List UInt8 → Except ε (η × ℕ)
  complete : η → List UInt8 → Except ε φ
  truncatedError : ε

/-- The bytes of the frame that is being assembled: a part of its header, or the header and a part
of the payload. A header or a payload with all its bytes is not kept. -/
inductive Assembly (o : Options η φ ε)
  | header (used : List UInt8) (h : used.length < o.headerBytes)
  | pending (value : η) (length : ℕ) (used : List UInt8) (h : used.length < length)

variable (o : Options η φ ε)

/-- Nothing of the next frame has come. -/
def Assembly.fresh : Assembly o := .header [] o.headerBytes_pos

theorem take_le {used : List UInt8} {length : ℕ} (rest : List UInt8) (h : used.length ≤ length) :
    (used ++ rest.take (min (length - used.length) rest.length)).length ≤ length := by
  rw [length_append, length_take]
  omega

/-- The second half of a turn: take bytes of the payload, and complete the frame if it is there. -/
def fillPayload (value : η) (length : ℕ) (used : List UInt8) (h : used.length ≤ length)
    (rest : List UInt8) : Except ε (Option φ × Assembly o × List UInt8) :=
  let take := min (length - used.length) rest.length
  if hfull : (used ++ rest.take take).length = length then
    match o.complete value (used ++ rest.take take) with
    | .error e => .error e
    | .ok frame => .ok (some frame, .fresh o, rest.drop take)
  else .ok (none, .pending value length (used ++ rest.take take)
    (lt_of_le_of_ne (take_le rest h) hfull),
    rest.drop take)

/-- One turn of the loop over a chunk: the frame it yields if any, the state and the rest. -/
def turn (s : Assembly o) (rest : List UInt8) : Except ε (Option φ × Assembly o × List UInt8) :=
  match s with
  | .pending value length used h => fillPayload o value length used h.le rest
  | .header used _ =>
    let take := min (o.headerBytes - used.length) rest.length
    if hpart : (used ++ rest.take take).length < o.headerBytes then
      .ok (none, .header (used ++ rest.take take) hpart, rest.drop take)
    else
      match o.parseHeader (used ++ rest.take take) with
      | .error e => .error e
      | .ok (value, length) =>
        fillPayload o value length [] (Nat.zero_le _) (rest.drop take)

variable {o}

theorem fillPayload_rest {value : η} {length : ℕ} {used rest rest' : List UInt8}
    {frame : Option φ} {s' : Assembly o} (h : used.length ≤ length)
    (hfill : fillPayload o value length used h rest = .ok (frame, s', rest')) :
    rest' = rest.drop (min (length - used.length) rest.length) := by
  unfold fillPayload at hfill
  dsimp only at hfill
  split at hfill
  · split at hfill
    · cases hfill
    · cases hfill
      rfl
  · cases hfill
    rfl

theorem turn_rest {s s' : Assembly o} {rest rest' : List UInt8} {frame : Option φ}
    (h : turn o s rest = .ok (frame, s', rest')) (hne : rest ≠ []) :
    rest'.length < rest.length := by
  have hpos := length_pos_iff.mpr hne
  cases s with
  | pending value length used hused =>
    rw [fillPayload_rest hused.le h, length_drop]
    omega
  | header used hused =>
    unfold turn at h
    dsimp only at h
    split at h
    · cases h
      rw [length_drop]
      omega
    · split at h
      · cases h
      · rw [fillPayload_rest (Nat.zero_le _) h, length_drop, length_drop]
        omega

variable (o)

/-- The loop over a chunk: the frames it yields, and the state after it or an error. -/
def feed (s : Assembly o) (rest : List UInt8) : List φ × Except ε (Assembly o) :=
  if _hne : rest = [] then ([], .ok s)
  else
    match _h : turn o s rest with
    | .error e => ([], .error e)
    | .ok (frame, s', rest') => (frame.toList ++ (feed s' rest').1, (feed s' rest').2)
termination_by rest.length
decreasing_by all_goals exact turn_rest _h _hne

/-- The decoder from a state on. -/
def decodeFrom (s : Assembly o) : List (List UInt8) → Yielded ε φ
  | [] =>
    match s with
    | .header [] _ => ⟨[], none⟩
    | _ => ⟨[], some o.truncatedError⟩
  | chunk :: chunks =>
    match feed o s chunk with
    | (frames, .error e) => ⟨frames, some e⟩
    | (frames, .ok s') => ⟨frames ++ (decodeFrom s' chunks).frames, (decodeFrom s' chunks).error⟩

def decodeFixedHeaderFrames (source : List (List UInt8)) : Yielded ε φ :=
  decodeFrom o (.fresh o) source

section Spec
variable {o} {header used rest tail b c : List UInt8} {value : η} {length : ℕ} {f : φ} {e : ε}
  {s : Assembly o}

/-- The first frame of a stream, as its bytes tell it. -/
def cutFrame (o : Options η φ ε) (bytes : List UInt8) : Cut ε φ :=
  if bytes.length < o.headerBytes then .more
  else
    match o.parseHeader (bytes.take o.headerBytes) with
    | .error e => .fail e
    | .ok (value, length) =>
      if bytes.length < o.headerBytes + length then .more
      else
        match o.complete value ((bytes.drop o.headerBytes).take length) with
        | .error e => .fail e
        | .ok frame => .frame frame (o.headerBytes + length)

theorem cutFrame_header (hlen : header.length = o.headerBytes)
    (hparse : o.parseHeader header = .ok (value, length)) (c : List UInt8) :
    cutFrame o (header ++ c) = if c.length < length then .more
      else
        match o.complete value (c.take length) with
        | .error e => .fail e
        | .ok frame => .frame frame (o.headerBytes + length) := by
  rw [cutFrame, if_neg (by rw [length_append]; omega), ← hlen, take_left, hparse]
  dsimp only
  rw [drop_left, length_append]
  by_cases hc : c.length < length
  · rw [if_pos hc, if_pos (by omega)]
  · rw [if_neg hc, if_neg (by omega)]

theorem cutFrame_error (hlen : header.length = o.headerBytes)
    (hparse : o.parseHeader header = .error e) (c : List UInt8) :
    cutFrame o (header ++ c) = .fail e := by
  rw [cutFrame, if_neg (by rw [length_append]; omega), ← hlen, take_left, hparse]

/-- A state holds bytes of a frame. -/
def Assembly.Holds : Assembly o → List UInt8 → Prop
  | .header used _, b => b = used
  | .pending value length used _, b => ∃ header, header.length = o.headerBytes ∧
      o.parseHeader header = .ok (value, length) ∧ b = header ++ used

theorem fresh_holds (o : Options η φ ε) : (Assembly.fresh o).Holds [] := rfl

/-- What a turn says about the bytes of the whole stream. -/
def TurnOk (o : Options η φ ε) (bytes tail : List UInt8) :
    Except ε (Option φ × Assembly o × List UInt8) → Prop
  | .error _ => ∃ e, cutFrame o (bytes ++ tail) = .fail e
  | .ok (none, s', rest') => ∃ b, s'.Holds b ∧ b ++ rest' = bytes
  | .ok (some f, s', rest') => ∃ n, cutFrame o (bytes ++ tail) = .frame f n ∧ s' = .fresh o ∧
      rest' ++ tail = (bytes ++ tail).drop n

theorem fillPayload_ok (hlen : header.length = o.headerBytes)
    (hparse : o.parseHeader header = .ok (value, length)) (h : used.length ≤ length)
    (rest tail : List UInt8) :
    TurnOk o (header ++ used ++ rest) tail (fillPayload o value length used h rest) := by
  have hsplit : header ++ used ++ rest =
      header ++ (used ++ rest.take (min (length - used.length) rest.length) ++
        rest.drop (min (length - used.length) rest.length)) := by
    rw [append_assoc used, take_append_drop, append_assoc]
  unfold fillPayload
  dsimp only
  split_ifs with hfull
  · rw [hsplit]
    generalize used ++ rest.take (min (length - used.length) rest.length) = payload at hfull ⊢
    generalize rest.drop (min (length - used.length) rest.length) = left
    have hcut := cutFrame_header hlen hparse (payload ++ left ++ tail)
    rw [append_assoc payload, if_neg (by rw [length_append]; omega),
      take_left' hfull, ← append_assoc payload, ← append_assoc] at hcut
    cases hcomplete : o.complete value payload with
    | error e =>
      rw [hcomplete] at hcut
      exact ⟨e, hcut⟩
    | ok frame =>
      rw [hcomplete] at hcut
      refine ⟨o.headerBytes + length, hcut, rfl, ?_⟩
      rw [← hlen, ← hfull, ← length_append, ← append_assoc, append_assoc, drop_left]
  · exact ⟨_, ⟨header, hlen, hparse, rfl⟩, by rw [hsplit, append_assoc]⟩

theorem turn_ok (hs : s.Holds b) (rest tail : List UInt8) :
    TurnOk o (b ++ rest) tail (turn o s rest) := by
  cases s with
  | pending value length used h =>
    obtain ⟨header, hlen, hparse, rfl⟩ := hs
    exact fillPayload_ok hlen hparse h.le rest tail
  | header used h =>
    rw [show b = used from hs]
    have hsplit : used ++ rest = used ++ rest.take (min (o.headerBytes - used.length) rest.length) ++
        rest.drop (min (o.headerBytes - used.length) rest.length) := by
      rw [append_assoc, take_append_drop]
    have hle := take_le rest h.le
    unfold turn
    dsimp only
    split_ifs with hpart
    · exact ⟨_, rfl, hsplit.symm⟩
    · rw [hsplit]
      generalize used ++ rest.take (min (o.headerBytes - used.length) rest.length) = header at *
      generalize rest.drop (min (o.headerBytes - used.length) rest.length) = left
      have hlen : header.length = o.headerBytes := by omega
      rcases hparse : o.parseHeader header with e | ⟨value, length⟩
      · refine ⟨e, ?_⟩
        rw [append_assoc]
        exact cutFrame_error hlen hparse _
      · have hnil : ([] : List UInt8).length ≤ length := Nat.zero_le _
        have hfill := fillPayload_ok hlen hparse hnil left tail
        rwa [append_nil] at hfill

/-- What the loop over a chunk says about the bytes of the whole stream. -/
theorem feed_reads (hs : s.Holds b) (rest tail : List UInt8) :
    match feed o s rest with
    | (frames, .error _) => Reads (cutFrame o) (b ++ rest ++ tail) frames false
    | (frames, .ok s') => ∃ b', s'.Holds b' ∧ ∀ fs ok, Reads (cutFrame o) (b' ++ tail) fs ok →
        Reads (cutFrame o) (b ++ rest ++ tail) (frames ++ fs) ok := by
  fun_induction feed o s rest generalizing b with
  | case1 s => exact ⟨b, hs, fun fs ok h => by rwa [append_nil]⟩
  | case2 s rest hne e h =>
    have hturn := turn_ok hs rest tail
    rw [h] at hturn
    obtain ⟨e, he⟩ := hturn
    exact .fail he
  | case3 s rest hne frame s' rest' h ih =>
    have hturn := turn_ok hs rest tail
    rw [h] at hturn
    cases frame with
    | none =>
      obtain ⟨b', hs', hbytes⟩ := hturn
      have hrest := ih hs'
      rw [hbytes] at hrest
      exact hrest
    | some f =>
      obtain ⟨n, hcut, rfl, hbytes⟩ := hturn
      have hrest := ih (fresh_holds o)
      rw [nil_append, hbytes] at hrest
      rcases hfeed : feed o (.fresh o) rest' with ⟨frames, e | s''⟩
      · rw [hfeed] at hrest
        exact .frame hcut hrest
      · rw [hfeed] at hrest
        obtain ⟨b', hs', hreads⟩ := hrest
        exact ⟨b', hs', fun fs ok h => .frame hcut (hreads fs ok h)⟩

theorem decodeFrom_reads (hs : s.Holds b) (chunks : List (List UInt8)) :
    Reads (cutFrame o) (b ++ chunks.flatten) (decodeFrom o s chunks).frames
      (decodeFrom o s chunks).error.isNone := by
  induction chunks generalizing s b with
  | nil =>
    rw [flatten_nil, append_nil]
    have hstop : ∀ b' : List UInt8, b' ≠ [] → cutFrame o b' = .more →
        Reads (cutFrame o) b' [] false := fun b' hne hmore => by
      have hreads := Reads.stop hmore
      rwa [isEmpty_eq_false_iff.mpr hne] at hreads
    cases s with
    | header used h =>
      have hmore : cutFrame o used = .more := if_pos h
      rw [show b = used from hs]
      cases used with
      | nil => exact .stop hmore
      | cons byte used => exact hstop _ (cons_ne_nil _ _) hmore
    | pending value length used h =>
      obtain ⟨header, hlen, hparse, rfl⟩ := hs
      have hpos := o.headerBytes_pos
      refine hstop _ (ne_nil_of_length_pos (by rw [length_append]; omega)) ?_
      rw [cutFrame_header hlen hparse, if_pos h]
  | cons chunk chunks ih =>
    have hfeed := feed_reads hs chunk chunks.flatten
    rw [flatten_cons, ← append_assoc, decodeFrom]
    rcases hr : feed o s chunk with ⟨frames, e | s'⟩
    · rw [hr] at hfeed
      exact hfeed
    · rw [hr] at hfeed
      obtain ⟨b', hs', hreads⟩ := hfeed
      exact hreads _ _ (ih hs')

theorem decodeFixedHeaderFrames_decodes (o : Options η φ ε) :
    Decodes (cutFrame o) (decodeFixedHeaderFrames o) :=
  fun chunks => decodeFrom_reads (fresh_holds o) chunks

end Spec

/-- A decoder inverts an encoder for any chunking, reports a stream that is cut inside a frame,
and yields the same for any two chunkings of the same bytes. -/
structure Chunking {ε' : Type} (encode : φ → Except ε' (List UInt8))
    (decode : List (List UInt8) → Yielded ε φ) : Prop where
  inverts : ∀ (frames : List φ) encoded chunks, frames.mapM encode = .ok encoded →
    chunks.flatten = encoded.flatten → decode chunks = ⟨frames, none⟩
  truncated : ∀ (frames : List φ) encoded chunks, frames.mapM encode = .ok encoded →
    chunks.flatten <+: encoded.flatten → (∀ k, chunks.flatten ≠ (encoded.take k).flatten) →
    ∃ k, (decode chunks).frames = frames.take k ∧ (decode chunks).error.isSome ∧
      (encoded.take k).flatten.length < chunks.flatten.length ∧
      chunks.flatten.length < (encoded.take (k + 1)).flatten.length
  independent : ∀ chunks chunks', chunks.flatten = chunks'.flatten →
    (decode chunks).frames = (decode chunks').frames ∧
      (decode chunks).error.isNone = (decode chunks').error.isNone

section Chunking
variable {ε' : Type} {encode : φ → Except ε' (List UInt8)} {o : Options η φ ε} {f : φ}
  {bytes : List UInt8}

/-- The bytes of a frame: a header that parses, and a payload that completes it. -/
def Encodes (o : Options η φ ε) (f : φ) (bytes : List UInt8) : Prop :=
  ∃ header payload value, bytes = header ++ payload ∧ header.length = o.headerBytes ∧
    o.parseHeader header = .ok (value, payload.length) ∧ o.complete value payload = .ok f

theorem Encodes.cut (h : Encodes o f bytes) (c : List UInt8) :
    cutFrame o (bytes ++ c) = .frame f bytes.length := by
  obtain ⟨header, payload, value, rfl, hlen, hparse, hcomplete⟩ := h
  rw [append_assoc, cutFrame_header hlen hparse, if_neg (by rw [length_append]; omega),
    take_left, hcomplete, length_append, hlen]

theorem Encodes.cut_part (h : Encodes o f bytes) {q : List UInt8} (hq : q <+: bytes)
    (hlt : q.length < bytes.length) : cutFrame o q = .more := by
  obtain ⟨header, payload, value, rfl, hlen, hparse, -⟩ := h
  by_cases hshort : q.length < o.headerBytes
  · exact if_pos hshort
  · obtain ⟨used, rfl⟩ := prefix_of_prefix_length_le (prefix_append header payload) hq (by omega)
    rw [length_append, length_append] at hlt
    rw [cutFrame_header hlen hparse, if_pos (by omega)]

theorem mapM_eq_ok {frames : List φ} {encoded : List (List UInt8)}
    (h : frames.mapM encode = .ok encoded) :
    encoded = frames.map (fun f => (encode f).toOption.getD []) ∧
      ∀ f ∈ frames, encode f = .ok ((encode f).toOption.getD []) := by
  induction frames generalizing encoded with
  | nil =>
    cases h
    exact ⟨rfl, nofun⟩
  | cons f frames ih =>
    rw [mapM_cons] at h
    cases hf : encode f with
    | error e =>
      rw [hf] at h
      cases h
    | ok bytes =>
      rw [hf] at h
      cases hrest : frames.mapM encode with
      | error e =>
        rw [hrest] at h
        cases h
      | ok rest =>
        rw [hrest] at h
        cases h
        obtain ⟨hmap, hall⟩ := ih hrest
        rw [map_cons, hf, ← hmap]
        exact ⟨rfl, forall_mem_cons.mpr ⟨by rw [hf]; rfl, hall⟩⟩

/-- The decoder of a protocol whose encoder writes frames that parse back. -/
theorem chunking_of_encodes (h : ∀ f bytes, encode f = .ok bytes → Encodes o f bytes) :
    Chunking encode (decodeFixedHeaderFrames o) := by
  have hdecodes := decodeFixedHeaderFrames_decodes o
  have hnil : cutFrame o [] = .more := if_pos o.headerBytes_pos
  refine ⟨?_, ?_, fun chunks chunks' hflat => hdecodes.independent hflat⟩
  · intro frames encoded chunks hencoded hflat
    obtain ⟨rfl, hall⟩ := mapM_eq_ok hencoded
    apply hdecodes.eq
    have hreads := reads_encoded (fun f hf => (h f _ (hall f hf)).cut) hnil
    rwa [append_nil, flatMap_def, ← hflat] at hreads
  · intro frames encoded chunks hencoded hpart hne
    obtain ⟨rfl, hall⟩ := mapM_eq_ok hencoded
    simp only [← map_take, ← flatMap_def] at hpart hne ⊢
    obtain ⟨k, hreads, hlong⟩ := reads_part (fun f hf => (h f _ (hall f hf)).cut)
      (fun f hf q hq hlt => (h f _ (hall f hf)).cut_part hq hlt) hpart hne
    obtain ⟨hframes, herror⟩ := hdecodes.fails hreads
    exact ⟨k, hframes, herror, hlong⟩

end Chunking

end Dkg.FixedHeader
