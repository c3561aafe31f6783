import Mathlib

/-!
Decoders that cut frames off the front of a stream. A cut looks at the bytes there are and asks for
more, fails, or gives the first frame and how many bytes it took. What a decoder reads is told by
the bytes of the whole stream, so any two ways of getting those bytes agree.
-/

namespace StreamCut

open List
variable {β ε φ : Type*}

/-- What the bytes at the front of a stream are. -/
inductive Cut (ε φ : Type*)
  | more
  | fail (e : ε)
  | frame (f : φ) (n : ℕ)

/-- The frames a decoder yields, and the error it ends with if any. -/
structure Yielded (ε φ : Type*) where
  frames : List φ
  error : Option ε

/-- A frame before what is yielded later. -/
def Yielded.cons (f : φ) (y : Yielded ε φ) : Yielded ε φ := ⟨f :: y.frames, y.error⟩

/-- The frames of a stream, and whether it ends without an error: a rest that asks for more is an
error unless it is empty. -/
inductive Reads (cut : List β → Cut ε φ) : List β → List φ → Bool → Prop
  | stop {b} (h : cut b = .more) : Reads cut b [] b.isEmpty
  | fail {b e} (h : cut b = .fail e) : Reads cut b [] false
  | frame {b f n fs ok} (h : cut b = .frame f n) (hrest : Reads cut (b.drop n) fs ok) :
    Reads cut b (f :: fs) ok

variable {cut : List β → Cut ε φ} {b : List β} {f : φ} {n : ℕ} {fs fs' : List φ} {ok ok' : Bool}

theorem Reads.unique (h : Reads cut b fs ok) (h' : Reads cut b fs' ok') : fs = fs' ∧ ok = ok' := by
  induction h generalizing fs' ok' with
  | stop hcut =>
    cases h' with
    | stop => exact ⟨rfl, rfl⟩
    | fail hcut' | frame hcut' => rw [hcut] at hcut'; cases hcut'
  | fail hcut =>
    cases h' with
    | stop hcut' => rw [hcut] at hcut'; cases hcut'
    | fail => exact ⟨rfl, rfl⟩
    | frame hcut' => rw [hcut] at hcut'; cases hcut'
  | frame hcut _ ih =>
    cases h' with
    | stop hcut' | fail hcut' => rw [hcut] at hcut'; cases hcut'
    | frame hcut' hrest =>
      rw [hcut] at hcut'
      cases hcut'
      obtain ⟨rfl, rfl⟩ := ih hrest
      exact ⟨rfl, rfl⟩

/-- Every frame read was cut off the front of some bytes. -/
theorem Reads.exists_cut (h : Reads cut b fs ok) (hf : f ∈ fs) : ∃ b n, cut b = .frame f n := by
  induction h with
  | stop => cases hf
  | fail => cases hf
  | frame hcut _ ih =>
    rcases mem_cons.mp hf with rfl | hf
    · exact ⟨_, _, hcut⟩
    · exact ih hf

/-- A decoder reads the bytes of its chunks. -/
def Decodes (cut : List β → Cut ε φ) (decode : List (List β) → Yielded ε φ) : Prop :=
  ∀ chunks, Reads cut chunks.flatten (decode chunks).frames (decode chunks).error.isNone

section Decodes
variable {decode : List (List β) → Yielded ε φ} {chunks chunks' : List (List β)}

/-- What a decoder yields does not depend on the chunks. -/
theorem Decodes.independent (h : Decodes cut decode) (hflat : chunks.flatten = chunks'.flatten) :
    (decode chunks).frames = (decode chunks').frames ∧
      (decode chunks).error.isNone = (decode chunks').error.isNone :=
  (h chunks).unique (hflat ▸ h chunks')

theorem Decodes.eq (h : Decodes cut decode) (hreads : Reads cut chunks.flatten fs true) :
    decode chunks = ⟨fs, none⟩ := by
  obtain ⟨hframes, herror⟩ := (h chunks).unique hreads
  rw [Option.isNone_iff_eq_none] at herror
  rw [← hframes, ← herror]

theorem Decodes.fails (h : Decodes cut decode) (hreads : Reads cut chunks.flatten fs false) :
    (decode chunks).frames = fs ∧ (decode chunks).error.isSome := by
  obtain ⟨hframes, herror⟩ := (h chunks).unique hreads
  refine ⟨hframes, ?_⟩
  rw [Option.isSome_iff_ne_none, ne_eq, ← Option.isNone_iff_eq_none, herror]
  exact Bool.false_ne_true

end Decodes

section Encoding
variable {enc : φ → List β} {p : List β}

/-- The encodings of frames, with a rest that asks for more. -/
theorem reads_encoded (henc : ∀ f ∈ fs, ∀ c, cut (enc f ++ c) = .frame f (enc f).length)
    (hp : cut p = .more) : Reads cut (fs.flatMap enc ++ p) fs p.isEmpty := by
  induction fs with
  | nil => exact .stop hp
  | cons f fs ih =>
    obtain ⟨hf, henc⟩ := forall_mem_cons.mp henc
    rw [flatMap_cons, append_assoc]
    refine .frame (hf _) ?_
    rw [drop_left]
    exact ih henc

/-- A part of an encoded list is some whole frames and the beginning of the next. -/
theorem prefix_encoded (h : p <+: fs.flatMap enc) :
    ∃ k q, p = (fs.take k).flatMap enc ++ q ∧
      (q = [] ∨ ∃ f, fs[k]? = some f ∧ q <+: enc f ∧ q.length < (enc f).length) := by
  induction fs generalizing p with
  | nil => exact ⟨0, [], prefix_nil.mp h, .inl rfl⟩
  | cons f fs ih =>
    rw [flatMap_cons] at h
    rcases lt_or_ge p.length (enc f).length with hlt | hle
    · refine ⟨0, p, rfl, .inr ⟨f, rfl, ?_, hlt⟩⟩
      exact prefix_of_prefix_length_le h (prefix_append _ _) hlt.le
    · obtain ⟨q, rfl⟩ := prefix_of_prefix_length_le (prefix_append _ _) h hle
      obtain ⟨k, r, rfl, hr⟩ := ih (prefix_append_right_inj _ |>.mp h)
      exact ⟨k + 1, r, by rw [take_succ_cons, flatMap_cons, append_assoc], hr⟩

/-- A part that stops inside a frame gives the frames before it and an error. -/
theorem reads_part (henc : ∀ f ∈ fs, ∀ c, cut (enc f ++ c) = .frame f (enc f).length)
    (hmore : ∀ f ∈ fs, ∀ q, q <+: enc f → q.length < (enc f).length → cut q = .more)
    (h : p <+: fs.flatMap enc) (hne : ∀ k, p ≠ (fs.take k).flatMap enc) :
    ∃ k, Reads cut p (fs.take k) false ∧ ((fs.take k).flatMap enc).length < p.length ∧
      p.length < ((fs.take (k + 1)).flatMap enc).length := by
  obtain ⟨k, q, rfl, rfl | ⟨f, hf, hq, hlt⟩⟩ := prefix_encoded h
  · exact absurd (append_nil _) (hne k)
  · have hmem := mem_of_getElem? hf
    have hpos : q ≠ [] := fun hnil => hne k (by rw [hnil, append_nil])
    have hreads : Reads cut ((fs.take k).flatMap enc ++ q) (fs.take k) q.isEmpty :=
      reads_encoded (fun g hg => henc g (mem_of_mem_take hg)) (hmore f hmem q hq hlt)
    refine ⟨k, ?_, ?_, ?_⟩
    · rwa [isEmpty_eq_false_iff.mpr hpos] at hreads
    · have := length_pos_iff.mpr hpos
      rw [length_append]
      omega
    · rw [take_add_one, hf, flatMap_append, length_append, length_append]
      simpa using hlt

end Encoding

end StreamCut
