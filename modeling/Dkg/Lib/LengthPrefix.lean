import Dkg.Lib.BigEndian

/-!
Byte strings after their length. A list of them can be read back from the concatenation alone.
-/

namespace LengthPrefix

open List
variable {width : ℕ} {p q x y : List UInt8}

/-- A byte string after its length in `width` bytes. -/
def framed (width : ℕ) (part : List UInt8) : List UInt8 :=
  BigEndian.encode width part.length ++ part

theorem framed_append_inj (hp : p.length < 256 ^ width) (hq : q.length < 256 ^ width)
    (h : framed width p ++ x = framed width q ++ y) : p = q ∧ x = y := by
  unfold framed at h
  rw [append_assoc, append_assoc] at h
  obtain ⟨hlen, hrest⟩ := append_inj h (by
    rw [BigEndian.length_encode, BigEndian.length_encode])
  have hlen : p.length = q.length := by
    rw [← BigEndian.decode_encode hp, hlen, BigEndian.decode_encode hq]
  exact append_inj hrest hlen

theorem framed_ne_nil (hw : 0 < width) (p : List UInt8) : framed width p ≠ [] :=
  ne_nil_of_length_pos (by
    rw [framed, length_append, BigEndian.length_encode]
    omega)

/-- A concatenation determines its parts if each determines itself and what follows it. -/
theorem flatMap_inj {α β : Type*} {f : α → List β} {P : α → Prop} {l l' : List α}
    (hne : ∀ a, f a ≠ []) (hf : ∀ {a b x y}, P a → P b → f a ++ x = f b ++ y → a = b ∧ x = y)
    (hl : ∀ a ∈ l, P a) (hl' : ∀ a ∈ l', P a) (h : l.flatMap f = l'.flatMap f) : l = l' := by
  induction l generalizing l' with
  | nil =>
    cases l' with
    | nil => rfl
    | cons b l' => exact absurd (append_eq_nil_iff.mp h.symm).1 (hne b)
  | cons a l ih =>
    cases l' with
    | nil => exact absurd (append_eq_nil_iff.mp h).1 (hne a)
    | cons b l' =>
      obtain ⟨ha, hltail⟩ := forall_mem_cons.mp hl
      obtain ⟨hb, hltail'⟩ := forall_mem_cons.mp hl'
      obtain ⟨rfl, hrest⟩ := hf ha hb h
      rw [ih hltail hltail' hrest]

end LengthPrefix
