import Dkg.Wire.Scalars
import Dkg.Lib.LengthPrefix

/-!
Lists of strings as bytes: each string in UTF-8 after its length in four bytes.
-/

namespace Dkg.Wire
open Utf16 Json LengthPrefix List
variable {t : Text} {l l' : List Text} {n m : ℕ}

/-- The length is written modulo the range of four bytes. -/
def lengthPrefixed (parts : List Text) : List UInt8 :=
  (parts.map utf8Bytes).flatMap (framed 4)

/-- A well-formed string whose length four bytes can tell. -/
structure Encodable (t : Text) : Prop where
  wellFormed : WellFormed t
  length_lt : (utf8 t).length < 2 ^ 32

theorem Encodable.of_ascii (h : ∀ u ∈ t, u < 0x80) (hlen : t.length < 2 ^ 32) : Encodable t :=
  ⟨.of_forall_lt fun u hu => (h u hu).trans (by decide), by rwa [utf8_ascii h]⟩

theorem Encodable.bytes_lt (h : Encodable t) : (utf8Bytes t).length < 256 ^ 4 := by
  rw [utf8Bytes, length_map]
  exact h.length_lt

theorem encodable_digitsOf (h : n ≤ MAX_SAFE_INTEGER) : Encodable (digitsOf n) := by
  refine .of_ascii (fun u hu => ?_) ((digitsOf_length_le h).trans_lt (by decide))
  have := of_decide_eq_true (digitsOf_isDigit u hu)
  omega

theorem digitsOf_inj (h : digitsOf n = digitsOf m) : n = m := by
  rw [← decimalNumber_digitsOf n, h, decimalNumber_digitsOf]

/-- The bytes of a list of strings determine the strings. -/
theorem lengthPrefixed_inj (h : ∀ t ∈ l, Encodable t) (h' : ∀ t ∈ l', Encodable t)
    (heq : lengthPrefixed l = lengthPrefixed l') : l = l' := by
  rw [lengthPrefixed, lengthPrefixed, flatMap_map, flatMap_map] at heq
  refine flatMap_inj (fun t => framed_ne_nil (by decide) _) (fun ht ht' hx => ?_) h h' heq
  obtain ⟨hbytes, rfl⟩ := framed_append_inj ht.bytes_lt ht'.bytes_lt hx
  exact ⟨utf8Bytes_injective ht.wellFormed ht'.wellFormed hbytes, rfl⟩

end Dkg.Wire
