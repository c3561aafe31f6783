import Mathlib

/-!
Numbers as bytes, the first one highest.
-/

namespace BigEndian

open List

/-- The lowest `width` bytes of a number. -/
def encode : ℕ → ℕ → List UInt8
  | 0, _ => []
  | width + 1, value => encode width (value / 256) ++ [UInt8.ofNat (value % 256)]

/-- The number that the bytes stand for. -/
def decode (bytes : List UInt8) : ℕ := bytes.foldl (fun value byte => value * 256 + byte.toNat) 0

variable {width value : ℕ}

@[simp] theorem length_encode (width value : ℕ) : (encode width value).length = width := by
  induction width generalizing value with
  | zero => rfl
  | succ width ih => rw [encode, length_append, ih, length_singleton]

theorem decode_snoc (bytes : List UInt8) (byte : UInt8) :
    decode (bytes ++ [byte]) = decode bytes * 256 + byte.toNat := by
  unfold decode
  rw [foldl_append]
  rfl

theorem decode_encode (h : value < 256 ^ width) : decode (encode width value) = value := by
  induction width generalizing value with
  | zero =>
    rw [pow_zero, Nat.lt_one_iff] at h
    rw [h]
    rfl
  | succ width ih =>
    have hdiv : value / 256 < 256 ^ width := by
      rw [Nat.div_lt_iff_lt_mul (by decide), ← pow_succ]
      exact h
    have hmod : value % 256 < 256 := Nat.mod_lt _ (by decide)
    rw [encode, decode_snoc, ih hdiv, UInt8.toNat_ofNat', Nat.mod_eq_of_lt hmod]
    omega

theorem encode_decode (bytes : List UInt8) : encode bytes.length (decode bytes) = bytes := by
  induction bytes using reverseRecOn with
  | nil => rfl
  | append_singleton bytes byte ih =>
    have hbyte := byte.toNat_lt
    rw [length_append, length_singleton, encode, decode_snoc]
    have hdiv : (decode bytes * 256 + byte.toNat) / 256 = decode bytes := by omega
    have hmod : (decode bytes * 256 + byte.toNat) % 256 = byte.toNat := by omega
    rw [hdiv, hmod, ih, UInt8.ofNat_toNat]

end BigEndian
