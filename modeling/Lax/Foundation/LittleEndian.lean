import Mathlib.Data.Nat.Digits.Lemmas

/-!
This module contains numbers as a fixed number of bytes, the lowest one first.
-/

namespace LittleEndian

def encode : Nat → Nat → List UInt8
  | 0, _ => []
  | w + 1, v => UInt8.ofNat v :: encode w (v / 256)

def decode (bytes : List UInt8) : Nat :=
  Nat.ofDigits 256 (bytes.map UInt8.toNat)

@[simp]
theorem decode_nil : decode [] = 0 :=
  rfl

@[simp]
theorem decode_cons (b : UInt8) (bytes : List UInt8) :
    decode (b :: bytes) = b.toNat + 256 * decode bytes := by
  unfold decode
  rw [List.map_cons, Nat.ofDigits_cons]

@[simp]
theorem length_encode (w v : Nat) : (encode w v).length = w := by
  induction w generalizing v with
  | zero => rfl
  | succ w ih => rw [encode, List.length_cons, ih]

theorem decode_encode (w v : Nat) : decode (encode w v) = v % 256 ^ w := by
  induction w generalizing v with
  | zero =>
    rw [encode, decode_nil, Nat.pow_zero, Nat.mod_one]
  | succ w ih =>
    have hlow : (UInt8.ofNat v).toNat = v % 256 := UInt8.toNat_ofNat'
    rw [encode, decode_cons, ih, hlow, Nat.pow_succ', Nat.mod_mul]

theorem decode_encode_of_lt {w v : Nat} (h : v < 256 ^ w) : decode (encode w v) = v := by
  rw [decode_encode, Nat.mod_eq_of_lt h]

end LittleEndian
