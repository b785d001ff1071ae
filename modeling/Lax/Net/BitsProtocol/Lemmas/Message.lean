import Lax.Net.BitsProtocol.Impl.Message
import Lax.Net.Modifier.Impl.Basic

/-!
This module contains what a receiver reads where a sender has written a topic or a length.
-/

namespace Lax
namespace BitsMessage

@[simp]
theorem length_value4b (value : UInt32) : (value4b value).length = 4 := rfl

theorem headerLength_le_length_pack {Body : UInt32 → Type} (codec : Bitsery Body)
    (m : BitsMessage Body) : headerLength ≤ (m.pack codec).length := by
  simp [BitsMessage.pack, BitsMessage.value4b, headerLength]

theorem toNat_or_shiftLeft (low : Nat) (high : Nat) (k : Nat) (h : low < 2 ^ k) :
    low ||| high <<< k = low + high * 2 ^ k := by
  rw [Nat.or_comm, ← Nat.shiftLeft_add_eq_or_of_lt h, Nat.shiftLeft_eq, Nat.add_comm]

theorem toNat_getValue4b (b₀ b₁ b₂ b₃ : UInt8) (rest : List UInt8) :
    (getValue4b (b₀ :: b₁ :: b₂ :: b₃ :: rest) 0).toNat
      =
    b₀.toNat + b₁.toNat * 2 ^ 8 + b₂.toNat * 2 ^ 16 + b₃.toNat * 2 ^ 24 := by
  have h₀ := b₀.toNat_lt
  have h₁ := b₁.toNat_lt
  have h₂ := b₂.toNat_lt
  have h₃ := b₃.toNat_lt
  have hshift : ∀ (b : UInt8) (k : Nat), b.toNat < 2 ^ 8 → k ≤ 24 →
      b.toNat <<< k % 2 ^ 32 = b.toNat <<< k := by
    intro b k hb hk
    rw [Nat.shiftLeft_eq]
    apply Nat.mod_eq_of_lt
    have hpow : 2 ^ k ≤ 2 ^ 24 := Nat.pow_le_pow_right (by decide) hk
    have := Nat.mul_le_mul (Nat.le_of_lt_succ hb) hpow
    omega
  simp only [getValue4b, List.getD_cons_zero, List.getD_cons_succ, Nat.zero_add, UInt32.toNat_or,
    UInt32.toNat_shiftLeft, UInt8.toNat_toUInt32]
  have h8 : UInt32.toNat 8 % 32 = 8 := rfl
  have h16 : UInt32.toNat 16 % 32 = 16 := rfl
  have h24 : UInt32.toNat 24 % 32 = 24 := rfl
  rw [h8, h16, h24, hshift b₁ 8 h₁ (by decide), hshift b₂ 16 h₂ (by decide),
    hshift b₃ 24 h₃ (by decide)]
  rw [toNat_or_shiftLeft _ _ 8 h₀, toNat_or_shiftLeft _ _ 16 (by omega),
    toNat_or_shiftLeft _ _ 24 (by omega)]

theorem getValue4b_value4b (value : UInt32) (rest : List UInt8) :
    getValue4b (value4b value ++ rest) 0 = value := by
  have hlt := value.toNat_lt
  apply UInt32.toNat_inj.mp
  unfold value4b
  rw [List.cons_append, List.cons_append, List.cons_append, List.cons_append, toNat_getValue4b]
  have h8 : UInt32.toNat 8 % 32 = 8 := rfl
  have h16 : UInt32.toNat 16 % 32 = 16 := rfl
  have h24 : UInt32.toNat 24 % 32 = 24 := rfl
  simp only [UInt32.toNat_toUInt8, UInt32.toNat_shiftRight, h8, h16, h24,
    Nat.shiftRight_eq_div_pow]
  omega

theorem getValue4b_append (xs ys : List UInt8) (pos : Nat) (h : pos + 4 ≤ xs.length) :
    getValue4b (xs ++ ys) pos = getValue4b xs pos := by
  have hget : ∀ i, i < xs.length → (xs ++ ys).getD i 0 = xs.getD i 0 := by
    intro i hi
    rw [List.getD_eq_getElem?_getD, List.getD_eq_getElem?_getD, List.getElem?_append_left hi]
  unfold getValue4b
  rw [hget _ (by omega), hget _ (by omega), hget _ (by omega), hget _ (by omega)]

theorem getValue4b_shift (pre xs : List UInt8) (pos : Nat) :
    getValue4b (pre ++ xs) (pre.length + pos) = getValue4b xs pos := by
  have hget : ∀ i, (pre ++ xs).getD (pre.length + i) 0 = xs.getD i 0 := by
    intro i
    rw [List.getD_eq_getElem?_getD, List.getD_eq_getElem?_getD,
      List.getElem?_append_right (by omega), Nat.add_sub_cancel_left]
  unfold getValue4b
  simp only [Nat.add_assoc, hget]

/-!
### The length field
-/

-- What a receiver takes for the length of a frame of `n` bytes.
def wireLength (n : Nat) : Nat :=
  n % 2 ^ 8 + n / 2 ^ 8 % 2 ^ 8 * (2 ^ 8 + 2 ^ 16 + 2 ^ 24)

theorem toNat_getValue4b_lengthField (n : Nat) (rest : List UInt8) :
    (getValue4b (lengthField n ++ rest) 0).toNat = wireLength n := by
  have hmask : ∀ k, k &&& 0xFF = k % 2 ^ 8 := fun k => Nat.and_two_pow_sub_one_eq_mod k 8
  unfold lengthField wireLength
  rw [List.cons_append, List.cons_append, List.cons_append, List.cons_append, toNat_getValue4b]
  simp only [UInt8.toNat_ofNat', hmask, Nat.shiftRight_eq_div_pow]
  omega

theorem wireLength_eq_iff {n : Nat} (h : n < 2 ^ 16) : wireLength n = n ↔ n < 256 := by
  unfold wireLength
  omega

end BitsMessage
end Lax
