import Lax.Foundation.XorLinear
import Lax.Util.Botan.Impl.Word

/-!
This module contains how the words of the crypto library are put together from bytes.
-/

namespace Lax
namespace Word

theorem makeUint32_eq (i0 i1 i2 i3 : Byte) : makeUint32 i0 i1 i2 i3 = i0 ++ i1 ++ i2 ++ i3 := by
  apply BitVec.eq_of_getLsbD_eq
  intro i hi
  simp only [makeUint32, BitVec.getLsbD_or, BitVec.getLsbD_shiftLeft, BitVec.getLsbD_setWidth,
    BitVec.getLsbD_append]
  grind

theorem getLsbD_getByte (n : Nat) (w : Word) (i : Nat) :
    (getByte n w).getLsbD i = (decide (i < 8) && w.getLsbD ((3 - n) * 8 + i)) := by
  rw [getByte, BitVec.getLsbD_setWidth, BitVec.getLsbD_ushiftRight]

@[simp]
theorem getByte_makeUint32 (n : Nat) (i0 i1 i2 i3 : Byte) :
    getByte n (makeUint32 i0 i1 i2 i3)
      =
    match n with
    | 0 => i0
    | 1 => i1
    | 2 => i2
    | _ => i3 := by
  rw [makeUint32_eq]
  apply BitVec.eq_of_getLsbD_eq
  intro i hi
  simp only [getLsbD_getByte, BitVec.getLsbD_append]
  split <;> grind

@[simp]
theorem makeUint32_getByte (w : Word) :
    makeUint32 (getByte 0 w) (getByte 1 w) (getByte 2 w) (getByte 3 w) = w := by
  rw [makeUint32_eq]
  apply BitVec.eq_of_getLsbD_eq
  intro i hi
  simp only [getLsbD_getByte, BitVec.getLsbD_append]
  grind

theorem ext_getByte {v w : Word} (h : ∀ n < 4, getByte n v = getByte n w) : v = w := by
  rw [← makeUint32_getByte v, ← makeUint32_getByte w, h 0 (by decide), h 1 (by decide),
    h 2 (by decide), h 3 (by decide)]

@[simp]
theorem rotr_8_makeUint32 (i0 i1 i2 i3 : Byte) :
    rotr 8 (makeUint32 i0 i1 i2 i3) = makeUint32 i3 i0 i1 i2 := by
  rw [makeUint32_eq, makeUint32_eq]
  apply BitVec.eq_of_getLsbD_eq
  intro i hi
  simp only [rotr, BitVec.getLsbD_or, BitVec.getLsbD_ushiftRight, BitVec.getLsbD_shiftLeft,
    BitVec.getLsbD_append]
  grind

theorem rotr_rotr (w : Word) {m n : Nat} (h : m + n < 32) : rotr m (rotr n w) = rotr (m + n) w := by
  apply BitVec.eq_of_getLsbD_eq
  intro i hi
  simp only [rotr, BitVec.getLsbD_or, BitVec.getLsbD_ushiftRight, BitVec.getLsbD_shiftLeft]
  grind

theorem rotl_eq_rotr (w : Word) {n : Nat} (h : n ≤ 32) : rotl n w = rotr (32 - n) w := by
  rw [rotl, rotr, BitVec.or_comm, Nat.sub_sub_self h]

/-!
### Exclusive or
-/

theorem linear_getByte (n : Nat) : XorLinear (getByte n) :=
  (XorLinear.setWidth 8).comp (XorLinear.ushiftRight _)

theorem linear_rotr {n : Nat} (h : n ≤ 32) : XorLinear (rotr n) := by
  refine ⟨fun a b => ?_⟩
  apply BitVec.eq_of_getLsbD_eq
  intro i hi
  simp only [rotr, BitVec.getLsbD_xor, BitVec.getLsbD_or, BitVec.getLsbD_ushiftRight,
    BitVec.getLsbD_shiftLeft]
  grind

theorem makeUint32_xor (i0 i1 i2 i3 j0 j1 j2 j3 : Byte) :
    makeUint32 (i0 ^^^ j0) (i1 ^^^ j1) (i2 ^^^ j2) (i3 ^^^ j3)
      =
    makeUint32 i0 i1 i2 i3 ^^^ makeUint32 j0 j1 j2 j3 := by
  apply ext_getByte
  intro n _
  rw [(linear_getByte n).xor, getByte_makeUint32, getByte_makeUint32, getByte_makeUint32]
  split <;> rfl

theorem linear_makeUint32 {v : Nat} {f0 f1 f2 f3 : BitVec v → Byte} (h0 : XorLinear f0)
    (h1 : XorLinear f1) (h2 : XorLinear f2) (h3 : XorLinear f3) :
    XorLinear fun a => makeUint32 (f0 a) (f1 a) (f2 a) (f3 a) := by
  refine ⟨fun a b => ?_⟩
  rw [h0.xor, h1.xor, h2.xor, h3.xor, makeUint32_xor]

/-!
### Buffers
-/

theorem loadBe_append (pre rest : List UInt8) (w : Word) (off : Nat) (h : pre.length = off * 4) :
    loadBe (pre ++ (storeBe w ++ rest)) off = w := by
  have hget : ∀ i < 4, (pre ++ (storeBe w ++ rest)).getD (off * 4 + i) 0
      = UInt8.ofBitVec (getByte i w) := by
    intro i hi
    rw [← h, List.getD_eq_getElem?_getD, List.getElem?_append_right (by omega),
      Nat.add_sub_cancel_left]
    obtain rfl | rfl | rfl | rfl : i = 0 ∨ i = 1 ∨ i = 2 ∨ i = 3 := by omega
    all_goals rfl
  unfold loadBe
  dsimp only
  rw [hget 0 (by decide), hget 1 (by decide), hget 2 (by decide), hget 3 (by decide)]
  exact makeUint32_getByte w

end Word
end Lax
