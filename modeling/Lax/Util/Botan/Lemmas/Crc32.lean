import Lax.Foundation.Lfsr
import Lax.Util.Botan.Impl.Crc32
import Mathlib.Tactic.NormNum
import Mathlib.Tactic.NormNum.Prime

/-!
This module contains what the CRC32 tells apart. The table is eight steps of a shift register, so the
hash is the register after the bits of the input, each byte from its lowest bit on.
-/

namespace Lax
namespace Crc32

open Lfsr

def poly : Word := 0xEDB88320

def bitsOf (bytes : List UInt8) : List Bool :=
  bytes.flatMap fun byte => (List.range 8).map byte.toBitVec.getLsbD

theorem bitsOf_cons (byte : UInt8) (bytes : List UInt8) :
    bitsOf (byte :: bytes) = (List.range 8).map byte.toBitVec.getLsbD ++ bitsOf bytes :=
  List.flatMap_cons

theorem table_eq :
    table = (List.range 256).map fun i => (step poly)^[8] (BitVec.ofNat 32 i) := by
  decide +kernel

theorem getD_table {i : Nat} (h : i < 256) :
    table.getD i 0 = (step poly)^[8] (BitVec.ofNat 32 i) := by
  rw [table_eq]
  simp [h]

theorem load_bits (byte : BitVec 8) :
    load ((List.range 8).map byte.getLsbD) = byte.setWidth 32 := by
  apply BitVec.eq_of_getLsbD_eq
  intro i hi
  rw [getLsbD_load, BitVec.getLsbD_setWidth]
  by_cases hbyte : i < 8
  . simp [hbyte]
  . have hnone : ((List.range 8).map byte.getLsbD)[i]? = none :=
      List.getElem?_eq_none (by simpa using hbyte)
    simp [hnone, BitVec.getLsbD_of_ge byte i (by omega)]

theorem round_eq (tmp : Word) (input : UInt8) :
    round tmp input = feedAll poly tmp ((List.range 8).map input.toBitVec.getLsbD) := by
  have hlow : ∀ x : Word, x &&& 0xFF = (x.setWidth 8).setWidth 32 := by
    intro x
    apply BitVec.eq_of_toNat_eq
    rw [BitVec.toNat_and, BitVec.toNat_setWidth, BitVec.toNat_setWidth,
      Nat.mod_eq_of_lt (a := _ % 2 ^ 8) (by omega)]
    exact Nat.and_two_pow_sub_one_eq_mod x.toNat 8
  have hbyte : input.toBitVec.setWidth 32 >>> 8 = 0#32 := by
    apply BitVec.eq_of_toNat_eq
    have hlt := input.toNat_lt
    simp
    omega
  rw [feedAll_eq_iterate poly tmp (by simp), load_bits, List.length_map, List.length_range,
    iterate_eq_low, BitVec.ushiftRight_xor_distrib, hbyte, round, hlow, getD_table]
  . rw [BitVec.ofNat_toNat, BitVec.setWidth_eq, BitVec.xor_zero]
  . rw [BitVec.toNat_setWidth, BitVec.toNat_setWidth]
    omega

theorem foldl_addBlocks (tmp : Word) (input : List UInt8) :
    (addBlocks tmp input).2.foldl round (addBlocks tmp input).1 = input.foldl round tmp := by
  fun_induction addBlocks tmp input with
  | case1 => assumption
  | case2 => rfl

theorem foldl_round (tmp : Word) (input : List UInt8) :
    input.foldl round tmp = feedAll poly tmp (bitsOf input) := by
  induction input generalizing tmp with
  | nil => rfl
  | cons byte input ih =>
    rw [List.foldl_cons, ih, round_eq, bitsOf_cons, feedAll_append]

theorem addData_eq (state : Crc32) (input : List UInt8) :
    state.addData input = ⟨feedAll poly state.crc (bitsOf input)⟩ := by
  rw [← foldl_round, ← foldl_addBlocks]
  rfl

theorem minimalPeriod_poly : Function.minimalPeriod (step poly) 1#32 = 2 ^ 32 - 1 := by
  have hfactor : 2 ^ 32 - 1 = 3 * 5 * 17 * 257 * 65537 := by norm_num
  apply minimalPeriod_eq_of_prime
  . rw [isPeriodicPt_iff poly (by norm_num : 2 ^ 32 - 1 < 2 ^ 32)]
    decide +kernel
  . intro p hp hdvd
    have hcases : p = 3 ∨ p = 5 ∨ p = 17 ∨ p = 257 ∨ p = 65537 := by
      rw [hfactor] at hdvd
      have hprime : ∀ q, q.Prime → p ∣ q → p = q := fun q hq h =>
        (Nat.prime_dvd_prime_iff_eq hp hq).mp h
      simp only [hp.dvd_mul] at hdvd
      obtain (((h | h) | h) | h) | h := hdvd
      . exact Or.inl (hprime 3 (by norm_num) h)
      . exact Or.inr (Or.inl (hprime 5 (by norm_num) h))
      . exact Or.inr (Or.inr (Or.inl (hprime 17 (by norm_num) h)))
      . exact Or.inr (Or.inr (Or.inr (Or.inl (hprime 257 (by norm_num) h))))
      . exact Or.inr (Or.inr (Or.inr (Or.inr (hprime 65537 (by norm_num) h))))
    have hlt : (2 ^ 32 - 1) / p < 2 ^ 32 :=
      Nat.lt_of_le_of_lt (Nat.div_le_self _ p) (by norm_num)
    rw [isPeriodicPt_iff poly hlt]
    obtain rfl | rfl | rfl | rfl | rfl := hcases <;> decide +kernel

theorem length_bitsOf (bytes : List UInt8) : (bitsOf bytes).length = 8 * bytes.length := by
  induction bytes with
  | nil => rfl
  | cons byte bytes ih =>
    rw [bitsOf_cons, List.length_append, ih, List.length_map, List.length_range, List.length_cons]
    omega

theorem storeBe_injective : Function.Injective Word.storeBe := by
  intro x y h
  have hbyte : ∀ n, Word.getByte n x = Word.getByte n y → ∀ i < 8,
      x.getLsbD ((3 - n) * 8 + i) = y.getLsbD ((3 - n) * 8 + i) := by
    intro n hn i hi
    have hbit := congrArg (BitVec.getLsbD · i) hn
    simpa [Word.getByte, hi] using hbit
  simp only [Word.storeBe, List.map_cons, List.map_nil, List.cons.injEq, and_true,
    UInt8.ofBitVec.injEq] at h
  obtain ⟨h0, h1, h2, h3⟩ := h
  apply BitVec.eq_of_getLsbD_eq
  intro i hi
  obtain hlt | hlt | hlt | hlt : i < 8 ∨ 8 ≤ i ∧ i < 16 ∨ 16 ≤ i ∧ i < 24 ∨ 24 ≤ i := by omega
  . simpa using hbyte 3 h3 i hlt
  . have := hbyte 2 h2 (i - 8) (by omega)
    rwa [Nat.add_sub_cancel' hlt.1] at this
  . have := hbyte 1 h1 (i - 16) (by omega)
    rwa [Nat.add_sub_cancel' hlt.1] at this
  . have := hbyte 0 h0 (i - 24) (by omega)
    rwa [Nat.add_sub_cancel' hlt] at this

theorem hash_eq_iff (input other : List UInt8) :
    hash input = hash other
      ↔ feedAll poly clear.crc (bitsOf input) = feedAll poly clear.crc (bitsOf other) := by
  unfold hash finalResult
  rw [storeBe_injective.eq_iff, BitVec.xor_left_inj, addData_eq, addData_eq]

theorem length_hash (input : List UInt8) : (hash input).length = 4 := rfl

-- Errors in the bits between two ends that are at most 32 bits apart, or in just two bits.
inductive Damaged (sent received : List UInt8) : Prop where
  | burst {pre as bs post : List Bool} (hsent : bitsOf sent = pre ++ as ++ post)
      (hreceived : bitsOf received = pre ++ bs ++ post) (hlen : as.length = bs.length)
      (hle : as.length ≤ 32) (hne : as ≠ bs)
  | pair {pre mid post : List Bool} {a b : Bool}
      (hsent : bitsOf sent = pre ++ (a :: mid ++ [b]) ++ post)
      (hreceived : bitsOf received = pre ++ ((!a) :: mid ++ [!b]) ++ post)
      (hlt : mid.length + 1 < 2 ^ 32 - 1)

theorem Damaged.length_eq {sent received : List UInt8} (h : Damaged sent received) :
    received.length = sent.length := by
  have hbits : (bitsOf received).length = (bitsOf sent).length := by
    cases h with
    | burst hsent hreceived hlen _ _ => simp [hsent, hreceived, hlen]
    | pair hsent hreceived _ => simp [hsent, hreceived]
  rw [length_bitsOf, length_bitsOf] at hbits
  omega

theorem hash_ne_of_damaged {sent received : List UInt8} (h : Damaged sent received) :
    hash received ≠ hash sent := by
  rw [ne_eq, eq_comm, hash_eq_iff]
  have hpoly : poly.msb = true := rfl
  cases h with
  | burst hsent hreceived hlen hle hne =>
    rw [hsent, hreceived]
    exact feedAll_ne_of_burst hpoly _ _ _ hlen hle hne
  | pair hsent hreceived hlt =>
    rw [hsent, hreceived, feedAll_two_errors_iff hpoly, minimalPeriod_poly]
    exact fun hdvd => Nat.not_lt.mpr (Nat.le_of_dvd (Nat.succ_pos _) hdvd) hlt

end Crc32
end Lax
