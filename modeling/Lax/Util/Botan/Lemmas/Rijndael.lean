import Lax.Foundation.BlockMode
import Lax.Foundation.Rijndael
import Lax.Util.Botan.Lemmas.Aes
import Mathlib.Data.Fintype.Basic
import Mathlib.Tactic.FinCases

/-!
This module contains that the code computes the Rijndael cipher, with the key schedule in place.
-/

namespace Lax
namespace Aes

open Word

/-!
### Rounds
-/

theorem entry_se (a : Byte) : entry se a = Rijndael.subByte a := by
  revert a
  decide +kernel

theorem xtime_eq_times (a : Byte) : xtime a = Rijndael.times a 2 := by
  revert a
  decide +kernel

theorem xtime3_eq_times (a : Byte) : xtime3 a = Rijndael.times a 3 := by
  revert a
  decide +kernel

def Columns.col (x : Columns) (c : Fin 4) : Word :=
  match c with
  | 0 => x.c0
  | 1 => x.c1
  | 2 => x.c2
  | 3 => x.c3

-- The bytes of a word are a column, those of four words a block.
def columnOf (w : Word) : Rijndael.Column :=
  fun r => getByte r w

def stateOf (x : Columns) : Rijndael.State :=
  fun r c => columnOf (x.col c) r

theorem getByte_spread_mixByte (w : Word) (r : Fin 4) :
    getByte r (spread mixByte w)
      =
    Rijndael.times (columnOf w r) 2 ^^^ Rijndael.times (columnOf w (r + 1)) 3
      ^^^ columnOf w (r + 2) ^^^ columnOf w (r + 3) := by
  have hrotr : ∀ v : Word, rotr 16 v = rotr 8 (rotr 8 v) ∧ rotr 24 v = rotr 8 (rotr 8 (rotr 8 v)) := by
    intro v
    rw [rotr_rotr _ (by decide), rotr_rotr _ (by decide)]
    exact ⟨rfl, rfl⟩
  simp only [spread, (hrotr _).1, (hrotr _).2, mixByte, rotr_8_makeUint32, (linear_getByte _).xor,
    getByte_makeUint32, columnOf, ← xtime_eq_times, ← xtime3_eq_times]
  fin_cases r <;> simp <;> ac_rfl

theorem maps_stateOf : KeyAlternating.Maps stateOf forward Rijndael.rounds where
  add := fun x k => by
    funext r c
    fin_cases c <;> exact (linear_getByte r).xor _ _
  sub := fun x => by
    funext r c
    have hbyte : ∀ a, Rijndael.subByte a = entry se a := fun a => (entry_se a).symm
    simp only [stateOf, columnOf, forward, Rijndael.rounds, Rijndael.shiftRows, Rijndael.subBytes,
      hbyte]
    fin_cases c <;> fin_cases r <;> exact getByte_makeUint32 _ _ _ _ _
  mix := fun x => by
    funext r c
    fin_cases c <;> exact getByte_spread_mixByte _ r

/-!
### Blocks
-/

theorem columnOf_loadBe (input : List UInt8) (off : Nat) (r : Fin 4) :
    columnOf (loadBe input off) r = (input.getD (4 * off + r) 0).toBitVec := by
  rw [Nat.mul_comm]
  unfold columnOf loadBe
  fin_cases r <;> exact getByte_makeUint32 _ _ _ _ _

theorem stateOf_load (input : List UInt8) : stateOf (.load input) = Rijndael.load input := by
  funext r c
  fin_cases c <;> exact columnOf_loadBe input _ r

theorem store_stateOf (x : Columns) : Rijndael.store (stateOf x) = x.store := rfl

/-!
### Keys
-/

theorem columnOf_xor (v w : Word) (r : Fin 4) : columnOf (v ^^^ w) r = columnOf v r ^^^ columnOf w r :=
  (linear_getByte r).xor v w

theorem columnOf_seWord (w : Word) : columnOf (seWord w) = Rijndael.subWord (columnOf w) := by
  have hbyte : ∀ a, Rijndael.subByte a = entry se a := fun a => (entry_se a).symm
  funext r
  simp only [columnOf, Rijndael.subWord, hbyte]
  fin_cases r <;> exact getByte_makeUint32 _ _ _ _ _

theorem columnOf_rotl (w : Word) : columnOf (rotl 8 w) = Rijndael.rotWord (columnOf w) := by
  have hrotl : rotl 8 w = rotr 8 (rotr 8 (rotr 8 w)) := by
    rw [rotl_eq_rotr _ (by decide), rotr_rotr _ (by decide), rotr_rotr _ (by decide)]
  have hbytes := makeUint32_getByte w
  rw [hrotl, ← hbytes, rotr_8_makeUint32, rotr_8_makeUint32, rotr_8_makeUint32, hbytes]
  funext r
  fin_cases r <;> exact getByte_makeUint32 _ _ _ _ _

theorem columnOf_rc {i : Nat} (h : i < 10) : columnOf (rc.getD i 0) = Rijndael.rcon (i + 1) := by
  revert i
  decide +kernel

-- As far as the words of a key are there, they are the right ones.
def Expanded (key : List UInt8) (x : Nat) (xek : List Word) : Prop :=
  ∀ i < xek.length, columnOf (xek.getD i 0) = Rijndael.keyWord key x i

section

variable {key : List UInt8} {x : Nat} {xek : List Word} (h : Expanded key x xek)

include h

theorem Expanded.append {w : Word} (hw : columnOf w = Rijndael.keyWord key x xek.length) :
    Expanded key x (xek ++ [w]) := by
  intro i hi
  rw [List.length_append, List.length_singleton] at hi
  rw [List.getD_eq_getElem?_getD]
  by_cases hlast : i = xek.length
  . rw [hlast, List.getElem?_append_right (Nat.le_refl _), Nat.sub_self]
    exact hw
  . rw [List.getElem?_append_left (by omega), ← List.getD_eq_getElem?_getD]
    exact h i (by omega)

-- A word that is no first one
theorem Expanded.expandWord {j : Nat} (hx : x = 4 ∨ x = 6 ∨ x = 8) (hle : x ≤ xek.length)
    (hj : xek.length % x = j) (hpos : 0 < j) : Expanded key x (expandWord x xek j) := by
  have hpast := h (xek.length - x) (by omega)
  have hlast := h (xek.length - 1) (by omega)
  have hcond : (6 < x ∧ j = 4) ↔ (x = 8 ∧ j = 4) := by omega
  have hmore : ¬(xek.length < x ∨ x = 0) := by omega
  apply h.append
  funext r
  rw [Rijndael.keyWord, if_neg hmore]
  simp only [hj, Nat.ne_of_gt hpos, if_false, hcond]
  rw [columnOf_xor, hpast]
  split
  . rw [columnOf_seWord, hlast]
  . rw [hlast]

theorem Expanded.expandWords (n : Nat) {s : Nat} (hx : x = 4 ∨ x = 6 ∨ x = 8) (hle : x ≤ xek.length)
    (hs : xek.length % x = s) (hpos : 0 < s) (hn : s + n ≤ x) :
    Expanded key x ((List.range' s n).foldl (Aes.expandWord x) xek) := by
  induction n generalizing s xek with
  | zero => exact h
  | succ n ih =>
    have hlen : (Aes.expandWord x xek s).length = xek.length + 1 := List.length_append
    rw [List.range'_succ, List.foldl_cons]
    by_cases hlast : n = 0
    . subst hlast
      exact h.expandWord hx hle hs hpos
    . apply ih (h.expandWord hx hle hs hpos)
      . omega
      . rw [hlen, Nat.add_mod, hs, Nat.mod_eq_of_lt (show 1 < x by omega),
          Nat.mod_eq_of_lt (by omega)]
      . omega
      . omega

theorem Expanded.expandRound {m : Nat} (hx : x = 4 ∨ x = 6 ∨ x = 8) (hlen : xek.length = (m + 1) * x)
    (hm : m < 10) : Expanded key x (expandRound x xek xek.length) := by
  have hsucc : (m + 1) * x = m * x + x := Nat.succ_mul _ _
  have hpos : 0 < x := by omega
  have hmod : xek.length % x = 0 := by rw [hlen, Nat.mul_mod_left]
  have hdiv : xek.length / x = m + 1 := by rw [hlen, Nat.mul_div_cancel _ hpos]
  have hindex : (xek.length - x) / x = m := by
    rw [hlen, hsucc, Nat.add_sub_cancel, Nat.mul_div_cancel _ hpos]
  have hpast := h (xek.length - x) (by omega)
  have hlast := h (xek.length - 1) (by omega)
  have hmore : ¬(xek.length < x ∨ x = 0) := by omega
  unfold Aes.expandRound
  apply Expanded.expandWords _ _ hx
  . rw [List.length_append]
    omega
  . rw [List.length_append, List.length_singleton, Nat.add_mod, hmod, Nat.zero_add, Nat.mod_mod,
      Nat.mod_eq_of_lt (show 1 < x by omega)]
  . decide
  . omega
  . apply h.append
    funext r
    rw [Rijndael.keyWord, if_neg hmore]
    simp only [hmod, if_true, hdiv]
    rw [columnOf_xor, columnOf_xor, hpast, hindex, columnOf_rc hm, columnOf_seWord, columnOf_rotl,
      hlast, BitVec.xor_assoc, BitVec.xor_comm (Rijndael.rcon _ r)]

theorem Expanded.expandRounds (n : Nat) {m : Nat} (hx : x = 4 ∨ x = 6 ∨ x = 8)
    (hlen : xek.length = (m + 1) * x) (hm : m + n ≤ 10) :
    Expanded key x ((List.range' xek.length n x).foldl (Aes.expandRound x) xek) := by
  induction n generalizing m xek with
  | zero => exact h
  | succ n ih =>
    have hround : (Aes.expandRound x xek xek.length).length = xek.length + x :=
      length_expandRound (by omega) xek xek.length
    rw [List.range'_succ, List.foldl_cons, ← hround]
    apply ih (h.expandRound hx hlen (by omega)) (m := m + 1)
    . rw [hround, hlen, Nat.succ_mul (m + 1)]
    . omega

end

theorem expanded_expandKey (key : List UInt8) {x : Nat} (hx : x = 4 ∨ x = 6 ∨ x = 8) :
    Expanded key x (expandKey key x (x + 6)) := by
  have hbase : Expanded key x ((List.range x).map (loadBe key)) := by
    intro i hi
    rw [List.length_map, List.length_range] at hi
    rw [List.getD_eq_getElem?_getD, List.getElem?_map, List.getElem?_range hi, Rijndael.keyWord,
      if_pos (Or.inl hi)]
    funext r
    exact columnOf_loadBe key i r
  have hlen : ((List.range x).map (loadBe key)).length = x := by
    rw [List.length_map, List.length_range]
  have hcount : 0 + (4 * (x + 6 + 1) - x + (x - 1)) / x ≤ 10 := by
    obtain rfl | rfl | rfl := hx <;> decide
  have hall := hbase.expandRounds _ hx (m := 0) (by omega) hcount
  rwa [hlen] at hall

theorem stateOf_ofKey {key : List UInt8} {x round : Nat} {xek : List Word}
    (h : Expanded key x xek) (hround : 4 * round + 3 < xek.length) :
    stateOf (.ofKey xek (4 * round)) = Rijndael.roundKey key x round := by
  funext r c
  have hword := fun j (hj : j < 4) => h (4 * round + j) (by omega)
  rw [Rijndael.roundKey, ← hword c c.isLt]
  fin_cases c <;> rfl

theorem map_stateOf_innerKeys {key : List UInt8} {x rounds : Nat} {xek : List Word}
    (h : Expanded key x xek) (hlen : 4 * rounds ≤ xek.length) :
    (innerKeys rounds xek).map stateOf
      =
    (List.range' 1 (rounds - 1)).map (Rijndael.roundKey key x) := by
  apply List.ext_getElem
  . simp [innerKeys]
  . intro i hi hi'
    have hlt : i < rounds - 1 := by simpa [innerKeys] using hi
    have hoff : 4 + 4 * i = 4 * (1 + 1 * i) := by omega
    simp only [innerKeys, List.getElem_map, List.getElem_range', hoff]
    exact stateOf_ofKey h (by omega)

theorem KeySchedule.Ok.encrypt_eq {key : List UInt8} {ks : KeySchedule}
    (hx : key.length / 4 = 4 ∨ key.length / 4 = 6 ∨ key.length / 4 = 8)
    (h : ks.Ok (expandKey key (key.length / 4) (key.length / 4 + 6)) (key.length / 4 + 6))
    (cacheLineSize : CacheLineSize) (input : List UInt8) :
    encryptBlock cacheLineSize ks.ek ks.me input = Rijndael.encrypt key input := by
  have hexpanded := expanded_expandKey key hx
  have hlen := length_expandKey (show 0 < key.length / 4 by omega) key (key.length / 4 + 6)
  have hle : 4 * (key.length / 4 + 6) + 3
      < (expandKey key (key.length / 4) (key.length / 4 + 6)).length := by
    rw [hlen]
    obtain h | h | h := hx <;> rw [h] <;> decide
  have hfirst := @stateOf_ofKey _ _ 0 _ hexpanded (by omega)
  rw [h.me, encryptBlock_eq cacheLineSize h.length_ek h.even h.pos, h.first_ek, h.inner_ek,
    ← store_stateOf, maps_stateOf.encrypt, stateOf_load, hfirst, stateOf_ofKey hexpanded hle,
    map_stateOf_innerKeys hexpanded (by omega)]
  rfl

/--
The tables compute what the standard defines, for keys of all lengths.
-/
theorem encryptN_eq_rijndael {key : List UInt8}
    (hkey : key.length = 16 ∨ key.length = 24 ∨ key.length = 32) (cacheLineSize : CacheLineSize) :
    ∃ ks, keySchedule key = .ok ks ∧ ∀ blocks input,
      encryptN cacheLineSize ks.ek ks.me blocks input
        = BlockMode.blockwise 16 (Rijndael.encrypt key) blocks input := by
  obtain ⟨ks, hks, hok⟩ := keySchedule_ok hkey
  refine ⟨ks, hks, ?_⟩
  intro blocks
  induction blocks with
  | zero => exact fun _ => rfl
  | succ blocks ih =>
    intro input
    rw [encryptN, hok.encrypt_eq (by omega), ih, BlockMode.blockwise]

theorem encryptN_eq_rijndael_zeros :
    ∃ ks, keySchedule (List.replicate 32 0) = .ok ks ∧ ∀ blocks input,
      encryptN 64 ks.ek ks.me blocks input
        = BlockMode.blockwise 16 (Rijndael.encrypt (List.replicate 32 0)) blocks input :=
  encryptN_eq_rijndael (Or.inr (Or.inr rfl)) 64

end Aes
end Lax
