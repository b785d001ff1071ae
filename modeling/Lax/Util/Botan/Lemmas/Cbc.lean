import Lax.Util.Botan.Impl.Cbc
import Mathlib.Tactic.Common

/-!
This module contains that the CBC decryption of the crypto library is the one that goes block by
block, and that its unpadding is the one with branches.
-/

namespace Lax

open BlockMode

/-!
### Masks
-/

namespace Ct

variable {w : Nat}

theorem getLsbD_foldl (x : BitVec w) (n j : Nat) :
    ((List.range n).foldl (fun (r : BitVec w) k => r ||| (r >>> (2 ^ k))) x).getLsbD j
      = (List.range (2 ^ n)).any fun d => x.getLsbD (j + d) := by
  induction n generalizing j with
  | zero => simp
  | succ n ih =>
    rw [List.range_succ, List.foldl_append, List.foldl_cons, List.foldl_nil, BitVec.getLsbD_or,
      BitVec.getLsbD_ushiftRight, ih, ih, Nat.pow_succ, Nat.mul_two, List.range_add, List.any_append,
      List.any_map]
    congr 2
    funext d
    rw [Function.comp_apply, ← Nat.add_assoc, Nat.add_comm (2 ^ n) j]

-- The widths are powers of two.
theorem expandMask_eq (hw : 2 ^ Nat.log2 w = w) (x : BitVec w) :
    expandMask x = if x = 0#w then 0#w else BitVec.allOnes w := by
  unfold expandMask
  dsimp only
  rw [BitVec.and_one_eq_setWidth_ofBool_getLsbD, getLsbD_foldl, hw]
  by_cases hx : x = 0#w
  . have hany : ((List.range w).any fun d => x.getLsbD (0 + d)) = false := by
      simp [hx]
    rw [hany, if_pos hx]
    have hfalse : (BitVec.ofBool false).setWidth w = 0#w := by
      simp
    rw [hfalse, BitVec.zero_sub, BitVec.neg_one_eq_allOnes, BitVec.not_allOnes]
  . have hany : ((List.range w).any fun d => x.getLsbD (0 + d)) = true := by
      rw [List.any_eq_true]
      by_contra hnone
      push Not at hnone
      apply hx
      apply BitVec.eq_of_getLsbD_eq
      intro i hi
      have := hnone i (List.mem_range.mpr hi)
      simpa using this
    rw [hany, if_neg hx]
    have htrue : (BitVec.ofBool true).setWidth w = 1#w := by
      apply BitVec.eq_of_toNat_eq
      simp
    rw [htrue, BitVec.sub_self, BitVec.not_zero]

theorem expandMask_ofBool (hw : 2 ^ Nat.log2 w = w) (b : Bool) :
    expandMask (ofBool b : BitVec w) = if b then BitVec.allOnes w else 0#w := by
  have hpos : 0 < w := by
    rw [← hw]
    exact Nat.two_pow_pos _
  rw [expandMask_eq hw]
  cases b
  . simp [ofBool]
  . have hne : (ofBool true : BitVec w) ≠ 0#w := by
      intro h
      have hbit : (ofBool true : BitVec w).getLsbD 0 = (0#w).getLsbD 0 := by rw [h]
      simp [ofBool, hpos] at hbit
    rw [if_neg hne, if_pos rfl]

theorem isEqual_eq (hw : 2 ^ Nat.log2 w = w) (x y : BitVec w) :
    isEqual x y = if x = y then BitVec.allOnes w else 0#w := by
  rw [isEqual, isZero, expandMask_eq hw]
  by_cases h : x = y
  . rw [if_pos (BitVec.xor_eq_zero_iff.mpr h), if_pos h, BitVec.not_zero]
  . rw [if_neg (h ∘ BitVec.xor_eq_zero_iff.mp), if_neg h, BitVec.not_allOnes]

theorem conditionalCopyMem_eq (hw : 2 ^ Nat.log2 w = w) (value from0 from1 : BitVec w) :
    conditionalCopyMem value from0 from1 = if value = 0#w then from1 else from0 := by
  rw [conditionalCopyMem, expandMask_eq hw, select]
  split
  . simp
  . simp

end Ct

namespace Pkcs7Padding

-- The mask of one byte that is compared, and what collects the masks.
theorem mask_eq_zero_iff (other last : BitVec 8) (inside : Bool) :
    ((~~~Ct.isEqual other last) &&& Ct.expandMask (Ct.ofBool inside)).setWidth 64 = 0#64
      ↔ ¬(inside = true ∧ other ≠ last) := by
  rw [Ct.isEqual_eq rfl, Ct.expandMask_ofBool rfl]
  by_cases h : other = last <;> cases inside <;> simp [h]

theorem foldl_or_eq_zero_iff (f : Nat → BitVec 64) (is : List Nat) (bad : BitVec 64) :
    is.foldl (fun bad i => bad ||| f i) bad = 0#64 ↔ bad = 0#64 ∧ ∀ i ∈ is, f i = 0#64 := by
  induction is generalizing bad with
  | nil => simp
  | cons i is ih =>
    rw [List.foldl_cons, ih, BitVec.or_eq_zero_iff, List.forall_mem_cons, and_assoc]

-- The two loops look at the same bytes, the one of the source from the other end.
theorem forall_inside_iff (block : List UInt8) (last : UInt8) (pad : Nat) :
    (∀ i ∈ (List.range' 1 (block.length - 2)).reverse,
        ¬(decide (i ≥ pad) = true ∧ (block.getD i 0).toBitVec ≠ last.toBitVec))
      ↔ ((List.range (block.length - 2)).any fun j =>
          decide (pad ≤ j + 1) && block.getD (j + 1) 0 != last) = false := by
  have hbyte : ∀ x : UInt8, x.toBitVec ≠ last.toBitVec ↔ x ≠ last := by
    intro x
    rw [Ne, UInt8.toBitVec_inj]
  rw [List.any_eq_false]
  simp only [List.mem_reverse, List.mem_range'_1, List.mem_range, Bool.and_eq_true, bne_iff_ne,
    decide_eq_true_eq, hbyte]
  constructor
  . intro h j hj
    exact h (j + 1) ⟨by omega, by omega⟩
  . intro h i hi
    obtain ⟨j, rfl⟩ := Nat.exists_eq_add_of_le' hi.1
    exact h j (by omega)

theorem unpad_eq (block : List UInt8) (hlen : 2 ≤ block.length) (hlt : block.length < 2 ^ 64) :
    (unpad block).toNat = BlockMode.unpad block := by
  generalize hlast : block.getD (block.length - 1) 0 = last
  have hvalue : last.toBitVec.toNat = last.toNat := rfl
  have hlastlt := last.toNat_lt
  have hsize : (BitVec.ofNat 64 block.length).toNat = block.length := by
    rw [BitVec.toNat_ofNat, Nat.mod_eq_of_lt hlt]
  have hcopy := Ct.conditionalCopyMem_eq (w := 64) rfl
  have hmask := Ct.expandMask_ofBool (w := 64) rfl
  have hallOnes : BitVec.allOnes 64 ≠ 0#64 := by decide
  unfold unpad BlockMode.unpad
  simp only [hcopy, hmask, hlast, hvalue, foldl_or_eq_zero_iff, mask_eq_zero_iff]
  by_cases hbig : block.length < last.toNat
  . simp only [hbig, decide_true, if_true, Bool.true_or, hallOnes, false_and, if_false,
      hsize]
  . have hpad : (BitVec.ofNat 64 block.length - last.toBitVec.setWidth 64).toNat
        = block.length - last.toNat := by
      rw [BitVec.toNat_sub, BitVec.toNat_setWidth, hsize, hvalue]
      omega
    have hscan := forall_inside_iff block last (block.length - last.toNat)
    simp only [hbig, decide_false, Bool.false_eq_true, if_false, true_and, Bool.false_or,
      hpad, hscan]
    cases hbad : (List.range (block.length - 2)).any fun j =>
        decide (block.length - last.toNat ≤ j + 1) && block.getD (j + 1) 0 != last
    . rw [if_pos rfl, hpad, if_neg Bool.false_ne_true]
    . rw [if_neg Bool.noConfusion, hsize, if_pos rfl]

end Pkcs7Padding

/-!
### Encryption
-/

namespace CbcEncryption

variable {bs : Nat} (c : BlockCipher bs) (key : List UInt8)

theorem loop_eq (blocks : Nat) (state buf : List UInt8) (h : blocks * bs ≤ buf.length) :
    loop bs (blockwise bs (c.encrypt key)) blocks state buf
      =
    (encryptProcess c key blocks state buf).1 := by
  induction blocks generalizing state buf with
  | zero => rfl
  | succ blocks ih =>
    have hblock : (xorBuf (buf.take bs) state).length = bs :=
      (length_xorBuf _ state).trans (length_take_bs h)
    rw [loop, encryptProcess]
    dsimp only
    rw [blockwise_one _ hblock, ih _ _ (le_length_drop_bs h)]

theorem process_eq {blocks : Nat} {buf : List UInt8} (state : List UInt8)
    (h : blocks * bs ≤ buf.length) :
    process bs (blockwise bs (c.encrypt key)) blocks state buf
      =
    encryptProcess c key blocks state buf := by
  unfold process
  cases blocks with
  | zero => rfl
  | succ blocks =>
    dsimp only
    rw [if_pos (Nat.zero_lt_succ _), loop_eq c key _ _ _ h, Nat.add_sub_cancel, Slice.read,
      ← encryptProcess_snd c key _ _ _ h]

theorem finish_eq {last : List UInt8} (state : List UInt8) (h : last.length < bs) (hbs : bs < 256) :
    finish bs (blockwise bs (c.encrypt key)) state last = some (encryptFinish c key state last) := by
  have hpad : (last ++ padding bs last.length).length = bs := by
    rw [List.length_append, length_padding _ hbs]
    omega
  have hadd : Pkcs7Padding.addPadding last last.length bs = last ++ padding bs last.length := rfl
  unfold finish
  dsimp only
  rw [Nat.mod_eq_of_lt h, hadd, hpad, if_neg (by rw [Nat.mod_self]; exact not_not.mpr rfl),
    Nat.div_self (by omega), process_eq c key state (by omega)]
  rfl

end CbcEncryption

/-!
### Decryption in batches
-/

namespace CbcDecryption

variable {bs : Nat} (c : BlockCipher bs) (key : List UInt8)

theorem batch_eq {blocks : Nat} {buf : List UInt8} (state : List UInt8) (hpos : 0 < bs)
    (hblocks : 0 < blocks) (h : blocks * bs ≤ buf.length) :
    batch bs (blockwise bs (c.decrypt key)) state buf (blocks * bs) = decryptProcess c key blocks state buf := by
  obtain ⟨blocks, rfl⟩ := Nat.exists_eq_add_of_le' hblocks
  have hsub : (blocks + 1) * bs - bs = blocks * bs := by
    rw [Nat.succ_mul, Nat.add_sub_cancel]
  have htake := length_take_bs h
  have hdec := c.length_decrypt key _ htake
  have hxor : (xorBuf (c.decrypt key (buf.take bs)) state).length = bs := by
    rw [length_xorBuf, hdec]
  have hrest := decryptProcess_eq_xorBuf c key blocks _ _ htake (le_length_drop_bs h)
  rw [List.take_append_drop] at hrest
  have hsnd := decryptProcess_snd c key blocks state buf
  unfold batch
  dsimp only
  rw [Nat.mul_div_cancel _ hpos, blockwise_take _ h, List.take_left' hdec, List.drop_left' hdec,
    List.take_left' hxor, List.drop_left' hxor, hsub, ← hrest, Slice.read, ← hsnd]
  rfl

theorem process_eq {parallelism blocks : Nat} {state buf : List UInt8} (hpos : 0 < bs)
    (hpar : 0 < parallelism) (h : blocks * bs ≤ buf.length) :
    process bs (blockwise bs (c.decrypt key)) parallelism blocks state buf = decryptProcess c key blocks state buf := by
  -- What is left gets smaller by the blocks of the batch.
  induction blocks using Nat.strongRecOn generalizing state buf with
  | ind blocks ih =>
    rw [process]
    split
    . next hdone =>
      have hzero : blocks = 0 := by omega
      subst hzero
      rfl
    . next hmore =>
      have htoProc : min (bs * blocks) (parallelBytes bs parallelism)
          = min blocks (parallelism * 4) * bs := by
        rw [parallelBytes, Nat.mul_right_comm, Nat.mul_comm bs, ← Nat.mul_min_mul_right]
      rw [htoProc]
      dsimp only
      rw [Nat.mul_div_cancel _ hpos]
      generalize hn : min blocks (parallelism * 4) = n
      obtain ⟨m, rfl⟩ : ∃ m, blocks = n + m := Nat.exists_eq_add_of_le (by omega)
      have hle : n * bs ≤ buf.length := by
        rw [Nat.add_mul] at h
        omega
      have hrest : m * bs ≤ (buf.drop (n * bs)).length := by
        rw [Nat.add_mul] at h
        rw [List.length_drop]
        omega
      have hbatch := batch_eq c key state hpos (by omega) hle
      rw [hbatch, Nat.add_sub_cancel_left, ih m (by omega) hrest, decryptProcess_add]

-- The last block, whose padding comes off.
theorem decryptFinish_eq {state block : List UInt8} (hbs : 2 ≤ bs) (hlt : bs < 256)
    (hblock : block.length = bs) :
    decryptFinish c key state block
      =
    let plain := (decryptProcess c key 1 state block).1
    let padBytes := bs - (Pkcs7Padding.unpad plain).toNat
    if padBytes = 0 then none else some (plain.take (bs - padBytes)) := by
  have hlen := length_decryptProcess c key 1 state block (by omega)
  rw [Nat.one_mul] at hlen
  have hle := unpad_le (decryptProcess c key 1 state block).1
  have hunpad := Pkcs7Padding.unpad_eq (decryptProcess c key 1 state block).1 (by omega) (by omega)
  unfold decryptFinish
  dsimp only
  rw [hunpad]
  by_cases hbad : BlockMode.unpad (decryptProcess c key 1 state block).1 = bs
  . rw [if_pos hbad, if_pos (by omega)]
  . rw [if_neg hbad, if_neg (by omega)]
    congr 2
    omega

theorem finish_eq_decryptMessage (parallelism : Nat) (state buffer : List UInt8) (hbs : 2 ≤ bs)
    (hlt : bs < 256) (hpar : 0 < parallelism) :
    finish bs (blockwise bs (c.decrypt key)) parallelism state buffer
      =
    if buffer.length = 0 ∨ buffer.length % bs ≠ 0 then
      none
    else
      decryptMessage c key state buffer := by
  have hpos : 0 < bs := by omega
  unfold finish
  dsimp only
  split
  . rfl
  . next hwhole =>
    rw [not_or, not_not] at hwhole
    obtain ⟨blocks, hblocks⟩ : ∃ blocks, buffer.length = (blocks + 1) * bs := by
      obtain ⟨n, hn⟩ := Nat.dvd_of_mod_eq_zero hwhole.2
      cases n with
      | zero => omega
      | succ n => exact ⟨n, by rw [hn, Nat.mul_comm]⟩
    have hsucc : (blocks + 1) * bs = blocks * bs + bs := Nat.succ_mul _ _
    have hle : blocks * bs ≤ buffer.length := by omega
    have hlast : (buffer.drop (blocks * bs)).length = bs := by
      rw [List.length_drop]
      omega
    have hfst := length_decryptProcess c key blocks state buffer hle
    have hplain : (decryptProcess c key 1 (decryptProcess c key blocks state buffer).2
        (buffer.drop (blocks * bs))).1.length = bs := by
      rw [length_decryptProcess c key 1 _ _ (by omega), Nat.one_mul]
    have hread : ∀ plain : List UInt8, plain.length = bs →
        Slice.read ((decryptProcess c key blocks state buffer).1 ++ plain) (buffer.length - bs) bs
          = plain := by
      intro plain hlen
      rw [Slice.read, List.drop_left' (by omega), List.take_of_length_le (by omega)]
    unfold decryptMessage
    rw [length_div_sub_one hpos hblocks]
    dsimp only
    rw [decryptFinish_eq c key hbs hlt hlast, hblocks, Nat.mul_div_cancel _ hpos, ← hblocks,
      process_eq c key hpos hpar (by omega), decryptProcess_add, hread _ hplain]
    dsimp only
    split
    . rfl
    . rw [Option.map_some, List.take_append, List.take_of_length_le (by omega)]
      congr 3
      omega

end CbcDecryption

end Lax
