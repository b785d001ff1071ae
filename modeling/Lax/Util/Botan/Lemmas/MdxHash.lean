import Lax.Util.Botan.Impl.MdxHash

/-!
This module contains that a message may be hashed in any pieces: the digest is that of the whole
padded message.
-/

namespace Lax
namespace MdxHash

open Absorb

theorem length_storeBe (input : UInt64) : (storeBe input).length = 8 := rfl

theorem length_bufferInsert (buf input : List UInt8) {off : Nat} (h : off ≤ buf.length) :
    (bufferInsert buf off input).length = buf.length := by
  apply Slice.length_write
  rw [List.length_take]
  omega

theorem take_bufferInsert {buf input : List UInt8} {off k : Nat} (h : off ≤ buf.length)
    (hk : k ≤ input.length) (hroom : off + k ≤ buf.length) :
    (bufferInsert buf off input).take (off + k) = buf.take off ++ input.take k := by
  have hlen : (buf.take off).length = off := List.length_take_of_le h
  unfold bufferInsert Slice.write
  dsimp only
  rw [List.take_append_of_le_length (by simp only [List.length_append, List.length_take]; omega),
    List.take_append, List.take_of_length_le (by omega), List.take_take, hlen]
  congr 2
  omega

variable {σ : Type} (p : MdxParams) (compress : σ → List UInt8 → σ)

-- The bytes that wait in the buffer.
structure Waiting (h : MdxHash σ) (bytes : List UInt8) : Prop where
  length_buffer : h.buffer.length = p.blockLen
  position : h.position = bytes.length
  take_buffer : h.buffer.take h.position = bytes
  lt : bytes.length < p.blockLen

variable {p compress} {h : MdxHash σ} {bytes : List UInt8}

-- Either nothing waits after it, or there is nothing to compress.
theorem waiting_fillBuffer (hw : Waiting p h bytes) (input : List UInt8) :
    let r := fillBuffer p compress h input
    ∃ bytes', Waiting p r.1 bytes' ∧ r.1.count = h.count
      ∧ (bytes' = [] ∨ bytes'.length + r.2.length < p.blockLen)
      ∧ whole p.blockLen compress h.digest (bytes ++ input)
        = whole p.blockLen compress r.1.digest (bytes' ++ r.2)
      ∧ rest p.blockLen (bytes ++ input) = rest p.blockLen (bytes' ++ r.2) := by
  obtain ⟨hlen, hposition, htake, hlt⟩ := hw
  have hpos : 0 < p.blockLen := by omega
  unfold fillBuffer
  by_cases hempty : h.position = 0
  . rw [if_neg (not_not_intro hempty)]
    refine ⟨bytes, ⟨hlen, hposition, htake, hlt⟩, rfl, Or.inl ?_, rfl, rfl⟩
    exact List.length_eq_zero_iff.mp (hposition.symm.trans hempty)
  . rw [if_pos hempty]
    dsimp only
    have hle : h.position ≤ h.buffer.length := by omega
    rw [length_bufferInsert _ _ hle, hlen]
    by_cases hfull : h.position + input.length ≥ p.blockLen
    . have hsum : h.position + (p.blockLen - bytes.length) = p.blockLen := by omega
      have hblock : (bufferInsert h.buffer h.position input).take p.blockLen
          = bytes ++ input.take (p.blockLen - bytes.length) := by
        have hinsert := @take_bufferInsert h.buffer input h.position (p.blockLen - bytes.length) hle
          (by omega) (by omega)
        rwa [hsum, htake] at hinsert
      have happend : (bytes ++ input).take p.blockLen
          = bytes ++ input.take (p.blockLen - bytes.length) := by
        rw [List.take_append, List.take_of_length_le (by omega)]
      have hdrop : (bytes ++ input).drop p.blockLen = input.drop (p.blockLen - bytes.length) := by
        rw [List.drop_append, List.drop_eq_nil_of_le (by omega), List.nil_append]
      have hlong : p.blockLen ≤ (bytes ++ input).length := by
        rw [List.length_append]
        omega
      rw [if_pos hfull]
      refine ⟨[], ⟨?_, rfl, List.take_zero, hpos⟩, rfl, Or.inl rfl, ?_, ?_⟩
      . exact (length_bufferInsert _ _ hle).trans hlen
      . rw [whole_of_le compress hpos hlong, happend, hdrop, List.nil_append, ← hposition]
        dsimp only [compressN, blocks]
        rw [hblock, hposition]
      . rw [rest_of_le hpos hlong, hdrop, hposition]
        rfl
    . rw [if_neg hfull]
      have hshort : bytes.length + input.length < p.blockLen := by omega
      refine ⟨bytes, ⟨?_, hposition, ?_, hlt⟩, rfl, Or.inr hshort, rfl, rfl⟩
      . exact (length_bufferInsert _ _ hle).trans hlen
      . have hinsert := @take_bufferInsert h.buffer input h.position 0 hle (by omega) (by omega)
        rwa [Nat.add_zero, List.take_zero, List.append_nil, htake] at hinsert

variable (p compress) in
-- What has been hashed so far.
structure Fed (init : σ) (msg : List UInt8) (h : MdxHash σ) : Prop where
  digest : h.digest = whole p.blockLen compress init msg
  waiting : Waiting p h (rest p.blockLen msg)
  count : h.count = UInt64.ofNat msg.length

theorem fed_clear (init : σ) : Fed p compress init [] (clear p init) := by
  have hpos : 0 < p.blockLen := Nat.zero_lt_of_lt p.countSize_lt_blockLen
  have hrest : rest p.blockLen ([] : List UInt8) = [] := rest_of_lt hpos
  refine ⟨(whole_of_lt compress hpos init).symm, ?_, rfl⟩
  rw [hrest]
  exact ⟨List.length_replicate, rfl, List.take_zero, hpos⟩

theorem Fed.addData {init : σ} {msg : List UInt8} (hfed : Fed p compress init msg h)
    (input : List UInt8) :
    Fed p compress init (msg ++ input) (MdxHash.addData p compress h input) := by
  obtain ⟨hdigest, hwaiting, hcount⟩ := hfed
  have hpos : 0 < p.blockLen := Nat.zero_lt_of_lt p.countSize_lt_blockLen
  obtain ⟨hwhole, hrest⟩ := whole_append compress hpos init msg input
  have hfill := @waiting_fillBuffer _ p compress
    { h with count := h.count + UInt64.ofNat input.length } _
    ⟨hwaiting.length_buffer, hwaiting.position, hwaiting.take_buffer, hwaiting.lt⟩ input
  unfold MdxHash.addData
  dsimp only at hfill ⊢
  generalize fillBuffer p compress { h with count := h.count + UInt64.ofNat input.length } input = r
    at hfill
  obtain ⟨h', input'⟩ := r
  dsimp only at hfill ⊢
  obtain ⟨bytes', ⟨hlen', hposition', htake', hlt'⟩, hcount', hcase, hwhole', hrest'⟩ := hfill
  -- Whatever is compressed now comes from the input.
  have hsplit : whole p.blockLen compress h'.digest (bytes' ++ input')
        = compressN p compress h'.digest input' (input'.length / p.blockLen)
      ∧ rest p.blockLen (bytes' ++ input')
        = bytes' ++ input'.drop (input'.length / p.blockLen * p.blockLen) := by
    obtain rfl | hshort := hcase
    . exact ⟨rfl, rfl⟩
    . have hlt : (bytes' ++ input').length < p.blockLen := by rwa [List.length_append]
      rw [whole_of_lt compress hlt, rest_of_lt hlt, Nat.div_eq_of_lt (by omega), Nat.zero_mul]
      exact ⟨rfl, rfl⟩
  have hmod := Nat.div_add_mod' input'.length p.blockLen
  have hmodlt := length_rest_lt hpos (bytes' ++ input')
  have htail : (input'.drop (input'.length / p.blockLen * p.blockLen)).length
      = input'.length % p.blockLen := by
    rw [List.length_drop]
    omega
  have hle : h'.position ≤ h'.buffer.length := by omega
  rw [hsplit.2, List.length_append, htail] at hmodlt
  refine ⟨?_, ?_, ?_⟩
  . rw [hwhole, ← hdigest, hwhole', hsplit.1, hlen']
  . rw [hrest, hrest', hsplit.2, hlen']
    refine ⟨?_, ?_, ?_, ?_⟩
    . exact (length_bufferInsert _ _ hle).trans hlen'
    . rw [List.length_append, htail, hposition']
    . dsimp only
      rw [take_bufferInsert hle (by omega) (by omega), htake', List.take_of_length_le (by omega)]
    . rwa [List.length_append, htail]
  . dsimp only
    rw [hcount', hcount, List.length_append, UInt64.ofNat_add]

theorem Fed.foldl {init : σ} {msg : List UInt8} (hfed : Fed p compress init msg h)
    (pieces : List (List UInt8)) :
    Fed p compress init (msg ++ pieces.flatten)
      (pieces.foldl (MdxHash.addData p compress) h) := by
  induction pieces generalizing msg h with
  | nil =>
    rw [List.flatten_nil, List.append_nil]
    exact hfed
  | cons piece pieces ih =>
    rw [List.flatten_cons, ← List.append_assoc]
    exact ih (hfed.addData piece)

/-!
### Padding
-/

variable (p)

def marker : UInt8 :=
  if p.bigBitEndian then 0x80 else 0x01

def countBytes (len : Nat) : List UInt8 :=
  let bitCount := UInt64.ofNat len * 8
  if p.bigByteEndian then storeBe bitCount else storeLe bitCount

-- The zeros that put the count at the end of a block, with room for all of its bytes.
def zerosLen (len : Nat) : Nat :=
  p.countSize - 8 + (2 * p.blockLen - 1 - p.countSize - len % p.blockLen) % p.blockLen

def padded (msg : List UInt8) : List UInt8 :=
  msg ++ marker p :: (List.replicate (zerosLen p msg.length) 0 ++ countBytes p msg.length)

theorem length_countBytes (len : Nat) : (countBytes p len).length = 8 := by
  unfold countBytes
  dsimp only
  split <;> rfl

variable {p}

theorem writeCount_eq (hcount : h.count = UInt64.ofNat bytes.length) {buffer : List UInt8}
    (hlen : buffer.length = p.blockLen) :
    writeCount p h buffer = buffer.take (p.blockLen - 8) ++ countBytes p bytes.length := by
  have hsize := p.le_countSize
  have hlt := p.countSize_lt_blockLen
  have hout : buffer.length - p.countSize + p.countSize - 8 = p.blockLen - 8 := by omega
  unfold writeCount
  dsimp only
  rw [hout, hcount]
  unfold Slice.write
  rw [List.drop_eq_nil_of_le, List.append_nil]
  . rfl
  . have hcountLen := length_countBytes p bytes.length
    unfold countBytes at hcountLen
    dsimp only at hcountLen
    rw [hcountLen]
    omega

theorem blocks_one (s : σ) {xs : List UInt8} (h : xs.length = p.blockLen) :
    compressN p compress s xs 1 = compress s xs := by
  unfold compressN blocks blocks
  rw [List.take_of_length_le (by omega)]

theorem whole_block (hpos : 0 < p.blockLen) (s : σ) {xs ys : List UInt8}
    (h : xs.length = p.blockLen) :
    whole p.blockLen compress s (xs ++ ys) = whole p.blockLen compress (compress s xs) ys := by
  rw [whole_of_le compress hpos (by rw [List.length_append]; omega), List.take_left' h,
    List.drop_left' h]

theorem whole_last (hpos : 0 < p.blockLen) (s : σ) {xs : List UInt8} (h : xs.length = p.blockLen) :
    whole p.blockLen compress s xs = compress s xs := by
  have hblock := @whole_block _ p compress hpos s xs [] h
  have hnil : ([] : List UInt8).length < p.blockLen := hpos
  rwa [List.append_nil, whole_of_lt compress hnil] at hblock

theorem Fed.finalResult {init : σ} {msg : List UInt8} (hfed : Fed p compress init msg h) :
    MdxHash.finalResult p compress h = whole p.blockLen compress init (padded p msg) := by
  obtain ⟨hdigest, ⟨hlen, hposition, htake, hlt⟩, hcount⟩ := hfed
  have hsize := p.le_countSize
  have hroom := p.countSize_lt_blockLen
  have hpos : 0 < p.blockLen := by omega
  have hmod : (rest p.blockLen msg).length = msg.length % p.blockLen := length_rest msg
  have hmarked : Slice.write (Slice.write h.buffer h.position [marker p]) (h.position + 1)
        (List.replicate (p.blockLen - (h.position + 1)) 0)
      = rest p.blockLen msg
        ++ marker p :: List.replicate (p.blockLen - (h.position + 1)) 0 := by
    have hwrite := Slice.write_write h.buffer [marker p]
      (List.replicate (p.blockLen - (h.position + 1)) 0) h.position
      (by rw [List.length_singleton]; omega)
    rw [List.length_singleton] at hwrite
    rw [hwrite, Slice.write, htake, List.drop_eq_nil_of_le, List.append_nil]
    . rfl
    . simp only [List.length_append, List.length_singleton, List.length_replicate]
      omega
  have hmarkedLen : (rest p.blockLen msg
      ++ marker p :: List.replicate (p.blockLen - (h.position + 1)) 0).length = p.blockLen := by
    simp only [List.length_append, List.length_cons, List.length_replicate]
    omega
  have hwriteLen : (Slice.write h.buffer h.position [marker p]).length = p.blockLen := by
    rw [Slice.length_write _ _ _ (by rw [List.length_singleton]; omega), hlen]
  rw [padded, (whole_append compress hpos init msg _).1, ← hdigest]
  unfold MdxHash.finalResult
  dsimp only
  rw [← marker, hwriteLen, hmarked, hmarkedLen]
  have hcountLen := length_countBytes p msg.length
  by_cases hfull : h.position ≥ p.blockLen - p.countSize
  . -- The marker and the count are in different blocks.
    have hzeros : zerosLen p msg.length = p.blockLen - (h.position + 1) + (p.blockLen - 8) := by
      unfold zerosLen
      rw [@Nat.mod_eq_of_lt (2 * p.blockLen - 1 - p.countSize - msg.length % p.blockLen) _
        (by omega)]
      omega
    have hsplit : rest p.blockLen msg
          ++ marker p :: (List.replicate (zerosLen p msg.length) 0 ++ countBytes p msg.length)
        = rest p.blockLen msg ++ marker p :: List.replicate (p.blockLen - (h.position + 1)) 0
          ++ (List.replicate (p.blockLen - 8) 0 ++ countBytes p msg.length) := by
      rw [hzeros, ← List.replicate_append_replicate]
      simp only [List.append_assoc, List.cons_append]
    rw [if_pos hfull, hsplit, whole_block hpos _ hmarkedLen]
    dsimp only
    rw [writeCount_eq hcount List.length_replicate, List.take_replicate, Nat.min_eq_left (by omega),
      blocks_one _ hmarkedLen, blocks_one _ (by simp; omega), whole_last hpos _ (by simp; omega)]
  . have hzeros : zerosLen p msg.length = p.blockLen - 8 - (h.position + 1) := by
      have hsub : 2 * p.blockLen - 1 - p.countSize - msg.length % p.blockLen
          = p.blockLen - 1 - p.countSize - msg.length % p.blockLen + p.blockLen := by omega
      unfold zerosLen
      rw [hsub, Nat.add_mod_right, Nat.mod_eq_of_lt (by omega)]
      omega
    have htakeMarked : (rest p.blockLen msg
          ++ marker p :: List.replicate (p.blockLen - (h.position + 1)) 0).take (p.blockLen - 8)
        = rest p.blockLen msg ++ marker p :: List.replicate (zerosLen p msg.length) 0 := by
      have hcons : p.blockLen - 8 - (rest p.blockLen msg).length
          = zerosLen p msg.length + 1 := by omega
      rw [List.take_append, List.take_of_length_le (by omega), hcons, List.take_succ_cons,
        List.take_replicate, Nat.min_eq_left (by omega)]
    have hwhole : (rest p.blockLen msg ++ marker p :: List.replicate (zerosLen p msg.length) 0
        ++ countBytes p msg.length).length = p.blockLen := by
      simp only [List.length_append, List.length_cons, List.length_replicate]
      omega
    rw [if_neg hfull]
    dsimp only
    rw [writeCount_eq hcount hmarkedLen, htakeMarked, blocks_one _ hwhole]
    rw [List.append_assoc, List.cons_append] at hwhole ⊢
    rw [whole_last hpos _ hwhole]

end MdxHash
end Lax
