import Lax.Net.Session.Impl.SegmentBuffer
import Lax.Net.Modifier.Lemmas.Basic

/-!
This module contains the proof that a segment buffer is a queue of bytes.
-/

namespace Lax
namespace SegmentBuffer

variable {length : Nat}

-- `full` segments, one that is not, and `spare` ones.
structure Filled (length : Nat) (b : SegmentBuffer) (full : List Seg) (last : Seg) (spare : Nat) :
    Prop where
  segs : b.segs = full ++ last :: List.replicate spare []
  length_eq : ∀ seg ∈ full, seg.length = length
  length_lt : last.length < length
  pos : b.pos = full.length * length + last.length

def Represents (length : Nat) (b : SegmentBuffer) (bytes : List UInt8) : Prop :=
  b = empty ∧ bytes = []
    ∨ ∃ full last, Filled length b full last 0 ∧ bytes = full.flatten ++ last

theorem length_flatten_of_forall {full : List Seg} (h : ∀ seg ∈ full, seg.length = length) :
    full.flatten.length = full.length * length := by
  induction full with
  | nil => simp
  | cons seg full ih =>
    rw [List.forall_mem_cons] at h
    rw [List.flatten_cons, List.length_append, List.length_cons, h.1, ih h.2, Nat.succ_mul,
      Nat.add_comm]

namespace Filled

variable {b : SegmentBuffer} {full : List Seg} {last : Seg} {spare : Nat}
  (h : Filled length b full last spare)

include h

theorem length_bytes : (full.flatten ++ last).length = b.pos := by
  rw [List.length_append, length_flatten_of_forall h.length_eq, h.pos]

theorem getWriteSeg_eq : b.getWriteSeg length = full.length := by
  have hpos : 0 < length := Nat.lt_of_le_of_lt (Nat.zero_le _) h.length_lt
  unfold getWriteSeg
  rw [h.pos, Nat.add_comm, Nat.add_mul_div_right _ _ hpos, Nat.div_eq_of_lt h.length_lt,
    Nat.zero_add]

theorem getElem_writeSeg : b.segs[full.length]? = some last := by
  rw [h.segs, List.getElem?_append_right (Nat.le_refl _), Nat.sub_self]
  rfl

theorem set_writeSeg (seg : Seg) :
    b.segs.set full.length seg = full ++ seg :: List.replicate spare [] := by
  rw [h.segs, List.set_append_right _ _ (Nat.le_refl _), Nat.sub_self]
  rfl

theorem length_segs : b.segs.length = full.length + 1 + spare := by
  rw [h.segs]
  simp
  omega

-- The segment and the place in it at which a byte is.
theorem getElem?_bytes {i : Nat} (hi : i < b.pos) :
    (b.segs[i / length]?.bind fun seg => seg[i % length]?) = (full.flatten ++ last)[i]? := by
  rw [h.pos] at hi
  have hlt := h.length_lt
  have hfull := h.length_eq
  rw [h.segs]
  clear h
  induction full generalizing i with
  | nil =>
    have hsmall : i < last.length := by
      simpa using hi
    rw [Nat.div_eq_of_lt (by omega), Nat.mod_eq_of_lt (by omega)]
    rfl
  | cons seg full ih =>
    rw [List.forall_mem_cons] at hfull
    rw [List.length_cons, Nat.succ_mul] at hi
    rw [List.flatten_cons, List.append_assoc]
    by_cases hfirst : i < length
    . rw [Nat.div_eq_of_lt hfirst, Nat.mod_eq_of_lt hfirst]
      apply Eq.symm
      apply List.getElem?_append_left
      rw [hfull.1]
      exact hfirst
    . have hle : length ≤ i := Nat.le_of_not_lt hfirst
      have hright : (seg ++ (full.flatten ++ last))[i]? = (full.flatten ++ last)[i - length]? := by
        rw [List.getElem?_append_right (by rw [hfull.1]; exact hle), hfull.1]
      rw [Nat.div_eq_sub_div (by omega) hle, Nat.mod_eq_sub_mod hle, hright]
      exact ih (by omega) hfull.2

end Filled

theorem represents_empty : Represents length empty [] :=
  Or.inl ⟨rfl, rfl⟩

theorem Represents.size_eq {b : SegmentBuffer} {bytes : List UInt8} (h : Represents length b bytes) :
    b.size = bytes.length := by
  obtain ⟨rfl, rfl⟩ | ⟨full, last, hfilled, rfl⟩ := h
  . rfl
  . exact hfilled.length_bytes.symm

theorem Represents.length_segs_le {b : SegmentBuffer} {bytes : List UInt8}
    (h : Represents length b bytes) : b.segs.length ≤ b.pos / length + 1 := by
  obtain ⟨rfl, rfl⟩ | ⟨full, last, hfilled, rfl⟩ := h
  . exact Nat.zero_le _
  . have hwrite : b.pos / length = full.length := hfilled.getWriteSeg_eq
    rw [hwrite]
    exact Nat.le_of_eq hfilled.length_segs

/-!
### Appending
-/

-- One round of the loop fills the segment up or takes all that is left.
theorem Filled.appendSeg {b : SegmentBuffer} {full : List Seg} {last : Seg} {spare : Nat}
    (h : Filled length b full last spare) (p : List UInt8)
    (hroom : (b.pos + p.length) / length = full.length + spare) :
    let (wl, seg) := appendSeg length last p
    let b' : SegmentBuffer := ⟨b.segs.set full.length seg, b.pos + wl⟩
    ∃ full' last' spare', Filled length b' full' last' spare'
      ∧ full'.flatten ++ last' = full.flatten ++ last ++ p.take wl
      ∧ (b'.pos + (p.drop wl).length) / length = full'.length + spare' := by
  have hlt := h.length_lt
  have hpos : 0 < length := Nat.lt_of_le_of_lt (Nat.zero_le _) hlt
  have hbpos := h.pos
  unfold SegmentBuffer.appendSeg
  dsimp only
  rw [h.set_writeSeg, List.length_drop]
  have hsum : b.pos + min p.length (length - last.length)
      + (p.length - min p.length (length - last.length)) = b.pos + p.length := by omega
  rw [hsum, hroom]
  by_cases hfits : p.length < length - last.length
  . rw [Nat.min_eq_left (Nat.le_of_lt hfits), List.take_length]
    refine ⟨full, last ++ p, spare, ⟨rfl, h.length_eq, ?_, ?_⟩, ?_, rfl⟩
    . rw [List.length_append]
      omega
    . dsimp only
      rw [List.length_append]
      omega
    . rw [List.append_assoc]
  . have hle : length - last.length ≤ p.length := Nat.le_of_not_lt hfits
    have hfull : (last ++ p.take (length - last.length)).length = length := by
      rw [List.length_append, List.length_take, Nat.min_eq_left hle]
      omega
    have hspare : 0 < spare := by
      have hmul : (full.length + 1) * length = full.length * length + length := Nat.succ_mul _ _
      have := (Nat.le_div_iff_mul_le hpos).mpr
        (show (full.length + 1) * length ≤ b.pos + p.length by omega)
      omega
    obtain ⟨spare, rfl⟩ := Nat.exists_eq_succ_of_ne_zero (Nat.ne_of_gt hspare)
    rw [Nat.min_eq_right hle]
    refine ⟨full ++ [last ++ p.take (length - last.length)], [], spare, ⟨?_, ?_, hpos, ?_⟩, ?_, ?_⟩
    . rw [List.replicate_succ, List.append_assoc]
      rfl
    . intro seg hseg
      rw [List.mem_append, List.mem_singleton] at hseg
      obtain hseg | rfl := hseg
      . exact h.length_eq seg hseg
      . exact hfull
    . dsimp only
      rw [List.length_append, List.length_singleton, Nat.succ_mul, List.length_nil]
      omega
    . simp only [List.flatten_append, List.flatten_cons, List.flatten_nil, List.append_nil,
        List.append_assoc]
    . rw [List.length_append, List.length_singleton]
      omega

theorem Filled.represents {b : SegmentBuffer} {full : List Seg} {last : Seg} {spare : Nat}
    (h : Filled length b full last spare) (hroom : b.pos / length = full.length + spare) :
    Represents length b (full.flatten ++ last) := by
  have hwrite : b.pos / length = full.length := h.getWriteSeg_eq
  have hspare : spare = 0 := by omega
  subst hspare
  exact Or.inr ⟨full, last, h, rfl⟩

theorem appendLoop_of_filled {fuel : Nat} {b : SegmentBuffer} {full : List Seg} {last : Seg}
    {spare : Nat} {p : List UInt8} (h : Filled length b full last spare)
    (hroom : (b.pos + p.length) / length = full.length + spare) (hfuel : p.length ≤ fuel) :
    ∃ b', appendLoop length fuel b p = some b'
      ∧ Represents length b' (full.flatten ++ last ++ p) := by
  induction fuel generalizing b full last spare p with
  | zero =>
    have hnil : p = [] := List.eq_nil_of_length_eq_zero (Nat.le_zero.mp hfuel)
    subst hnil
    rw [List.append_nil]
    exact ⟨b, rfl, h.represents hroom⟩
  | succ fuel ih =>
    cases p with
    | nil =>
      rw [List.append_nil]
      exact ⟨b, rfl, h.represents hroom⟩
    | cons byte p =>
      have hlt := h.length_lt
      obtain ⟨full', last', spare', h', hbytes, hroom'⟩ := h.appendSeg (byte :: p) hroom
      have hwl : 0 < (SegmentBuffer.appendSeg length last (byte :: p)).1 := by
        unfold SegmentBuffer.appendSeg
        dsimp only
        rw [List.length_cons]
        omega
      obtain ⟨b', hb', hrep⟩ := ih h' hroom' (by rw [List.length_drop]; omega)
      refine ⟨b', ?_, ?_⟩
      . unfold appendLoop
        rw [h.getWriteSeg_eq, h.getElem_writeSeg, Option.bind_some, if_neg (Nat.ne_of_lt hlt)]
        dsimp only
        rw [h.getElem_writeSeg]
        exact hb'
      . rw [hbytes, List.append_assoc _ (List.take _ _), List.take_append_drop] at hrep
        exact hrep

-- There may be spare segments before, as long as no more than are needed.
theorem Filled.reserve {b : SegmentBuffer} {full : List Seg} {last : Seg} {spare : Nat}
    (h : Filled length b full last spare) {len : Nat}
    (hspare : full.length + spare ≤ (b.pos + len) / length) :
    Filled length (b.reserve length len) full last ((b.pos + len) / length - full.length) := by
  unfold SegmentBuffer.reserve
  constructor
  . dsimp only
    rw [h.length_segs, sizeSub_of_le (by omega), h.segs, List.append_assoc, List.cons_append,
      List.replicate_append_replicate]
    congr 3
    omega
  . exact h.length_eq
  . exact h.length_lt
  . exact h.pos

theorem Represents.reserve {b : SegmentBuffer} {bytes : List UInt8} (hlength : 0 < length)
    (h : Represents length b bytes) (len : Nat) :
    ∃ full last spare, Filled length (b.reserve length len) full last spare
      ∧ full.flatten ++ last = bytes
      ∧ ((b.reserve length len).pos + len) / length = full.length + spare := by
  obtain ⟨rfl, rfl⟩ | ⟨full, last, hfilled, rfl⟩ := h
  . unfold SegmentBuffer.reserve
    dsimp only
    refine ⟨[], [], (empty.pos + len) / length, ⟨?_, ?_, hlength, ?_⟩, rfl, ?_⟩
    . have hsub : sizeSub ((empty.pos + len) / length + 1) empty.segs.length
          = (empty.pos + len) / length + 1 := sizeSub_of_le (Nat.zero_le _)
      rw [hsub]
      rfl
    . exact fun _ h => nomatch h
    . simp [empty]
    . exact (Nat.zero_add _).symm
  . have hle : full.length ≤ (b.pos + len) / length := by
      rw [← hfilled.getWriteSeg_eq]
      exact Nat.div_le_div_right (Nat.le_add_right _ _)
    have hpos : (b.reserve length len).pos = b.pos := rfl
    refine ⟨full, last, _, hfilled.reserve hle, rfl, ?_⟩
    rw [hpos]
    omega

theorem Filled.append {b : SegmentBuffer} {full : List Seg} {last : Seg} {spare : Nat}
    (h : Filled length b full last spare) {p : List UInt8}
    (hspare : full.length + spare ≤ (b.pos + p.length) / length) :
    ∃ b', b.append length p = some b' ∧ Represents length b' (full.flatten ++ last ++ p) := by
  have hreserve := h.reserve hspare
  have hpos : (b.reserve length p.length).pos = b.pos := rfl
  apply appendLoop_of_filled hreserve
  . rw [hpos]
    omega
  . exact Nat.le_refl _

theorem Represents.append {b : SegmentBuffer} {bytes : List UInt8} (hlength : 0 < length)
    (h : Represents length b bytes) (p : List UInt8) :
    ∃ b', b.append length p = some b' ∧ Represents length b' (bytes ++ p) := by
  obtain ⟨full, last, spare, hfilled, hbytes, hroom⟩ := h.reserve hlength p.length
  rw [← hbytes]
  exact appendLoop_of_filled hfilled hroom (Nat.le_refl _)

/-!
### Transferring
-/

theorem Filled.getDataSeg_eq {b : SegmentBuffer} {full : List Seg} {last : Seg} {spare : Nat}
    (h : Filled length b full last spare) (hpos : b.pos ≠ 0) :
    b.getDataSeg length + 1 = if last = [] then full.length else full.length + 1 := by
  have hlt := h.length_lt
  have hbpos := h.pos
  unfold getDataSeg
  rw [if_pos (Nat.pos_of_ne_zero hpos)]
  split
  . have hnil : last.length = 0 := List.length_eq_zero_iff.mpr ‹_›
    have hsub : b.pos - 1 = full.length * length - 1 := by omega
    have hne : full.length ≠ 0 := by
      intro hzero
      rw [hzero, Nat.zero_mul] at hbpos
      omega
    obtain ⟨k, hk⟩ := Nat.exists_eq_succ_of_ne_zero hne
    have hmul : full.length * length = k * length + length := by
      rw [hk, Nat.succ_mul]
    have hsub' : b.pos - 1 = length - 1 + k * length := by omega
    rw [hsub', Nat.add_mul_div_right _ _ (by omega), Nat.div_eq_of_lt (by omega), hk, Nat.zero_add]
  . have hlast : 0 < last.length := List.length_pos_iff.mpr ‹_›
    have hsub : b.pos - 1 = last.length - 1 + full.length * length := by omega
    rw [hsub, Nat.add_mul_div_right _ _ (by omega), Nat.div_eq_of_lt (by omega), Nat.zero_add]

theorem Filled.transfer {b : SegmentBuffer} {full : List Seg} {last : Seg}
    (h : Filled length b full last 0) (hpos : b.pos ≠ 0) :
    (b.transfer length).1.flatten = full.flatten ++ last
      ∧ Represents length (b.transfer length).2 [] := by
  have hlength : 0 < length := Nat.lt_of_le_of_lt (Nat.zero_le _) h.length_lt
  have hsegs : b.segs = full ++ [last] := h.segs
  unfold SegmentBuffer.transfer
  rw [if_neg hpos]
  dsimp only
  rw [h.getDataSeg_eq hpos, hsegs]
  have hzero : 0 = ([] : List Seg).length * length + ([] : Seg).length := by simp
  by_cases hlast : last = []
  . rw [if_pos hlast, List.take_left, List.drop_left, hlast, List.append_nil]
    exact ⟨rfl, Or.inr ⟨[], [], ⟨rfl, fun _ h => (nomatch h), hlength, hzero⟩, rfl⟩⟩
  . have hlen : (full ++ [last]).length = full.length + 1 := List.length_append
    rw [if_neg hlast, ← hlen, List.take_length, List.drop_length, List.flatten_append]
    refine ⟨?_, Or.inl ⟨rfl, rfl⟩⟩
    rw [List.flatten_cons, List.flatten_nil, List.append_nil]

-- Only the last one that is handed over has room left.
theorem Represents.transfer_full {b : SegmentBuffer} {bytes : List UInt8}
    (h : Represents length b bytes) :
    ∀ seg ∈ (b.transfer length).1.dropLast, seg.length = length := by
  unfold SegmentBuffer.transfer
  by_cases hpos : b.pos = 0
  . simp [hpos]
  . obtain ⟨rfl, rfl⟩ | ⟨full, last, hfilled, rfl⟩ := h
    . exact absurd rfl hpos
    . have hsegs : b.segs = full ++ [last] := hfilled.segs
      rw [if_neg hpos]
      dsimp only
      rw [hfilled.getDataSeg_eq hpos, hsegs]
      split
      . rw [List.take_left]
        exact fun seg hseg => hfilled.length_eq seg (List.dropLast_subset full hseg)
      . have hlen : (full ++ [last]).length = full.length + 1 := List.length_append
        rw [← hlen, List.take_length, List.dropLast_concat]
        exact hfilled.length_eq

theorem Represents.transfer {b : SegmentBuffer} {bytes : List UInt8}
    (h : Represents length b bytes) :
    (b.transfer length).1.flatten = bytes ∧ Represents length (b.transfer length).2 [] := by
  by_cases hpos : b.pos = 0
  . have hbytes : bytes = [] := by
      have hsize := h.size_eq
      unfold size at hsize
      exact List.eq_nil_of_length_eq_zero (hsize.symm.trans hpos)
    subst hbytes
    unfold SegmentBuffer.transfer
    rw [if_pos hpos]
    exact ⟨rfl, h⟩
  . obtain ⟨rfl, rfl⟩ | ⟨full, last, hfilled, rfl⟩ := h
    . exact absurd rfl hpos
    . exact hfilled.transfer hpos

/-!
### Rewinding
-/

-- All of the segments are kept, and every one but the first is a spare one.
theorem Filled.rewind {b : SegmentBuffer} {full : List Seg} {last : Seg} {spare : Nat}
    (h : Filled length b full last spare) :
    Filled length b.rewind [] [] (full.length + spare) := by
  have hlength : 0 < length := Nat.lt_of_le_of_lt (Nat.zero_le _) h.length_lt
  refine ⟨?_, fun _ h => (nomatch h), hlength, ?_⟩
  . unfold SegmentBuffer.rewind
    rw [List.map_const', h.length_segs, Nat.add_right_comm, List.replicate_succ, List.nil_append]
  . simp [SegmentBuffer.rewind]

end SegmentBuffer
end Lax
