import Mathlib.Data.List.Basic
import Lax.Net.BitsSerializer.Impl.Schema

/-!
This module contains that values are read as they have been written, and which values that are.
-/

namespace Lax
namespace BitsSerializer

open Input

/-!
### Sizes
-/

theorem encodes_readByte {α : Type} {b : UInt8} {f : UInt8 → Input ReaderError α}
    {bytes : List UInt8} {a : α} (h : Encodes (f b) bytes a) :
    Encodes (readByte >>= f) (b :: bytes) a := by
  have hbyte : Encodes readByte [b] b := encodes_read rfl (encodes_pure b)
  exact hbyte.bind h

def SizeFits (maxSize size : Nat) : Prop :=
  size < 2 ^ 30 ∧ size ≤ maxSize

theorem or_shiftLeft_lt {high low k l : Nat} (hhigh : high < 2 ^ k) (hlow : low < 2 ^ l) :
    high <<< l ||| low < 2 ^ (k + l) := by
  apply Nat.or_lt_two_pow
  . rw [Nat.shiftLeft_eq, Nat.pow_add]
    exact Nat.mul_lt_mul_of_pos_right hhigh (Nat.two_pow_pos l)
  . exact Nat.lt_of_lt_of_le hlow (Nat.pow_le_pow_right (by decide) (Nat.le_add_left l k))

theorem toNat_and_lt {k : Nat} (b mask : UInt8) (h : mask.toNat < 2 ^ k) :
    (b &&& mask).toNat < 2 ^ k := by
  rw [UInt8.toNat_and]
  exact Nat.lt_of_le_of_lt Nat.and_le_right h

theorem sizeField_two_lt (hb lb : UInt8) : (hb &&& 0x7F).toNat <<< 8 ||| lb.toNat < 2 ^ 30 := by
  have hhigh : (hb &&& 0x7F).toNat < 2 ^ 7 := toNat_and_lt hb 0x7F (by decide)
  exact Nat.lt_trans (or_shiftLeft_lt hhigh lb.toNat_lt) (by decide)

theorem sizeField_four_lt (hb lb : UInt8) (lw : BitVec 16) :
    ((hb &&& 0x3F).toNat <<< 8 ||| lb.toNat) <<< 16 ||| lw.toNat < 2 ^ 30 := by
  have hhigh : (hb &&& 0x3F).toNat < 2 ^ 6 := toNat_and_lt hb 0x3F (by decide)
  exact or_shiftLeft_lt (k := 14) (or_shiftLeft_lt hhigh lb.toNat_lt) lw.isLt

theorem readSizeField_lt {size : Nat} {s rest : List UInt8}
    (h : parse readSizeField s = .ok (size, rest)) : size < 2 ^ 30 := by
  obtain ⟨hb, s₁, -, h⟩ := parse_bind_ok h
  split at h
  . next hlt =>
    injection h with h
    injection h with heq
    rw [← heq]
    exact Nat.lt_trans hb.toNat_lt (by decide)
  . obtain ⟨lb, s₂, -, h⟩ := parse_bind_ok h
    split at h
    . obtain ⟨lw, s₃, -, h⟩ := parse_bind_ok h
      injection h with h
      injection h with heq
      rw [← heq]
      exact sizeField_four_lt hb lb lw
    . injection h with h
      injection h with heq
      rw [← heq]
      exact sizeField_two_lt hb lb

theorem fits_readSize {maxSize size : Nat} {s rest : List UInt8}
    (h : parse (readSize maxSize) s = .ok (size, rest)) : SizeFits maxSize size := by
  obtain ⟨size', s', hsize, h⟩ := parse_bind_ok h
  split at h
  . cases h
  . next hle =>
    injection h with h
    injection h with heq
    subst heq
    exact ⟨readSizeField_lt hsize, Nat.not_lt.mp hle⟩

theorem hb_two : ∀ high < 2 ^ 6,
    ¬UInt8.ofNat (high ||| 0x80) < 0x80 ∧ UInt8.ofNat (high ||| 0x80) &&& 0x40 = 0
      ∧ (UInt8.ofNat (high ||| 0x80) &&& 0x7F).toNat = high := by
  decide

theorem hb_four : ∀ high < 2 ^ 6,
    ¬UInt8.ofNat (high ||| 0xC0) < 0x80 ∧ UInt8.ofNat (high ||| 0xC0) &&& 0x40 ≠ 0
      ∧ (UInt8.ofNat (high ||| 0xC0) &&& 0x3F).toNat = high := by
  decide

theorem shiftRight_lt {n k l : Nat} (h : n < 2 ^ (k + l)) : n >>> l < 2 ^ k := by
  rw [Nat.shiftRight_eq_div_pow]
  rw [Nat.pow_add] at h
  exact Nat.div_lt_of_lt_mul (Nat.mul_comm _ _ ▸ h)

theorem shiftLeft_or_mod (n k : Nat) : (n >>> k) <<< k ||| n % 2 ^ k = n := by
  rw [← Nat.shiftLeft_add_eq_or_of_lt (Nat.mod_lt n (Nat.two_pow_pos k)), Nat.shiftLeft_eq,
    Nat.shiftRight_eq_div_pow, Nat.mul_comm, Nat.div_add_mod]

theorem length_writeBytes {w : Nat} (v : BitVec (8 * w)) : (writeBytes v).length = w :=
  LittleEndian.length_encode w v.toNat

theorem decode_writeBytes {w : Nat} (v : BitVec (8 * w)) :
    BitVec.ofNat (8 * w) (LittleEndian.decode (writeBytes v)) = v := by
  have hlt : v.toNat < 256 ^ w := by
    have := v.isLt
    rwa [Nat.pow_mul] at this
  rw [writeBytes, LittleEndian.decode_encode_of_lt hlt, BitVec.ofNat_toNat, BitVec.setWidth_eq]

theorem encodes_readBytes {w : Nat} (v : BitVec (8 * w)) :
    Encodes (readBytes w) (writeBytes v) v := by
  apply encodes_read (length_writeBytes v)
  rw [decode_writeBytes]
  exact encodes_pure v

theorem encodes_readSizeField_one {size : Nat} (h : size < 0x80) :
    Encodes readSizeField [UInt8.ofNat size] size := by
  have hhb : (UInt8.ofNat size).toNat = size :=
    UInt8.toNat_ofNat_of_lt' (Nat.lt_trans h (by decide))
  apply encodes_readByte
  rw [if_pos (UInt8.lt_iff_toNat_lt.mpr (hhb.symm ▸ h)), hhb]
  exact encodes_pure size

theorem encodes_readSizeField_two {size : Nat} (h : size < 2 ^ 14) :
    Encodes readSizeField [UInt8.ofNat (size >>> 8 ||| 0x80), UInt8.ofNat size] size := by
  obtain ⟨hlong, htwo, hhigh⟩ := hb_two (size >>> 8) (shiftRight_lt (k := 6) h)
  have hlow : (UInt8.ofNat size).toNat = size % 2 ^ 8 := UInt8.toNat_ofNat'
  apply encodes_readByte
  rw [if_neg hlong]
  apply encodes_readByte
  rw [if_neg (not_not_intro htwo), hhigh, hlow, shiftLeft_or_mod]
  exact encodes_pure size

theorem encodes_readSizeField_four {size : Nat} (h : size < 2 ^ 30) :
    Encodes readSizeField
      ([UInt8.ofNat (size >>> 24 ||| 0xC0), UInt8.ofNat (size >>> 16)]
        ++ LittleEndian.encode 2 (size % 2 ^ 16)) size := by
  obtain ⟨hlong, hfour, hhigh⟩ := hb_four (size >>> 24) (shiftRight_lt (k := 6) h)
  have hlow : (UInt8.ofNat (size >>> 16)).toNat = (size >>> 16) % 2 ^ 8 := UInt8.toNat_ofNat'
  have hlw := encodes_readBytes (w := 2) (BitVec.ofNat 16 size)
  rw [writeBytes, BitVec.toNat_ofNat] at hlw
  apply encodes_readByte
  rw [if_neg hlong]
  apply encodes_readByte
  rw [if_pos hfour]
  have hsize : ((size >>> 24) <<< 8 ||| (size >>> 16) % 2 ^ 8) <<< 16 ||| size % 2 ^ 16 = size := by
    rw [show size >>> 24 = (size >>> 16) >>> 8 from Nat.shiftRight_add size 16 8, shiftLeft_or_mod,
      shiftLeft_or_mod]
  have hmap := hlw.map fun lw : BitVec (8 * 2) =>
    ((size >>> 24) <<< 8 ||| (size >>> 16) % 2 ^ 8) <<< 16 ||| lw.toNat
  rw [BitVec.toNat_ofNat, hsize] at hmap
  rw [hhigh, hlow]
  exact hmap

theorem encodes_readSizeField {size : Nat} (h : size < 2 ^ 30) :
    Encodes readSizeField (writeSize size) size := by
  unfold writeSize
  split
  . next hone => exact encodes_readSizeField_one hone
  . split
    . next htwo => exact encodes_readSizeField_two htwo
    . exact encodes_readSizeField_four h

theorem encodes_readSize {maxSize size : Nat} (h : SizeFits maxSize size) :
    Encodes (readSize maxSize) (writeSize size) size := by
  rw [← List.append_nil (writeSize size)]
  apply (encodes_readSizeField h.1).bind
  rw [if_neg (Nat.not_lt.mpr h.2)]
  exact encodes_pure size

/-!
### Values
-/

theorem values_writeBuffer {w n : Nat} (vs : { vs : List (BitVec (8 * w)) // vs.length = n }) :
    values w n (writeBuffer vs.val) = vs := by
  obtain ⟨vs, rfl⟩ := vs
  induction vs with
  | nil => rfl
  | cons v vs ih =>
    have hlen := length_writeBytes v
    have hbytes : writeBuffer (v :: vs) = writeBytes v ++ writeBuffer vs := List.flatMap_cons
    apply Subtype.ext
    change BitVec.ofNat (8 * w) _ :: (values w vs.length _).val = v :: vs
    rw [hbytes, List.take_left' hlen, List.drop_left' hlen, ih, decode_writeBytes]

theorem encodes_readBool (v : Bool) : Encodes readBool (boolValue v) v := by
  apply encodes_readByte
  cases v with
  | false => exact encodes_pure false
  | true => exact encodes_pure true

theorem length_writeBuffer {w : Nat} (vs : List (BitVec (8 * w))) :
    (writeBuffer vs).length = w * vs.length := by
  induction vs with
  | nil => rfl
  | cons v vs ih =>
    unfold writeBuffer at ih ⊢
    rw [List.flatMap_cons, List.length_append, ih, List.length_cons, Nat.mul_succ, Nat.add_comm]
    exact congrArg _ (length_writeBytes v)

theorem encodes_readBuffer {w n : Nat} (vs : { vs : List (BitVec (8 * w)) // vs.length = n }) :
    Encodes (readBuffer w n) (writeBuffer vs.val) vs := by
  unfold readBuffer
  split
  . next hn =>
    have hnil : vs.val = [] := List.length_eq_zero_iff.mp (vs.property.trans hn)
    have hvs := values_writeBuffer vs
    rw [hnil, show writeBuffer [] = [] from rfl] at hvs ⊢
    rw [hvs]
    exact encodes_pure vs
  . apply encodes_read
    . rw [length_writeBuffer, vs.property]
    . rw [values_writeBuffer]
      exact encodes_pure vs

def FitsKey : (k : Key) → KeyVal k → Prop
  | .int _ _, _ => True
  | .string, v => SizeFits unlimited v.length

-- There is nothing in the value with a size that cannot be written, or that is not allowed.
def Fits : (t : Ty) → Val t → Prop
  | .bool, _ => True
  | .value _, _ => True
  | .buffer maxSize _, vs => SizeFits maxSize vs.length
  | .container maxSize t, xs => SizeFits maxSize xs.length ∧ xs.Forall (Fits t)
  | .valueArray _ _, _ => True
  | .array _ t, xs => xs.val.Forall (Fits t)
  | .map maxSize k t, m =>
    SizeFits maxSize m.entries.length ∧ ∀ e ∈ m.entries, FitsKey k e.1 ∧ Fits t e.2
  | .archive t u, v => Fits t v.1 ∧ Fits u v.2
  | .unit, _ => True

theorem encodes_deserializeKey {k : Key} {v : KeyVal k} (h : FitsKey k v) :
    Encodes (deserializeKey k) (serializeKey k v) v := by
  cases k with
  | int signed w => exact encodes_readBytes v
  | string =>
    have hvs := encodes_readBuffer (w := 1) ⟨v, rfl⟩
    exact (encodes_readSize h).bind ((hvs.resize v.length).map Subtype.val)

theorem encodes_readMap {κ ν : Type} [LinearOrder κ] {key : Input ReaderError κ}
    {value : Input ReaderError ν} {encKey : κ → List UInt8} {enc : ν → List UInt8}
    {es es' : List (κ × ν)} (hsorted : (es ++ es').Pairwise fun x y => x.1 < y.1)
    (h : ∀ e ∈ es', Encodes key (encKey e.1) e.1 ∧ Encodes value (enc e.2) e.2) :
    Encodes (readMap key value es'.length ⟨es, (List.pairwise_append.mp hsorted).1⟩)
      (es'.flatMap fun e => encKey e.1 ++ enc e.2) ⟨es ++ es', hsorted⟩ := by
  induction es' generalizing es with
  | nil =>
    have hes : (⟨es ++ [], hsorted⟩ : SortedMap κ ν) = ⟨es, (List.pairwise_append.mp hsorted).1⟩ :=
      SortedMap.ext (List.append_nil es)
    rw [hes]
    exact encodes_pure _
  | cons e es' ih =>
    rw [List.forall_mem_cons] at h
    have hlt : ∀ x ∈ es, x.1 < e.1 := fun x hx =>
      (List.pairwise_append.mp hsorted).2.2 x hx e List.mem_cons_self
    have happend : es ++ e :: es' = es ++ [e] ++ es' := (List.append_assoc es [e] es').symm
    have hemplace : SortedMap.emplace ⟨es, (List.pairwise_append.mp hsorted).1⟩ e.1 e.2
        = ⟨es ++ [e], (List.pairwise_append.mp (happend ▸ hsorted)).1⟩ :=
      SortedMap.ext (emplaceSorted_of_forall_lt hlt)
    rw [List.flatMap_cons, List.append_assoc]
    apply h.1.1.bind
    apply h.1.2.bind
    have hall : (⟨es ++ e :: es', hsorted⟩ : SortedMap κ ν)
        = ⟨es ++ [e] ++ es', happend ▸ hsorted⟩ := SortedMap.ext happend
    rw [hemplace, hall]
    exact ih (happend ▸ hsorted) h.2

theorem encodes_deserialize {t : Ty} {v : Val t} (h : Fits t v) :
    Encodes (deserialize t) (serialize t v) v := by
  induction t with
  | bool => exact encodes_readBool v
  | value w => exact encodes_readBytes v
  | buffer maxSize w =>
    have hvs := encodes_readBuffer (w := w) ⟨v, rfl⟩
    exact (encodes_readSize h).bind ((hvs.resize _).map Subtype.val)
  | container maxSize t ih =>
    have hxs := encodes_times ⟨v, rfl⟩ fun x hx => ih (List.forall_iff_forall_mem.mp h.2 x hx)
    exact (encodes_readSize h.1).bind ((hxs.resize _).map Subtype.val)
  | valueArray n w => exact encodes_readBuffer v
  | array n t ih =>
    exact encodes_times v fun x hx => ih (List.forall_iff_forall_mem.mp h x hx)
  | map maxSize k t ih =>
    have hes := encodes_readMap (show ([] ++ v.entries).Pairwise _ from v.sorted) fun e he =>
      ⟨encodes_deserializeKey (h.2 e he).1, ih (h.2 e he).2⟩
    exact (encodes_readSize h.1).bind hes
  | archive t u iht ihu =>
    exact (iht h.1).bind ((ihu h.2).map (Prod.mk v.1))
  | unit => exact encodes_pure v

/-!
### What can be read
-/

theorem fits_readMap {κ ν : Type} [LinearOrder κ] {key : Input ReaderError κ}
    {value : Input ReaderError ν} {P : κ → Prop} {Q : ν → Prop}
    (hkey : ∀ {s k rest}, parse key s = .ok (k, rest) → P k)
    (hvalue : ∀ {s v rest}, parse value s = .ok (v, rest) → Q v) {n : Nat}
    {m m' : SortedMap κ ν} {s rest : List UInt8} (hm : ∀ e ∈ m.entries, P e.1 ∧ Q e.2)
    (h : parse (readMap key value n m) s = .ok (m', rest)) :
    m'.entries.length ≤ m.entries.length + n ∧ ∀ e ∈ m'.entries, P e.1 ∧ Q e.2 := by
  induction n generalizing m s with
  | zero =>
    injection h with h
    injection h with hm' hrest
    subst hm' hrest
    exact ⟨Nat.le_refl _, hm⟩
  | succ n ih =>
    obtain ⟨k, s', hk, h⟩ := parse_bind_ok h
    obtain ⟨v, s'', hv, h⟩ := parse_bind_ok h
    have hemplace : ∀ e ∈ (m.emplace k v).entries, P e.1 ∧ Q e.2 := by
      intro e he
      obtain rfl | he := mem_emplaceSorted he
      . exact ⟨hkey hk, hvalue hv⟩
      . exact hm e he
    obtain ⟨hlen, hall⟩ := ih hemplace h
    have hle := length_emplaceSorted_le k v m.entries
    refine ⟨?_, hall⟩
    change m'.entries.length ≤ (emplaceSorted k v m.entries).length + n at hlen
    omega

theorem fits_deserializeKey {k : Key} {v : KeyVal k} {s rest : List UInt8}
    (h : parse (deserializeKey k) s = .ok (v, rest)) : FitsKey k v := by
  cases k with
  | int signed w => exact trivial
  | string =>
    obtain ⟨size, s', hsize, h⟩ := parse_bind_ok h
    obtain ⟨vs, s'', -, h⟩ := parse_bind_ok h
    injection h with h
    injection h with hv
    subst hv
    exact (congrArg (SizeFits _) vs.property).mpr (fits_readSize hsize)

theorem fits_of_parse {t : Ty} {v : Val t} {s rest : List UInt8}
    (h : parse (deserialize t) s = .ok (v, rest)) : Fits t v := by
  induction t generalizing s rest with
  | bool => exact trivial
  | value w => exact trivial
  | buffer maxSize w =>
    obtain ⟨size, s', hsize, h⟩ := parse_bind_ok h
    obtain ⟨vs, s'', -, h⟩ := parse_bind_ok h
    injection h with h
    injection h with hv
    subst hv
    exact (congrArg (SizeFits _) vs.property).mpr (fits_readSize hsize)
  | container maxSize t ih =>
    obtain ⟨size, s', hsize, h⟩ := parse_bind_ok h
    obtain ⟨xs, s'', hxs, h⟩ := parse_bind_ok h
    injection h with h
    injection h with hv
    subst hv
    refine ⟨(congrArg (SizeFits _) xs.property).mpr (fits_readSize hsize), ?_⟩
    exact List.forall_iff_forall_mem.mpr (forall_mem_of_parse_times ih hxs)
  | valueArray n w => exact trivial
  | array n t ih => exact List.forall_iff_forall_mem.mpr (forall_mem_of_parse_times ih h)
  | map maxSize k t ih =>
    obtain ⟨size, s', hsize, h⟩ := parse_bind_ok h
    obtain ⟨hlt, hmax⟩ := fits_readSize hsize
    have hnil : ∀ e ∈ (SortedMap.empty (κ := KeyVal k) (ν := Val t)).entries,
        FitsKey k e.1 ∧ Fits t e.2 := fun e he => absurd he List.not_mem_nil
    obtain ⟨hlen, hall⟩ := fits_readMap fits_deserializeKey ih hnil h
    rw [show (SortedMap.empty (κ := KeyVal k) (ν := Val t)).entries.length = 0 from rfl] at hlen
    rw [Nat.zero_add] at hlen
    exact ⟨⟨Nat.lt_of_le_of_lt hlen hlt, Nat.le_trans hlen hmax⟩, hall⟩
  | archive t u iht ihu =>
    obtain ⟨head, s', hhead, h⟩ := parse_bind_ok h
    obtain ⟨tail, s'', htail, h⟩ := parse_bind_ok h
    injection h with h
    injection h with hv
    subst hv
    exact ⟨iht hhead, ihu htail⟩
  | unit => exact trivial

-- The values that are read as they have been written, whatever comes behind them.
theorem parse_serialize_iff {t : Ty} {v : Val t} {rest : List UInt8} :
    parse (deserialize t) (serialize t v ++ rest) = .ok (v, rest) ↔ Fits t v :=
  ⟨fits_of_parse, fun h => encodes_deserialize h rest⟩

end BitsSerializer
end Lax
