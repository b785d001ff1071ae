import Lax.Net.BitsSerializer.Lemmas.Message

/-!
This module contains that there is no shorter way to write a value than the one that the serializer
has. There are longer ones: a size in more bytes than it needs, and keys that are there twice.
-/

namespace Lax
namespace BitsSerializer

open Input

/-!
### Sizes
-/

theorem length_of_parse_read {α : Type} {n : Nat} {next : List UInt8 → Input ReaderError α}
    {s rest : List UInt8} {a : α} (h : parse (read n next) s = .ok (a, rest)) :
    n ≤ s.length ∧ parse (next (s.take n)) (s.drop n) = .ok (a, rest) := by
  rw [parse_read] at h
  split at h
  . next hn => exact ⟨hn, h⟩
  . cases h

theorem length_of_parse_readByte {s rest : List UInt8} {b : UInt8}
    (h : parse readByte s = .ok (b, rest)) : s.length = 1 + rest.length := by
  obtain ⟨hn, h⟩ := length_of_parse_read h
  injection h with h
  injection h with _ hrest
  rw [← hrest, List.length_drop]
  omega

theorem length_of_parse_readBytes {w : Nat} {s rest : List UInt8} {v : BitVec (8 * w)}
    (h : parse (readBytes w) s = .ok (v, rest)) : s.length = w + rest.length := by
  obtain ⟨hn, h⟩ := length_of_parse_read h
  injection h with h
  injection h with _ hrest
  rw [← hrest, List.length_drop]
  omega

theorem length_writeSize (size : Nat) :
    (writeSize size).length = if size < 0x80 then 1 else if size < 0x4000 then 2 else 4 := by
  unfold writeSize
  split
  . rfl
  . split
    . rfl
    . rw [List.length_append, LittleEndian.length_encode]
      rfl

theorem length_writeSize_mono {size size' : Nat} (h : size ≤ size') :
    (writeSize size).length ≤ (writeSize size').length := by
  rw [length_writeSize, length_writeSize]
  repeat' split
  all_goals omega

theorem high_lt_of_two : ∀ hb < 2 ^ 8,
    UInt8.ofNat hb &&& 0x40 = 0 → (UInt8.ofNat hb &&& 0x7F).toNat < 2 ^ 6 := by
  decide +kernel

theorem length_writeSize_le {size : Nat} {s rest : List UInt8}
    (h : parse readSizeField s = .ok (size, rest)) :
    (writeSize size).length + rest.length ≤ s.length := by
  obtain ⟨hb, s₁, hhb, h⟩ := parse_bind_ok h
  have hlen₁ := length_of_parse_readByte hhb
  split at h
  . next hlt =>
    injection h with h
    injection h with hsize hrest
    subst hsize hrest
    rw [length_writeSize, if_pos (show hb.toNat < 0x80 from UInt8.lt_iff_toNat_lt.mp hlt), hlen₁]
  . obtain ⟨lb, s₂, hlb, h⟩ := parse_bind_ok h
    have hlen₂ := length_of_parse_readByte hlb
    split at h
    . obtain ⟨lw, s₃, hlw, h⟩ := parse_bind_ok h
      have hlen₃ := length_of_parse_readBytes hlw
      injection h with h
      injection h with hsize hrest
      subst hrest
      rw [length_writeSize]
      repeat' split
      all_goals omega
    . next htwo =>
      injection h with h
      injection h with hsize hrest
      subst hrest
      have hhigh := high_lt_of_two hb.toNat hb.toNat_lt
      rw [UInt8.ofNat_toNat] at hhigh
      have hsize' : size < 0x4000 := by
        rw [← hsize]
        exact or_shiftLeft_lt (k := 6) (hhigh (not_not.mp htwo)) lb.toNat_lt
      rw [length_writeSize, if_pos hsize']
      split
      . omega
      . omega

theorem length_writeSize_le_of_readSize {maxSize size : Nat} {s rest : List UInt8}
    (h : parse (readSize maxSize) s = .ok (size, rest)) :
    (writeSize size).length + rest.length ≤ s.length := by
  obtain ⟨size', s', hsize, h⟩ := parse_bind_ok h
  split at h
  . cases h
  . injection h with h
    injection h with heq hrest
    subst heq hrest
    exact length_writeSize_le hsize

/-!
### Values
-/

theorem length_flatMap_le_of_times {α : Type} {p : Input ReaderError α} {enc : α → List UInt8}
    (hp : ∀ {s a rest}, parse p s = .ok (a, rest) → (enc a).length + rest.length ≤ s.length)
    {n : Nat} {s rest : List UInt8} {xs : { xs : List α // xs.length = n }}
    (h : parse (times p n) s = .ok (xs, rest)) :
    (xs.val.flatMap enc).length + rest.length ≤ s.length := by
  induction n generalizing s with
  | zero =>
    injection h with h
    injection h with hxs hrest
    subst hxs hrest
    exact Nat.le_of_eq (Nat.zero_add _)
  | succ n ih =>
    obtain ⟨x, s', hx, h⟩ := parse_bind_ok h
    obtain ⟨xs', s'', hxs', h⟩ := parse_bind_ok h
    injection h with h
    injection h with hxs hrest
    subst hxs hrest
    have hhead := hp hx
    have htail := ih hxs'
    rw [List.flatMap_cons, List.length_append]
    omega

theorem length_writeBuffer_le {w n : Nat} {s rest : List UInt8}
    {vs : { vs : List (BitVec (8 * w)) // vs.length = n }}
    (h : parse (readBuffer w n) s = .ok (vs, rest)) :
    (writeBuffer vs.val).length + rest.length ≤ s.length := by
  rw [length_writeBuffer, vs.property]
  unfold readBuffer at h
  split at h
  . next hn =>
    injection h with h
    injection h with hvs hrest
    rw [hn, hrest]
    exact Nat.le_of_eq (Nat.zero_add _)
  . obtain ⟨hle, h⟩ := length_of_parse_read h
    injection h with h
    injection h with hvs hrest
    rw [← hrest, List.length_drop]
    omega

-- What is left out because its key is there takes up nothing.
theorem length_flatMap_emplaceSorted_le {κ ν : Type} [LinearOrder κ] (enc : κ × ν → List UInt8)
    (k : κ) (v : ν) (es : List (κ × ν)) :
    ((emplaceSorted k v es).flatMap enc).length ≤ (enc (k, v)).length + (es.flatMap enc).length := by
  induction es with
  | nil =>
    rw [emplaceSorted, List.flatMap_cons, List.length_append]
  | cons e es ih =>
    unfold emplaceSorted
    split
    . rw [List.flatMap_cons, List.length_append]
    . split
      . exact Nat.le_add_left _ _
      . rw [List.flatMap_cons, List.flatMap_cons, List.length_append, List.length_append]
        omega

theorem length_flatMap_le_of_readMap {κ ν : Type} [LinearOrder κ] {key : Input ReaderError κ}
    {value : Input ReaderError ν} {encKey : κ → List UInt8} {enc : ν → List UInt8}
    (hkey : ∀ {s k rest}, parse key s = .ok (k, rest) → (encKey k).length + rest.length ≤ s.length)
    (hvalue : ∀ {s v rest}, parse value s = .ok (v, rest) → (enc v).length + rest.length ≤ s.length)
    {n : Nat} {m m' : SortedMap κ ν} {s rest : List UInt8}
    (h : parse (readMap key value n m) s = .ok (m', rest)) :
    (m'.entries.flatMap fun e => encKey e.1 ++ enc e.2).length + rest.length
      ≤ (m.entries.flatMap fun e => encKey e.1 ++ enc e.2).length + s.length := by
  induction n generalizing m s with
  | zero =>
    injection h with h
    injection h with hm hrest
    rw [hm, hrest]
  | succ n ih =>
    obtain ⟨k, s', hk, h⟩ := parse_bind_ok h
    obtain ⟨v, s'', hv, h⟩ := parse_bind_ok h
    have hentry : _ ≤ (encKey k ++ enc v).length + _ :=
      length_flatMap_emplaceSorted_le (fun e => encKey e.1 ++ enc e.2) k v m.entries
    have hrest := ih h
    have hlenk := hkey hk
    have hlenv := hvalue hv
    rw [List.length_append] at hentry
    change _ ≤ ((emplaceSorted k v m.entries).flatMap _).length + _ at hrest
    omega

-- A size and then as many elements.
theorem length_writeSize_append_le {α : Type} {p : (n : Nat) → Input ReaderError α}
    (count : α → Nat) (enc : α → List UInt8) {maxSize : Nat}
    (hcount : ∀ {n s a rest}, parse (p n) s = .ok (a, rest) → count a ≤ n)
    (hp : ∀ {n s a rest}, parse (p n) s = .ok (a, rest) → (enc a).length + rest.length ≤ s.length)
    {s rest : List UInt8} {a : α} (h : parse (readSize maxSize >>= p) s = .ok (a, rest)) :
    (writeSize (count a) ++ enc a).length + rest.length ≤ s.length := by
  obtain ⟨size, s', hsize, h⟩ := parse_bind_ok h
  have hlen := length_writeSize_le_of_readSize hsize
  have hmono := length_writeSize_mono (hcount h)
  have hrest := hp h
  rw [List.length_append]
  omega

theorem parse_val {α : Type} {n : Nat} {p : Input ReaderError { xs : List α // xs.length = n }}
    {s rest : List UInt8} {xs : List α}
    (h : parse (resize n p >>= fun xs => pure xs.val) s = .ok (xs, rest)) :
    ∃ hlen : xs.length = n, parse p s = .ok (⟨xs, hlen⟩, rest) := by
  obtain ⟨xs', s', hxs', h⟩ := parse_bind_ok h
  injection h with h
  injection h with hxs hrest
  subst hxs hrest
  exact ⟨xs'.property, hxs'⟩

theorem length_serialize_buffer_le {maxSize w : Nat} {s rest : List UInt8}
    {vs : List (BitVec (8 * w))}
    (h : parse (readSize maxSize >>= fun n => resize n (readBuffer w n) >>= fun vs => pure vs.val) s
      = .ok (vs, rest)) :
    (writeSize vs.length ++ writeBuffer vs).length + rest.length ≤ s.length := by
  apply length_writeSize_append_le List.length _ _ _ h
  . intro n s vs rest h
    obtain ⟨hlen, -⟩ := parse_val h
    exact Nat.le_of_eq hlen
  . intro n s vs rest h
    obtain ⟨hlen, hvs⟩ := parse_val h
    exact length_writeBuffer_le hvs

theorem length_serializeKey_le {k : Key} {v : KeyVal k} {s rest : List UInt8}
    (h : parse (deserializeKey k) s = .ok (v, rest)) :
    (serializeKey k v).length + rest.length ≤ s.length := by
  cases k with
  | int signed w =>
    rw [length_of_parse_readBytes h]
    exact Nat.le_of_eq (congrArg (· + _) (length_writeBytes (w := w) v))
  | string => exact length_serialize_buffer_le h

theorem length_serialize_le {t : Ty} {v : Val t} {s rest : List UInt8}
    (h : parse (deserialize t) s = .ok (v, rest)) :
    (serialize t v).length + rest.length ≤ s.length := by
  induction t generalizing s rest with
  | bool =>
    obtain ⟨tmp, s', htmp, h⟩ := parse_bind_ok h
    rw [length_of_parse_readByte htmp]
    split at h
    . cases h
    . injection h with h
      injection h with hv hrest
      rw [hrest]
      exact Nat.le_refl _
  | value w =>
    rw [length_of_parse_readBytes h]
    exact Nat.le_of_eq (congrArg (· + _) (length_writeBytes (w := w) v))
  | buffer maxSize w => exact length_serialize_buffer_le h
  | container maxSize t ih =>
    apply length_writeSize_append_le List.length _ _ _ h
    . intro n s xs rest h
      obtain ⟨hlen, -⟩ := parse_val h
      exact Nat.le_of_eq hlen
    . intro n s xs rest h
      obtain ⟨hlen, hxs⟩ := parse_val h
      exact length_flatMap_le_of_times ih hxs
  | valueArray n w => exact length_writeBuffer_le h
  | array n t ih => exact length_flatMap_le_of_times ih h
  | map maxSize k t ih =>
    apply length_writeSize_append_le (fun m : SortedMap _ _ => m.entries.length) _ _ _ h
    . intro n s m rest h
      obtain ⟨hlen, -⟩ := fits_readMap (P := fun _ => True) (Q := fun _ => True) (fun _ => trivial)
        (fun _ => trivial) (fun _ _ => ⟨trivial, trivial⟩) h
      change _ ≤ 0 + n at hlen
      rwa [Nat.zero_add] at hlen
    . intro n s m rest h
      have hentries := length_flatMap_le_of_readMap length_serializeKey_le ih h
      change _ ≤ 0 + _ at hentries
      rwa [Nat.zero_add] at hentries
  | archive t u iht ihu =>
    obtain ⟨head, s', hhead, h⟩ := parse_bind_ok h
    obtain ⟨tail, s'', htail, h⟩ := parse_bind_ok h
    injection h with h
    injection h with hv hrest
    subst hv hrest
    have hlenhead := iht hhead
    have hlentail := ihu htail
    change (serialize t head ++ serialize u tail).length + _ ≤ _
    rw [List.length_append]
    omega
  | unit =>
    injection h with h
    injection h with hv hrest
    rw [hrest]
    exact Nat.le_of_eq (Nat.zero_add _)

namespace Message

/--
What a message has been unpacked from is no shorter than what it is packed to.
-/
theorem length_pack_le {t : Ty} {buf : List UInt8} {iter len : Nat} (hin : InRange buf iter len)
    {m : Message t} (h : unpack t buf iter len = (m, true)) (topicKey : BitVec 32) :
    (m.pack topicKey).length ≤ len := by
  obtain ⟨m', hparse, rfl⟩ := parse_of_unpack hin h
  obtain ⟨length, s₁, hlength, hparse⟩ := parse_bind_ok hparse
  obtain ⟨topic, s₂, htopic, hparse⟩ := parse_bind_ok hparse
  obtain ⟨members, s₃, hmembers, hparse⟩ := parse_bind_ok hparse
  injection hparse with hparse
  injection hparse with hm hrest
  subst hm
  have hlen := length_of_parse_readBytes hlength
  rw [Slice.length_read buf iter len hin, length_of_parse_readBytes htopic] at hlen
  have hle := length_serialize_le hmembers
  change (writeBytes length ++ (writeBytes (w := 4) topicKey ++ serialize t members)).length ≤ len
  rw [List.length_append, List.length_append, length_writeBytes, length_writeBytes]
  omega

-- A size that takes two bytes where one would do.
theorem length_pack_le_size :
    (pack (t := .buffer 16 1) { length := 1#32, topic := 2#32, members := [5#8] } 2#32).length ≤ 11 :=
  @length_pack_le (.buffer 16 1) [1, 0, 0, 0, 2, 0, 0, 0, 0x80, 1, 5] 0 11 (by decide) _ rfl 2#32

end Message

end BitsSerializer
end Lax
