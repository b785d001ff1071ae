import Lax.Net.BitsSerializer.Lemmas.Message

/-!
This module contains for how many elements a frame can make the serializer make room, before it turns
out that they are not there.
-/

namespace Lax
namespace BitsSerializer

open Input

/-!
### Sizes
-/

variable {short : ReaderError}

theorem metered_readByte : Metered short readByte 0 1 :=
  metered_read

theorem metered_readBytes (w : Nat) : Metered short (readBytes w) 0 w :=
  metered_read

theorem metered_readSizeField : Metered short readSizeField 0 1 := by
  apply metered_readByte.bind_zero
  intro hb
  split
  . exact metered_pure short _
  . apply (metered_readByte.mono (Nat.le_refl 0) (Nat.zero_le 1)).bind_zero
    intro lb
    split
    . apply ((metered_readBytes 2).mono (Nat.le_refl 0) (Nat.zero_le 2)).bind_zero
      exact fun lw => metered_pure short _
    . exact metered_pure short _

theorem metered_readSize (maxSize : Nat) : Metered short (readSize maxSize) 0 1 := by
  apply metered_readSizeField.bind_zero
  intro size
  split
  . exact metered_fail (metered_pure short _) 0
  . exact metered_pure short _

-- Also if some of the bytes are zeros that are not there.
theorem yields_readSizeField : Yields short (· < 2 ^ 30) readSizeField := by
  apply yields_bind
  intro hb
  split
  . exact yields_pure (Nat.lt_trans hb.toNat_lt (by decide))
  . apply yields_bind
    intro lb
    split
    . apply yields_bind
      exact fun lw => yields_pure (sizeField_four_lt hb lb lw)
    . exact yields_pure (sizeField_two_lt hb lb)

-- The greatest size that can be read.
def maxRead (maxSize : Nat) : Nat :=
  min maxSize (2 ^ 30 - 1)

theorem yields_readSize (maxSize : Nat) : Yields short (· ≤ maxRead maxSize) (readSize maxSize) := by
  intro st
  have hlt : (exec short readSizeField st).1 < 2 ^ 30 := yields_readSizeField st
  unfold readSize maxRead
  rw [exec_bind]
  split
  . generalize (exec short readSizeField st).2 = st'
    cases st' with
    | error e => exact Nat.zero_le _
    | ok s => exact Nat.zero_le _
  . next hle => exact Nat.le_min.mpr ⟨Nat.not_lt.mp hle, Nat.le_pred_of_lt hlt⟩

-- From a failure on every size is zero.
theorem exec_readSize_error (maxSize : Nat) (e : ReaderError) :
    (exec short (readSize maxSize) (.error e)).1 = 0 :=
  rfl

/-!
### Values
-/

theorem metered_readBool : Metered short readBool 0 1 := by
  apply metered_readByte.bind_zero
  intro tmp
  split
  . exact metered_fail (metered_pure short _) 0
  . exact metered_pure short _

theorem metered_readBuffer (w n : Nat) : Metered short (readBuffer w n) 0 (w * n) := by
  unfold readBuffer
  split
  . next hn =>
    rw [hn]
    exact metered_pure short _
  . exact metered_read

-- A size and then as many elements.
theorem metered_elements {α : Type} {p : (n : Nat) → Input ReaderError α} {k : Nat} (maxSize : Nat)
    (hp : ∀ n, Metered short (p n) k n) :
    Metered short (readSize maxSize >>= fun n => resize n (p n)) (maxRead maxSize + k) 1 :=
  metered_sized (metered_readSize maxSize) (yields_readSize maxSize) (exec_readSize_error maxSize) hp

theorem metered_values {w : Nat} (h : 0 < w) (n : Nat) :
    Metered short (readBuffer w n >>= fun vs => pure vs.val) 0 n := by
  have hbuffer := (metered_readBuffer w n).bind_zero fun vs => metered_pure short vs.val
  exact hbuffer.mono (Nat.le_refl 0) (Nat.le_mul_of_pos_left n h)

theorem metered_readMap {κ ν : Type} [LinearOrder κ] {key : Input ReaderError κ}
    {value : Input ReaderError ν} {k k' : Nat} (hkey : Metered short key k 0)
    (hvalue : Metered short value k' 0) (n : Nat) (m : SortedMap κ ν) :
    Metered short (readMap key value n m) (max k k') 0 := by
  induction n generalizing m with
  | zero => exact (metered_pure short m).mono (Nat.zero_le _) (Nat.le_refl 0)
  | succ n ih =>
    have hcons := hkey.bind fun k => hvalue.bind fun v => ih (m.emplace k v)
    apply hcons.mono _ (Nat.le_refl 0)
    omega

def Key.room : Key → Nat
  | .int _ _ => 0
  | .string => maxRead unlimited

namespace Ty

-- The bytes that a value takes up, at least.
def minBytes : Ty → Nat
  | bool => 1
  | value w => w
  | buffer _ _ => 1
  | container _ _ => 1
  | valueArray n w => w * n
  | array n t => n * minBytes t
  | map _ _ _ => 1
  | archive t u => minBytes t + minBytes u
  | unit => 0

-- An element of a container takes up a byte at least.
def Solid : Ty → Prop
  | buffer _ w => 0 < w
  | container _ t => 0 < minBytes t ∧ Solid t
  | array _ t => Solid t
  | map _ _ t => Solid t
  | archive t u => Solid t ∧ Solid u
  | _ => True

-- The greatest sizes of the containers that are within each other.
def room : Ty → Nat
  | buffer maxSize _ => maxRead maxSize
  | container maxSize t => maxRead maxSize + room t
  | array _ t => room t
  | map _ k t => max k.room (room t)
  | archive t u => max (room t) (room u)
  | _ => 0

end Ty

theorem metered_deserializeKey (k : Key) : Metered short (deserializeKey k) k.room 0 := by
  cases k with
  | int signed w => exact (metered_readBytes w).mono (Nat.le_refl 0) (Nat.zero_le w)
  | string => exact (metered_elements unlimited (metered_values (by decide))).mono (Nat.le_refl _) (Nat.zero_le 1)

theorem metered_deserialize {t : Ty} (h : t.Solid) :
    Metered short (deserialize t) t.room t.minBytes := by
  induction t with
  | bool => exact metered_readBool
  | value w => exact metered_readBytes w
  | buffer maxSize w => exact metered_elements maxSize (metered_values h)
  | container maxSize t ih =>
    apply metered_elements maxSize
    intro n
    have helems := (metered_times (ih h.2) n).bind fun xs => metered_pure short xs.val
    exact helems.mono (Nat.max_le.mpr ⟨Nat.le_refl _, Nat.zero_le _⟩) (Nat.le_mul_of_pos_right n h.1)
  | valueArray n w => exact metered_readBuffer w n
  | array n t ih => exact metered_times (ih h) n
  | map maxSize k t ih =>
    have hvalue := (ih h).mono (Nat.le_refl _) (Nat.zero_le _)
    have hmap := (metered_readSize maxSize).bind fun n =>
      metered_readMap (metered_deserializeKey k) hvalue n .empty
    exact hmap.mono (Nat.max_le.mpr ⟨Nat.zero_le _, Nat.le_refl _⟩) (Nat.le_refl 1)
  | archive t u iht ihu =>
    have htail := fun head : Val t => (ihu h.2).bind fun tail => metered_pure short (head, tail)
    apply ((iht h.1).bind htail).mono
    . exact max_le_max (Nat.le_refl _) (Nat.max_le.mpr ⟨Nat.le_refl _, Nat.zero_le _⟩)
    . exact Nat.le_refl _
  | unit => exact metered_pure short _

namespace Message

theorem metered_readFields (short : ReaderError) {t : Ty} (h : t.Solid) :
    Metered short (readFields t) t.room 0 := by
  have hmembers : Metered short (deserialize t) t.room 0 :=
    (metered_deserialize h).mono (Nat.le_refl _) (Nat.zero_le _)
  have hfields := ((metered_readBytes 4).mono (Nat.le_refl 0) (Nat.zero_le 4)).bind fun length =>
    ((metered_readBytes 4).mono (Nat.le_refl 0) (Nat.zero_le 4)).bind fun topic =>
      hmembers.bind fun members =>
        metered_pure short ({ length := length, topic := topic, members := members } : Message t)
  apply hfields.mono _ (Nat.le_refl 0)
  omega

/--
Room is made for one element a byte, and, where the bytes run out, for all the elements that the
containers which the reader is in the midst of are said to have.
-/
theorem unpackResized_le {t : Ty} (h : t.Solid) {buf : List UInt8} {iter len : Nat}
    (hin : InRange buf iter len) : unpackResized t buf iter len ≤ len + t.room := by
  have hend : (Reader.ctor buf iter len).endIt ≤ (Reader.ctor buf iter len).buf.length := hin
  unfold unpackResized
  rw [Reader.resized_eq_demand _ hend, Reader.view_ctor]
  have hle := (metered_readFields .dataOverflow h).demand_le (Slice.read buf iter len)
  rwa [Slice.length_read buf iter len hin] at hle

-- The frame ends after it has said that there are 16 characters.
theorem unpackResized_le_cut :
    unpackResized (.buffer 16 1) [1, 0, 0, 0, 2, 0, 0, 0, 16] 0 9 ≤ 9 + (Ty.buffer 16 1).room :=
  @unpackResized_le (.buffer 16 1) Nat.one_pos _ 0 9 (by decide)

end Message

end BitsSerializer
end Lax
