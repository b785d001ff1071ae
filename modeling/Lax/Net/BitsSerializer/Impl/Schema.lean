import Mathlib.Data.List.Lex
import Lax.Foundation.LittleEndian
import Lax.Foundation.SortedMap
import Lax.Net.BitsSerializer.Impl.Reader

/-!
This module contains what the serializer writes for the types that it has an overload for, and how it
reads them again. The overloads are chosen by the compiler, a type stands for the one that it gets.
-/

namespace Lax
namespace BitsSerializer

-- The keys of maps and sets: integers of `w` bytes and strings.
inductive Key where
  | int (signed : Bool) (w : Nat)
  | string
  deriving DecidableEq, Repr

inductive Ty where
  | bool
  -- an integer, a floating point number or an enumeration of `w` bytes
  | value (w : Nat)
  -- `std::vector` of such values, or `std::string`
  | buffer (maxSize w : Nat)
  -- any other container with `resize`
  | container (maxSize : Nat) (t : Ty)
  -- `std::array` of values, and of other elements
  | valueArray (n w : Nat)
  | array (n : Nat) (t : Ty)
  | map (maxSize : Nat) (k : Key) (t : Ty)
  -- `archive(head, tail...)`, and what ends it
  | archive (head tail : Ty)
  | unit
  deriving DecidableEq, Repr

-- A set has nothing to say about its keys.
abbrev Ty.set (maxSize : Nat) (k : Key) : Ty :=
  .map maxSize k .unit

-- `std::numeric_limits<size_t>::max()`
def unlimited : Nat :=
  2 ^ 64 - 1

abbrev Ty.string : Ty :=
  .buffer unlimited 1

/-!
### Values
-/

abbrev KeyVal : Key → Type
  | .int _ w => BitVec (8 * w)
  | .string => List (BitVec 8)

-- Strings are compared character by character, as unsigned ones.
def KeyVal.rank : (k : Key) → KeyVal k → List Int
  | .int true _, v => [v.toInt]
  | .int false _, v => [(v.toNat : Int)]
  | .string, v => v.map fun c => (c.toNat : Int)

theorem KeyVal.rank_injective (k : Key) : Function.Injective (rank k) := by
  intro v v' h
  cases k with
  | int signed w =>
    cases signed with
    | true => exact BitVec.eq_of_toInt_eq (List.singleton_inj.mp h)
    | false => exact BitVec.eq_of_toNat_eq (Int.ofNat.inj (List.singleton_inj.mp h))
  | string =>
    apply List.map_injective_iff.mpr _ h
    intro c c' hc
    exact BitVec.eq_of_toNat_eq (Int.ofNat.inj hc)

instance (k : Key) : LinearOrder (KeyVal k) :=
  LinearOrder.lift' (KeyVal.rank k) (KeyVal.rank_injective k)

def Val : Ty → Type
  | .bool => Bool
  | .value w => BitVec (8 * w)
  | .buffer _ w => List (BitVec (8 * w))
  | .container _ t => List (Val t)
  | .valueArray n w => { xs : List (BitVec (8 * w)) // xs.length = n }
  | .array n t => { xs : List (Val t) // xs.length = n }
  | .map _ k t => SortedMap (KeyVal k) (Val t)
  | .archive t u => Val t × Val u
  | .unit => Unit

/-!
### Writing
-/

def writeSize (size : Nat) : List UInt8 :=
  if size < 0x80 then
    [UInt8.ofNat size]
  else if size < 0x4000 then
    [UInt8.ofNat (size >>> 8 ||| 0x80), UInt8.ofNat size]
  else
    -- It is asserted in debug builds only that the size is below `0x40000000`.
    [UInt8.ofNat (size >>> 24 ||| 0xC0), UInt8.ofNat (size >>> 16)]
      ++ LittleEndian.encode 2 (size % 2 ^ 16)

def writeBytes {w : Nat} (v : BitVec (8 * w)) : List UInt8 :=
  LittleEndian.encode w v.toNat

def writeBuffer {w : Nat} (vs : List (BitVec (8 * w))) : List UInt8 :=
  vs.flatMap writeBytes

def boolValue (v : Bool) : List UInt8 :=
  [if v then 1 else 0]

def serializeKey : (k : Key) → KeyVal k → List UInt8
  | .int _ w, v => writeBytes (w := w) v
  | .string, v => writeSize v.length ++ writeBuffer (w := 1) v

def serialize : (t : Ty) → Val t → List UInt8
  | .bool, v => boolValue v
  | .value w, v => writeBytes (w := w) v
  | .buffer _ w, vs => writeSize vs.length ++ writeBuffer (w := w) vs
  | .container _ t, xs => writeSize xs.length ++ xs.flatMap (serialize t)
  | .valueArray _ w, vs => writeBuffer (w := w) vs.val
  | .array _ t, xs => xs.val.flatMap (serialize t)
  | .map _ k t, m =>
    writeSize m.entries.length ++ m.entries.flatMap fun e => serializeKey k e.1 ++ serialize t e.2
  | .archive t u, v => serialize t v.1 ++ serialize u v.2
  | .unit, _ => []

/-!
### Reading
-/

open Input

def readByte : Input ReaderError UInt8 :=
  read 1 fun bytes => pure (bytes.headD 0)

def readBytes (w : Nat) : Input ReaderError (BitVec (8 * w)) :=
  read w fun bytes => pure (BitVec.ofNat (8 * w) (LittleEndian.decode bytes))

def readSizeField : Input ReaderError Nat := do
  let hb ← readByte
  if hb < 0x80 then
    return hb.toNat
  else
    let lb ← readByte
    if hb &&& 0x40 ≠ 0 then
      let lw ← readBytes 2
      return ((hb &&& 0x3F).toNat <<< 8 ||| lb.toNat) <<< 16 ||| lw.toNat
    else
      return (hb &&& 0x7F).toNat <<< 8 ||| lb.toNat

def readSize (maxSize : Nat) : Input ReaderError Nat := do
  let size ← readSizeField
  if maxSize < size then fail .invalidData (pure 0) else pure size

def readBool : Input ReaderError Bool := do
  let tmp ← readByte
  if 1 < tmp then fail .invalidData (pure (tmp == 1)) else pure (tmp == 1)

def values (w : Nat) : (n : Nat) → List UInt8 → { vs : List (BitVec (8 * w)) // vs.length = n }
  | 0, _ => ⟨[], rfl⟩
  | n + 1, bytes =>
    let v := BitVec.ofNat (8 * w) (LittleEndian.decode (bytes.take w))
    let vs := values w n (bytes.drop w)
    ⟨v :: vs.val, congrArg Nat.succ vs.property⟩

-- All of the values are read at once.
def readBuffer (w n : Nat) : Input ReaderError { vs : List (BitVec (8 * w)) // vs.length = n } :=
  if n = 0 then
    pure (values w n [])
  else
    read (w * n) fun bytes => pure (values w n bytes)

def deserializeKey : (k : Key) → Input ReaderError (KeyVal k)
  | .int _ w => readBytes w
  | .string => do
    let size ← readSize unlimited
    let vs ← resize size (readBuffer 1 size)
    pure vs.val

-- An element at a time gets into the map. It is left out if its key is there.
def readMap {κ ν : Type} [LinearOrder κ] (key : Input ReaderError κ) (value : Input ReaderError ν) :
    Nat → SortedMap κ ν → Input ReaderError (SortedMap κ ν)
  | 0, m => pure m
  | n + 1, m => do
    let k ← key
    let v ← value
    readMap key value n (m.emplace k v)

def deserialize : (t : Ty) → Input ReaderError (Val t)
  | .bool => readBool
  | .value w => readBytes w
  | .buffer maxSize w => do
    let size ← readSize maxSize
    let vs ← resize size (readBuffer w size)
    pure vs.val
  | .container maxSize t => do
    let size ← readSize maxSize
    let xs ← resize size (times (deserialize t) size)
    pure xs.val
  | .valueArray n w => readBuffer w n
  | .array n t => times (deserialize t) n
  | .map maxSize k t => do
    let size ← readSize maxSize
    readMap (deserializeKey k) (deserialize t) size .empty
  | .archive t u => do
    let head ← deserialize t
    let tail ← deserialize u
    pure (head, tail)
  | .unit => pure ()

end BitsSerializer
end Lax
