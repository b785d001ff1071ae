import Lax.Net.Buffer.Impl.BufferPool

/-!
This module contains how much of a `ResizeBuffer` there is, without what is in it. What the serializer
writes and where depends on nothing else.
-/

namespace Lax
namespace BufferPool

def classes : List Nat :=
  (initPools (2 ^ startPowerOf2) steps).map FixedSizeBufferPool.length

-- The capacity of a block that has to hold `n` bytes.
def capacityFor (n : Nat) : Nat :=
  (classes.find? fun length => n ≤ length).getD n

end BufferPool

open BufferPool (capacityFor)

-- `size()`, and the capacity of the block if there is one.
structure Extent where
  size : Nat := 0
  block : Option Nat := none
  deriving DecidableEq, Repr

namespace Extent

variable (initialSize : Nat)

def capacity (e : Extent) : Nat :=
  e.block.getD 0

def reserve (e : Extent) (len : Nat) : Extent :=
  match e.block with
  | none => { e with block := some (capacityFor (max len initialSize)) }
  | some capacity =>
    if capacity < e.size + len then { e with block := some (capacityFor (e.size + len)) } else e

def append (e : Extent) (len : Nat) : Extent :=
  let e := e.reserve initialSize len
  { e with size := e.size + len }

def resize (e : Extent) (newSize : Nat) : Extent :=
  if newSize ≤ e.capacity then
    { e with size := newSize }
  else
    { e.reserve initialSize (newSize - e.capacity) with size := newSize }

def rewind (e : Extent) (pos : Nat) : Extent :=
  if pos ≥ e.size then e else { e with size := pos }

def popFront (e : Extent) (count : Nat) : Extent :=
  match e.block with
  | none => e
  | some _ => { e with size := e.size - min count e.size }

/-!
### The output adapter of the serializer
-/

-- The factor of `increaseBufferSize` is a `double`, which is exact for every size below `2 ^ 52`.
def increasedSize (size : Nat) : Nat :=
  let newSize := size * 3 / 2 + 128
  newSize - newSize % 64

def increaseBufferSize (e : Extent) : Extent :=
  e.resize initialSize (max (increasedSize e.size) e.capacity)

theorem lt_increasedSize (size : Nat) : size < increasedSize size := by
  unfold increasedSize
  dsimp only
  omega

@[simp]
theorem size_resize (e : Extent) (newSize : Nat) : (e.resize initialSize newSize).size = newSize := by
  unfold resize
  split <;> rfl

theorem size_lt_increaseBufferSize (e : Extent) :
    e.size < (e.increaseBufferSize initialSize).size := by
  have hlt := lt_increasedSize e.size
  simp [increaseBufferSize]
  omega

-- `writeInternal` calls itself until what it writes ends before `_end`.
def growTo (e : Extent) (stop : Nat) : Extent :=
  if stop ≤ e.size then e else growTo (e.increaseBufferSize initialSize) stop
termination_by stop - e.size
decreasing_by
  have := size_lt_increaseBufferSize initialSize e
  omega

-- `len` bytes are written at `offset` of a block of `capacity` bytes.
structure Write where
  offset : Nat
  len : Nat
  capacity : Nat
  deriving DecidableEq, Repr

structure Packed where
  writes : List Write
  extent : Extent
  writtenBytesCount : Nat
  deriving DecidableEq, Repr

def writeAll (e : Extent) (outPos : Nat) : List Nat → Packed
  | [] => ⟨[], e, outPos⟩
  | len :: lens =>
    let e := e.growTo initialSize (outPos + len)
    let packed := writeAll e (outPos + len) lens
    { packed with writes := ⟨outPos, len, e.capacity⟩ :: packed.writes }

-- `pack` into an empty buffer. The members of the message are written in pieces of `lens` bytes, behind
-- the length and the topic.
def pack (lens : List Nat) : Packed :=
  writeAll initialSize (({} : Extent).increaseBufferSize initialSize) 0 (4 :: 4 :: lens)

/-!
### Calls and what they ask for
-/

inductive Call where
  -- `p` is null or points to what is appended.
  | append (null : Bool) (len : Nat)
  | rewind (pos : Nat)
  | popFront (count : Nat)
  deriving DecidableEq, Repr

-- The conditions in `EXPECT` and `VERIFY` at the beginning of the function.
def Call.Expected (e : Extent) : Call → Prop
  | .append null len => null = false ∧ len > 0
  | .rewind pos => pos < e.size
  | .popFront count => e.block.isSome ∧ count > 0

instance (e : Extent) (call : Call) : Decidable (call.Expected e) := by
  cases call <;> unfold Call.Expected <;> infer_instance

def call (e : Extent) : Call → Extent
  | .append _ len => e.append initialSize len
  | .rewind pos => e.rewind pos
  | .popFront count => e.popFront count

def callAll (e : Extent) (calls : List Call) : Extent :=
  calls.foldl (call initialSize) e

-- All of the calls, one after the other, find what they expect.
def AllExpected (e : Extent) : List Call → Prop
  | [] => True
  | c :: calls => c.Expected e ∧ AllExpected (e.call initialSize c) calls

end Extent

-- The default of the constructor.
def Extent.initialSize : Nat := 8 * 1024

end Lax
