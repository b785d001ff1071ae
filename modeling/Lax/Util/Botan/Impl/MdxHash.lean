import Lax.Foundation.Absorb
import Lax.Foundation.Slice

/-!
This module contains the hash functions of the crypto library that compress one block after the
other: a buffer for the bytes of an incomplete block, and the padding at the end.
-/

namespace Lax

structure MdxParams where
  blockLen : Nat
  bigByteEndian : Bool
  bigBitEndian : Bool
  countSize : Nat
  outputLength : Nat
  -- `write_count` throws otherwise.
  le_countSize : 8 ≤ countSize
  countSize_lt_outputLength : countSize < outputLength
  countSize_lt_blockLen : countSize < blockLen

structure MdxHash (σ : Type) where
  digest : σ
  buffer : List UInt8
  count : UInt64
  position : Nat
  deriving DecidableEq, Repr

namespace MdxHash

def storeBe (input : UInt64) : List UInt8 :=
  [
    (input >>> 56).toUInt8, (input >>> 48).toUInt8, (input >>> 40).toUInt8, (input >>> 32).toUInt8,
    (input >>> 24).toUInt8, (input >>> 16).toUInt8, (input >>> 8).toUInt8, input.toUInt8
  ]

def storeLe (input : UInt64) : List UInt8 :=
  (storeBe input).reverse

def bufferInsert (buf : List UInt8) (bufOffset : Nat) (input : List UInt8) : List UInt8 :=
  let toCopy := min input.length (buf.length - bufOffset)
  Slice.write buf bufOffset (input.take toCopy)

variable {σ : Type} (p : MdxParams) (compress : σ → List UInt8 → σ)

def compressN (digest : σ) (input : List UInt8) (blocks : Nat) : σ :=
  Absorb.blocks p.blockLen compress blocks digest input

-- The constructor and `clear`, with the digest that the derived class starts from
def clear (digest : σ) : MdxHash σ where
  digest := digest
  buffer := List.replicate p.blockLen 0
  count := 0
  position := 0

-- The first part of `add_data`: the bytes that are waiting, and what is left of the input if they
-- have become a block
def fillBuffer (h : MdxHash σ) (input : List UInt8) : MdxHash σ × List UInt8 :=
  if h.position ≠ 0 then
    let h := { h with buffer := bufferInsert h.buffer h.position input }
    if h.position + input.length ≥ h.buffer.length then
      ({ h with digest := compressN p compress h.digest h.buffer 1, position := 0 },
        input.drop (h.buffer.length - h.position))
    else
      (h, input)
  else
    (h, input)

def addData (h : MdxHash σ) (input : List UInt8) : MdxHash σ :=
  let h := { h with count := h.count + UInt64.ofNat input.length }
  let (h, input) := fillBuffer p compress h input
  let fullBlocks := input.length / h.buffer.length
  let remaining := input.length % h.buffer.length
  let digest := compressN p compress h.digest input fullBlocks
  {
    h with
    digest := digest
    buffer := bufferInsert h.buffer h.position (input.drop (fullBlocks * h.buffer.length))
    position := h.position + remaining
  }

def writeCount (h : MdxHash σ) (buffer : List UInt8) : List UInt8 :=
  let bitCount := h.count * 8
  let out := buffer.length - p.countSize
  Slice.write buffer (out + p.countSize - 8)
    (if p.bigByteEndian then storeBe bitCount else storeLe bitCount)

-- The digest that is copied out. The state is cleared then.
def finalResult (h : MdxHash σ) : σ :=
  let buffer := Slice.write h.buffer h.position [if p.bigBitEndian then 0x80 else 0x01]
  let buffer := Slice.write buffer (h.position + 1)
    (List.replicate (buffer.length - (h.position + 1)) 0)
  let (digest, buffer) :=
    if h.position ≥ buffer.length - p.countSize then
      (compressN p compress h.digest buffer 1, List.replicate buffer.length 0)
    else
      (h.digest, buffer)
  compressN p compress digest (writeCount p h buffer) 1

end MdxHash
end Lax
