import Mathlib.Tactic.Common

/-!
This module contains the words of the crypto library: their bytes, which are counted from the highest
one, rotations, and the big endian forms in a buffer.
-/

namespace Lax

abbrev Byte := BitVec 8

abbrev Word := BitVec 32

namespace Word

def getByte (byteNum : Nat) (input : Word) : Byte :=
  (input >>> ((3 - byteNum) * 8)).setWidth 8

def makeUint32 (i0 i1 i2 i3 : Byte) : Word :=
  (i0.setWidth 32 <<< 24) ||| (i1.setWidth 32 <<< 16) ||| (i2.setWidth 32 <<< 8) ||| i3.setWidth 32

def rotl (rot : Nat) (input : Word) : Word :=
  (input <<< rot) ||| (input >>> (32 - rot))

def rotr (rot : Nat) (input : Word) : Word :=
  (input >>> rot) ||| (input <<< (32 - rot))

def loadBe (input : List UInt8) (off : Nat) : Word :=
  let byte i := (input.getD (off * 4 + i) 0).toBitVec
  makeUint32 (byte 0) (byte 1) (byte 2) (byte 3)

def storeBe (input : Word) : List UInt8 :=
  [getByte 0 input, getByte 1 input, getByte 2 input, getByte 3 input].map UInt8.ofBitVec

@[simp]
theorem length_storeBe (input : Word) : (storeBe input).length = 4 := rfl

end Word

end Lax
