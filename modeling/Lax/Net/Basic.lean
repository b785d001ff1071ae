import Mathlib.Algebra.Group.Nat.Defs
import Lax.Foundation.BlockMode

/-!
This module contains what the protocol and session code shares: reasons, ways to fail, unsigned
size arithmetic, the static configuration and the third party algorithms. `EXPECT`, `VERIFY` and
`ENSURE` are empty in a release build, so none of them is a branch here.
-/

namespace Lax

inductive Reason where
  | success
  | failNullPointer
  | failZeroSizeData
  | failInvalidParameter
  | failNotImplemented
  | failInvalidSessionIndex
  | failInvalidAddress
  | failAcceptorOpen
  | failAcceptorBind
  | failAcceptorListen
  | failSessionAlreadyRecving
  | successSessionAlreadySending
  | successSessionNoDataToSend
  | failInvalidSession
  | failSocketClosed
  | failNullMessagePointer
  | failInvalidMessageHeader
  | failProtocolNotAdded
  | failInvalidBitsMessage
  | failBitsMessageNotRegistered
  | failBitsPackError
  | failBitsUnpackError
  | failInvalidMessageSequence
  | failNullHashFunction
  | failIncorrectChecksum
  | failIncorrectChecksumLength
  deriving DecidableEq, Repr

inductive Failure where
  -- The call returns `result(false, value)`.
  | result (value : Reason)
  -- An exception of the crypto library leaves it.
  | exception
  -- It accesses memory outside of the buffer and its behaviour is undefined.
  | fault
  deriving DecidableEq, Repr

-- `a - b` on `std::size_t`
def sizeSub (a b : Nat) : Nat :=
  if b ≤ a then a - b else a + 2 ^ 64 - b

theorem sizeSub_of_le {a b : Nat} (h : b ≤ a) : sizeSub a b = a - b := by
  simp [sizeSub, h]

def InRange (buf : List UInt8) (pos len : Nat) : Prop :=
  pos + len ≤ buf.length

instance (buf : List UInt8) (pos len : Nat) : Decidable (InRange buf pos len) := by
  unfold InRange
  infer_instance

abbrev headerLength : Nat := 8

abbrev sequenceSize : Nat := 1

abbrev checksumSize : Nat := 4

abbrev blockSize : Nat := 16

structure Config where
  enableCipher : Bool := true
  enableChecksum : Bool := true
  enableSequence : Bool := true
  keyChangeInterval : UInt64 := 1024
  deriving DecidableEq, Repr

structure Flags where
  enableSequence : Bool := false
  enableChecksum : Bool := false
  enableCipher : Bool := false
  deriving DecidableEq, Repr

-- The hash functions are functions of their input and AES-128 is a block cipher. Nothing else is
-- asked of the library.
structure Botan where
  crc32 : List UInt8 → List UInt8
  sha1 : List UInt8 → List UInt8
  aes128 : BlockMode.BlockCipher blockSize
  length_crc32 : ∀ input, (crc32 input).length = checksumSize

-- Stands for the library where no message asks for it.
def Botan.inert : Botan where
  crc32 := fun _ => [0, 0, 0, 0]
  sha1 := fun _ => []
  aes128 := ⟨fun _ block => block, fun _ block => block, fun _ _ h => h, fun _ _ h => h, fun _ _ _ => rfl⟩
  length_crc32 := fun _ => rfl

end Lax
