import Lax.Foundation.BlockMode
import Lax.Foundation.Slice
import Mathlib.Algebra.Group.Nat.Defs

/-!
This module contains the CBC mode of the crypto library over the functions of a block cipher.
Decryption takes as many blocks at once as there is room for in `m_tempbuf`, and takes the padding off
without a branch that depends on it.
-/

namespace Lax

open BlockMode

namespace Ct

variable {w : Nat}

def expandMask (x : BitVec w) : BitVec w :=
  let r := (List.range (Nat.log2 w)).foldl (fun (r : BitVec w) k => r ||| (r >>> (2 ^ k))) x
  let r := r &&& 1#w
  ~~~(r - 1#w)

def select (mask from0 from1 : BitVec w) : BitVec w :=
  (from0 &&& mask) ||| (from1 &&& ~~~mask)

def isZero (x : BitVec w) : BitVec w :=
  ~~~expandMask x

def isEqual (x y : BitVec w) : BitVec w :=
  isZero (x ^^^ y)

def conditionalCopyMem (value from0 from1 : BitVec w) : BitVec w :=
  select (expandMask value) from0 from1

def ofBool (b : Bool) : BitVec w :=
  (BitVec.ofBool b).setWidth w

end Ct

namespace Pkcs7Padding

def addPadding (buffer : List UInt8) (lastBytePos blockSize : Nat) : List UInt8 :=
  let padValue := UInt8.ofNat (blockSize - lastBytePos)
  buffer ++ List.replicate padValue.toNat padValue

def unpad (block : List UInt8) : BitVec 64 :=
  let size := block.length
  let lastByte := (block.getD (size - 1) 0).toBitVec
  let badInput : BitVec 64 := Ct.expandMask (Ct.ofBool (decide (lastByte.toNat > size)))
  let padPos := BitVec.ofNat 64 size - lastByte.setWidth 64
  -- `i` goes from `size - 2` down to 1
  let badInput := (List.range' 1 (size - 2)).reverse.foldl (fun badInput i =>
    let other := ~~~Ct.isEqual (block.getD i 0).toBitVec lastByte
    let inside := Ct.expandMask (Ct.ofBool (decide (i ≥ padPos.toNat)))
    badInput ||| (other &&& inside).setWidth 64) badInput
  Ct.conditionalCopyMem badInput (BitVec.ofNat 64 size) padPos

end Pkcs7Padding

namespace CbcEncryption

variable (bs : Nat) (encryptN : Nat → List UInt8 → List UInt8)

-- Each block is xored with what the one before it was encrypted to, the first one with the state.
def loop : Nat → List UInt8 → List UInt8 → List UInt8
  | 0, _, _ => []
  | blocks + 1, prev, buf =>
    let out := encryptN 1 (xorBuf (buf.take bs) prev)
    out ++ loop blocks out (buf.drop bs)

def process (blocks : Nat) (state buf : List UInt8) : List UInt8 × List UInt8 :=
  if 0 < blocks then
    let out := loop bs encryptN blocks state buf
    (out, Slice.read out (bs * (blocks - 1)) bs)
  else
    ([], state)

-- `none` stands for an exception, here and below.
def finish (state buffer : List UInt8) : Option (List UInt8) :=
  let buffer := Pkcs7Padding.addPadding buffer (buffer.length % bs) bs
  if buffer.length % bs ≠ 0 then
    none
  else
    some (process bs encryptN (buffer.length / bs) state buffer).1

end CbcEncryption

namespace CbcDecryption

variable (bs : Nat) (decryptN : Nat → List UInt8 → List UInt8)

-- The size of `m_tempbuf`
def parallelBytes (parallelism : Nat) : Nat :=
  parallelism * bs * 4

-- One turn of the loop of `process`: the plain text and the new state
def batch (state buf : List UInt8) (toProc : Nat) : List UInt8 × List UInt8 :=
  let tempbuf := decryptN (toProc / bs) (buf.take toProc)
  let tempbuf := xorBuf (tempbuf.take bs) state ++ tempbuf.drop bs
  let tempbuf := tempbuf.take bs ++ xorBuf (tempbuf.drop bs) (buf.take (toProc - bs))
  (tempbuf, Slice.read buf (toProc - bs) bs)

def process (parallelism blocks : Nat) (state buf : List UInt8) : List UInt8 × List UInt8 :=
  if _hdone : blocks = 0 ∨ bs = 0 ∨ parallelism = 0 then
    ([], state)
  else
    let toProc := min (bs * blocks) (parallelBytes bs parallelism)
    let (out, state) := batch bs decryptN state buf toProc
    let rest := process parallelism (blocks - toProc / bs) state (buf.drop toProc)
    (out ++ rest.1, rest.2)
termination_by blocks
decreasing_by
  rw [not_or, not_or] at _hdone
  have hbatch : bs ≤ min (bs * blocks) (parallelBytes bs parallelism) := by
    have hle := Nat.le_mul_of_pos_right bs (Nat.pos_of_ne_zero _hdone.1)
    have hle' := Nat.le_mul_of_pos_left bs (Nat.pos_of_ne_zero _hdone.2.2)
    unfold parallelBytes
    omega
  have := Nat.div_pos hbatch (Nat.pos_of_ne_zero _hdone.2.1)
  omega

def finish (parallelism : Nat) (state buffer : List UInt8) : Option (List UInt8) :=
  let sz := buffer.length
  if sz = 0 ∨ sz % bs ≠ 0 then
    none
  else
    let plain := (process bs decryptN parallelism (sz / bs) state buffer).1
    let padBytes := bs - (Pkcs7Padding.unpad (Slice.read plain (sz - bs) bs)).toNat
    if padBytes = 0 then
      none
    else
      some (plain.take (sz - padBytes))

end CbcDecryption

end Lax
