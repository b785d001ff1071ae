import Lax.Util.Botan.Impl.Aes
import Lax.Util.Botan.Impl.Cbc

/-!
This module contains the object behind "AES-128/CBC/PKCS7" and the calls the cipher of a protocol makes
on it. The object is `thread_local`: one message after another finds it as the last one left it.
-/

namespace Lax

structure CbcMode where
  -- `none` where `m_EK` is empty
  schedule : Option Aes.KeySchedule
  state : List UInt8
  deriving DecidableEq, Repr

namespace CbcMode

variable (cacheLineSize : Aes.CacheLineSize) (mode : CbcMode)

def create : CbcMode := ⟨none, List.replicate 16 0⟩

def clear : CbcMode := ⟨none, List.replicate mode.state.length 0⟩

def validNonceLength (n : Nat) : Bool :=
  n = 0 ∨ n = 16

def start (nonce : List UInt8) : Option CbcMode :=
  if ¬validNonceLength nonce.length then
    -- `Invalid_IV_Length`
    none
  else if nonce.length ≠ 0 then
    some { mode with state := nonce }
  else
    some mode

def setKey (key : List UInt8) : Option CbcMode :=
  if key.length ≠ 16 then
    -- `Invalid_Key_Length`
    none
  else
    match Aes.keySchedule key with
    | .error () => none
    | .ok schedule => some { mode with schedule := some schedule }

-- No block means no call of the cipher, which is what asks for a key.
def processEncrypt (buf : List UInt8) : Option (List UInt8 × CbcMode) :=
  if buf.length % 16 ≠ 0 then
    none
  else if buf.length = 0 then
    some ([], mode)
  else
    mode.schedule.map fun ks =>
      let (out, state) := CbcEncryption.process 16 (Aes.encryptN cacheLineSize ks.ek ks.me)
        (buf.length / 16) mode.state buf
      (out, { mode with state := state })

def processDecrypt (buf : List UInt8) : Option (List UInt8 × CbcMode) :=
  if buf.length % 16 ≠ 0 then
    none
  else if buf.length = 0 then
    some ([], mode)
  else
    mode.schedule.map fun ks =>
      let (out, state) := CbcDecryption.process 16 (Aes.decryptN cacheLineSize ks.dk ks.md) 1
        (buf.length / 16) mode.state buf
      (out, { mode with state := state })

def finishEncrypt (buffer : List UInt8) : Option (List UInt8) :=
  mode.schedule.bind fun ks =>
    CbcEncryption.finish 16 (Aes.encryptN cacheLineSize ks.ek ks.me) mode.state buffer

def finishDecrypt (buffer : List UInt8) : Option (List UInt8) :=
  mode.schedule.bind fun ks =>
    CbcDecryption.finish 16 (Aes.decryptN cacheLineSize ks.dk ks.md) 1 mode.state buffer

-- What `cipher::on_send` does with the payload, and `cipher::on_recv` with what it received. The one
-- sets the key first, the other the nonce.
def encrypt (key nonce payload : List UInt8) : Option (List UInt8) := do
  let mode ← mode.clear.setKey key
  let mode ← mode.start nonce
  let padSize := 16 - payload.length % 16
  let processLen := payload.length + padSize - 16
  let (out, mode) ← mode.processEncrypt cacheLineSize (payload.take processLen)
  let last ← mode.finishEncrypt cacheLineSize (payload.drop processLen)
  return out ++ last

def decrypt (key nonce cipher : List UInt8) : Option (List UInt8) := do
  let mode ← mode.clear.start nonce
  let mode ← mode.setKey key
  -- Below a block the source wraps around and `process` throws. Here it gets nothing, and `finish` throws.
  let processLen := cipher.length - 16
  let (out, mode) ← mode.processDecrypt cacheLineSize (cipher.take processLen)
  let last ← mode.finishDecrypt cacheLineSize (cipher.drop processLen)
  return out ++ last

end CbcMode

end Lax
