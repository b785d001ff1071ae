import Lax.Net.Modifier.Impl.Basic

/-!
This module contains the AES-128/CBC/PKCS7 modifier. Its key and nonce are derived from a SHA1 chain
over the plain messages.
-/

namespace Lax

open BlockMode

structure CipherImpl where
  key : List UInt8
  nonce : List UInt8
  data : List UInt8
  count : UInt64
  deriving DecidableEq, Repr

namespace CipherImpl

variable (lib : Botan) (cfg : Config)

def updateHash (c : CipherImpl) (buf : List UInt8) (msgPos msgLen : Nat) : CipherImpl :=
  { c with data := lib.sha1 (Slice.read buf msgPos (min msgLen 64) ++ c.data) }

def updateKey (c : CipherImpl) : CipherImpl :=
  { c with key := c.data.take 16 }

def complete (c : CipherImpl) : CipherImpl :=
  let c := { c with nonce := c.data.take 16 }
  let c := if c.count % cfg.keyChangeInterval = 0 then c.updateKey else c
  { c with count := c.count + 1 }

end CipherImpl

structure Cipher where
  receiver : CipherImpl
  sender : CipherImpl
  deriving DecidableEq, Repr

namespace Cipher

variable (lib : Botan) (cfg : Config)

def initialKey : List UInt8 :=
  [0x2B, 0x7E, 0x15, 0x16, 0x28, 0xAE, 0xD2, 0xA6, 0xAB, 0xF7, 0x15, 0x88, 0x09, 0xCF, 0x4F, 0x3C]

def initialNonce : List UInt8 :=
  [0xAC, 0xE0, 0x3D, 0x51, 0x9F, 0x3C, 0xBA, 0x2B, 0xF6, 0x7C, 0xF1, 0xB7, 0xE1, 0xC4, 0xF0, 0x2D]

def onBind : Cipher :=
  let impl := ⟨initialKey, initialNonce, [], 0⟩
  ⟨impl, impl⟩

def onRecv (receiver : CipherImpl) (buf : List UInt8) (msgPos msgLen : Nat) :
    Received CipherImpl :=
  let cipherLen := sizeSub msgLen headerLength
  let sized := [Event.subtract msgLen headerLength]
  if cipherLen = 0 then
    ⟨.ok msgLen, buf, receiver, sized⟩
  else
    let cipherPos := msgPos + headerLength
    let processLen := sizeSub cipherLen blockSize
    let finalPos := cipherPos + processLen
    let sized := sized ++ [.subtract cipherLen blockSize]
    if processLen % blockSize ≠ 0 then
      -- `process` asserts that it gets whole blocks
      ⟨.error .exception, buf, receiver, sized⟩
    else if ¬InRange buf cipherPos cipherLen then
      ⟨.error .fault, buf, receiver, sized ++ [.access cipherPos cipherLen]⟩
    else
      let (plain, state) := decryptProcess lib.aes128 receiver.key (processLen / blockSize)
        receiver.nonce (Slice.read buf cipherPos processLen)
      let buf := Slice.write buf cipherPos plain
      let decrypted := sized ++ [.access cipherPos processLen, .access finalPos blockSize]
      match decryptFinish lib.aes128 receiver.key state (Slice.read buf finalPos blockSize) with
      -- the padding is malformed, the blocks before the last one are decrypted already
      | none => ⟨.error .exception, buf, receiver, decrypted⟩
      | some last =>
        let buf := Slice.write buf finalPos last
        let padSize := sizeSub blockSize last.length
        let hashLen := sizeSub cipherLen padSize
        let receiver := receiver.updateHash lib buf cipherPos hashLen
        let receiver := receiver.complete cfg
        ⟨
          .ok (sizeSub msgLen padSize), buf, receiver,
          decrypted ++
            [
              .access finalPos last.length,
              .subtract blockSize last.length,
              .subtract cipherLen padSize,
              .access cipherPos (min hashLen 64),
              .subtract msgLen padSize
            ]
        ⟩

def pad : List UInt8 :=
  [0x12, 0x34, 0x56, 0x78, 0x90, 0x12, 0x34, 0x56, 0x78, 0x90, 0x12, 0x34, 0x56, 0x78, 0x90, 0x12]

def padSize (payloadSize : Nat) : Nat :=
  blockSize - payloadSize % blockSize

-- `on_send` is a locked section, the encryption proper and another locked section, `complete`.
def startSend (sender : CipherImpl) (buf : List UInt8) (msgPos msgLen : Nat) :
    (List UInt8 × List UInt8) × CipherImpl :=
  ((sender.key, sender.nonce),
    sender.updateHash lib buf (msgPos + headerLength) (sizeSub msgLen headerLength))

def encrypt (key nonce buf : List UInt8) (msgPos msgLen : Nat) : List UInt8 :=
  let payloadSize := sizeSub msgLen headerLength
  let cipherLen := payloadSize + padSize payloadSize
  let cipherPos := msgPos + headerLength
  let processLen := sizeSub cipherLen blockSize
  let finalPos := cipherPos + processLen
  let (out, state) := encryptProcess lib.aes128 key (processLen / blockSize) nonce
    (Slice.read buf cipherPos processLen)
  let buf := Slice.write buf cipherPos out
  let last := Slice.read buf finalPos (blockSize - padSize payloadSize)
  Slice.write buf finalPos (encryptFinish lib.aes128 key state last)

def onSend (sender : CipherImpl) (buf : List UInt8) (msgPos msgLen : Nat) :
    List UInt8 × CipherImpl :=
  let payloadSize := sizeSub msgLen headerLength
  if payloadSize = 0 then
    (buf, sender)
  else
    let buf := buf ++ pad.take (padSize payloadSize)
    let ((key, nonce), sender) := startSend lib sender buf msgPos msgLen
    let buf := encrypt lib key nonce buf msgPos msgLen
    let sender := sender.complete cfg
    (updateLengthField buf msgPos (msgLen + padSize payloadSize), sender)

end Cipher

end Lax
