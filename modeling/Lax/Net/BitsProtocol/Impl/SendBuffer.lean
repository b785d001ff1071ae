import Lax.Net.BitsProtocol.Impl.Protocol
import Lax.Net.Buffer.Impl.Extent
import Lax.Net.Buffer.Impl.ResizeBuffer

/-!
This module contains the sending side of `bits_protocol` with the buffers in which the frames are built.
`none` is an access outside of a block.
-/

namespace Lax
namespace ResizeBuffer

/-!
### Access through `data()` and iterators
-/

def readAt (pool : BufferPool) (b : ResizeBuffer) (pos len : Nat) : Option (List UInt8) := do
  let addr ← b.buf
  if pos + len ≤ (pool.block addr).capacity then
    -- a byte that has not been written has no value
    (Slice.read (pool.block addr).data pos len).mapM id
  else
    none

def writeAt (pool : BufferPool) (b : ResizeBuffer) (pos : Nat) (bytes : List UInt8) :
    Option BufferPool := do
  let addr ← b.buf
  if bytes = [] ∨ pos + bytes.length ≤ (pool.block addr).capacity then
    some (pool.write addr pos (bytes.map some))
  else
    none

/-!
### The output adapter of the serializer
-/

def increaseBufferSize (pool : BufferPool) (b : ResizeBuffer) : Option (BufferPool × ResizeBuffer) :=
  b.resize pool (max (Extent.increasedSize b.size) (b.capacity pool))

theorem size_increaseBufferSize {pool pool' : BufferPool} {b b' : ResizeBuffer}
    (h : b.increaseBufferSize pool = some (pool', b')) : b.size < b'.size := by
  have hlt := Extent.lt_increasedSize b.size
  have hle := Nat.le_max_left (Extent.increasedSize b.size) (b.capacity pool)
  have hsize : b'.size = max (Extent.increasedSize b.size) (b.capacity pool) := by
    unfold increaseBufferSize resize at h
    split at h
    . cases h
      rfl
    . obtain ⟨result, -, h⟩ := Option.bind_eq_some_iff.mp h
      cases h
      rfl
  omega

set_option maxRecDepth 20000 in
-- `writeInternal` calls itself until what it writes ends before `_end`.
def growTo (pool : BufferPool) (b : ResizeBuffer) (stop : Nat) : Option (BufferPool × ResizeBuffer) :=
  if stop ≤ b.size then
    some (pool, b)
  else
    match _hgrown : b.increaseBufferSize pool with
    | none => none
    | some (pool, b) => growTo pool b stop
termination_by stop - b.size
decreasing_by
  have := size_increaseBufferSize _hgrown
  omega

def writeAll (pool : BufferPool) (b : ResizeBuffer) (outPos : Nat) :
    List (List UInt8) → Option ((BufferPool × ResizeBuffer) × Nat)
  | [] => some ((pool, b), outPos)
  | piece :: pieces => do
    let (pool, b) ← b.growTo pool (outPos + piece.length)
    let pool ← b.writeAt pool outPos piece
    writeAll pool b (outPos + piece.length) pieces

def updateLengthField (pool : BufferPool) (b : ResizeBuffer) (msgPos newLen : Nat) :
    Option BufferPool :=
  b.writeAt pool msgPos (lengthField newLen)

end ResizeBuffer

/-!
### Modifiers
-/

def Sequencer.onSendBuffer (s : Sequencer) (pool : BufferPool) (buf : ResizeBuffer)
    (msgPos msgLen : Nat) : Option ((BufferPool × ResizeBuffer) × Sequencer) := do
  let (pool, buf) ← buf.append pool [97] -- ensure 1 more byte
  let pool ← buf.writeAt pool (msgPos + msgLen) [s.sendSeq]
  let pool ← buf.updateLengthField pool msgPos (msgLen + sequenceSize)
  return ((pool, buf), { s with sendSeq := s.sendSeq + 1 })

def Checksum.onSendBuffer (lib : Botan) (pool : BufferPool) (buf : ResizeBuffer)
    (msgPos msgLen : Nat) : Option (BufferPool × ResizeBuffer) :=
  if msgLen = headerLength then
    some (pool, buf)
  else do
    let payload ← buf.readAt pool (msgPos + headerLength) (sizeSub msgLen headerLength)
    let crc := lib.crc32 payload
    let (pool, buf) ← buf.append pool [97, 98, 99, 100]
    let pool ← buf.writeAt pool (msgPos + msgLen) crc
    let pool ← buf.updateLengthField pool msgPos (msgLen + checksumSize)
    return (pool, buf)

def Cipher.onSendBuffer (lib : Botan) (cfg : Config) (sender : CipherImpl) (pool : BufferPool)
    (buf : ResizeBuffer) (msgPos msgLen : Nat) :
    Option ((BufferPool × ResizeBuffer) × CipherImpl) :=
  let payloadSize := sizeSub msgLen headerLength
  if payloadSize = 0 then
    some ((pool, buf), sender)
  else do
    let padSize := padSize payloadSize
    let (pool, buf) ← buf.append pool (pad.take padSize)
    let cipherLen := payloadSize + padSize
    let cipherPos := msgPos + headerLength
    let processLen := sizeSub cipherLen blockSize
    let finalPos := cipherPos + processLen
    let hashed ← buf.readAt pool cipherPos (min payloadSize 64)
    let hash := { sender with data := lib.sha1 (hashed ++ sender.data) }
    let text ← buf.readAt pool cipherPos processLen
    let (out, state) := BlockMode.encryptProcess lib.aes128 sender.key (processLen / blockSize)
      sender.nonce text
    let pool ← buf.writeAt pool cipherPos out
    let last ← buf.readAt pool finalPos (blockSize - padSize)
    let pool ← buf.writeAt pool finalPos (BlockMode.encryptFinish lib.aes128 sender.key state last)
    let pool ← buf.updateLengthField pool msgPos (msgLen + padSize)
    return ((pool, buf), hash.complete cfg)

namespace Modifiers

def sendSequenceBuffer (cfg : Config) (flags : Flags) (mods : Modifiers) (pool : BufferPool)
    (buf : ResizeBuffer) : Option ((BufferPool × ResizeBuffer) × Modifiers) :=
  if cfg.enableSequence && flags.enableSequence then do
    let (buf, sequencer) ← mods.sequencer.onSendBuffer pool buf 0 buf.size
    return (buf, mods.withSequencer sequencer)
  else
    some ((pool, buf), mods)

def sendChecksumBuffer (lib : Botan) (cfg : Config) (flags : Flags) (pool : BufferPool)
    (buf : ResizeBuffer) : Option (BufferPool × ResizeBuffer) :=
  if cfg.enableChecksum && flags.enableChecksum then
    Checksum.onSendBuffer lib pool buf 0 buf.size
  else
    some (pool, buf)

def sendCipherBuffer (lib : Botan) (cfg : Config) (flags : Flags) (mods : Modifiers)
    (pool : BufferPool) (buf : ResizeBuffer) : Option ((BufferPool × ResizeBuffer) × Modifiers) :=
  if cfg.enableCipher && flags.enableCipher then do
    let (buf, sender) ← Cipher.onSendBuffer lib cfg mods.cipher.sender pool buf 0 buf.size
    return (buf, mods.withSender sender)
  else
    some ((pool, buf), mods)

end Modifiers

namespace BitsProtocol

variable {Body : UInt32 → Type} (env : Env Body)

/-!
### What becomes of a frame
-/

-- The frame is refused before it gets to the session, or the session gets its bytes, or, in the loopback
-- configuration, the protocol gets them back.
inductive Outcome (Body : UInt32 → Type) where
  | refused (e : Failure)
  | sent (bytes : List UInt8) (protocol : BitsProtocol)
  | looped (r : OnRecv Body)

def passOn (loopback : Bool) (p : BitsProtocol) (bytes : List UInt8) : Outcome Body :=
  if loopback then .looped (onRecv env p bytes) else .sent bytes p

def sendModifiedBuffer (loopback : Bool) (p : BitsProtocol) (flags : Flags) (pool : BufferPool)
    (buf : ResizeBuffer) : Option (Outcome Body) := do
  let ((pool, buf), mods) ← p.mods.sendSequenceBuffer env.cfg flags pool buf
  let (pool, buf) ← Modifiers.sendChecksumBuffer env.lib env.cfg flags pool buf
  let ((pool, buf), mods) ← mods.sendCipherBuffer env.lib env.cfg flags pool buf
  let bytes ← buf.readAt pool 0 buf.size
  return passOn env loopback { p with mods } bytes

-- The members of a message in the pieces in which the serializer writes them.
structure Pieces (codec : Bitsery Body) where
  pieces : (cls : UInt32) → Body cls → List (List UInt8)
  flatten_pieces : ∀ cls body, (pieces cls body).flatten = codec.serialize cls body

-- All of the members in one piece.
def Pieces.whole (codec : Bitsery Body) : Pieces codec :=
  ⟨fun cls body => [codec.serialize cls body], fun _ _ => by simp⟩

-- The bytes that `pack` writes, with their number in the length field.
def headed (m : BitsMessage Body) : List UInt8 :=
  let bytes := m.pack env.codec
  Slice.write bytes 0 (lengthField bytes.length)

-- `send(m)`
def sendPacked (pieces : Pieces env.codec) (loopback : Bool) (pool : BufferPool) (p : BitsProtocol)
    (m : BitsMessage Body) : Option (Outcome Body) := do
  let (pool, buf) ← ({} : ResizeBuffer).increaseBufferSize pool
  let ((pool, buf), size) ← buf.writeAll pool 0
    (BitsMessage.value4b m.length :: BitsMessage.value4b m.cls :: pieces.pieces m.cls m.body)
  if size < headerLength then
    return .refused (.result .failBitsPackError)
  else
    let buf := buf.rewind size
    let pool ← buf.updateLengthField pool 0 size
    if Modifiers.needsToModify env.cfg m.flags then
      sendModifiedBuffer env loopback p m.flags pool buf
    else
      let bytes ← buf.readAt pool 0 size
      return passOn env loopback p bytes

-- `send(m, data, len)`
def sendSerialized (loopback : Bool) (pool : BufferPool) (p : BitsProtocol) (flags : Flags)
    (data : List UInt8) : Option (Outcome Body) :=
  if data.length < headerLength then
    some (.refused (.result .failInvalidMessageHeader))
  else if Modifiers.needsToModify env.cfg flags then do
    let (pool, buf) ← ({} : ResizeBuffer).append pool data
    sendModifiedBuffer env loopback p flags pool buf
  else
    some (passOn env loopback p data)

end BitsProtocol
end Lax
