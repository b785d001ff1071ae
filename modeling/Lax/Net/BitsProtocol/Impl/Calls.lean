import Lax.Net.BitsProtocol.Impl.Protocol
import Lax.Net.Buffer.Impl.Extent

/-!
This module contains the calls that the protocol makes on its buffers, in the order in which it makes
them. What they ask for is checked in debug builds only.
-/

namespace Lax
namespace BitsProtocol

open Extent (initialSize pack)

-- `send_modified`: each modifier appends what it is going to overwrite. `size` is the size of the buffer.
def sequenceCalls (cfg : Config) (flags : Flags) : List Extent.Call :=
  if cfg.enableSequence && flags.enableSequence then [.append false sequenceSize] else []

def checksumCalls (cfg : Config) (flags : Flags) (size : Nat) : List Extent.Call :=
  if cfg.enableChecksum && flags.enableChecksum then
    if size = headerLength then [] else [.append false checksumSize]
  else
    []

def cipherCalls (cfg : Config) (flags : Flags) (size : Nat) : List Extent.Call :=
  if cfg.enableCipher && flags.enableCipher then
    let payloadSize := sizeSub size headerLength
    if payloadSize = 0 then [] else [.append false (Cipher.padSize payloadSize)]
  else
    []

def sendModifiedCalls (cfg : Config) (flags : Flags) (e : Extent) : List Extent.Call :=
  let sequence := sequenceCalls cfg flags
  let e := e.callAll initialSize sequence
  let checksum := checksumCalls cfg flags e.size
  let e := e.callAll initialSize checksum
  sequence ++ checksum ++ cipherCalls cfg flags e.size

-- The calls of `send` on the buffer into which the message has been packed, and its extent then. `lens` are
-- the lengths of the pieces in which the members of the message are written.
def sendCalls (cfg : Config) (flags : Flags) (lens : List Nat) : Extent × List Extent.Call :=
  let packed := pack initialSize lens
  let size := packed.writtenBytesCount
  if size < headerLength then
    (packed.extent, [])
  else if Modifiers.needsToModify cfg flags then
    (packed.extent, .rewind size :: sendModifiedCalls cfg flags (packed.extent.rewind size))
  else
    (packed.extent, [.rewind size])

-- The calls of `send` for a message that is serialized already.
def sendDataCalls (cfg : Config) (flags : Flags) (len : Nat) : List Extent.Call :=
  if len < headerLength then
    []
  else if Modifiers.needsToModify cfg flags then
    .append false len :: sendModifiedCalls cfg flags (({} : Extent).append initialSize len)
  else
    []

variable {Body : UInt32 → Type} (env : Env Body)

def onRecvCalls (p : BitsProtocol) (bytes : List UInt8) : List Extent.Call :=
  if bytes = [] then
    []
  else
    let l := loop env p.mods (p.recvBuf ++ bytes) 0
    match l.rc with
    | .error _ => [.append false bytes.length]
    | .ok () => [.append false bytes.length, .popFront l.processedLen]

def onRecvAllCalls (p : BitsProtocol) : List (List UInt8) → List Extent.Call
  | [] => []
  | bytes :: chunks =>
    let r := onRecv env p bytes
    match r.rc with
    | .error _ => onRecvCalls env p bytes
    | .ok () => onRecvCalls env p bytes ++ onRecvAllCalls r.protocol chunks

end BitsProtocol
end Lax
