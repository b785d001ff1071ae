import Lax.Net.Modifier.Impl.Basic

/-!
This module contains the CRC32 check. It has no state.
-/

namespace Lax
namespace Checksum

variable (lib : Botan)

def onRecv (buf : List UInt8) (msgPos msgLen : Nat) : Received Unit :=
  if msgLen = headerLength then
    .start buf () msgLen
  else
    let hashPos := msgPos + headerLength
    let bodyLen := sizeSub msgLen checksumSize
    let hashLen := sizeSub bodyLen headerLength
    let crcPos := sizeSub (msgPos + msgLen) checksumSize
    let hashed :=
      [
        Event.subtract msgLen checksumSize,
        .subtract bodyLen headerLength,
        .access hashPos hashLen
      ]
    -- a length that has wrapped around is longer than any buffer
    if msgLen < checksumSize + headerLength ∨ ¬InRange buf hashPos hashLen then
      ⟨.error .fault, buf, (), hashed⟩
    else
      let crc := lib.crc32 (Slice.read buf hashPos hashLen)
      let compared := hashed ++ [.access crcPos checksumSize]
      if ¬InRange buf crcPos checksumSize then
        ⟨.error .fault, buf, (), compared⟩
      else if Slice.read buf crcPos checksumSize ≠ crc then
        ⟨.error (.result .failIncorrectChecksum), buf, (), compared⟩
      else
        ⟨.ok bodyLen, buf, (), compared⟩

def onSend (buf : List UInt8) (msgPos msgLen : Nat) : List UInt8 :=
  if msgLen = headerLength then
    buf
  else
    let crc := lib.crc32 (Slice.read buf (msgPos + headerLength) (sizeSub msgLen headerLength))
    let buf := buf ++ [97, 98, 99, 100]
    let buf := Slice.write buf (msgPos + msgLen) crc
    updateLengthField buf msgPos (msgLen + checksumSize)

end Checksum
end Lax
