import Lax.Net.Modifier.Impl.Basic

/-!
This module contains the single byte sequence check.
-/

namespace Lax

structure Sequencer where
  sendSeq : UInt8
  recvSeq : UInt8
  deriving DecidableEq, Repr

namespace Sequencer

def onBind : Sequencer :=
  ⟨1, 1⟩

def onRecv (s : Sequencer) (buf : List UInt8) (msgPos msgLen : Nat) : Received Sequencer :=
  let pos := sizeSub (msgPos + msgLen) sequenceSize
  let newLen := sizeSub msgLen sequenceSize
  -- `recv_seq_` moves on whether the sequence matches or not.
  let s' := { s with recvSeq := s.recvSeq + 1 }
  let access := Event.access pos sequenceSize
  match buf[pos]? with
  | none => ⟨.error .fault, buf, s, [access]⟩
  | some seq =>
    if seq = s.recvSeq then
      ⟨.ok newLen, buf, s', [access, .subtract msgLen sequenceSize]⟩
    else
      ⟨.error (.result .failInvalidMessageSequence), buf, s', [access]⟩

def onSend (s : Sequencer) (buf : List UInt8) (msgPos msgLen : Nat) : List UInt8 × Sequencer :=
  let buf := buf ++ [97] -- ensure 1 more byte
  let buf := Slice.write buf (msgPos + msgLen) [s.sendSeq]
  (updateLengthField buf msgPos (msgLen + sequenceSize), { s with sendSeq := s.sendSeq + 1 })

-- A message that is to be sent. Its length field is there.
structure Plain where
  bytes : List UInt8
  hasLength : 4 ≤ bytes.length

-- The frames that are made of one message after the other.
def sendAll (s : Sequencer) : List Plain → List (List UInt8)
  | [] => []
  | m :: ms =>
    let (frame, s) := s.onSend m.bytes 0 m.bytes.length
    frame :: sendAll s ms

-- What `on_recv` reports about one frame after the other.
def recvAll (s : Sequencer) : List (List UInt8) → List (Except Failure Nat)
  | [] => []
  | frame :: frames =>
    let received := s.onRecv frame 0 frame.length
    received.rc :: recvAll received.state frames

end Sequencer

end Lax
