import Lax.Foundation.Machine
import Lax.Net.BitsProtocol.Impl.Modified

/-!
This module contains threads that send on one session at the same time. What a thread does without
a lock touches nothing but its own buffer, so each step here is an atomic increment, a section under
`send_mutex_` or an append to `send_buffer_`, together with the local work that follows it.
-/

namespace Lax
namespace ConcurrentSend

inductive Pc where
  | idle
  -- `send` has packed a message.
  | packed (flags : Flags) (buf : List UInt8)
  | sequenced (flags : Flags) (buf : List UInt8)
  -- between the two sections of `cipher::on_send`
  | hashed (flags : Flags) (buf key nonce : List UInt8)
  | completed (flags : Flags) (frame : List UInt8)

-- A frame on the wire. The receiver gets the flags from the class of the message.
structure Frame where
  flags : Flags
  bytes : List UInt8

structure State (Tid : Type) where
  mods : Modifiers
  threads : Tid → Pc
  wire : List Frame
  -- history: who has a sequence but has not appended yet, and who has entered the cipher
  drawn : List Tid
  ciphering : List Tid

inductive Event (Tid : Type) where
  | send (t : Tid) (flags : Flags) (buf : List UInt8)
  | sequence (t : Tid)
  | hash (t : Tid)
  | complete (t : Tid)
  | append (t : Tid)

variable {Tid : Type} [DecidableEq Tid] (lib : Botan) (cfg : Config)

def State.goto (s : State Tid) (t : Tid) (pc : Pc) : State Tid :=
  { s with threads := Function.update s.threads t pc }

def cipherActive (flags : Flags) (buf : List UInt8) : Bool :=
  (cfg.enableCipher && flags.enableCipher) && decide (sizeSub buf.length headerLength ≠ 0)

-- `on_send` appends the padding before it takes the lock.
def padded (buf : List UInt8) : List UInt8 :=
  buf ++ Cipher.pad.take (Cipher.padSize (sizeSub buf.length headerLength))

def step (s : State Tid) : Event Tid → Option (State Tid)
  | .send t flags buf =>
    match s.threads t with
    | .idle => if headerLength ≤ buf.length then some (s.goto t (.packed flags buf)) else none
    | _ => none
  | .sequence t =>
    match s.threads t with
    | .packed flags buf =>
      let (buf, mods) := Modifiers.sendSequence cfg flags s.mods buf
      let buf := Modifiers.sendChecksum lib cfg flags buf
      let drawn := if cfg.enableSequence && flags.enableSequence then s.drawn ++ [t] else s.drawn
      some { s.goto t (.sequenced flags buf) with mods := mods, drawn := drawn }
    | _ => none
  | .hash t =>
    match s.threads t with
    | .sequenced flags buf =>
      if cipherActive cfg flags buf then
        let ((key, nonce), sender) :=
          Cipher.startSend lib s.mods.cipher.sender (padded buf) 0 buf.length
        some {
          s.goto t (.hashed flags buf key nonce) with
          mods := s.mods.withSender sender
          ciphering := s.ciphering ++ [t]
        }
      else
        some (s.goto t (.completed flags buf))
    | _ => none
  | .complete t =>
    match s.threads t with
    | .hashed flags buf key nonce =>
      let sender := s.mods.cipher.sender.complete cfg
      let frame := Cipher.encrypt lib key nonce (padded buf) 0 buf.length
      let frame := updateLengthField frame 0
        (buf.length + Cipher.padSize (sizeSub buf.length headerLength))
      some { s.goto t (.completed flags frame) with mods := s.mods.withSender sender }
    | _ => none
  | .append t =>
    match s.threads t with
    | .completed flags frame =>
      some {
        s.goto t .idle with
        wire := s.wire ++ [⟨flags, frame⟩]
        drawn := s.drawn.erase t
        ciphering := s.ciphering.erase t
      }
    | _ => none

def machine : Machine (State Tid) (Event Tid) where
  init := ⟨Modifiers.onBind, fun _ => .idle, [], [], []⟩
  step := step lib cfg

def Accepts (receiver : Modifiers) : List Frame → Prop
  | [] => True
  | frame :: frames =>
    let r := Modifiers.recvModified lib cfg frame.flags receiver frame.bytes 0 frame.bytes.length
    (∃ finalLen, r.rc = .ok finalLen) ∧ Accepts r.state frames

end ConcurrentSend
end Lax
