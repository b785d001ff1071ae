import Lax.Net.Modifier.Impl.Checksum
import Lax.Net.Modifier.Impl.Cipher
import Lax.Net.Modifier.Impl.Sequencer

/-!
This module contains the stack of modifiers: `send_modified` and `recv_modified`.
-/

namespace Lax

structure Modifiers where
  sequencer : Sequencer
  cipher : Cipher
  deriving DecidableEq, Repr

namespace Modifiers

variable (lib : Botan) (cfg : Config)

def onBind : Modifiers :=
  ⟨Sequencer.onBind, Cipher.onBind⟩

def withReceiver (mods : Modifiers) (receiver : CipherImpl) : Modifiers :=
  { mods with cipher := { mods.cipher with receiver := receiver } }

def withSender (mods : Modifiers) (sender : CipherImpl) : Modifiers :=
  { mods with cipher := { mods.cipher with sender := sender } }

def withSequencer (mods : Modifiers) (sequencer : Sequencer) : Modifiers :=
  { mods with sequencer := sequencer }

def needsToModify (flags : Flags) : Bool :=
  (cfg.enableCipher && flags.enableCipher)
    || (cfg.enableChecksum && flags.enableChecksum)
    || (cfg.enableSequence && flags.enableSequence)

def sendSequence (flags : Flags) (mods : Modifiers) (buf : List UInt8) :
    List UInt8 × Modifiers :=
  if cfg.enableSequence && flags.enableSequence then
    let (buf, sequencer) := mods.sequencer.onSend buf 0 buf.length
    (buf, mods.withSequencer sequencer)
  else
    (buf, mods)

def sendChecksum (flags : Flags) (buf : List UInt8) : List UInt8 :=
  if cfg.enableChecksum && flags.enableChecksum then
    Checksum.onSend lib buf 0 buf.length
  else
    buf

def sendCipher (flags : Flags) (mods : Modifiers) (buf : List UInt8) :
    List UInt8 × Modifiers :=
  if cfg.enableCipher && flags.enableCipher then
    let (buf, sender) := Cipher.onSend lib cfg mods.cipher.sender buf 0 buf.length
    (buf, mods.withSender sender)
  else
    (buf, mods)

def sendModified (flags : Flags) (mods : Modifiers) (buf : List UInt8) : List UInt8 × Modifiers :=
  let (buf, mods) := sendSequence cfg flags mods buf
  let buf := sendChecksum lib cfg flags buf
  sendCipher lib cfg flags mods buf

def recvCipher (mods : Modifiers) (buf : List UInt8) (msgPos msgLen : Nat) : Received Modifiers :=
  (Cipher.onRecv lib cfg mods.cipher.receiver buf msgPos msgLen).map mods.withReceiver

def recvChecksum (mods : Modifiers) (buf : List UInt8) (msgPos msgLen : Nat) :
    Received Modifiers :=
  (Checksum.onRecv lib buf msgPos msgLen).map fun _ => mods

def recvSequence (mods : Modifiers) (buf : List UInt8) (msgPos msgLen : Nat) :
    Received Modifiers :=
  (mods.sequencer.onRecv buf msgPos msgLen).map mods.withSequencer

def recvModified (flags : Flags) (mods : Modifiers) (buf : List UInt8) (msgPos msgLen : Nat) :
    Received Modifiers :=
  let r := Received.start buf mods msgLen
  let r := r.andThen (cfg.enableCipher && flags.enableCipher) fun buf mods msgLen =>
    recvCipher lib cfg mods buf msgPos msgLen
  let r := r.andThen (cfg.enableChecksum && flags.enableChecksum) fun buf mods msgLen =>
    recvChecksum lib mods buf msgPos msgLen
  r.andThen (cfg.enableSequence && flags.enableSequence) fun buf mods msgLen =>
    recvSequence mods buf msgPos msgLen

end Modifiers

end Lax
