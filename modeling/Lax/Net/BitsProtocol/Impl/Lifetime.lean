import Lax.Foundation.Machine
import Lax.Net.BitsProtocol.Impl.Protocol

/-!
This module contains a `bits_protocol` from its construction on: the constructor, `bind`, `on_bind`
and then any sends and receives, whether its modifiers have been bound or not.
-/

namespace Lax
namespace Lifetime

open BitsMessage BitsProtocol

inductive Kind where
  | sequencer
  | checksum
  | cipher
  deriving DecidableEq, Repr

inductive Action where
  | onBind (kind : Kind)
  -- `on_send` or `on_recv`
  | use (kind : Kind)
  deriving DecidableEq, Repr

-- `receiver_` and `sender_` are null pointers until the cipher is bound.
structure Members where
  sequencer : Sequencer
  cipher : Option Cipher
  -- history
  actions : List Action
  deriving DecidableEq, Repr

namespace Members

variable (lib : Botan) (cfg : Config) (flags : Flags)

def ctor : Members :=
  ⟨⟨0, 0⟩, none, []⟩

def did (o : Members) (action : Action) : Members :=
  { o with actions := o.actions ++ [action] }

def bind (o : Members) : Kind → Members
  | .sequencer => { o.did (.onBind .sequencer) with sequencer := Sequencer.onBind }
  | .checksum => o.did (.onBind .checksum)
  | .cipher => { o.did (.onBind .cipher) with cipher := some Cipher.onBind }

def onBind (o : Members) : Members :=
  ((o.bind .sequencer).bind .checksum).bind .cipher

def withSequencer (o : Members) (sequencer : Sequencer) : Members :=
  { o with sequencer := sequencer }

def withCipher (o : Members) (cipher : Cipher) : Members :=
  { o with cipher := some cipher }

def sendSequence (o : Members) (buf : List UInt8) : List UInt8 × Members :=
  if cfg.enableSequence && flags.enableSequence then
    let o := o.did (.use .sequencer)
    let (buf, sequencer) := o.sequencer.onSend buf 0 buf.length
    (buf, o.withSequencer sequencer)
  else
    (buf, o)

def sendChecksum (o : Members) (buf : List UInt8) : List UInt8 × Members :=
  if cfg.enableChecksum && flags.enableChecksum then
    (Checksum.onSend lib buf 0 buf.length, o.did (.use .checksum))
  else
    (buf, o)

-- There is no buffer if it goes through a null pointer.
def sendCipher (o : Members) (buf : List UInt8) : Option (List UInt8) × Members :=
  if cfg.enableCipher && flags.enableCipher then
    let o := o.did (.use .cipher)
    match o.cipher with
    | some cipher =>
      let (buf, sender) := Cipher.onSend lib cfg cipher.sender buf 0 buf.length
      (some buf, o.withCipher { cipher with sender := sender })
    | none => (if sizeSub buf.length headerLength = 0 then some buf else none, o)
  else
    (some buf, o)

def sendModified (o : Members) (buf : List UInt8) : Option (List UInt8) × Members :=
  let (buf, o) := sendSequence cfg flags o buf
  let (buf, o) := sendChecksum lib cfg flags o buf
  sendCipher lib cfg flags o buf

def recvCipher (o : Members) (buf : List UInt8) (msgPos msgLen : Nat) : Received Members :=
  let o := o.did (.use .cipher)
  match o.cipher with
  | some cipher =>
    (Cipher.onRecv lib cfg cipher.receiver buf msgPos msgLen).map fun receiver =>
      o.withCipher { cipher with receiver := receiver }
  | none => ⟨if sizeSub msgLen headerLength = 0 then .ok msgLen else .error .fault, buf, o, []⟩

def recvChecksum (o : Members) (buf : List UInt8) (msgPos msgLen : Nat) : Received Members :=
  (Checksum.onRecv lib buf msgPos msgLen).map fun _ => o.did (.use .checksum)

def recvSequence (o : Members) (buf : List UInt8) (msgPos msgLen : Nat) : Received Members :=
  let o := o.did (.use .sequencer)
  (o.sequencer.onRecv buf msgPos msgLen).map o.withSequencer

def recvModified (o : Members) (buf : List UInt8) (msgPos msgLen : Nat) : Received Members :=
  let r := Received.start buf o msgLen
  let r := r.andThen (cfg.enableCipher && flags.enableCipher) fun buf o msgLen =>
    recvCipher lib cfg o buf msgPos msgLen
  let r := r.andThen (cfg.enableChecksum && flags.enableChecksum) fun buf o msgLen =>
    recvChecksum lib o buf msgPos msgLen
  r.andThen (cfg.enableSequence && flags.enableSequence) fun buf o msgLen =>
    recvSequence o buf msgPos msgLen

end Members

inductive Loop where
  | idle
  -- the loop of `on_recv`, with `processed_len`
  | running (processedLen : Nat)
  -- `on_recv` has failed and nothing is read any more
  | closed
  deriving DecidableEq, Repr

structure State where
  -- whether `session_` is set
  session : Bool
  members : Members
  recvBuf : List UInt8
  loop : Loop
  -- what `session::send` has got
  sent : List UInt8
  -- whether the behaviour is undefined from now on
  fault : Bool
  deriving DecidableEq, Repr

-- What `session::post` gets. A packet has the id of no session until something sets it.
structure Packet (Body : UInt32 → Type) where
  id : UInt32 := 0
  message : BitsMessage Body

inductive Event (Body : UInt32 → Type) where
  | send (m : BitsMessage Body)
  | sendData (flags : Flags) (data : List UInt8)
  | recv (bytes : List UInt8)
  -- one round of the loop of `on_recv`
  | round

variable {Body : UInt32 → Type} (env : Env Body)

-- `archivedId` is the member `id`, if the `serialize` of the class goes over it as well.
variable (archivedId : (cls : UInt32) → Body cls → Option UInt32)

def ctor (enableLoopback : Bool) : State :=
  ⟨false, if enableLoopback then Members.ctor.onBind else Members.ctor, [], .idle, [], false⟩

-- `protocol::bind` sets the session and nothing else.
def State.bind (s : State) : State :=
  if s.session then s else { s with session := true }

-- The constructor of a session creates its protocol and binds it to itself.
def create (enableLoopback : Bool) : State :=
  (ctor enableLoopback).bind

-- `protocol::send`
def State.write (s : State) (buf : List UInt8) : State :=
  if s.session then { s with sent := s.sent ++ buf } else s

def sendFinal (s : State) (flags : Flags) (buf : List UInt8) : State :=
  if Modifiers.needsToModify env.cfg flags then
    match Members.sendModified env.lib env.cfg flags s.members buf with
    | (some buf, members) => { s with members := members }.write buf
    | (none, members) => { s with members := members, fault := true }
  else
    s.write buf

def send (s : State) (m : BitsMessage Body) : State :=
  let buf := m.pack env.codec
  let size := buf.length
  if size < headerLength then s else sendFinal env s m.flags (Slice.write buf 0 (lengthField size))

def sendData (s : State) (flags : Flags) (data : List UInt8) : State :=
  if data.length < headerLength then s else sendFinal env s flags data

-- Topic and length of the next frame, or `none` where the loop ends.
def nextFrame (buf : List UInt8) (pos : Nat) : Option (UInt32 × Nat) :=
  let remainedLen := buf.length - pos
  if headerLength < remainedLen then
    let msgLen := getLength buf pos
    if remainedLen < msgLen then none else some (getTopic buf (pos + 4), msgLen)
  else
    none

-- `BITS_MSG_CREATE` makes a packet, and `unpack` fills in the members that its class archives.
def packet (m : BitsMessage Body) : Packet Body :=
  match archivedId m.cls m.body with
  | none => { message := m }
  | some id => { id := id, message := m }

def handle (s : State) (pos : Nat) (topic : UInt32) (msgLen : Nat) :
    State × Option (Packet Body) :=
  match env.create topic with
  | none => ({ s with loop := .closed }, none)
  | some flags =>
    let r := Members.recvModified env.lib env.cfg flags s.members s.recvBuf pos msgLen
    let s := { s with members := r.state, recvBuf := r.buf }
    match r.rc with
    | .error e => ({ s with loop := .closed, fault := s.fault || e = .fault }, none)
    | .ok finalLen =>
      match unpack env.codec topic flags s.recvBuf pos finalLen with
      | none => ({ s with loop := .closed }, none)
      | some m => ({ s with loop := .running (pos + msgLen) }, some (packet archivedId m))

def round (s : State) (pos : Nat) : State × Option (Packet Body) :=
  match nextFrame s.recvBuf pos with
  | none => ({ s with recvBuf := s.recvBuf.drop pos, loop := .idle }, none)
  | some (topic, msgLen) => handle env archivedId s pos topic msgLen

-- The state after the event and the packet that it posts.
def step (s : State) (e : Event Body) : Option (State × Option (Packet Body)) :=
  if s.fault then
    none
  else
    match e, s.loop with
    | .send m, _ => some (send env s m, none)
    | .sendData flags data, _ => some (sendData env s flags data, none)
    | .recv [], .idle => some ({ s with loop := .closed }, none)
    | .recv bytes, .idle => some ({ s with recvBuf := s.recvBuf ++ bytes, loop := .running 0 }, none)
    | .round, .running pos => some (round env archivedId s pos)
    | _, _ => none

def machine (init : State) : Machine State (Event Body) where
  init := init
  step := fun s e => (step env archivedId s e).map Prod.fst

end Lifetime
end Lax
