import Lax.Net.BitsProtocol.Impl.Message
import Lax.Net.BitsProtocol.Lemmas.Modified

/-!
This module contains `bits_protocol`. The loopback configuration, in which `send` calls `on_recv`
for tests, is left out.
-/

namespace Lax

open BitsMessage

-- What is fixed while the program runs: the flags of a class are those its constructor sets.
structure Env (Body : UInt32 → Type) where
  cfg : Config
  lib : Botan
  codec : Bitsery Body
  create : UInt32 → Option Flags

-- A program with a single class, of topic 1 and with an array of `n` bytes.
def Env.single (n : Nat) (flags : Flags) : Env fun _ => { xs : List UInt8 // xs.length = n } where
  cfg := {}
  lib := Botan.inert
  codec := Bitsery.array n
  create := fun topic => if topic = 1 then some flags else none

structure BitsProtocol where
  recvBuf : List UInt8
  mods : Modifiers
  deriving DecidableEq, Repr

namespace BitsProtocol

variable {Body : UInt32 → Type} (env : Env Body)

def onBind : BitsProtocol :=
  ⟨[], Modifiers.onBind⟩

/-!
### Sending
-/

def sendFinal (flags : Flags) (mods : Modifiers) (buf : List UInt8) : List UInt8 × Modifiers :=
  if Modifiers.needsToModify env.cfg flags then
    Modifiers.sendModified env.lib env.cfg flags mods buf
  else
    (buf, mods)

-- The longest message that `pack` gets into the block that it writes to.
def longestPacked : Nat := 16384

-- What becomes of the buffer of `send` whatever block it is in.
def send (mods : Modifiers) (m : BitsMessage Body) : Except Failure (List UInt8 × Modifiers) :=
  let buf := m.pack env.codec
  let size := buf.length
  if longestPacked < size then
    -- `resize` has not made room, and the serializer writes behind the end of the block
    .error .fault
  else if size < headerLength then
    .error (.result .failBitsPackError)
  else
    let buf := Slice.write buf 0 (lengthField size)
    .ok (sendFinal env m.flags mods buf)

-- The message is serialized already, for example once for a multicast.
def sendData (flags : Flags) (mods : Modifiers) (data : List UInt8) :
    Except Failure (List UInt8 × Modifiers) :=
  if data.length < headerLength then
    .error (.result .failInvalidMessageHeader)
  else
    .ok (sendFinal env flags mods data)

/-!
### Receiving
-/

def getLength (buf : List UInt8) (pos : Nat) : Nat :=
  (getValue4b buf pos).toNat

def getTopic (buf : List UInt8) (pos : Nat) : UInt32 :=
  getValue4b buf pos

-- A frame that `on_recv` has got as a whole, with what it finds at that moment.
structure Call where
  topic : UInt32
  mods : Modifiers
  buf : List UInt8
  pos : Nat
  len : Nat

structure Handled (Body : UInt32 → Type) where
  rc : Except Failure (BitsMessage Body)
  buf : List UInt8
  mods : Modifiers

def handle (call : Call) : Handled Body :=
  match env.create call.topic with
  | none => ⟨.error (.result .failBitsMessageNotRegistered), call.buf, call.mods⟩
  | some flags =>
    let r := Modifiers.recvModified env.lib env.cfg flags call.mods call.buf call.pos call.len
    match r.rc with
    | .error e => ⟨.error e, r.buf, r.state⟩
    | .ok finalLen =>
      match unpack env.codec call.topic flags r.buf call.pos finalLen with
      | none => ⟨.error (.result .failBitsUnpackError), r.buf, r.state⟩
      | some m => ⟨.ok m, r.buf, r.state⟩

-- The next frame at `pos`, or `none` where the loop ends.
def nextCall (mods : Modifiers) (buf : List UInt8) (pos : Nat) : Option Call :=
  let remainedLen := buf.length - pos
  if headerLength < remainedLen then
    let msgLen := getLength buf pos
    if remainedLen < msgLen then
      none
    else
      some ⟨getTopic buf (pos + 4), mods, buf, pos, msgLen⟩
  else
    none

theorem nextCall_eq_some {mods : Modifiers} {buf : List UInt8} {pos : Nat} {call : Call}
    (h : nextCall mods buf pos = some call) :
    call = ⟨getTopic buf (pos + 4), mods, buf, pos, getLength buf pos⟩
      ∧ pos + headerLength < buf.length ∧ InRange call.buf call.pos call.len := by
  unfold nextCall at h
  dsimp only at h
  split at h
  . split at h
    . contradiction
    . injection h with h
      subst h
      refine ⟨rfl, by omega, ?_⟩
      unfold InRange
      dsimp only
      omega
  . contradiction

theorem unpack_eq_some {codec : Bitsery Body} {cls : UInt32} {flags : Flags} {buf : List UInt8}
    {pos len : Nat} {m : BitsMessage Body} (h : unpack codec cls flags buf pos len = some m) :
    headerLength ≤ len ∧ len < 2 ^ 63 := by
  unfold unpack at h
  dsimp only at h
  split at h
  . contradiction
  . next hin =>
    rw [not_or] at hin
    split at h
    . contradiction
    . next hlen =>
      have := Slice.length_read buf pos len (Decidable.of_not_not hin.2)
      omega

theorem length_buf_handle {call : Call} (hin : InRange call.buf call.pos call.len) :
    (handle env call).buf.length = call.buf.length := by
  unfold handle
  split
  . rfl
  . next flags _ =>
    have hlen := @Modifiers.length_buf_recvModified env.lib env.cfg flags call.mods _ _ _ hin
    dsimp only
    split
    . exact hlen
    . split <;> exact hlen

theorem headerLength_le_of_handle {call : Call} {m : BitsMessage Body}
    (hin : InRange call.buf call.pos call.len) (h : (handle env call).rc = .ok m) :
    headerLength ≤ call.len := by
  unfold handle at h
  split at h
  . contradiction
  . dsimp only at h
    split at h
    . contradiction
    . next finalLen hrc =>
      have hfinal := Modifiers.recvModified_eq_ok hin hrc
      split at h
      . contradiction
      . next m' hunpack =>
        have := unpack_eq_some hunpack
        omega

-- What a run of the loop leaves: the frames it got to, what it posted and where it stopped.
structure Loop (Body : UInt32 → Type) where
  rc : Except Failure Unit
  posted : List (BitsMessage Body)
  calls : List Call
  buf : List UInt8
  mods : Modifiers
  processedLen : Nat

def loop (mods : Modifiers) (buf : List UInt8) (pos : Nat) : Loop Body :=
  match _hcall : nextCall mods buf pos with
  | none => ⟨.ok (), [], [], buf, mods, pos⟩
  | some call =>
    let handled := handle env call
    match _hrc : handled.rc with
    | .error e => ⟨.error e, [], [call], handled.buf, handled.mods, pos⟩
    | .ok m =>
      let rest := loop handled.mods handled.buf (pos + call.len)
      { rest with posted := m :: rest.posted, calls := call :: rest.calls }
termination_by buf.length - pos
decreasing_by
  obtain ⟨hcall, hpos, hin⟩ := nextCall_eq_some _hcall
  have hlen := headerLength_le_of_handle env hin _hrc
  have hbuf := length_buf_handle env hin
  have hheader : headerLength = 8 := rfl
  subst hcall
  dsimp only at hlen hbuf ⊢
  omega

structure OnRecv (Body : UInt32 → Type) where
  rc : Except Failure Unit
  posted : List (BitsMessage Body)
  calls : List Call
  protocol : BitsProtocol

def onRecv (p : BitsProtocol) (bytes : List UInt8) : OnRecv Body :=
  if bytes = [] then
    ⟨.error (.result .failZeroSizeData), [], [], p⟩
  else
    let l := loop env p.mods (p.recvBuf ++ bytes) 0
    match l.rc with
    | .error e => ⟨.error e, l.posted, l.calls, ⟨l.buf, l.mods⟩⟩
    | .ok () => ⟨.ok (), l.posted, l.calls, ⟨l.buf.drop l.processedLen, l.mods⟩⟩

-- The session hands on one read after the other and stops at the first failure.
def onRecvAll (p : BitsProtocol) : List (List UInt8) → OnRecv Body
  | [] => ⟨.ok (), [], [], p⟩
  | bytes :: chunks =>
    let r := onRecv env p bytes
    match r.rc with
    | .error _ => r
    | .ok () =>
      let rest := onRecvAll r.protocol chunks
      { rest with posted := r.posted ++ rest.posted, calls := r.calls ++ rest.calls }

end BitsProtocol

end Lax
