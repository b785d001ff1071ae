import Lax.Net.BitsProtocol.Impl.Protocol
import Lax.Net.Session.Impl.Session

/-!
This module contains two sessions with a connection between them. Threads send messages on the one,
the other one reads what is on the wire, as much at a time as there happens to be.
-/

namespace Lax
namespace Link

structure State (Tid : Type) (Body : UInt32 → Type) where
  -- the side that sends
  mods : Modifiers
  session : Session.State Tid
  -- the side that reads: how far it has got, and whether it has failed
  protocol : BitsProtocol
  read : Nat
  posted : List (BitsMessage Body)
  rc : Except Failure Unit
  -- history: the message whose frame a thread has not appended yet, and those that are appended
  packed : Tid → Option (BitsMessage Body)
  sent : List (BitsMessage Body)

inductive Event (Tid : Type) (Body : UInt32 → Type) where
  -- `protocol::send` up to its call of `session::send`
  | send (t : Tid) (m : BitsMessage Body)
  | session (e : Session.Event Tid)
  | recv (n : Nat)

variable {Tid : Type} [DecidableEq Tid] {Body : UInt32 → Type} (env : Env Body) (length : Nat)

-- Whoever appends to `send_buffer_` in a step.
def appends (s : Session.State Tid) : Session.Event Tid → Option Tid
  | .next t _ =>
    match s.threads t with
    | .appending _ => some t
    | _ => none
  | _ => none

def noteAppended (s : State Tid Body) (t : Tid) : State Tid Body :=
  {
    s with
    sent := s.sent ++ (s.packed t).toList
    packed := Function.update s.packed t none
  }

def stepSession (s : State Tid Body) (e : Session.Event Tid) : Option (State Tid Body) :=
  (Session.step length s.session e).map fun session =>
    match appends s.session e with
    | some t => { noteAppended s t with session }
    | none => { s with session }

def step (s : State Tid Body) : Event Tid Body → Option (State Tid Body)
  | .send t m =>
    match BitsProtocol.send env s.mods m with
    | .error (.result _) => some s
    -- `pack` has left its block
    | .error _ => none
    | .ok (frame, mods) =>
      (Session.step length s.session (.send t frame)).map fun session =>
        { s with mods, session, packed := Function.update s.packed t (some m) }
  -- Nothing but messages is sent.
  | .session (.send _ _) => none
  | .session e => stepSession length s e
  | .recv n =>
    match s.rc with
    | .error _ => none
    | .ok () =>
      if 0 < n ∧ s.read + n ≤ s.session.wire.length then
        let r := BitsProtocol.onRecv env s.protocol (Slice.read s.session.wire s.read n)
        some {
          s with
          protocol := r.protocol
          read := s.read + n
          posted := s.posted ++ r.posted
          rc := r.rc
        }
      else
        none

def machine : Machine (State Tid Body) (Event Tid Body) where
  init := {
    mods := Modifiers.onBind, session := (Session.machine length).init
    protocol := BitsProtocol.onBind, read := 0, posted := [], rc := .ok ()
    packed := fun _ => none, sent := []
  }
  step := step env length

end Link
end Lax
