import Lax.Foundation.Machine
import Lax.Net.Service.Impl.Acceptor
import Lax.Util.Impl.Sequence

/-!
This module contains the acceptors and connectors of a service and the pool that both take their ids
from. Each call is one step, as it holds the mutex of the service.
-/

namespace Lax

structure Connector where
  id : Nat
  protocol : String
  addr : String
  deriving DecidableEq, Repr

structure Connections (Ip : Type) where
  acceptors : List (Nat × Acceptor Ip)
  connectors : List (Nat × Connector)
  acceptorCount : UInt16
  connectorCount : UInt16
  idGen : Sequence
  -- history: whether a call has found no id, and whether two have been registered under one id
  threw : Bool
  shared : Bool

namespace Connections

variable {Ip α : Type}

-- `MAXUINT16`
def endId : Nat := 65535

def ctor : Connections Ip :=
  ⟨[], [], 0, 0, Sequence.ctor 1 endId 100, false, false⟩

-- A map by id.
def put (xs : List (Nat × α)) (id : Nat) (x : α) : List (Nat × α) :=
  (xs.filter (·.1 ≠ id)) ++ [(id, x)]

def erase (xs : List (Nat × α)) (id : Nat) : List (Nat × α) :=
  xs.filter (·.1 ≠ id)

def ids (s : Connections Ip) : List Nat :=
  s.acceptors.map (·.1) ++ s.connectors.map (·.1)

-- `rc` is none if there is an exception. `acceptor` is the one that the call has made, whether or not
-- it is kept.
structure Listened (Ip : Type) where
  rc : Option Result
  acceptor : Option (Acceptor Ip)
  service : Connections Ip

-- `known` is what `protocol_factory::has` says.
def listen (fromString : String → Option Ip) (s : Connections Ip) (addr protocol : String)
    (known : Bool) (asio : Asio) : Listened Ip :=
  if ¬known then
    ⟨some ⟨false, .failProtocolNotAdded⟩, none, s⟩
  else
    match s.idGen.next with
    | none => ⟨none, none, { s with threw := true }⟩
    | some (id, idGen) =>
      let (rc, a) := (Acceptor.ctor id protocol (Addr.ofString fromString addr)).listen asio
      let s := { s with idGen := idGen }
      if rc.code then
        ⟨some rc, some a, {
          s with
          acceptors := put s.acceptors id a
          acceptorCount := s.acceptorCount + 1
          shared := s.shared || s.ids.contains id
        }⟩
      else
        ⟨some rc, some a, s⟩

-- `connector::connect` always reports a success: what comes of it is known later.
def connect (s : Connections Ip) (addr protocol : String) (known : Bool) :
    Option Result × Connections Ip :=
  if ¬known then
    (some ⟨false, .failProtocolNotAdded⟩, s)
  else
    match s.idGen.next with
    | none => (none, { s with threw := true })
    | some (id, idGen) =>
      let s := { s with idGen := idGen }
      (some ⟨true, .success⟩, {
        s with
        connectors := put s.connectors id ⟨id, protocol, addr⟩
        connectorCount := s.connectorCount + 1
        shared := s.shared || s.ids.contains id
      })

-- `ok` is whether `on_new_socket` does not throw.
def onConnected (s : Connections Ip) (k : Nat) (ok : Bool) : Connections Ip :=
  if k ∈ s.connectors.map (·.1) ∧ ok then
    { s with connectors := erase s.connectors k, connectorCount := s.connectorCount - 1 }
  else
    s

def onConnectFailed (s : Connections Ip) (k : Nat) : Connections Ip :=
  { s with connectors := erase s.connectors k, connectorCount := s.connectorCount - 1 }

inductive Event where
  | listen (addr protocol : String) (known : Bool) (asio : Asio)
  | connect (addr protocol : String) (known : Bool)
  | onConnected (k : Nat) (ok : Bool)
  | onConnectFailed (k : Nat)
  deriving DecidableEq, Repr

def step (fromString : String → Option Ip) (s : Connections Ip) : Event → Option (Connections Ip)
  | .listen addr protocol known asio => some (s.listen fromString addr protocol known asio).service
  | .connect addr protocol known => some (s.connect addr protocol known).2
  | .onConnected k ok => some (s.onConnected k ok)
  | .onConnectFailed k => some (s.onConnectFailed k)

def machine (fromString : String → Option Ip) : Machine (Connections Ip) Event where
  init := ctor
  step := step fromString

-- The calls that get as far as to ask for an id.
def Event.asks : Event → Bool
  | .listen _ _ known _ => known
  | .connect _ _ known => known
  | _ => false

-- No call has found no id, and no two have had one id at the same time.
def Served (s : Connections Ip) : Prop :=
  s.threw = false ∧ s.shared = false

end Connections
end Lax
