import Lax.Foundation.Machine
import Lax.Net.Service.Impl.Connections

/-!
This module contains the calls that start and finish a server: its scheduler with the threads of the
runners, and the network service, which is one for the process. `none` is an exception or a crash.
-/

namespace Lax
namespace Server

/-!
### Scheduler
-/

structure TaskRunner where
  id : Nat
  stop : Bool
  joinable : Bool
  deriving DecidableEq, Repr

namespace TaskRunner

def ctor (id : Nat) : TaskRunner where
  id := id
  stop := true
  joinable := false

def start (r : TaskRunner) : TaskRunner :=
  { r with stop := false, joinable := true }

-- `join` throws unless the thread is joinable.
def finish (r : TaskRunner) : Option TaskRunner :=
  if r.joinable then some { r with stop := true, joinable := false } else none

def destroy (r : TaskRunner) : Option TaskRunner :=
  if !r.stop then r.finish else some r

end TaskRunner

def startRunners (runners : List TaskRunner) (runnerCount : Int) : Bool × List TaskRunner :=
  let added := (List.range runnerCount.toNat).map fun i => (TaskRunner.ctor (i + 1)).start
  (decide (0 < (runners ++ added).length), runners ++ added)

def eachRunner (f : TaskRunner → Option TaskRunner) : List TaskRunner → Option (List TaskRunner)
  | [] => some []
  | r :: runners => (f r).bind fun r => (eachRunner f runners).map (r :: ·)

/-!
### Network service
-/

structure ServiceImpl (Ip : Type) where
  stop : Bool
  threads : Nat
  connections : Connections Ip

namespace ServiceImpl

variable {Ip : Type}

def ctor : ServiceImpl Ip where
  stop := true
  threads := 0
  connections := Connections.ctor

-- `resize` takes a number of threads below zero for a huge one, and throws.
def start (s : ServiceImpl Ip) (n : Int) : Option (Bool × ServiceImpl Ip) :=
  if !s.stop then
    some (true, s)
  else if n < 0 then
    none
  else
    some (true, { s with stop := false, threads := n.toNat })

def finish (s : ServiceImpl Ip) : ServiceImpl Ip :=
  if s.stop then
    s
  else
    {
      stop := true
      threads := 0
      connections := { s.connections with acceptors := [], connectors := [] }
    }

end ServiceImpl

namespace Service

variable {Ip : Type}

-- Afterwards `impl_` is set.
def start (impl : Option (ServiceImpl Ip)) (n : Int) : Option (Bool × ServiceImpl Ip) :=
  match impl with
  | none => ServiceImpl.ctor.start n
  | some impl => some (!impl.stop, impl)

-- A null pointer must not be used, and a thread must not be deleted while it can be joined.
def finish (impl : Option (ServiceImpl Ip)) : Option (Option (ServiceImpl Ip)) :=
  match impl with
  | none => none
  | some impl => if impl.finish.threads = 0 then some none else none

end Service

/-!
### Server
-/

-- `runnerCount` is none if an entry of `scheduler` has a type that `get` throws for, and so is a
-- listener without an address or a protocol. `concurrency` is `concurreny_level`, or what the hardware
-- has.
structure Config where
  runnerCount : Option Int
  concurrency : Int
  listens : List (Option (String × String))
  peerService : Bool
  deriving DecidableEq, Repr

-- What the calls to the outside return: `protocol_factory::has`, the socket of each listener, `start`
-- of the peer service, and `on_start`.
structure Outcome where
  known : String → Bool
  asio : Nat → Asio
  peerService : Bool
  onStart : Bool

inductive Phase where
  | constructed
  | started
  | finished
  deriving DecidableEq, Repr

structure State (Ip : Type) where
  phase : Phase
  runners : List TaskRunner
  service : Option (ServiceImpl Ip)

variable {Ip : Type} (fromString : String → Option Ip)

-- How many of the listeners, the first of which is number `i`, listen in the end.
def listenAll (o : Outcome) (s : ServiceImpl Ip) (i : Nat) :
    List (Option (String × String)) → Option (Nat × ServiceImpl Ip)
  | [] => some (0, s)
  | none :: _ => none
  | some (addr, protocol) :: listens =>
    let r := s.connections.listen fromString addr protocol (o.known protocol) (o.asio i)
    match r.rc with
    | none => none
    | some rc =>
      (listenAll o { s with connections := r.service } (i + 1) listens).map fun r =>
        (if rc.code then r.1 + 1 else r.1, r.2)

def startListeners (cfg : Config) (o : Outcome) (s : ServiceImpl Ip) :
    Option (Bool × ServiceImpl Ip) :=
  (listenAll fromString o s 0 cfg.listens).map fun r => (decide (0 < r.1), r.2)

def start (cfg : Config) (s : State Ip) (o : Outcome) : Option (Bool × State Ip) := do
  let runnerCount ← cfg.runnerCount
  let (rc, runners) := startRunners s.runners runnerCount
  let s := { s with runners := runners }
  if !rc then
    return (false, s)
  let (rc, impl) ← Service.start s.service cfg.concurrency
  if !rc then
    return (false, { s with service := some impl })
  let (rc, impl) ← startListeners fromString cfg o impl
  let s := { s with service := some impl }
  if !rc then
    return (false, s)
  if cfg.peerService && !o.peerService then
    return (false, s)
  if !o.onStart then
    return (false, s)
  return (true, { s with phase := .started })

def finish (s : State Ip) : Option (State Ip) :=
  if s.phase = .constructed ∨ s.phase = .finished then
    some s
  else
    (eachRunner TaskRunner.finish s.runners).bind fun runners =>
      (Service.finish s.service).map fun service =>
        { phase := .finished, runners := runners, service := service }

-- The network service is not part of the server.
def destroy (s : State Ip) : Option (State Ip) :=
  (finish s).bind fun s =>
    (eachRunner TaskRunner.destroy s.runners).map fun runners => { s with runners := runners }

inductive Event where
  | start (o : Outcome)
  | finish

def step (cfg : Config) (s : State Ip) : Event → Option (State Ip)
  | .start o => (start fromString cfg s o).map Prod.snd
  | .finish => finish s

def machine (cfg : Config) : Machine (State Ip) Event where
  init := { phase := .constructed, runners := [], service := none }
  step := step fromString cfg

end Server
end Lax
