import Lax.Foundation.Machine

/-!
This module contains the map of channels. `create` looks for the key under a shared lock, makes the
channel without a lock and inserts it under a unique lock; each of the three is one step of a thread.
-/

namespace Lax
namespace ChannelMap

structure Ptr (Key Config : Type) where
  object : Nat
  key : Key
  cfg : Config
  deriving DecidableEq, Repr

inductive Pc (Key Config : Type) where
  | idle
  -- `create` has not found the key.
  | checked (key : Key) (cfg : Config)
  | made (key : Key) (cp : Ptr Key Config)

def Pc.isIdle {Key Config : Type} : Pc Key Config → Bool
  | .idle => true
  | _ => false

structure State (Key Config Tid : Type) where
  map : Key → Option (Ptr Key Config)
  nextObject : Nat
  threads : Tid → Pc Key Config
  -- history: what `create` has returned for a key since its last `destroy`
  returned : Key → List (Option (Ptr Key Config))

inductive Event (Key Config Tid : Type) where
  | create (t : Tid) (key : Key) (cfg : Config)
  | next (t : Tid)
  | find (t : Tid) (key : Key)
  | destroy (t : Tid) (key : Key)

variable {Key Config Tid : Type} [DecidableEq Key] [DecidableEq Tid]

namespace State

omit [DecidableEq Key] in
def goto (s : State Key Config Tid) (t : Tid) (pc : Pc Key Config) : State Key Config Tid :=
  { s with threads := Function.update s.threads t pc }

omit [DecidableEq Tid] in
def give (s : State Key Config Tid) (key : Key) (cp : Option (Ptr Key Config)) :
    State Key Config Tid :=
  { s with returned := Function.update s.returned key (s.returned key ++ [cp]) }

-- The first section of `create`.
def check (s : State Key Config Tid) (t : Tid) (key : Key) (cfg : Config) : State Key Config Tid :=
  match s.map key with
  | some _ => s.give key none
  | none => s.goto t (.checked key cfg)

omit [DecidableEq Key] in
def construct (s : State Key Config Tid) (t : Tid) (key : Key) (cfg : Config) :
    State Key Config Tid :=
  { s.goto t (.made key ⟨s.nextObject, key, cfg⟩) with nextObject := s.nextObject + 1 }

-- `insert` of a map: what is there already stays. The channel is returned in any case.
def insert (s : State Key Config Tid) (t : Tid) (key : Key) (cp : Ptr Key Config) :
    State Key Config Tid :=
  let s := (s.goto t .idle).give key (some cp)
  match s.map key with
  | some _ => s
  | none => { s with map := Function.update s.map key (some cp) }

omit [DecidableEq Key] [DecidableEq Tid] in
def find (s : State Key Config Tid) (key : Key) : Option (Ptr Key Config) :=
  s.map key

omit [DecidableEq Tid] in
def destroy (s : State Key Config Tid) (key : Key) : Bool × State Key Config Tid :=
  match s.map key with
  | none => (false, s)
  | some _ =>
    (true, {
      s with
      map := Function.update s.map key none
      returned := Function.update s.returned key []
    })

end State

def advance (s : State Key Config Tid) (t : Tid) : Pc Key Config → Option (State Key Config Tid)
  | .idle => none
  | .checked key cfg => some (s.construct t key cfg)
  | .made key cp => some (s.insert t key cp)

-- A thread that is in `create` cannot call anything else.
def step (s : State Key Config Tid) (e : Event Key Config Tid) : Option (State Key Config Tid) :=
  match e with
  | .next t => advance s t (s.threads t)
  | .create t key cfg => if (s.threads t).isIdle then some (s.check t key cfg) else none
  | .find t _ => if (s.threads t).isIdle then some s else none
  | .destroy t key => if (s.threads t).isIdle then some (s.destroy key).2 else none

def machine : Machine (State Key Config Tid) (Event Key Config Tid) where
  init := ⟨fun _ => none, 0, fun _ => .idle, fun _ => []⟩
  step := step

-- Since the last `destroy` of a key, one `create` has returned the channel that `find` returns, and
-- all the others have returned none.
def Unique (s : State Key Config Tid) : Prop :=
  ∀ key, s.returned key = [] ∨ ∃ cp, s.find key = some cp ∧ (s.returned key).filterMap id = [cp]

-- A thread that inserts a channel still does not find the key.
def InsertsAbsent (s : State Key Config Tid) : Event Key Config Tid → Prop
  | .next t => ∀ key cp, s.threads t = .made key cp → s.map key = none
  | _ => True

end ChannelMap
end Lax
