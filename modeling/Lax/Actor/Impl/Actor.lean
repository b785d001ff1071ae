import Lax.Actor.Impl.TypeObjectContainer
import Lax.Task.Impl.Task

/-!
This module contains an actor with its components, and the tasks that run it. What the hooks return comes
from the outside.
-/

namespace Lax

inductive Actor.State where
  | constructed
  | started
  | finished
  deriving DecidableEq, Repr

-- The hooks of components.
inductive Actor.Call (Comp : Type) where
  | onStart (comp : Comp) (rc : Bool)
  | onFinish (comp : Comp)
  deriving DecidableEq, Repr

-- `started` is `component::started_`.
structure Actor (Comp Ty : Type) where
  state : Actor.State
  comps : TypeObjectContainer Comp Ty
  started : Comp → Bool
  -- history: which hooks of components have been called
  calls : List (Actor.Call Comp)

namespace Actor

variable {Comp Ty : Type} [DecidableEq Comp] [DecidableEq Ty] (types : Comp → List Ty) (component : Ty)

def ctor : Actor Comp Ty :=
  ⟨.constructed, TypeObjectContainer.ctor, fun _ => false, []⟩

-- What the hook of a component returns may depend on all that has happened so far.
abbrev Hook (Comp : Type) :=
  List (Call Comp) → Comp → Bool

-- `component::start`
def startComponent (onStart : Hook Comp) (a : Actor Comp Ty) (comp : Comp) : Actor Comp Ty × Bool :=
  let rc := onStart a.calls comp
  ({ a with started := Function.update a.started comp rc, calls := a.calls ++ [.onStart comp rc] }, rc)

-- `rc` is what the hook of the actor returns.
def start (a : Actor Comp Ty) (rc : Bool) (onStart : Hook Comp) : Bool × Actor Comp Ty :=
  if rc then
    let (a, _) := a.comps.apply component (startComponent onStart) a
    (true, { a with state := .started })
  else
    (false, a)

-- The hook of the actor is all there is to it.
def execute (a : Actor Comp Ty) : Actor Comp Ty :=
  a

-- Only the hook of the actor is called. Nobody calls `component::finish`.
def finish (a : Actor Comp Ty) : Actor Comp Ty :=
  match a.state with
  | .constructed => a
  | .finished => a
  | .started => { a with state := .finished }

-- An exception of the container leaves it.
def addComponent (a : Actor Comp Ty) (comp : Comp) : Actor Comp Ty :=
  { a with comps := (a.comps.add types component (some comp)).2 }

/-!
### Programs
-/

-- An actor until its destructor has been run, and the adaptors that have it as their target.
structure Program (Comp Ty : Type) where
  alive : Bool
  actor : Actor Comp Ty
  adaptors : List Task

inductive Event (Comp : Type) where
  | addComponent (comp : Comp)
  | start (rc : Bool) (onStart : Hook Comp)
  | execute
  | finish
  -- A `task_adaptor` is made and given up, and its task is called.
  | adapt
  | giveUp (x : Nat)
  | taskStart (x : Nat) (rc : Bool) (onStart : Hook Comp)
  | taskExecute (x runnerId : Nat)
  | taskFinish (x : Nat)
  | destroy

namespace Program

def taskStart (s : Program Comp Ty) (x : Nat) (task : Task) (rc : Bool) (onStart : Hook Comp) :
    Program Comp Ty :=
  let (rc, actor) := s.actor.start component rc onStart
  { s with actor := actor, adaptors := s.adaptors.set x (task.start rc).2 }

-- The exception of a task comes before the actor is called.
def taskExecute (s : Program Comp Ty) (x : Nat) (task : Task) (runnerId : Nat) : Program Comp Ty :=
  match task.execute runnerId with
  | .error _ => s
  | .ok task => { s with actor := s.actor.execute, adaptors := s.adaptors.set x task }

def taskFinish (s : Program Comp Ty) (x : Nat) (task : Task) : Program Comp Ty :=
  { s with actor := s.actor.finish, adaptors := s.adaptors.set x task.finish }

def step (s : Program Comp Ty) (e : Event Comp) : Option (Program Comp Ty) :=
  if s.alive then
    match e with
    | .addComponent comp => some { s with actor := s.actor.addComponent types component comp }
    | .start rc onStart => some { s with actor := (s.actor.start component rc onStart).2 }
    | .execute => some { s with actor := s.actor.execute }
    | .finish => some { s with actor := s.actor.finish }
    | .adapt => some { s with adaptors := s.adaptors ++ [Task.ctor] }
    | .giveUp x => some { s with adaptors := s.adaptors.eraseIdx x }
    | .taskStart x rc onStart => s.adaptors[x]?.map fun task => s.taskStart component x task rc onStart
    | .taskExecute x runnerId => s.adaptors[x]?.map fun task => s.taskExecute x task runnerId
    | .taskFinish x => s.adaptors[x]?.map fun task => s.taskFinish x task
    -- An adaptor has a pointer to the actor.
    | .destroy =>
      if s.adaptors = [] then some { s with alive := false, actor := s.actor.finish } else none
  else
    none

def machine : Machine (Program Comp Ty) (Event Comp) where
  init := ⟨true, ctor, []⟩
  step := step types component

end Program

end Actor
end Lax
