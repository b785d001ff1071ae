import Lax.Net.Session.Impl.SubsClose

/-!
This module contains the refs to sessions of a program. A ref has the key of its subscription to the end
of the session, and it is copied and assigned member by member.
-/

namespace Lax

structure Ref where
  session : Option UInt32
  key : Nat
  deriving DecidableEq, Repr

-- `β` is the type of callbacks.
structure Refs (β : Type) where
  refs : Nat → Option Ref
  subsClose : SubsClose β
  -- history: the session of each subscription that has been made, unless it has been closed since
  made : Nat → Option UInt32

namespace Refs

variable {β : Type}

def ctor : Refs β :=
  ⟨fun _ => none, SubsClose.ctor, fun _ => none⟩

def set (s : Refs β) (x : Nat) (r : Ref) : Refs β :=
  { s with refs := Function.update s.refs x (some r) }

-- The destructor.
def destroy (s : Refs β) (x : Nat) (r : Ref) : Refs β :=
  {
    s with
    refs := Function.update s.refs x none
    subsClose := if r.key > 0 then s.subsClose.unsubscribe r.key else s.subsClose
  }

-- `none` is the exception of a pool without ids.
def subClose (s : Refs β) (x : Nat) (r : Ref) (cb : β) : Option (Bool × Refs β) :=
  match r.session with
  | none => some (false, s)
  | some id =>
    match s.subsClose.subscribe id cb with
    | none => none
    | some (key, subsClose) =>
      some (key > 0, {
        refs := Function.update s.refs x (some { r with key := key })
        subsClose := subsClose
        made := Function.update s.made key (some id)
      })

def close (s : Refs β) (id : UInt32) : Refs β :=
  {
    s with
    subsClose := (s.subsClose.post id).2
    made := fun key => if s.made key = some id then none else s.made key
  }

-- Refs are named by the variables or members that they are in.
inductive Event (β : Type) where
  | create (x : Nat) (session : Option UInt32)
  | copy (x y : Nat)
  | assign (x y : Nat)
  | destroy (x : Nat)
  | subClose (x : Nat) (cb : β)
  | close (id : UInt32)

def step (s : Refs β) : Event β → Option (Refs β)
  | .create x session => if (s.refs x).isNone then some (s.set x ⟨session, 0⟩) else none
  | .copy x y => if (s.refs x).isNone then (s.refs y).map (s.set x) else none
  | .assign x y => if (s.refs x).isSome then (s.refs y).map (s.set x) else none
  | .destroy x => (s.refs x).map (s.destroy x)
  | .subClose x cb => (s.refs x).map fun r => ((s.subClose x r cb).map (·.2)).getD s
  | .close id => some (s.close id)

def machine (β : Type) : Machine (Refs β) (Event β) where
  init := ctor
  step := step

end Refs
end Lax
