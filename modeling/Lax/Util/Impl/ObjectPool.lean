import Mathlib.Logic.Function.Basic
import Lax.Foundation.Machine

/-!
This module contains the pool of objects of one type and the refs that destroy them. The pool keeps the
memory of objects that have been destroyed for the next ones.
-/

namespace Lax

-- An address that the allocator hands out is one that it has not handed out before.
structure ObjectPool where
  q : List Nat
  allocated : Nat
  deriving DecidableEq, Repr

namespace ObjectPool

def alloc (s : ObjectPool) : Nat × ObjectPool :=
  match s.q with
  | obj :: q => (obj, { s with q := q })
  | [] => (s.allocated, { s with allocated := s.allocated + 1 })

def dealloc (s : ObjectPool) (obj : Nat) : ObjectPool :=
  { s with q := s.q ++ [obj] }

-- All refs are of one pool, so that `pool_` is either this one or null.
structure Ref where
  pool : Bool
  p : Option Nat
  deriving DecidableEq, Repr

def Ref.null : Ref :=
  ⟨false, none⟩

-- What the destructor destroys.
def Ref.target (r : Ref) : Option Nat :=
  if r.pool then r.p else none

end ObjectPool

-- Refs are named by the variables or members that they are in, and objects by their numbers.
structure ObjectRefs where
  pool : ObjectPool
  refs : Nat → Option ObjectPool.Ref
  -- the object that is at an address, or has been there last
  memory : Nat → Nat
  -- history: how many objects have been made, where, and which destructors have been run
  constructed : Nat
  address : Nat → Nat
  destroyed : List Nat

namespace ObjectRefs

def ctor : ObjectRefs :=
  ⟨⟨[], 0⟩, fun _ => none, fun _ => 0, 0, fun _ => 0, []⟩

def construct (s : ObjectRefs) (x : Nat) : ObjectRefs :=
  let (obj, pool) := s.pool.alloc
  {
    pool := pool
    refs := Function.update s.refs x (some ⟨true, some obj⟩)
    memory := Function.update s.memory obj s.constructed
    constructed := s.constructed + 1
    address := Function.update s.address s.constructed obj
    destroyed := s.destroyed
  }

def move (s : ObjectRefs) (x y : Nat) : ObjectRefs :=
  if x = y then
    s
  else
    let refs := Function.update s.refs x (s.refs y)
    { s with refs := Function.update refs y (some .null) }

-- The copy constructor: `move` to a new ref.
def copy (s : ObjectRefs) (x y : Nat) : ObjectRefs :=
  { s with refs := Function.update s.refs x (some .null) }.move x y

-- `object_pool::destroy`
def destroyObj (s : ObjectRefs) (obj : Nat) : ObjectRefs :=
  { s with pool := s.pool.dealloc obj, destroyed := s.destroyed ++ [s.memory obj] }

def remove (s : ObjectRefs) (x : Nat) : ObjectRefs :=
  { s with refs := Function.update s.refs x none }

-- The destructor of a ref.
def destroy (s : ObjectRefs) (x : Nat) (r : ObjectPool.Ref) : ObjectRefs :=
  match r.target with
  | some obj => (s.destroyObj obj).remove x
  | none => s.remove x

inductive Event where
  | construct (x : Nat)
  | copy (x y : Nat)
  | assign (x y : Nat)
  | destroy (x : Nat)
  deriving DecidableEq, Repr

def step (s : ObjectRefs) : Event → Option ObjectRefs
  | .construct x => if (s.refs x).isNone then some (s.construct x) else none
  | .copy x y => if (s.refs x).isNone ∧ (s.refs y).isSome then some (s.copy x y) else none
  | .assign x y => if (s.refs x).isSome ∧ (s.refs y).isSome then some (s.move x y) else none
  | .destroy x => (s.refs x).map (s.destroy x)

def machine : Machine ObjectRefs Event where
  init := ctor
  step := step

end ObjectRefs
end Lax
