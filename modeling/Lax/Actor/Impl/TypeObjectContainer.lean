import Mathlib.Logic.Function.Basic
import Lax.Foundation.Machine

/-!
This module contains the index of objects by their types. An object has the types that its constructors
have pushed, from the base class on.
-/

namespace Lax

-- Pointers are `Obj`, the null pointer apart, and types are `Ty`.
structure TypeObjectContainer (Obj Ty : Type) where
  map : Ty → Option (List Obj)

namespace TypeObjectContainer

variable {Obj Ty σ : Type} [DecidableEq Ty] (types : Obj → List Ty) (base : Ty)

def isA (p : Obj) (info : Ty) : Bool :=
  (types p).any (· = info)

def ctor : TypeObjectContainer Obj Ty :=
  ⟨fun _ => none⟩

def addType (c : TypeObjectContainer Obj Ty) (info : Ty) (ptr : Obj) : TypeObjectContainer Obj Ty :=
  match c.map info with
  | some ptrs => ⟨Function.update c.map info (some (ptrs ++ [ptr]))⟩
  | none => ⟨Function.update c.map info (some [ptr])⟩

-- `none` is an exception. Both of them come before anything is added.
def add (c : TypeObjectContainer Obj Ty) : Option Obj → Option Obj × TypeObjectContainer Obj Ty
  | none => (none, c)
  | some ptr =>
    if isA types ptr base then
      (some ptr, (types ptr).foldl (fun c type => c.addType type ptr) c)
    else
      (none, c)

-- `get`
def getType (c : TypeObjectContainer Obj Ty) (info : Ty) : Option Obj :=
  match c.map info with
  | none => none
  | some ptrs => ptrs[0]?

def has (c : TypeObjectContainer Obj Ty) (info : Ty) : Bool :=
  (c.getType info).isSome

def getTypes (c : TypeObjectContainer Obj Ty) (info : Ty) : List Obj :=
  match c.map info with
  | none => []
  | some ptrs => ptrs

def size (c : TypeObjectContainer Obj Ty) (info : Ty) : Nat :=
  (c.getTypes info).length

-- A function may change whatever it wants outside of the container: `σ` is what it has to do with.
def applyLoop (func : σ → Obj → σ × Bool) : List Obj → σ → Nat → σ × Nat
  | [], s, count => (s, count)
  | p :: ptrs, s, count =>
    let (s, rc) := func s p
    applyLoop func ptrs s (if rc then count + 1 else count)

def apply (c : TypeObjectContainer Obj Ty) (info : Ty) (func : σ → Obj → σ × Bool) (s : σ) : σ × Nat :=
  match c.map info with
  | none => (s, 0)
  | some ptrs => applyLoop func ptrs s 0

/-!
### Histories
-/

-- A container, and what has been added to it.
structure History (Obj Ty : Type) where
  container : TypeObjectContainer Obj Ty
  added : List Obj

-- An event is a call of `add`.
def History.step (s : History Obj Ty) (ptr : Option Obj) : Option (History Obj Ty) :=
  let (rc, container) := s.container.add types base ptr
  some ⟨container, s.added ++ rc.toList⟩

def History.machine : Machine (History Obj Ty) (Option Obj) where
  init := ⟨ctor, []⟩
  step := History.step types base

end TypeObjectContainer
end Lax
