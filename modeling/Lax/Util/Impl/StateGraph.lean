import Lax.Foundation.Machine
import Lax.Util.Impl.StateMachine

/-!
This module contains states as objects that point at each other, so that any state can be added
under any other one. A state is the number of its object, the root of the state machine is 0.
-/

namespace Lax

-- The objects are the ones below `size`. The pointers in `childs_` are in the order of its keys.
structure StateGraph (κ : Type) where
  size : Nat
  key : Nat → κ
  childs : Nat → List Nat
  parent : Nat → Option Nat
  size_pos : 0 < size
  childs_lt : ∀ i c, c ∈ childs i → i < size ∧ c < size
  parent_eq_none : ∀ i, size ≤ i → parent i = none

namespace StateGraph

variable {κ : Type}

-- What the constructor of the state machine makes.
def ctor [Zero κ] : StateGraph κ where
  size := 1
  key _ := 0
  childs _ := []
  parent _ := none
  size_pos := Nat.one_pos
  childs_lt _ _ h := absurd h List.not_mem_nil
  parent_eq_none _ _ := rfl

-- The constructor of a state.
def create (g : StateGraph κ) (key : κ) : StateGraph κ where
  size := g.size + 1
  key := Function.update g.key g.size key
  childs := g.childs
  parent := g.parent
  size_pos := Nat.succ_pos _
  childs_lt i c h := (g.childs_lt i c h).imp Nat.lt_succ_of_lt Nat.lt_succ_of_lt
  parent_eq_none i h := g.parent_eq_none i (Nat.le_of_succ_le h)

variable [LinearOrder κ]

/-!
### Searches
-/

-- `none` is a search that goes on after `fuel` levels.
def hasWithin (g : StateGraph κ) (target : κ) : Nat → Nat → Option Bool
  | 0, _ => none
  | fuel + 1, i =>
    if g.key i = target then
      some true
    else
      (g.childs i).anyM fun c => hasWithin g target fuel c

def findWithin (g : StateGraph κ) (target : κ) : Nat → Nat → Option (Option Nat)
  | 0, _ => none
  | fuel + 1, i =>
    if g.key i = target then
      some (some i)
    else
      (g.childs i).findSomeM? fun c => findWithin g target fuel c

-- A search that has more levels than there are states does not return.
def has (g : StateGraph κ) (i : Nat) (target : κ) : Option Bool :=
  g.hasWithin target g.size i

def find (g : StateGraph κ) (i : Nat) (target : κ) : Option (Option Nat) :=
  g.findWithin target g.size i

/-!
### Adding
-/

-- `childs_.insert` with a key that is not in the map, and `parent(shared_from_this())`
def link (g : StateGraph κ) (i c : Nat) (h : i < g.size ∧ c < g.size) : StateGraph κ where
  size := g.size
  key := g.key
  childs := Function.update g.childs i (StateTree.insertChild g.key c (g.childs i))
  parent := Function.update g.parent c (some i)
  size_pos := g.size_pos
  childs_lt j d hd := by
    rw [Function.update_apply] at hd
    split at hd
    . next heq =>
      unfold StateTree.insertChild at hd
      rw [List.mem_orderedInsert] at hd
      obtain rfl | hd := hd
      . exact ⟨heq ▸ h.1, h.2⟩
      . exact heq ▸ g.childs_lt i d hd
    . exact g.childs_lt j d hd
  parent_eq_none j hj := by
    have hne : j ≠ c := by
      rintro rfl
      exact Nat.not_lt.mpr hj h.2
    rw [Function.update_of_ne hne]
    exact g.parent_eq_none j hj

-- `state::add`, with what it returns. A null pointer is a child too. There is no result if the
-- search does not return.
def addTo (g : StateGraph κ) (i : Nat) (child : Option Nat) : Option (StateGraph κ × Bool) :=
  match child with
  | none => some (g, false)
  | some c =>
    if h : i < g.size ∧ c < g.size then
      (g.has i (g.key c)).map fun found => if found then (g, false) else (g.link i c h, true)
    else
      none

-- `state_machine::add`, with what `state::add` returns to it. With the child alone `parent` is 0.
def add (g : StateGraph κ) (parent : κ) (child : Option Nat) : Option (StateGraph κ × Bool) :=
  (g.find 0 parent).bind fun
    | none => some (g, false)
    | some i => g.addTo i child

/-!
### Runs
-/

inductive Event (κ : Type) where
  | create (key : κ)
  | add (parent : κ) (child : Option Nat)
  | addTo (i : Nat) (child : Option Nat)
  deriving DecidableEq, Repr

def call (g : StateGraph κ) : Event κ → Option (StateGraph κ × Bool)
  | .create key => some (g.create key, true)
  | .add parent child => g.add parent child
  | .addTo i child => g.addTo i child

def machine [Zero κ] : Machine (StateGraph κ) (Event κ) where
  init := ctor
  step g e := (g.call e).map Prod.fst

end StateGraph
end Lax
