import Mathlib.Data.List.Sort
import Mathlib.Order.Defs.LinearOrder
import Lax.Foundation.Machine
import Lax.Foundation.NumberedTree

/-!
This module contains the hierarchical state machine. A state is the number of its object, the root
is 0. `hooks` is what the virtual functions do: they see a world of their own and request
transitions with the safe option.
-/

namespace Lax

-- The members of the states that only `add` changes.
structure StateTree (κ : Type) extends NumberedTree where
  key : Nat → κ

namespace StateTree

variable {κ : Type}

def root [Zero κ] : StateTree κ where
  toNumberedTree := NumberedTree.root
  key _ := 0

theorem sub_lt_of_mem_childs (t : StateTree κ) {i c : Nat} (h : c ∈ t.childs i) :
    t.size - c < t.size - i := by
  have hparent := (t.mem_childs i c).mp h
  have := t.parent_lt c i hparent
  have := t.lt_size c i hparent
  omega

variable [LinearOrder κ]

def has (t : StateTree κ) (i : Nat) (target : κ) : Bool :=
  t.key i = target || (t.childs i).attach.any fun c => t.has c.1 target
termination_by t.size - i
decreasing_by exact t.sub_lt_of_mem_childs c.2

def find (t : StateTree κ) (i : Nat) (target : κ) : Option Nat :=
  if t.key i = target then
    some i
  else
    (t.childs i).attach.findSome? fun c => t.find c.1 target
termination_by t.size - i
decreasing_by exact t.sub_lt_of_mem_childs c.2

-- The children of a state are in the order of a `std::map`.
def insertChild (key : Nat → κ) (c : Nat) (childs : List Nat) : List Nat :=
  childs.orderedInsert (fun c c' => key c ≤ key c') c

-- The state with the next number is added under `i`.
def add (t : StateTree κ) (i : Nat) (target : κ) (h : i < t.size) : StateTree κ :=
  let key := Function.update t.key t.size target
  { toNumberedTree := t.toNumberedTree.add i h (insertChild key t.size (t.childs i)) (by
      intro c
      unfold insertChild
      rw [List.mem_orderedInsert])
    key := key }

/-!
### Paths
-/

inductive Code where
  | noop
  | exit
  | enter
  | target
  | targetNoop
  deriving DecidableEq, Repr

-- With `get_child_path` in its place. `none` is the result `false`.
def getTransitionPath (t : StateTree κ) (active : Nat → Bool) (i : Nat) (target : κ) :
    Option (List (Code × Nat)) :=
  if _hhas : t.has i target then
    if t.key i = target then
      some [(if active i then .noop else .target, i)]
    else
      match _hchild : (t.childs i).find? fun c => t.has c target with
      | none => none
      | some c =>
        (t.getTransitionPath active c target).map fun path =>
          (if active i then .noop else .enter, i) :: path
  else
    match _hparent : t.parent i with
    | none => none
    | some p => (t.getTransitionPath active p target).map fun path => (.exit, i) :: path
termination_by (if t.has i target then 0 else 1, if t.has i target then t.size - i else i)
decreasing_by
  . have hchild := List.find?_some _hchild
    rw [if_pos _hhas, if_pos _hhas, if_pos hchild, if_pos hchild]
    exact Prod.Lex.right 0 (t.sub_lt_of_mem_childs (List.mem_of_find?_eq_some _hchild))
  . have hlt := t.parent_lt i p _hparent
    rw [if_neg _hhas, if_neg _hhas]
    split
    . exact Prod.Lex.left _ _ Nat.one_pos
    . exact Prod.Lex.right 1 hlt

end StateTree

inductive StateMachine.Call where
  | onEnter (i : Nat)
  | onExecute (i : Nat)
  | onExit (i : Nat)
  deriving DecidableEq, Repr

-- `calls` are the calls of virtual functions so far. While `executing` is set, `execute` has not
-- returned.
structure StateMachine (κ ω : Type) where
  tree : StateTree κ
  active : Nat → Bool
  activeChild : Nat → Option Nat
  current : Nat
  queue : List κ
  executing : Bool
  world : ω
  calls : List StateMachine.Call

namespace StateMachine

variable {κ ω : Type} (hooks : ω → Call → ω × List κ)

def call (s : StateMachine κ ω) (c : Call) : StateMachine κ ω :=
  let (world, requests) := hooks s.world c
  { s with world := world, queue := s.queue ++ requests, calls := s.calls ++ [c] }

/-!
### States
-/

def setActiveChild (s : StateMachine κ ω) (parent : Option Nat) (child : Option Nat) :
    StateMachine κ ω :=
  match parent with
  | none => s
  | some p => { s with activeChild := Function.update s.activeChild p child }

def enter (s : StateMachine κ ω) (i : Nat) : StateMachine κ ω :=
  let s := { s with active := Function.update s.active i true }
  (s.setActiveChild (s.tree.parent i) (some i)).call hooks (.onEnter i)

def exit (s : StateMachine κ ω) (i : Nat) : StateMachine κ ω :=
  let s := { s with active := Function.update s.active i false }
  let parent := (s.tree.parent i).filter fun p => s.activeChild p = some i
  (s.setActiveChild parent none).call hooks (.onExit i)

-- `fuel` is at least the number of states.
def executeState : Nat → StateMachine κ ω → Nat → StateMachine κ ω
  | 0, s, _ => s
  | fuel + 1, s, i =>
    if s.active i then
      let s := s.call hooks (.onExecute i)
      match s.activeChild i with
      | none => s
      | some c => executeState fuel s c
    else
      s

/-!
### The machine
-/

section
variable [LinearOrder κ]

def ctor [Zero κ] (world : ω) : StateMachine κ ω :=
  let s : StateMachine κ ω := {
    tree := StateTree.root
    active := fun _ => false
    activeChild := fun _ => none
    current := 0
    queue := []
    executing := false
    world := world
    calls := []
  }
  s.enter hooks 0

def replay (s : StateMachine κ ω) (n : StateTree.Code × Nat) : StateMachine κ ω :=
  match n.1 with
  | .enter => s.enter hooks n.2
  | .target => { s.enter hooks n.2 with current := n.2 }
  | .exit => s.exit hooks n.2
  | .noop => { s with current := n.2 }
  | .targetNoop => s

def tranTo (s : StateMachine κ ω) (target : κ) : StateMachine κ ω :=
  if s.tree.key s.current = target then
    s
  else
    match s.tree.getTransitionPath s.active s.current target with
    | none => s
    | some path => path.foldl (replay hooks) s

inductive TransitionOption where
  | safe
  | immediate
  deriving DecidableEq, Repr

def tran (s : StateMachine κ ω) (target : κ) (opt : TransitionOption) : StateMachine κ ω :=
  match opt with
  | .immediate => s.tranTo hooks target
  | .safe => { s with queue := s.queue ++ [target] }

-- `state::add`
def addTo (s : StateMachine κ ω) (i : Nat) (key : κ) : StateMachine κ ω :=
  if h : i < s.tree.size then
    if s.tree.has i key then s else { s with tree := s.tree.add i key h }
  else
    s

def add (s : StateMachine κ ω) (parent key : κ) : StateMachine κ ω :=
  match s.tree.find 0 parent with
  | none => s
  | some i => s.addTo i key

-- One round of `process_transitions`, or what `execute` does after the last one.
def process (s : StateMachine κ ω) : StateMachine κ ω :=
  match s.queue with
  | [] => { executeState hooks s.tree.size s 0 with executing := false }
  | target :: _ =>
    let s := s.tranTo hooks target
    { s with queue := s.queue.tail }

/-!
### Runs
-/

inductive Event (κ : Type) where
  | add (parent key : κ)
  | addTo (i : Nat) (key : κ)
  | tran (target : κ) (opt : TransitionOption)
  | execute
  | process

def step (s : StateMachine κ ω) (e : Event κ) : Option (StateMachine κ ω) :=
  match s.executing, e with
  | false, .add parent key => some (s.add parent key)
  | false, .addTo i key => some (s.addTo i key)
  | false, .tran target opt => some (s.tran hooks target opt)
  | false, .execute => some { s with executing := true }
  | true, .process => some (s.process hooks)
  | _, _ => none

def machine [Zero κ] (world : ω) : Machine (StateMachine κ ω) (Event κ) where
  init := ctor hooks world
  step := step hooks

end
end StateMachine
end Lax
