import Lax.Net.Session.Impl.SubsClose

/-!
This module contains `subs_close::post` with callbacks that unsubscribe on the same thread, which the
recursive mutex lets them do while the loop is in the middle of the vector.
-/

namespace Lax

-- The keys that a callback unsubscribes, itself or through the refs that it drops, in this order, and
-- the world outside after it.
abbrev CloseCallback (W : Type) :=
  W → List Nat × W

-- A subscription gets its turn: history of the loop.
structure CloseTurn where
  key : Nat
  unsubscribed : List Nat
  deriving DecidableEq, Repr

structure Notified (W : Type) where
  count : Nat
  turns : List CloseTurn
  subsClose : SubsClose (CloseCallback W)
  world : W

namespace SubsClose

variable {W : Type}

-- `unsubscribe` takes something out of the vector of the session. From there on all of its iterators
-- are invalid, the end that the loop stops at among them.
def erases (s : SubsClose (CloseCallback W)) (id : UInt32) (key : Nat) : Bool :=
  s.index key = some id && ((s.subs id).getD []).any fun entry => entry.1 = key

-- `none` if there is an iterator that is not valid any more.
def unsubscribeIn (s : SubsClose (CloseCallback W)) (id : UInt32) :
    List Nat → Option (SubsClose (CloseCallback W))
  | [] => some s
  | key :: keys => if s.erases id key then none else (s.unsubscribe key).unsubscribeIn id keys

-- `count` is that of the vector.
def postLoop (id : UInt32) (count : Nat) :
    List (Nat × CloseCallback W) → SubsClose (CloseCallback W) → W → Option (Notified W)
  | [], s, w => some ⟨count, [], s, w⟩
  | (key, cb) :: vec, s, w =>
    let (keys, w) := cb w
    match s.unsubscribeIn id keys with
    | none => none
    | some s =>
      let s := { s with index := Function.update s.index key none }
      (postLoop id count vec s w).map fun p => { p with turns := ⟨key, keys⟩ :: p.turns }

def removeSubs (s : SubsClose (CloseCallback W)) (id : UInt32) : SubsClose (CloseCallback W) :=
  { s with subs := Function.update s.subs id none }

def notify (s : SubsClose (CloseCallback W)) (id : UInt32) (w : W) : Option (Notified W) :=
  match s.subs id with
  | none => some ⟨0, [], s, w⟩
  | some vec =>
    (postLoop id vec.length vec s w).map fun p => { p with subsClose := p.subsClose.removeSubs id }

namespace Notify

inductive Event (W : Type) where
  | subscribe (id : UInt32) (cb : CloseCallback W)
  | unsubscribe (key : Nat)
  | post (id : UInt32) (w : W)

-- After an access through an iterator that is not valid there is no next state.
def step (s : SubsClose (CloseCallback W)) : Event W → Option (SubsClose (CloseCallback W))
  | .subscribe id cb =>
    match s.subscribe id cb with
    | none => some s
    | some (_, s) => some s
  | .unsubscribe key => some (s.unsubscribe key)
  | .post id w => (s.notify id w).map fun p => p.subsClose

def machine (W : Type) : Machine (SubsClose (CloseCallback W)) (Event W) where
  init := ctor
  step := step

end Notify

end SubsClose
end Lax
