import Mathlib.Logic.Function.Basic
import Lax.Foundation.Machine
import Lax.Util.Impl.Sequence

/-!
This module contains the subscriptions to the end of a session.
-/

namespace Lax

-- `β` is the type of callbacks.
structure SubsClose (β : Type) where
  subs : UInt32 → Option (List (Nat × β))
  index : Nat → Option UInt32
  keySeq : Sequence

namespace SubsClose

variable {β : Type}

-- `UINT16_MAX`
def endKey : Nat := 65535

def ctor : SubsClose β :=
  ⟨fun _ => none, fun _ => none, Sequence.ctor 1 endKey 100⟩

-- `none` is the exception of a pool without ids.
def subscribe (s : SubsClose β) (id : UInt32) (cb : β) : Option (Nat × SubsClose β) :=
  match s.keySeq.next with
  | none => none
  | some (key, keySeq) =>
    let vec := (s.subs id).getD [] ++ [(key, cb)]
    some (key, {
      subs := Function.update s.subs id (some vec)
      index := Function.update s.index key (some id)
      keySeq := keySeq
    })

def unsubscribe (s : SubsClose β) (key : Nat) : SubsClose β :=
  match s.index key with
  | none => s
  | some id =>
    match s.subs id with
    | none => s
    | some vec =>
      { s with subs := Function.update s.subs id (some (vec.filter fun entry => entry.1 ≠ key)) }

-- The callbacks that are called with `sys_session_closed`; the result is their number.
def post (s : SubsClose β) (id : UInt32) : List β × SubsClose β :=
  match s.subs id with
  | none => ([], s)
  | some vec =>
    (vec.map Prod.snd, {
      s with
      subs := Function.update s.subs id none
      index := vec.foldl (fun index entry => Function.update index entry.1 none) s.index
    })

inductive Event (β : Type) where
  | subscribe (id : UInt32) (cb : β)
  | unsubscribe (key : Nat)
  | post (id : UInt32)

def step (s : SubsClose β) : Event β → Option (SubsClose β)
  | .subscribe id cb =>
    match s.subscribe id cb with
    | none => some s
    | some (_, s) => some s
  | .unsubscribe key => some (s.unsubscribe key)
  | .post id => some (s.post id).2

def machine (β : Type) : Machine (SubsClose β) (Event β) where
  init := ctor
  step := step

end SubsClose
end Lax
