import Mathlib.Logic.Function.Basic
import Lax.Channel.Impl.Topic
import Lax.Foundation.Machine
import Lax.Util.Impl.Sequence

/-!
This module contains the subscriptions of a channel. What a subscription does with a message is left
open, so an action stands for its condition and its callback.
-/

namespace Lax

inductive Mode where
  | immediate
  | delayed
  deriving DecidableEq, Repr

structure Sub (α : Type) where
  key : Nat
  topic : Topic
  action : α
  mode : Mode

-- The other members of an entry are never read.
abbrev EntryMap (α : Type) :=
  Topic → Option (List (Sub α))

structure EntryLink where
  topic : Topic
  mode : Mode
  deriving DecidableEq, Repr

structure SubMap (α : Type) where
  entriesImmediate : EntryMap α
  entriesDelayed : EntryMap α
  keys : Nat → Option EntryLink
  seq : Sequence

namespace SubMap

variable {α : Type}

def maxKey : Nat := 4294967295

def ctor : SubMap α :=
  ⟨fun _ => none, fun _ => none, fun _ => none, Sequence.ctor 1 maxKey 1000⟩

def entries (map : SubMap α) : Mode → EntryMap α
  | .immediate => map.entriesImmediate
  | .delayed => map.entriesDelayed

def withEntries (map : SubMap α) (mode : Mode) (em : EntryMap α) : SubMap α :=
  match mode with
  | .immediate => { map with entriesImmediate := em }
  | .delayed => { map with entriesDelayed := em }

-- `none` is the exception of a pool without ids.
def subscribe (map : SubMap α) (topic : Topic) (action : α) (mode : Mode) :
    Option (Nat × SubMap α) :=
  match map.seq.next with
  | none => none
  | some (key, seq) =>
    let subs := (map.entries mode topic).getD []
    let subs := subs ++ [⟨key, topic, action, mode⟩]
    let em := Function.update (map.entries mode) topic (some subs)
    some (key, {
      map.withEntries mode em with
      keys := Function.update map.keys key (some ⟨topic, mode⟩)
      seq := seq
    })

def unsubscribe (map : SubMap α) (key : Nat) : Bool × SubMap α :=
  match map.keys key with
  | none => (false, map)
  | some ⟨topic, mode⟩ =>
    let map := {
      map with
      keys := Function.update map.keys key none
      seq := map.seq.release key
    }
    match map.entries mode topic with
    | none => (false, map)
    | some subs =>
      if subs.any fun sub => sub.key = key then
        let subs := subs.eraseP fun sub => sub.key = key
        (true, map.withEntries mode (Function.update (map.entries mode) topic (some subs)))
      else
        (false, map)

-- An entry stays when its last subscription has gone.
def hasDelayedSub (map : SubMap α) (topic : Topic) : Bool :=
  (map.entriesDelayed topic).isSome

inductive Event (α : Type) where
  | subscribe (topic : Topic) (action : α) (mode : Mode)
  | unsubscribe (key : Nat)

-- A pool without ids throws before anything changes.
def step (map : SubMap α) : Event α → Option (SubMap α)
  | .subscribe topic action mode =>
    match map.subscribe topic action mode with
    | none => some map
    | some (_, map) => some map
  | .unsubscribe key => some (map.unsubscribe key).2

def machine (α : Type) : Machine (SubMap α) (Event α) where
  init := ctor
  step := step

end SubMap
end Lax
