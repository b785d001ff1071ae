import Lax.Channel.Impl.Channel

/-!
This module contains the message dispatcher of a class: subscriptions by topic, without conditions,
modes or a way to unsubscribe. Callbacks may do anything to the world outside of the dispatcher.
-/

namespace Lax

structure Dispatcher (W P : Type) where
  subs : EntryMap (Action W P)
  seq : UInt32
  world : W
  -- history: what has been subscribed since the last `clear`, and how often ever
  since : List (Sub (Action W P))
  serial : Nat

namespace Dispatcher

variable {W P : Type}

def ctor (w : W) : Dispatcher W P :=
  ⟨fun _ => none, 1, w, [], 0⟩

-- `emplace` of a map: what is there already stays.
def emplace (subs : EntryMap (Action W P)) (topic : Topic) (e : List (Sub (Action W P))) :
    EntryMap (Action W P) :=
  match subs topic with
  | none => Function.update subs topic (some e)
  | some _ => subs

def subscribe (s : Dispatcher W P) (topic : Topic) (cb : W → Message P → W) : Dispatcher W P :=
  let e := (s.subs topic).getD []
  let action := ⟨s.serial, fun w _ => (true, w), cb⟩
  let sub := ⟨s.seq.toNat, topic, action, .immediate⟩
  {
    s with
    subs := emplace s.subs topic (e ++ [sub])
    seq := s.seq + 1
    since := s.since ++ [sub]
    serial := s.serial + 1
  }

-- The turns are numbered for channels only.
def post (s : Dispatcher W P) (m : Message P) : Posting W P :=
  if ¬m.topic.isValid then
    ⟨0, [], s.world⟩
  else
    match s.subs m.topic with
    | none => ⟨0, [], s.world⟩
    | some subs => Posting.postSubs 0 m s.world subs

def clear (s : Dispatcher W P) : Dispatcher W P :=
  { s with subs := fun _ => none, since := [] }

inductive Event (W P : Type) where
  | subscribe (topic : Topic) (cb : W → Message P → W)
  | post (m : Message P)
  | clear
  -- The world changes between two calls.
  | outside (w : W)

def step (s : Dispatcher W P) : Event W P → Option (Dispatcher W P)
  | .subscribe topic cb => some (s.subscribe topic cb)
  | .post m => some { s with world := (s.post m).world }
  | .clear => some s.clear
  | .outside w => some { s with world := w }

def machine (w : W) : Machine (Dispatcher W P) (Event W P) where
  init := ctor w
  step := step

-- The subscriptions that a message is for.
def subscribed (s : Dispatcher W P) (topic : Topic) : List (Sub (Action W P)) :=
  s.since.filter (·.topic = topic)

-- What a post calls, in this order.
def called (p : Posting W P) : List (Sub (Action W P)) :=
  (p.turns.filter (·.called)).map (·.sub)

end Dispatcher
end Lax
