import Lax.Channel.Impl.SubMap

/-!
This module contains a channel: messages are published to subscriptions at once, and to delayed ones
when the queue is executed. Conditions and callbacks may do anything to the world outside of the
channel.
-/

namespace Lax

structure Message (P : Type) where
  topic : Topic
  content : P

structure ChannelConfig where
  -- "limit post count in a post loop"; nothing reads it
  loopPostLimit : Nat := 2048
  useLock : Bool := true
  checkDelayedSubBeforeEnqueue : Bool := true
  deriving DecidableEq, Repr

structure Action (W P : Type) where
  -- history: how many subscriptions have been made before this one
  serial : Nat
  cond : W → Message P → Bool × W
  cb : W → Message P → W

-- A subscription gets its turn for a message: history of what `post` does.
structure Turn (W P : Type) where
  sub : Sub (Action W P)
  published : Nat
  message : Message P
  -- when the condition is asked
  world : W
  called : Bool

structure Posting (W P : Type) where
  count : Nat
  turns : List (Turn W P)
  world : W

variable {W P : Type}

-- What `post` returns, and the world after it.
def Sub.post (sub : Sub (Action W P)) (w : W) (m : Message P) : Bool × W :=
  if ¬sub.topic.isMatch m.topic then
    (false, w)
  else
    let (holds, w) := sub.action.cond w m
    if ¬holds then (false, w) else (true, sub.action.cb w m)

namespace Posting

def postSubs (published : Nat) (m : Message P) (w : W) : List (Sub (Action W P)) → Posting W P
  | [] => ⟨0, [], w⟩
  | sub :: subs =>
    let (called, w') := sub.post w m
    let rest := postSubs published m w' subs
    ⟨if called then rest.count + 1 else rest.count, ⟨sub, published, m, w, called⟩ :: rest.turns,
      rest.world⟩

def postOnTopic (em : EntryMap (Action W P)) (published : Nat) (m : Message P) (w : W)
    (topic : Topic) : Posting W P :=
  if ¬topic.isValid then
    ⟨0, [], w⟩
  else
    match em topic with
    | none => ⟨0, [], w⟩
    | some subs => postSubs published m w subs

def postTopics (em : EntryMap (Action W P)) (published : Nat) (m : Message P) (w : W) :
    List Topic → Posting W P
  | [] => ⟨0, [], w⟩
  | topic :: topics =>
    let p := postOnTopic em published m w topic
    let rest := postTopics em published m p.world topics
    ⟨p.count + rest.count, p.turns ++ rest.turns, rest.world⟩

-- `sub_map::post` with a message
def post (em : EntryMap (Action W P)) (published : Nat) (m : Message P) (w : W) : Posting W P :=
  postTopics em published m w [m.topic, m.topic.getGroupTopic]

-- `sub_map::post` with a topic of its own
def postTo (em : EntryMap (Action W P)) (published : Nat) (topic : Topic) (m : Message P) (w : W) :
    Posting W P :=
  postTopics em published m w [topic, topic.getGroupTopic, m.topic, m.topic.getGroupTopic]

-- The loop of `execute`.
def drain (em : EntryMap (Action W P)) (w : W) : List (Nat × Message P) → Posting W P
  | [] => ⟨0, [], w⟩
  | (published, m) :: q =>
    let p := post em published m w
    let rest := drain em p.world q
    ⟨p.count + rest.count, p.turns ++ rest.turns, rest.world⟩

end Posting

structure Channel (W P : Type) where
  -- each message with the number of the publish that it comes from
  q : List (Nat × Message P)
  map : SubMap (Action W P)
  world : W
  -- history
  created : List (Sub (Action W P))
  published : Nat
  turns : List (Turn W P)

namespace Channel

def ctor (w : W) : Channel W P :=
  ⟨[], SubMap.ctor, w, [], 0, []⟩

def subscribe (s : Channel W P) (topic : Topic) (cond : W → Message P → Bool × W)
    (cb : W → Message P → W) (mode : Mode) : Option (Nat × Channel W P) :=
  let action := ⟨s.created.length, cond, cb⟩
  match s.map.subscribe topic action mode with
  | none => none
  | some (key, map) =>
    some (key, { s with map := map, created := s.created ++ [⟨key, topic, action, mode⟩] })

def unsubscribe (s : Channel W P) (key : Nat) : Bool × Channel W P :=
  let (removed, map) := s.map.unsubscribe key
  (removed, { s with map := map })

-- `check` is `check_delayed_sub_before_enqueue`.
def enqueueChecked (check : Bool) (s : Channel W P) (topic : Topic) (m : Message P) :
    Channel W P :=
  if check then
    if s.map.hasDelayedSub topic || s.map.hasDelayedSub topic.getGroupTopic then
      { s with q := s.q ++ [(s.published, m)] }
    else
      s
  else
    { s with q := s.q ++ [(s.published, m)] }

def finish (s : Channel W P) (p : Posting W P) : Nat × Channel W P :=
  (p.count, { s with world := p.world, turns := s.turns ++ p.turns })

def publish (check : Bool) (s : Channel W P) (m : Message P) : Nat × Channel W P :=
  let s := s.enqueueChecked check m.topic m
  let p := Posting.post (s.map.entries .immediate) s.published m s.world
  { s with published := s.published + 1 }.finish p

def publishTo (check : Bool) (s : Channel W P) (topic : Topic) (m : Message P) :
    Nat × Channel W P :=
  let s := s.enqueueChecked check topic m
  let p := Posting.postTo (s.map.entries .immediate) s.published topic m s.world
  { s with published := s.published + 1 }.finish p

def execute (s : Channel W P) : Nat × Channel W P :=
  let p := Posting.drain (s.map.entries .delayed) s.world s.q
  { s with q := [] }.finish p

inductive Event (W P : Type) where
  | subscribe (topic : Topic) (cond : W → Message P → Bool × W) (cb : W → Message P → W) (mode : Mode)
  | unsubscribe (key : Nat)
  | publish (m : Message P)
  | publishTo (topic : Topic) (m : Message P)
  | execute
  -- The world changes between two calls.
  | outside (w : W)

def step (check : Bool) (s : Channel W P) : Event W P → Option (Channel W P)
  | .subscribe topic cond cb mode =>
    match s.subscribe topic cond cb mode with
    | none => some s
    | some (_, s) => some s
  | .unsubscribe key => some (s.unsubscribe key).2
  | .publish m => some (s.publish check m).2
  | .publishTo topic m => some (s.publishTo check topic m).2
  | .execute => some s.execute.2
  | .outside w => some { s with world := w }

def machine (check : Bool) (w : W) : Machine (Channel W P) (Event W P) where
  init := ctor w
  step := step check

end Channel
end Lax
