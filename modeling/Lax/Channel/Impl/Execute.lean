import Lax.Channel.Impl.Channel

/-!
This module contains the loop of `execute` with conditions and callbacks that publish to the channel
while it runs. They do not subscribe or unsubscribe, so that the subscriptions stay as they are.
-/

namespace Lax

-- What a condition or a callback does, one thing after the other. `publish` without a topic is
-- `publish(m)`. Nobody reads what the script of a callback returns.
inductive Publisher (W P : Type) where
  | ret (holds : Bool)
  | outside (effect : W → W) (next : W → Publisher W P)
  | publish (topic : Option Topic) (m : Message P) (next : Nat → Publisher W P)

structure PublisherAction (W P : Type) where
  cond : Message P → Publisher W P
  cb : Message P → Publisher W P

structure Pump (W P : Type) where
  q : List (Message P)
  world : W
  -- history: what has been put into the queue
  pushed : List (Message P)

structure Executed (W P : Type) where
  count : Nat
  -- history: what has been taken out of the queue and posted
  posted : List (Message P)
  channel : Pump W P

variable {W P : Type}

-- `publish` as a script sees it: `none` if the stack is exhausted.
abbrev Publish (W P : Type) :=
  Option Topic → Message P → Pump W P → Option (Nat × Pump W P)

def Publisher.run (publish : Publish W P) (s : Pump W P) :
    Publisher W P → Option (Bool × Pump W P)
  | .ret holds => some (holds, s)
  | .outside effect next =>
    let w := effect s.world
    (next w).run publish { s with world := w }
  | .publish topic m next => do
    let (count, s) ← publish topic m s
    (next count).run publish s

def Sub.postWith (publish : Publish W P) (sub : Sub (PublisherAction W P)) (m : Message P)
    (s : Pump W P) : Option (Bool × Pump W P) :=
  if ¬sub.topic.isMatch m.topic then
    some (false, s)
  else do
    let (holds, s) ← (sub.action.cond m).run publish s
    if ¬holds then
      some (false, s)
    else do
      let (_, s) ← (sub.action.cb m).run publish s
      some (true, s)

namespace Pump

def postSubs (publish : Publish W P) (m : Message P) (s : Pump W P) :
    List (Sub (PublisherAction W P)) → Option (Nat × Pump W P)
  | [] => some (0, s)
  | sub :: subs => do
    let (called, s) ← sub.postWith publish m s
    let (count, s) ← postSubs publish m s subs
    some (if called then count + 1 else count, s)

def postOnTopic (publish : Publish W P) (em : EntryMap (PublisherAction W P)) (m : Message P)
    (s : Pump W P) (topic : Topic) : Option (Nat × Pump W P) :=
  if ¬topic.isValid then
    some (0, s)
  else
    match em topic with
    | none => some (0, s)
    | some subs => postSubs publish m s subs

def postTopics (publish : Publish W P) (em : EntryMap (PublisherAction W P)) (m : Message P)
    (s : Pump W P) : List Topic → Option (Nat × Pump W P)
  | [] => some (0, s)
  | topic :: topics => do
    let (count, s) ← postOnTopic publish em m s topic
    let (rest, s) ← postTopics publish em m s topics
    some (count + rest, s)

variable (cfg : ChannelConfig) (map : SubMap (PublisherAction W P))

def push (s : Pump W P) (m : Message P) : Pump W P :=
  { s with q := s.q ++ [m], pushed := s.pushed ++ [m] }

def enqueueChecked (s : Pump W P) (topic : Topic) (m : Message P) : Pump W P :=
  if cfg.checkDelayedSubBeforeEnqueue then
    if map.hasDelayedSub topic || map.hasDelayedSub topic.getGroupTopic then s.push m else s
  else
    s.push m

def ownTopics (m : Message P) : List Topic :=
  [m.topic, m.topic.getGroupTopic]

-- Both forms of `publish`. A subscription that is posted to at once may publish again, and so on: `depth`
-- of these calls fit on the stack.
def publish : Nat → Publish W P
  | 0 => fun _ _ _ => none
  | depth + 1 => fun topic m s =>
    match topic with
    | none =>
      let s := s.enqueueChecked cfg map m.topic m
      postTopics (publish depth) (map.entries .immediate) m s (ownTopics m)
    | some topic =>
      let s := s.enqueueChecked cfg map topic m
      postTopics (publish depth) (map.entries .immediate) m s
        ([topic, topic.getGroupTopic] ++ ownTopics m)

variable (depth : Nat)

def postDelayed (m : Message P) (s : Pump W P) : Option (Nat × Pump W P) :=
  postTopics (publish cfg map depth) (map.entries .delayed) m s (ownTopics m)

-- The loop of `execute`, for as many rounds as there is fuel.
def executeLoop : Nat → Pump W P → Option (Executed W P)
  | 0, _ => none
  | fuel + 1, s =>
    match s.q with
    | [] => some ⟨0, [], s⟩
    | m :: q => do
      let (count, s) ← postDelayed cfg map depth m { s with q := q }
      let rest ← executeLoop fuel s
      some ⟨count + rest.count, m :: rest.posted, rest.channel⟩

-- `execute` returns this.
def Executes (s : Pump W P) (r : Executed W P) : Prop :=
  ∃ fuel, executeLoop cfg map depth fuel s = some r

end Pump
end Lax
