import Lax.Channel.Impl.Channel

/-!
This module contains a channel as the thread sees it that publishes to it: conditions and callbacks may
call the channel back while they are posted to, with or without a lock on it.
-/

namespace Lax

-- What a condition or a callback does, one thing after the other. Nobody reads what the script of a
-- callback returns.
inductive Script (W P : Type) where
  | ret (holds : Bool)
  | outside (effect : W → W) (next : W → Script W P)
  | subscribe (topic : Topic) (cond cb : Message P → Script W P) (mode : Mode)
    (next : Nat → Script W P)
  | unsubscribe (key : Nat) (next : Bool → Script W P)

structure Handler (W P : Type) where
  cond : Message P → Script W P
  cb : Message P → Script W P

-- Why a call does not return.
inductive Stop where
  -- The thread waits for a lock that it holds itself.
  | waits
  -- The pool of keys has no key.
  | throws
  -- The iterators of a loop are not valid any more, as its vector has changed.
  | invalid
  deriving DecidableEq, Repr

structure LockedChannel (W P : Type) where
  q : List (Message P)
  map : SubMap (Handler W P)
  -- `use_lock_` of the map
  useLock : Bool
  config : ChannelConfig
  world : W
  -- `mutex_`: how often the thread has it as a shared lock
  shared : Nat
  -- the entry that a loop of `post_on_topic` is at
  busy : Option EntryLink
  -- history: the keys that have been unsubscribed since the call of the channel
  removed : List Nat

-- A subscription gets its turn for a message: history of what `post` does.
structure Visit (W P : Type) where
  sub : Sub (Handler W P)
  message : Message P
  -- the channel when the condition is asked
  before : LockedChannel W P
  called : Bool

-- What a call of `sub_map::post` returns.
structure Posted (W P : Type) where
  count : Nat
  visits : List (Visit W P)
  channel : LockedChannel W P

-- What a call of the channel returns, with what each call of `sub_map::post` does.
structure Dispatched (W P : Type) where
  count : Nat
  posted : List (Posted W P)
  channel : LockedChannel W P

namespace LockedChannel

variable {W P : Type}

-- The class has `map_` before `config_`, and so `map_(config_.use_lock)` gets what the memory of `config_`
-- held before it was constructed. For an object of static storage duration these are zeros.
def ctor (memory cfg : ChannelConfig) (w : W) : LockedChannel W P :=
  ⟨[], .ctor, memory.useLock, cfg, w, 0, none, []⟩

/-!
### The lock
-/

def lockShared (s : LockedChannel W P) : LockedChannel W P :=
  if s.useLock then { s with shared := s.shared + 1 } else s

def unlockShared (s : LockedChannel W P) : LockedChannel W P :=
  if s.useLock then { s with shared := s.shared - 1 } else s

-- `use_lock_unique`. The lock is given back before the function returns and before anything else of the
-- thread runs.
def lockUnique (s : LockedChannel W P) : Except Stop Unit :=
  if s.useLock ∧ s.shared ≠ 0 then .error .waits else .ok ()

-- `push_back` changes the vector of the entry.
def subscribe (s : LockedChannel W P) (topic : Topic) (handler : Handler W P) (mode : Mode) :
    Except Stop (Nat × LockedChannel W P) := do
  s.lockUnique
  match s.map.subscribe topic handler mode with
  | none => .error .throws
  | some (key, map) =>
    if s.busy = some ⟨topic, mode⟩ then
      .error .invalid
    else
      .ok (key, { s with map := map })

-- `erase` changes it if there is such a key.
def unsubscribe (s : LockedChannel W P) (key : Nat) : Except Stop (Bool × LockedChannel W P) := do
  s.lockUnique
  let (removed, map) := s.map.unsubscribe key
  if ¬removed then
    .ok (false, { s with map := map })
  else if s.busy = s.map.keys key then
    .error .invalid
  else
    .ok (true, { s with map := map, removed := key :: s.removed })

end LockedChannel

variable {W P : Type}

def Script.run (s : LockedChannel W P) : Script W P → Except Stop (Bool × LockedChannel W P)
  | .ret holds => .ok (holds, s)
  | .outside effect next =>
    let w := effect s.world
    (next w).run { s with world := w }
  | .subscribe topic cond cb mode next => do
    let (key, s) ← s.subscribe topic ⟨cond, cb⟩ mode
    (next key).run s
  | .unsubscribe key next => do
    let (removed, s) ← s.unsubscribe key
    (next removed).run s

def Sub.dispatch (sub : Sub (Handler W P)) (s : LockedChannel W P) (m : Message P) :
    Except Stop (Bool × LockedChannel W P) :=
  if ¬sub.topic.isMatch m.topic then
    .ok (false, s)
  else do
    let (holds, s) ← (sub.action.cond m).run s
    if ¬holds then
      .ok (false, s)
    else do
      let (_, s) ← (sub.action.cb m).run s
      .ok (true, s)

namespace LockedChannel

/-!
### Dispatching
-/

def postSubs (m : Message P) (s : LockedChannel W P) :
    List (Sub (Handler W P)) → Except Stop (Posted W P)
  | [] => .ok ⟨0, [], s⟩
  | sub :: subs => do
    let (called, s') ← sub.dispatch s m
    let rest ← postSubs m s' subs
    .ok ⟨if called then rest.count + 1 else rest.count, ⟨sub, m, s, called⟩ :: rest.visits,
      rest.channel⟩

-- The loop goes over the vector as it is: what would change it meanwhile does not return.
def postOnTopic (mode : Mode) (m : Message P) (s : LockedChannel W P) (topic : Topic) :
    Except Stop (Posted W P) :=
  if ¬topic.isValid then
    .ok ⟨0, [], s⟩
  else
    match s.map.entries mode topic with
    | none => .ok ⟨0, [], s⟩
    | some subs => do
      let posted ← postSubs m { s with busy := some ⟨topic, mode⟩ } subs
      .ok { posted with channel := { posted.channel with busy := none } }

def postTopics (mode : Mode) (m : Message P) (s : LockedChannel W P) :
    List Topic → Except Stop (Posted W P)
  | [] => .ok ⟨0, [], s⟩
  | topic :: topics => do
    let p ← postOnTopic mode m s topic
    let rest ← postTopics mode m p.channel topics
    .ok ⟨p.count + rest.count, p.visits ++ rest.visits, rest.channel⟩

-- A call of `sub_map::post`.
structure Post (P : Type) where
  mode : Mode
  topics : List Topic
  message : Message P

def ownTopics (m : Message P) : List Topic :=
  [m.topic, m.topic.getGroupTopic]

def post (s : LockedChannel W P) (p : Post P) : Except Stop (Posted W P) := do
  let posted ← postTopics p.mode p.message s.lockShared p.topics
  .ok { posted with channel := posted.channel.unlockShared }

def postAll (s : LockedChannel W P) : List (Post P) → Except Stop (Dispatched W P)
  | [] => .ok ⟨0, [], s⟩
  | p :: ps => do
    let posted ← s.post p
    let rest ← postAll posted.channel ps
    .ok ⟨posted.count + rest.count, posted :: rest.posted, rest.channel⟩

-- The lock of `has_delayed_sub` is given back at once.
def enqueueChecked (s : LockedChannel W P) (topic : Topic) (m : Message P) : LockedChannel W P :=
  if s.config.checkDelayedSubBeforeEnqueue then
    if s.map.hasDelayedSub topic || s.map.hasDelayedSub topic.getGroupTopic then
      { s with q := s.q ++ [m] }
    else
      s
  else
    { s with q := s.q ++ [m] }

inductive Call (P : Type) where
  | publish (m : Message P)
  | publishTo (topic : Topic) (m : Message P)
  | post (m : Message P)
  | execute

-- The calls of `sub_map::post`: `execute` makes one for each message in the queue.
def posts (s : LockedChannel W P) : Call P → List (Post P)
  | .publish m | .post m => [⟨.immediate, ownTopics m, m⟩]
  | .publishTo topic m => [⟨.immediate, [topic, topic.getGroupTopic] ++ ownTopics m, m⟩]
  | .execute => s.q.map fun m => ⟨.delayed, ownTopics m, m⟩

-- What happens to the queue before anything is posted. Scripts do not publish, so that `execute` gets
-- just what is in the queue.
def enqueue (s : LockedChannel W P) : Call P → LockedChannel W P
  | .publish m => s.enqueueChecked m.topic m
  | .publishTo topic m => s.enqueueChecked topic m
  | .post _ => s
  | .execute => { s with q := [] }

def dispatch (s : LockedChannel W P) (call : Call P) : Except Stop (Dispatched W P) :=
  ({ s with removed := [] }.enqueue call).postAll (s.posts call)

end LockedChannel
end Lax
