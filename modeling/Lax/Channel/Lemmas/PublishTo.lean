import Lax.Channel.Lemmas.Delivery

/-!
This module contains whom a message reaches that is published to a topic of its own.
-/

namespace Lax
namespace Channel

open Posting

variable {W P : Type} {s : Channel W P} {sub : Sub (Action W P)} {m : Message P} {t : Topic}

-- The topics whose subscriptions `publish(topic, m)` is meant for.
def Audience (t : Topic) (m : Message P) (topic : Topic) : Prop :=
  topic = t ∨ topic = t.getGroupTopic ∨ topic = m.topic ∨ topic = m.topic.getGroupTopic

-- The condition does not hold, whatever the world is like.
def Refuses (sub : Sub (Action W P)) (m : Message P) : Prop :=
  ∀ w, (sub.action.cond w m).1 = false

-- Among the turns of the subscription there is one in which its condition is asked, and it is called then
-- if the condition holds.
def AskedOnce (turns : List (Turn W P)) (sub : Sub (Action W P)) (m : Message P) : Prop :=
  ∃ turn, turns.filter (fun turn => turn.sub.action.serial = sub.action.serial
      ∧ turn.sub.topic.isMatch turn.message.topic) = [turn]
    ∧ turn.sub = sub ∧ turn.message = m ∧ turn.called = (sub.action.cond turn.world m).1

structure Calls (s : Channel W P) (t : Topic) (m : Message P) (mode : Mode)
    (turns : List (Turn W P)) : Prop where
  called : ∀ turn ∈ turns, turn.called = true → s.map.Live turn.sub ∧ turn.sub.mode = mode
    ∧ Audience t m turn.sub.topic ∧ turn.message = m ∧ (turn.sub.action.cond turn.world m).1 = true
  once : ∀ sub, s.map.Live sub → sub.mode = mode → Audience t m sub.topic → ¬Refuses sub m →
    AskedOnce turns sub m

-- The check before the message gets into the queue.
def Enqueues (check : Bool) (s : Channel W P) (t : Topic) : Prop :=
  check = false ∨ s.map.hasDelayedSub t = true ∨ s.map.hasDelayedSub t.getGroupTopic = true

def ServedIn (check : Bool) (s : Channel W P) (t : Topic) (topic : Topic) : Mode → Prop
  | .immediate => topic ≠ t ∧ topic ≠ t.getGroupTopic
  | .delayed => Enqueues check s t

-- What a subscription of the audience needs to be called once.
def Served (check : Bool) (s : Channel W P) (t : Topic) (m : Message P)
    (sub : Sub (Action W P)) : Prop :=
  Addressed m sub.topic ∧ m.topic.getType ≠ 0 ∧ ServedIn check s t sub.topic sub.mode

/-!
### Lookups
-/

section

variable {n : Nat} {topics : List Topic} {mode : Mode} {p : Posting W P}
  (hposts : Posts n m (topics.flatMap (s.map.lookup mode)) p)

include hposts

end

end Channel
end Lax
