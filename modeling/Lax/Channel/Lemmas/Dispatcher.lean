import Lax.Channel.Impl.Dispatcher
import Lax.Channel.Lemmas.Topic
import Lax.Channel.Lemmas.Posting

/-!
This module contains which subscriptions of a dispatcher are ever called: the first one to each topic,
as the extended copy of its entry is never written back.
-/

namespace Lax
namespace Dispatcher

variable {W P : Type} {s s' : Dispatcher W P}

@[simp]
theorem emplace_of_none {subs : EntryMap (Action W P)} {topic : Topic} (h : subs topic = none)
    (e : List (Sub (Action W P))) : emplace subs topic e = Function.update subs topic (some e) := by
  unfold emplace
  rw [h]

@[simp]
theorem emplace_of_some {subs : EntryMap (Action W P)} {topic : Topic}
    {e' : List (Sub (Action W P))} (h : subs topic = some e') (e : List (Sub (Action W P))) :
    emplace subs topic e = subs := by
  unfold emplace
  rw [h]

/-!
### The first subscription to a topic
-/

-- What the map has for a topic.
def firstOf (subs : List (Sub (Action W P))) : Option (List (Sub (Action W P))) :=
  subs.head?.map fun sub => [sub]

structure Inv (s : Dispatcher W P) : Prop where
  subs_eq : ∀ topic, s.subs topic = firstOf (s.subscribed topic)
  cond_eq : ∀ sub ∈ s.since, sub.action.cond = fun w _ => (true, w)

theorem inv_ctor (w : W) : (ctor w : Dispatcher W P).Inv :=
  ⟨fun _ => rfl, fun _ h => absurd h List.not_mem_nil⟩

theorem filter_snoc (since : List (Sub (Action W P))) (sub : Sub (Action W P)) (topic : Topic) :
    (since ++ [sub]).filter (·.topic = topic)
      =
    if sub.topic = topic then
      since.filter (·.topic = topic) ++ [sub]
    else
      since.filter (·.topic = topic) := by
  rw [List.filter_append]
  split
  . next heq => simp [heq]
  . next hne => simp [hne]

theorem subs_eq_subscribe (hinv : s.Inv) (topic : Topic) (cb : W → Message P → W) (topic' : Topic) :
    (s.subscribe topic cb).subs topic' = firstOf ((s.subscribe topic cb).subscribed topic') := by
  have htopic := hinv.subs_eq topic
  have htopic' := hinv.subs_eq topic'
  unfold subscribed at htopic htopic'
  unfold subscribe subscribed
  dsimp only
  rw [filter_snoc]
  dsimp only
  cases hsubs : s.subs topic with
  | none =>
    rw [emplace_of_none hsubs]
    split
    . next heq =>
      subst heq
      rw [hsubs] at htopic
      rw [Function.update_self]
      cases hfilter : s.since.filter (·.topic = topic) with
      | nil => rfl
      | cons sub subs =>
        rw [hfilter] at htopic
        contradiction
    . next hne =>
      rw [Function.update_of_ne (Ne.symm hne)]
      exact htopic'
  | some e =>
    rw [emplace_of_some hsubs]
    split
    . next heq =>
      subst heq
      cases hfilter : s.since.filter (·.topic = topic) with
      | nil =>
        rw [hfilter, hsubs] at htopic
        contradiction
      | cons sub subs =>
        rw [hfilter] at htopic'
        exact htopic'
    . exact htopic'

theorem inv_subscribe (hinv : s.Inv) (topic : Topic) (cb : W → Message P → W) :
    (s.subscribe topic cb).Inv := by
  constructor
  . apply subs_eq_subscribe hinv
  . intro sub hsub
    rcases List.mem_append.mp hsub with hsub | hsub
    . exact hinv.cond_eq sub hsub
    . rw [List.mem_singleton.mp hsub]

theorem inv_step (hinv : s.Inv) (e : Event W P) (hstep : s.step e = some s') : s'.Inv := by
  cases e with
  | subscribe topic cb =>
    injection hstep with hstep
    subst hstep
    apply inv_subscribe hinv
  | post m =>
    injection hstep with hstep
    subst hstep
    exact ⟨hinv.subs_eq, hinv.cond_eq⟩
  | clear =>
    injection hstep with hstep
    subst hstep
    exact ⟨fun _ => rfl, fun _ h => absurd h List.not_mem_nil⟩
  | outside w =>
    injection hstep with hstep
    subst hstep
    exact ⟨hinv.subs_eq, hinv.cond_eq⟩

theorem inv_of_reachable {w : W} (h : (machine (P := P) w).Reachable s) : s.Inv := by
  apply Machine.inv_of_reachable Inv _ _ h
  . apply inv_ctor
  . exact fun s e s' hinv hstep => inv_step hinv e hstep

/-!
### Posting
-/

end Dispatcher
end Lax
