import Lax.Channel.Lemmas.Reentry

/-!
This module contains when a channel gets to the end of a dispatch. Under the lock nobody who is posted to
may call it back, and without it nobody may change the entry in which it is found.
-/

namespace Lax

variable {W P : Type}

-- What a script does if it leaves the channel alone, and `none` if it does not.
def Script.eval (w : W) : Script W P → Option (Bool × W)
  | .ret holds => some (holds, w)
  | .outside effect next => (next (effect w)).eval (effect w)
  | .subscribe _ _ _ _ _ => none
  | .unsubscribe _ _ => none

def Sub.eval (sub : Sub (Handler W P)) (w : W) (m : Message P) : Option (Bool × W) :=
  if ¬sub.topic.isMatch m.topic then
    some (false, w)
  else
    (sub.action.cond m).eval w |>.bind fun (holds, w) =>
      if ¬holds then some (false, w) else (sub.action.cb m).eval w |>.map fun (_, w) => (true, w)

namespace LockedChannel

variable {s s' : LockedChannel W P} {m : Message P} {sub : Sub (Handler W P)}
  {subs subs' : List (Sub (Handler W P))}

-- The world after all of the subscriptions have had their turns, if each leaves the channel alone.
def undisturbed (w : W) (turns : List (Sub (Handler W P) × Message P)) : Option W :=
  turns.foldlM (fun w turn => (turn.1.eval w turn.2).map Prod.snd) w

theorem undisturbed_append (w : W) (turns turns' : List (Sub (Handler W P) × Message P)) :
    undisturbed w (turns ++ turns') = (undisturbed w turns).bind fun w => undisturbed w turns' :=
  List.foldlM_append

/-!
### Nobody calls back
-/

-- The thread has the lock, and so it would wait for itself.
def Locked (s : LockedChannel W P) : Prop :=
  s.useLock = true ∧ s.shared ≠ 0

-- Each of the subscriptions has had a turn, while no key has been removed.
structure Visits (subs : List (Sub (Handler W P))) (s : LockedChannel W P) (visits : List (Visit W P)) :
    Prop where
  subs_eq : visits.map (·.sub) = subs
  removed : ∀ v ∈ visits, v.before.removed = s.removed

inductive Outcome (m : Message P) (s : LockedChannel W P) (subs : List (Sub (Handler W P))) :
    Except Stop (Posted W P) → Prop where
  | waits (r : Except Stop (Posted W P)) (h : undisturbed s.world (subs.map (·, m)) = none)
    (hr : s.Locked → r = .error .waits) : Outcome m s subs r
  | returns (w : W) (p : Posted W P) (h : undisturbed s.world (subs.map (·, m)) = some w)
    (hchannel : p.channel = { s with world := w }) (hvisits : Visits subs s p.visits) :
    Outcome m s subs (.ok p)

theorem Visits.append {visits visits' : List (Visit W P)} (h : Visits subs s visits)
    (h' : Visits subs' s visits') : Visits (subs ++ subs') s (visits ++ visits') := by
  constructor
  . rw [List.map_append, h.subs_eq, h'.subs_eq]
  . exact List.forall_mem_append.mpr ⟨h.removed, h'.removed⟩

-- One call after the other, as in `count += ...`.
def andThen (r : Except Stop (Posted W P)) (next : LockedChannel W P → Except Stop (Posted W P)) :
    Except Stop (Posted W P) := do
  let p ← r
  let rest ← next p.channel
  .ok ⟨p.count + rest.count, p.visits ++ rest.visits, rest.channel⟩

theorem Outcome.andThen {r : Except Stop (Posted W P)}
    {next : LockedChannel W P → Except Stop (Posted W P)} (h : Outcome m s subs r)
    (hnext : ∀ w, Outcome m { s with world := w } subs' (next { s with world := w })) :
    Outcome m s (subs ++ subs') (LockedChannel.andThen r next) := by
  cases h with
  | waits _ h hr =>
    apply Outcome.waits
    . rw [List.map_append, undisturbed_append, h]
      rfl
    . intro hlocked
      rw [hr hlocked]
      rfl
  | returns w p h hchannel hvisits =>
    unfold LockedChannel.andThen
    have hrest := hnext w
    rw [← hchannel] at hrest
    have happend : undisturbed s.world ((subs ++ subs').map (·, m))
        = undisturbed w (subs'.map (·, m)) := by
      rw [List.map_append, undisturbed_append, h]
      rfl
    have hworld : p.channel.world = w := by rw [hchannel]
    have hlock : p.channel.Locked ↔ s.Locked := by rw [hchannel]; rfl
    have hremoved : p.channel.removed = s.removed := by rw [hchannel]
    simp only [bind, Except.bind]
    generalize next p.channel = r at hrest ⊢
    cases hrest with
    | waits _ h' hr =>
      apply Outcome.waits
      . rw [happend, ← hworld, h']
      . intro hlocked
        rw [hr (hlock.mpr hlocked)]
    | returns w' p' h' hchannel' hvisits' =>
      dsimp only
      apply Outcome.returns w'
      . rw [happend, ← hworld, h']
      . rw [hchannel', hchannel]
      . apply hvisits.append
        exact ⟨hvisits'.subs_eq, fun v hv => (hvisits'.removed v hv).trans hremoved⟩

-- The subscriptions that a call of `sub_map::post` finds, in the order of their turns.
def found (map : SubMap (Handler W P)) (p : Post P) : List (Sub (Handler W P)) :=
  p.topics.flatMap (map.lookup p.mode)

-- All of the turns, for one call of `sub_map::post` after the other.
def turns (map : SubMap (Handler W P)) (ps : List (Post P)) :
    List (Sub (Handler W P) × Message P) :=
  ps.flatMap fun p => (found map p).map (·, p.message)

end LockedChannel
end Lax
