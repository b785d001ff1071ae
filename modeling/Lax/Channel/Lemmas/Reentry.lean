import Lax.Channel.Impl.LockedChannel
import Lax.Channel.Lemmas.Delivery

/-!
This module contains what a call of a channel has done when it returns, whatever the conditions and
callbacks did to the channel meanwhile: who was there at its start and found once has had one turn, or
has gone before.
-/

namespace Lax
namespace LockedChannel

variable {W P : Type} {s s' : LockedChannel W P} {m : Message P} {sub : Sub (Handler W P)}
  {subs : List (Sub (Handler W P))}

/-!
### Scripts
-/

-- Who is subscribed stays so until the key is unsubscribed.
structure Keeps (s s' : LockedChannel W P) : Prop where
  inv : s'.map.Inv
  removed : s.removed ⊆ s'.removed
  live : ∀ sub, s.map.Live sub → sub.key ∉ s'.removed → s'.map.Live sub

-- Nobody goes whose entry a loop is at.
structure Follows (s s' : LockedChannel W P) : Prop extends Keeps s s' where
  busy : s'.busy = s.busy
  held : ∀ sub, s.map.Live sub → s.busy = some ⟨sub.topic, sub.mode⟩ → sub.key ∉ s.removed →
    sub.key ∉ s'.removed

theorem Keeps.of_eq (h : s.map.Inv) (hmap : s'.map = s.map) (hremoved : s'.removed = s.removed) :
    Keeps s s' := by
  rw [← hmap] at h
  exact ⟨h, fun _ hkey => hremoved ▸ hkey, fun _ hlive _ => hmap ▸ hlive⟩

theorem Keeps.refl (h : s.map.Inv) : Keeps s s :=
  .of_eq h rfl rfl

theorem Keeps.trans {s'' : LockedChannel W P} (h : Keeps s s') (h' : Keeps s' s'') : Keeps s s'' where
  inv := h'.inv
  removed := fun _ hkey => h'.removed (h.removed hkey)
  live := by
    intro sub hlive hkey
    exact h'.live sub (h.live sub hlive fun hmem => hkey (h'.removed hmem)) hkey

theorem Follows.refl (h : s.map.Inv) : Follows s s :=
  ⟨.refl h, rfl, fun _ _ _ h => h⟩

theorem Follows.trans {s'' : LockedChannel W P} (h : Follows s s') (h' : Follows s' s'') :
    Follows s s'' where
  toKeeps := h.toKeeps.trans h'.toKeeps
  busy := h'.busy.trans h.busy
  held := by
    intro sub hlive hbusy hkey
    have hkey' := h.held sub hlive hbusy hkey
    exact h'.held sub (h.live sub hlive hkey') (h.busy.trans hbusy) hkey'

theorem bind_eq_ok {α β : Type} {call : Except Stop α} {next : α → Except Stop β} {r : β}
    (h : (call >>= next) = .ok r) : ∃ a, call = .ok a ∧ next a = .ok r := by
  cases call with
  | error e => contradiction
  | ok a => exact ⟨a, rfl, h⟩

theorem follows_subscribe (hinv : s.map.Inv) {topic : Topic} {handler : Handler W P} {mode : Mode}
    {r : Nat × LockedChannel W P} (h : s.subscribe topic handler mode = .ok r) : Follows s r.2 := by
  obtain ⟨_, -, h⟩ := bind_eq_ok h
  split at h
  . contradiction
  . next key map hmap =>
    split at h
    . contradiction
    . cases h
      have hsub := SubMap.subscribed hmap
      refine ⟨⟨hinv.subscribed hsub, fun _ h => h, ?_⟩, rfl, fun _ _ _ h => h⟩
      intro sub hlive _
      exact hsub.live_iff.mpr (Or.inl hlive)

theorem follows_unsubscribe (hinv : s.map.Inv) {key : Nat} {r : Bool × LockedChannel W P}
    (h : s.unsubscribe key = .ok r) : Follows s r.2 := by
  obtain ⟨_, -, h⟩ := bind_eq_ok h
  cases hkey : s.map.keys key with
  | none =>
    rw [SubMap.unsubscribe_of_none hkey] at h
    cases h
    exact .refl hinv
  | some link =>
    obtain ⟨htrue, hremoved, hseq⟩ := hinv.toConsistent.unsubscribe hkey
    have hinv' := hinv.unsubscribe key
    generalize s.map.unsubscribe key = r' at *
    obtain ⟨removed, map⟩ := r'
    dsimp only at htrue hremoved hinv' h
    subst htrue
    rw [if_neg (not_not_intro rfl), hkey] at h
    split at h
    . contradiction
    . next hbusy =>
      cases h
      refine ⟨⟨hinv', fun _ h => List.mem_cons_of_mem key h, ?_⟩, rfl, ?_⟩
      . intro sub hlive hne
        rw [List.mem_cons, not_or] at hne
        exact (hremoved.live_iff hinv.toConsistent).mpr ⟨hlive, hne.1⟩
      . intro sub hlive hown hne
        rw [List.mem_cons, not_or]
        refine ⟨?_, hne⟩
        intro heq
        rw [← heq, hinv.toConsistent.keys_of_live hlive] at hkey
        exact hbusy (hown.trans hkey)

theorem follows_run {script : Script W P} (hinv : s.map.Inv) {r : Bool × LockedChannel W P}
    (h : script.run s = .ok r) : Follows s r.2 := by
  induction script generalizing s with
  | ret holds =>
    cases h
    exact .refl hinv
  | outside effect next ih =>
    obtain ⟨⟨hinv', hremoved, hlive⟩, hbusy, hheld⟩ :=
      @ih (effect s.world) { s with world := effect s.world } hinv h
    exact ⟨⟨hinv', hremoved, hlive⟩, hbusy, hheld⟩
  | subscribe topic cond cb mode next _ _ ih =>
    obtain ⟨r', hsub, h⟩ := bind_eq_ok h
    have hfollows := follows_subscribe hinv hsub
    exact hfollows.trans (ih r'.1 hfollows.inv h)
  | unsubscribe key next ih =>
    obtain ⟨r', hunsub, h⟩ := bind_eq_ok h
    have hfollows := follows_unsubscribe hinv hunsub
    exact hfollows.trans (ih r'.1 hfollows.inv h)

/-!
### Turns
-/

-- The message is posted, and the subscription is called if its condition holds.
def VisitOf (m : Message P) (v : Visit W P) : Prop :=
  v.message = m ∧ (v.sub.topic.isMatch m.topic = true →
    ∃ s', (v.sub.action.cond m).run v.before = .ok (v.called, s'))

-- Each subscription of the entry has had its turn.
structure Loops (m : Message P) (subs : List (Sub (Handler W P))) (s : LockedChannel W P)
    (p : Posted W P) : Prop where
  follows : Follows s p.channel
  subs_eq : p.visits.map (·.sub) = subs
  visit : ∀ v ∈ p.visits, VisitOf m v ∧ Follows s v.before

-- The turns of the subscription, while its key is its own.
def turnsOf (sub : Sub (Handler W P)) (visits : List (Visit W P)) : List (Visit W P) :=
  visits.filter fun v => v.sub.key = sub.key ∧ sub.key ∉ v.before.removed

def OneTurn (sub : Sub (Handler W P)) (m : Message P) (visits : List (Visit W P)) : Prop :=
  ∃ v, turnsOf sub visits = [v] ∧ v.sub = sub ∧ VisitOf m v

-- One turn, or none as the subscription has gone before.
def CalledOnce (sub : Sub (Handler W P)) (m : Message P) (p : Posted W P) : Prop :=
  OneTurn sub m p.visits ∨ turnsOf sub p.visits = [] ∧ sub.key ∈ p.channel.removed

theorem CalledOnce.congr {p p' : Posted W P} (h : CalledOnce sub m p)
    (hturns : turnsOf sub p'.visits = turnsOf sub p.visits)
    (hremoved : p.channel.removed ⊆ p'.channel.removed) : CalledOnce sub m p' := by
  rcases h with ⟨v, hv, hvisit⟩ | ⟨hnil, hkey⟩
  . exact Or.inl ⟨v, hturns.trans hv, hvisit⟩
  . exact Or.inr ⟨hturns.trans hnil, hremoved hkey⟩

end LockedChannel
end Lax
