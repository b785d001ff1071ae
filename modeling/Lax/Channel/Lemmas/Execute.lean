import Lax.Channel.Impl.Execute
import Lax.Channel.Lemmas.SubMap
import Lax.Channel.Lemmas.Topic

/-!
This module contains when a single `execute` keeps to the limit that the configuration names.
-/

namespace Lax
namespace Pump

variable {W P : Type} {cfg : ChannelConfig} {map : SubMap (PublisherAction W P)} {depth : Nat}

/-!
### The queue while messages are posted
-/

-- The queue has only grown at its end, by what has been pushed.
def Appends (s s' : Pump W P) : Prop :=
  ∃ new, s'.q = s.q ++ new ∧ s'.pushed = s.pushed ++ new

theorem Appends.refl (s : Pump W P) : Appends s s :=
  ⟨[], by simp⟩

theorem Appends.trans {s s' s'' : Pump W P} (h : Appends s s') (h' : Appends s' s'') :
    Appends s s'' := by
  obtain ⟨new, hq, hpushed⟩ := h
  obtain ⟨new', hq', hpushed'⟩ := h'
  refine ⟨new ++ new', ?_⟩
  simp [hq, hq', hpushed, hpushed']

-- Whatever the call returns, the queue has only grown.
def Grows {β : Type} (call : Pump W P → Option (β × Pump W P)) : Prop :=
  ∀ s r, call s = some r → Appends s r.2

theorem grows_some {β : Type} (b : β) : Grows fun s : Pump W P => some (b, s) := by
  intro s r h
  cases h
  apply Appends.refl

theorem Appends.bind {β γ : Type} {s : Pump W P} {call : Option (β × Pump W P)}
    {next : β × Pump W P → Option (γ × Pump W P)} {r : γ × Pump W P}
    (hr : call.bind next = some r) (hcall : ∀ mid, call = some mid → Appends s mid.2)
    (hnext : ∀ mid, next mid = some r → Appends mid.2 r.2) : Appends s r.2 := by
  obtain ⟨mid, hmid, hr⟩ := Option.bind_eq_some_iff.mp hr
  exact (hcall mid hmid).trans (hnext mid hr)

section

variable {publish : Publish W P} (hpublish : ∀ topic m, Grows (publish topic m))

include hpublish

theorem grows_run (script : Publisher W P) : Grows fun s => script.run publish s := by
  induction script with
  | ret holds => apply grows_some
  | outside effect next ih =>
    intro s r h
    exact ih (effect s.world) { s with world := effect s.world } r h
  | publish topic m next ih =>
    intro s r h
    apply Appends.bind h
    . exact hpublish topic m s
    . intro mid hmid
      exact ih mid.1 mid.2 r hmid

theorem grows_postWith (sub : Sub (PublisherAction W P)) (m : Message P) :
    Grows (sub.postWith publish m) := by
  intro s r h
  unfold Sub.postWith at h
  split at h
  . exact grows_some false s r h
  . apply Appends.bind h
    . exact grows_run hpublish (sub.action.cond m) s
    . intro ⟨holds, mid⟩ hmid
      cases holds with
      | false => exact grows_some false mid r hmid
      | true =>
        apply Appends.bind hmid
        . exact grows_run hpublish (sub.action.cb m) mid
        . intro ⟨_, last⟩ hlast
          exact grows_some true last r hlast

theorem grows_postSubs (m : Message P) (subs : List (Sub (PublisherAction W P))) :
    Grows fun s => postSubs publish m s subs := by
  induction subs with
  | nil => apply grows_some
  | cons sub subs ih =>
    intro s r h
    apply Appends.bind h
    . exact grows_postWith hpublish sub m s
    . intro ⟨called, mid⟩ hmid
      apply Appends.bind hmid
      . exact ih mid
      . intro ⟨count, last⟩ hlast
        exact grows_some _ last r hlast

theorem grows_postTopics (em : EntryMap (PublisherAction W P)) (m : Message P)
    (topics : List Topic) : Grows fun s => postTopics publish em m s topics := by
  have htopic : ∀ topic, Grows fun s => postOnTopic publish em m s topic := by
    intro topic
    unfold postOnTopic
    split
    . apply grows_some
    . split
      . apply grows_some
      . apply grows_postSubs hpublish
  induction topics with
  | nil => apply grows_some
  | cons topic topics ih =>
    intro s r h
    apply Appends.bind h
    . exact htopic topic s
    . intro ⟨count, mid⟩ hmid
      apply Appends.bind hmid
      . exact ih mid
      . intro ⟨rest, last⟩ hlast
        exact grows_some _ last r hlast

end

theorem appends_enqueueChecked (s : Pump W P) (topic : Topic) (m : Message P) :
    Appends s (s.enqueueChecked cfg map topic m) := by
  have hpush : Appends s (s.push m) := ⟨[m], rfl, rfl⟩
  unfold enqueueChecked
  split
  . split
    . exact hpush
    . apply Appends.refl
  . exact hpush

theorem grows_publish (topic : Option Topic) (m : Message P) :
    Grows (publish cfg map depth topic m) := by
  induction depth generalizing topic m with
  | zero =>
    intro s r h
    contradiction
  | succ depth ih =>
    intro s r h
    unfold publish at h
    cases topic with
    | none => exact (appends_enqueueChecked s _ m).trans (grows_postTopics ih _ m _ _ r h)
    | some topic => exact (appends_enqueueChecked s _ m).trans (grows_postTopics ih _ m _ _ r h)

theorem grows_postDelayed (m : Message P) : Grows (postDelayed cfg map depth m) := by
  apply grows_postTopics
  apply grows_publish

/-!
### The loop
-/

-- What has been queued is what has been posted, in this order.
theorem queued_of_executeLoop {fuel : Nat} {s : Pump W P} {r : Executed W P}
    (h : executeLoop cfg map depth fuel s = some r) :
    r.channel.q = []
      ∧ ∃ new, r.channel.pushed = s.pushed ++ new ∧ s.q ++ new = r.posted ++ r.channel.q := by
  induction fuel generalizing s r with
  | zero => contradiction
  | succ fuel ih =>
    unfold executeLoop at h
    split at h
    . next hq =>
      cases h
      exact ⟨hq, [], by simp⟩
    . next m q hq =>
      obtain ⟨⟨count, mid⟩, hmid, h⟩ := Option.bind_eq_some_iff.mp h
      obtain ⟨rest, hrest, h⟩ := Option.bind_eq_some_iff.mp h
      cases h
      obtain ⟨new, hmidq, hmidpushed⟩ := grows_postDelayed m _ _ hmid
      obtain ⟨hempty, new', hpushed, hqueued⟩ := ih hrest
      dsimp only at hmidq hmidpushed hqueued hpushed ⊢
      refine ⟨hempty, new ++ new', ?_, ?_⟩
      . rw [hpushed, hmidpushed, List.append_assoc]
      . rw [hq, List.cons_append, ← List.append_assoc, ← hmidq, hqueued, List.cons_append]

-- `execute` returns, it has posted no more messages than the limit allows, and the others wait in their
-- order.
def Bounded (cfg : ChannelConfig) (map : SubMap (PublisherAction W P)) (depth : Nat) (s : Pump W P) :
    Prop :=
  ∃ r, Executes cfg map depth s r ∧ r.posted.length ≤ cfg.loopPostLimit
    ∧ ∃ new, r.channel.pushed = s.pushed ++ new ∧ s.q ++ new = r.posted ++ r.channel.q

theorem length_le_of_bounded {s : Pump W P} (h : Bounded cfg map depth s) :
    s.q.length ≤ cfg.loopPostLimit := by
  obtain ⟨r, ⟨fuel, hloop⟩, hle, new, -, hqueued⟩ := h
  have hlen := congrArg List.length hqueued
  rw [(queued_of_executeLoop hloop).1, List.append_nil, List.length_append] at hlen
  omega

/-!
### What scripts publish
-/

-- The messages that are posted because of a publish, and how deep it nests, the call itself included.
structure Cost where
  posts : Nat
  nested : Nat
  deriving DecidableEq, Repr

-- `none` for what nobody publishes.
abbrev Price (P : Type) :=
  Option Topic → Message P → Option Cost

end Pump

section

variable {W P : Type} (reserve : W → Nat) (price : Pump.Price P) (level : Nat)

-- Whatever the script sees on its way, what it publishes is paid for out of `n` and of what the world
-- outside gives up of its reserve, and what is left is enough for what comes after it.
def Publisher.Pays (after : Bool → Nat → Prop) : Publisher W P → Nat → Prop
  | .ret holds, n => after holds n
  | .outside effect next, n =>
    ∀ w, reserve (effect w) ≤ n + reserve w
      ∧ (next (effect w)).Pays after (n + reserve w - reserve (effect w))
  | .publish topic m next, n =>
    ∃ cost, price topic m = some cost ∧ cost.nested ≤ level ∧ cost.posts ≤ n
      ∧ ∀ count, (next count).Pays after (n - cost.posts)

def Sub.Pays (sub : Sub (PublisherAction W P)) (m : Message P) (after : Nat → Prop) (n : Nat) : Prop :=
  if ¬sub.topic.isMatch m.topic then
    after n
  else
    (sub.action.cond m).Pays reserve price level (fun holds n =>
      if holds then (sub.action.cb m).Pays reserve price level (fun _ => after) n else after n) n

end

namespace Pump

variable {W P : Type} {cfg : ChannelConfig} {map : SubMap (PublisherAction W P)} {depth : Nat}

def PaysAll (reserve : W → Nat) (price : Price P) (level : Nat) (m : Message P) :
    List (Sub (PublisherAction W P)) → Nat → Prop
  | [], _ => True
  | sub :: subs, n => sub.Pays reserve price level m (PaysAll reserve price level m subs) n

def found (em : EntryMap (PublisherAction W P)) (topics : List Topic) :
    List (Sub (PublisherAction W P)) :=
  topics.flatMap fun topic => if topic.isValid then (em topic).getD [] else []

def lookedUp (topic : Option Topic) (m : Message P) : List Topic :=
  match topic with
  | none => ownTopics m
  | some topic => [topic, topic.getGroupTopic] ++ ownTopics m

def enters (cfg : ChannelConfig) (map : SubMap (PublisherAction W P)) (topic : Topic) : Bool :=
  !cfg.checkDelayedSubBeforeEnqueue || map.hasDelayedSub topic || map.hasDelayedSub topic.getGroupTopic

-- Prices for the messages in the queue and for those that scripts publish, each of which covers what
-- the subscriptions that it finds publish in turn. For what depends on the world outside, the world may
-- hold a reserve.
structure Prices (cfg : ChannelConfig) (map : SubMap (PublisherAction W P)) (depth : Nat) where
  reserve : W → Nat
  queued : Message P → Option Nat
  published : Price P
  delayed : ∀ m n, queued m = some n →
    0 < n ∧ PaysAll reserve published depth m (found (map.entries .delayed) (ownTopics m)) (n - 1)
  immediate : ∀ topic m cost, published topic m = some cost →
    0 < cost.nested ∧ ∃ own,
      (if enters cfg map (topic.getD m.topic) then queued m else some 0) = some own
        ∧ own ≤ cost.posts
        ∧ PaysAll reserve published (cost.nested - 1) m
          (found (map.entries .immediate) (lookedUp topic m)) (cost.posts - own)

-- The messages cost no more than `n` together.
def Affordable (queued : Message P → Option Nat) : List (Message P) → Nat → Prop
  | [], _ => True
  | m :: q, n => ∃ price, queued m = some price ∧ price ≤ n ∧ Affordable queued q (n - price)

section

variable {queued : Message P → Option Nat}

theorem Affordable.mono {q : List (Message P)} {n n' : Nat} (h : Affordable queued q n)
    (hle : n ≤ n') : Affordable queued q n' := by
  induction q generalizing n n' with
  | nil => trivial
  | cons m q ih =>
    obtain ⟨price, hprice, hpaid, hrest⟩ := h
    exact ⟨price, hprice, by omega, ih hrest (by omega)⟩

theorem Affordable.push {q : List (Message P)} {n price : Nat} {m : Message P}
    (h : Affordable queued q n) (hprice : queued m = some price) :
    Affordable queued (q ++ [m]) (n + price) := by
  induction q generalizing n with
  | nil => exact ⟨price, hprice, by omega, trivial⟩
  | cons m' q ih =>
    obtain ⟨price', hprice', hpaid, hrest⟩ := h
    refine ⟨price', hprice', by omega, ?_⟩
    exact (ih hrest).mono (by omega)

variable {reserve : W → Nat}

-- The call returns, and of `total` there is enough left for the queue, the reserve and what comes after.
def Settles {β : Type} (reserve : W → Nat) (queued : Message P → Option Nat)
    (call : Option (β × Pump W P)) (after : β → Nat → Prop) (total : Nat) : Prop :=
  ∃ r taken left, call = some r ∧ taken + left + reserve r.2.world ≤ total
    ∧ Affordable queued r.2.q taken ∧ after r.1 left

theorem Settles.bind {β γ : Type} {call : Option (β × Pump W P)}
    {next : β × Pump W P → Option (γ × Pump W P)} {after : β → Nat → Prop}
    {after' : γ → Nat → Prop} {total : Nat} (h : Settles reserve queued call after total)
    (hnext : ∀ r taken left, taken + left + reserve r.2.world ≤ total →
      Affordable queued r.2.q taken → after r.1 left →
      Settles reserve queued (next r) after' (taken + left + reserve r.2.world)) :
    Settles reserve queued (call.bind next) after' total := by
  obtain ⟨r, taken, left, rfl, htotal, hq, hafter⟩ := h
  obtain ⟨r', taken', left', hr', htotal', hq', hafter'⟩ := hnext r taken left htotal hq hafter
  exact ⟨r', taken', left', hr', by omega, hq', hafter'⟩

-- Every publish that may be called returns and puts no more into the queue than it costs.
def Charges (reserve : W → Nat) (queued : Message P → Option Nat) (price : Price P) (level : Nat)
    (publish : Publish W P) : Prop :=
  ∀ topic m cost s taken, price topic m = some cost → cost.nested ≤ level →
    Affordable queued s.q taken →
    Settles reserve queued (publish topic m s) (fun _ _ => True)
      (taken + cost.posts + reserve s.world)

variable {price : Price P} {level : Nat} {publish : Publish W P}
  (hpublish : Charges reserve queued price level publish)

include hpublish

theorem settles_run {script : Publisher W P} {after : Bool → Nat → Prop} {s : Pump W P}
    {taken left : Nat} (hpays : script.Pays reserve price level after left)
    (hq : Affordable queued s.q taken) :
    Settles reserve queued (script.run publish s) after (taken + left + reserve s.world) := by
  induction script generalizing s taken left with
  | ret holds => exact ⟨(holds, s), taken, left, rfl, Nat.le_refl _, hq, hpays⟩
  | outside effect next ih =>
    obtain ⟨hle, hnext⟩ := hpays s.world
    obtain ⟨r, taken', left', hr, htotal, hrest⟩ :=
      @ih (effect s.world) { s with world := effect s.world } taken _ hnext hq
    dsimp only at htotal
    exact ⟨r, taken', left', hr, by omega, hrest⟩
  | publish topic m next ih =>
    obtain ⟨cost, hprice, hnested, hle, hnext⟩ := hpays
    obtain ⟨⟨count, mid⟩, taken', left', hmid, htotal, hmidq, -⟩ :=
      hpublish topic m cost s taken hprice hnested hq
    obtain ⟨r, taken'', left'', hr, htotal', hrest⟩ := ih count (hnext count) hmidq
    refine ⟨r, taken'', left'', ?_, by omega, hrest⟩
    rw [Publisher.run, hmid]
    exact hr

theorem settles_postWith {sub : Sub (PublisherAction W P)} {m : Message P} {after : Nat → Prop}
    {s : Pump W P} {taken left : Nat} (hpays : sub.Pays reserve price level m after left)
    (hq : Affordable queued s.q taken) :
    Settles reserve queued (sub.postWith publish m s) (fun _ => after)
      (taken + left + reserve s.world) := by
  unfold Sub.Pays at hpays
  unfold Sub.postWith
  split
  . next hmatch =>
    rw [if_pos hmatch] at hpays
    exact ⟨(false, s), taken, left, rfl, Nat.le_refl _, hq, hpays⟩
  . next hmatch =>
    rw [if_neg hmatch] at hpays
    apply Settles.bind (settles_run hpublish hpays hq)
    intro ⟨holds, mid⟩ taken left _ hmidq hafter
    cases holds with
    | false => exact ⟨(false, mid), taken, left, rfl, Nat.le_refl _, hmidq, hafter⟩
    | true =>
      apply Settles.bind (settles_run hpublish hafter hmidq)
      intro ⟨_, last⟩ taken left _ hlastq hafter
      exact ⟨(true, last), taken, left, rfl, Nat.le_refl _, hlastq, hafter⟩

theorem settles_postSubs {subs : List (Sub (PublisherAction W P))} {m : Message P} {s : Pump W P}
    {taken left : Nat} (hpays : PaysAll reserve price level m subs left)
    (hq : Affordable queued s.q taken) :
    Settles reserve queued (postSubs publish m s subs) (fun _ _ => True)
      (taken + left + reserve s.world) := by
  induction subs generalizing s taken left with
  | nil => exact ⟨(0, s), taken, left, rfl, Nat.le_refl _, hq, trivial⟩
  | cons sub subs ih =>
    apply Settles.bind (settles_postWith hpublish hpays hq)
    intro ⟨called, mid⟩ taken left _ hmidq hafter
    apply Settles.bind (ih hafter hmidq)
    intro ⟨count, last⟩ taken left _ hlastq _
    exact ⟨_, taken, left, rfl, Nat.le_refl _, hlastq, trivial⟩

end

theorem postSubs_append (publish : Publish W P) (m : Message P) (s : Pump W P)
    (subs subs' : List (Sub (PublisherAction W P))) :
    postSubs publish m s (subs ++ subs')
      = (postSubs publish m s subs).bind fun r =>
        (postSubs publish m r.2 subs').map fun r' => (r.1 + r'.1, r'.2) := by
  induction subs generalizing s with
  | nil => simp [postSubs]
  | cons sub subs ih =>
    simp only [List.cons_append, postSubs, ih, Option.bind_eq_bind, Option.bind_assoc]
    cases sub.postWith publish m s with
    | none => rfl
    | some called =>
      simp only [Option.bind_some]
      cases postSubs publish m called.2 subs with
      | none => rfl
      | some r =>
        simp only [Option.bind_some]
        cases postSubs publish m r.2 subs' with
        | none => rfl
        | some r' =>
          cases called.1 <;> simp [Nat.add_right_comm]

theorem postTopics_eq (publish : Publish W P) (em : EntryMap (PublisherAction W P))
    (m : Message P) (s : Pump W P) (topics : List Topic) :
    postTopics publish em m s topics = postSubs publish m s (found em topics) := by
  induction topics generalizing s with
  | nil => rfl
  | cons topic topics ih =>
    have htopic : postOnTopic publish em m s topic
        = postSubs publish m s (if topic.isValid then (em topic).getD [] else []) := by
      unfold postOnTopic
      cases topic.isValid with
      | false => rfl
      | true =>
        cases em topic <;> rfl
    rw [found, List.flatMap_cons, postSubs_append, postTopics, htopic]
    simp only [ih, found, Option.bind_eq_bind, Option.map_eq_bind]
    rfl

theorem enqueueChecked_eq (s : Pump W P) (topic : Topic) (m : Message P) :
    s.enqueueChecked cfg map topic m = if enters cfg map topic then s.push m else s := by
  unfold enqueueChecked enters
  cases cfg.checkDelayedSubBeforeEnqueue <;> simp

theorem publish_succ (topic : Option Topic) (m : Message P) (s : Pump W P) :
    publish cfg map (depth + 1) topic m s
      = postSubs (publish cfg map depth) m (s.enqueueChecked cfg map (topic.getD m.topic) m)
        (found (map.entries .immediate) (lookedUp topic m)) := by
  cases topic <;> exact postTopics_eq _ _ _ _ _

section

variable (prices : Prices cfg map depth)

-- The induction is on how deep the calls nest.
theorem Prices.charges (level : Nat) :
    Charges prices.reserve prices.queued prices.published level (publish cfg map level) := by
  induction level with
  | zero =>
    intro topic m cost s taken hprice hnested _
    obtain ⟨hpos, -⟩ := prices.immediate topic m cost hprice
    omega
  | succ level ih =>
    intro topic m cost s taken hprice hnested hq
    obtain ⟨hpos, own, hown, hle, hpays⟩ := prices.immediate topic m cost hprice
    have hlower : Charges prices.reserve prices.queued prices.published (cost.nested - 1)
        (publish cfg map level) := by
      intro topic m cost' s taken hprice' hnested'
      exact ih topic m cost' s taken hprice' (by omega)
    have hpushed : Affordable prices.queued
        (s.enqueueChecked cfg map (topic.getD m.topic) m).q (taken + own) := by
      rw [enqueueChecked_eq]
      split at hown
      . next henters =>
        rw [if_pos henters]
        exact hq.push hown
      . next henters =>
        rw [if_neg henters]
        exact hq.mono (by omega)
    have hworld : (s.enqueueChecked cfg map (topic.getD m.topic) m).world = s.world := by
      rw [enqueueChecked_eq]
      split <;> rfl
    obtain ⟨r, taken', left, hr, htotal, hrest⟩ := settles_postSubs hlower hpays hpushed
    rw [hworld] at htotal
    refine ⟨r, taken', left, ?_, by omega, hrest⟩
    rw [publish_succ, hr]

-- What a message is worth is more than what its post puts into the queue.
theorem Prices.exists_executeLoop {n taken : Nat} {s : Pump W P}
    (h : Affordable prices.queued s.q taken) (hle : taken + prices.reserve s.world ≤ n) :
    ∃ r, executeLoop cfg map depth (n + 1) s = some r ∧ r.posted.length ≤ n := by
  induction n generalizing s taken with
  | zero =>
    match hq : s.q with
    | [] => exact ⟨⟨0, [], s⟩, by rw [executeLoop, hq], Nat.le_refl 0⟩
    | m :: q =>
      rw [hq] at h
      obtain ⟨price, hprice, _, -⟩ := h
      obtain ⟨hpos, -⟩ := prices.delayed m price hprice
      omega
  | succ n ih =>
    match hq : s.q with
    | [] => exact ⟨⟨0, [], s⟩, by rw [executeLoop, hq], Nat.zero_le _⟩
    | m :: q =>
      rw [hq] at h
      obtain ⟨price, hprice, _, hrest⟩ := h
      obtain ⟨hpos, hpays⟩ := prices.delayed m price hprice
      have hsettled := @settles_postSubs _ _ _ _ _ _ _ (prices.charges depth) _ m { s with q := q }
        _ _ hpays hrest
      rw [← postTopics_eq] at hsettled
      obtain ⟨⟨count, mid⟩, taken', left, hmid, htotal, hmidq, -⟩ := hsettled
      have hle' : taken' + prices.reserve mid.world ≤ n := by
        dsimp only at htotal
        omega
      obtain ⟨rest, hloop, hlen⟩ := ih hmidq hle'
      refine ⟨⟨count + rest.count, m :: rest.posted, rest.channel⟩, ?_, Nat.succ_le_succ hlen⟩
      rw [executeLoop, hq]
      simp [postDelayed, hmid, hloop]

end

/--
The limit is kept if it covers what there is to be posted, and only if it covers the queue.
-/
theorem bounded_of_prices (cfg : ChannelConfig) (map : SubMap (PublisherAction W P)) (depth : Nat)
    (s : Pump W P) :
    ((∃ (prices : Prices cfg map depth) (taken : Nat), Affordable prices.queued s.q taken
          ∧ taken + prices.reserve s.world ≤ cfg.loopPostLimit)
        → Bounded cfg map depth s)
      ∧ (Bounded cfg map depth s → s.q.length ≤ cfg.loopPostLimit) := by
  constructor
  . intro ⟨prices, taken, hq, hle⟩
    obtain ⟨r, hloop, hlen⟩ := prices.exists_executeLoop hq hle
    exact ⟨r, ⟨_, hloop⟩, hlen, (queued_of_executeLoop hloop).2⟩
  . exact length_le_of_bounded

/-!
### A message that comes back
-/

theorem entries_of_subscribe_ctor {t : Topic} {action : PublisherAction W P} {key : Nat}
    (hmap : SubMap.ctor.subscribe t action .delayed = some (key, map)) (mode : Mode) (topic : Topic) :
    map.entries mode topic
      = if mode = .delayed ∧ topic = t then some [⟨key, t, action, .delayed⟩] else none := by
  rw [(SubMap.subscribed hmap).entries_eq]
  split
  . rfl
  . cases mode <;> rfl

theorem found_of_subscribe_ctor {t : Topic} {action : PublisherAction W P} {key : Nat}
    (hmap : SubMap.ctor.subscribe t action .delayed = some (key, map)) :
    (∀ topics, found (map.entries .immediate) topics = [])
      ∧ ∀ topics, ∀ sub ∈ found (map.entries .delayed) topics, sub.action = action := by
  have hentries := entries_of_subscribe_ctor hmap
  constructor
  . intro topics
    simp [found, hentries]
  . intro topics sub hsub
    obtain ⟨topic, -, hsub⟩ := List.mem_flatMap.mp hsub
    rw [hentries] at hsub
    split at hsub
    . by_cases htopic : topic = t
      . rw [if_pos ⟨rfl, htopic⟩] at hsub
        rw [List.mem_singleton.mp hsub]
      . rw [if_neg fun h => htopic h.2] at hsub
        exact absurd hsub List.not_mem_nil
    . exact absurd hsub List.not_mem_nil

-- The callback publishes the message again as long as a count in the world outside lasts.
def countdown : PublisherAction Nat Unit :=
  ⟨fun _ => .ret true, fun m =>
    .outside (· - 1) fun w => if w = 0 then .ret true else .publish none m fun _ => .ret true⟩

theorem paysAll_countdown {m : Message Unit} {subs : List (Sub (PublisherAction Nat Unit))}
    (h : ∀ sub ∈ subs, sub.action = countdown) (n : Nat) :
    PaysAll id (fun _ _ => some ⟨1, 1⟩) 1 m subs n := by
  induction subs generalizing n with
  | nil => trivial
  | cons sub subs ih =>
    rw [List.forall_mem_cons] at h
    unfold PaysAll Sub.Pays
    rw [h.1]
    split
    . exact ih h.2 n
    . intro w
      refine ⟨by simp only [id]; omega, ?_⟩
      dsimp only [id]
      split
      . exact ih h.2 _
      . exact ⟨⟨1, 1⟩, rfl, Nat.le_refl 1, by dsimp only; omega, fun _ => ih h.2 _⟩

theorem bounded_of_prices_countdown :
    let t := Topic.ofParts 1 2
    ∃ key map, SubMap.ctor.subscribe t countdown .delayed = some (key, map)
      ∧ Bounded {} map 1 ⟨[⟨t, ()⟩, ⟨t, ()⟩], 3, []⟩ := by
  intro t
  obtain ⟨key, hkey⟩ := @SubMap.exists_subscribe_ctor (PublisherAction Nat Unit)
  obtain ⟨map, hmap, -⟩ := hkey t countdown .delayed
  obtain ⟨himmediate, haction⟩ := found_of_subscribe_ctor hmap
  let prices : Prices {} map 1 := {
    reserve := id
    queued := fun _ => some 1
    published := fun _ _ => some ⟨1, 1⟩
    delayed := by
      rintro m n ⟨rfl⟩
      exact ⟨Nat.one_pos, paysAll_countdown (haction _) 0⟩
    immediate := by
      rintro topic m cost ⟨rfl⟩
      rw [himmediate]
      refine ⟨Nat.one_pos, ?_⟩
      split
      . exact ⟨1, rfl, Nat.le_refl 1, trivial⟩
      . exact ⟨0, rfl, Nat.zero_le 1, trivial⟩
  }
  have hq : Affordable prices.queued [⟨t, ()⟩, ⟨t, ()⟩] 2 :=
    ⟨1, rfl, by decide, 1, rfl, by decide, trivial⟩
  refine ⟨key, map, hmap, (bounded_of_prices {} map 1 _).1 ⟨prices, 2, hq, ?_⟩⟩
  show 2 + 3 ≤ 2048
  decide

-- The callback publishes the message again.
def echo : PublisherAction Unit Unit :=
  ⟨fun _ => .ret true, fun m => .publish none m fun _ => .ret true⟩

theorem postDelayed_echo {t : Topic} (hvalid : t.isValid = true) (hgroup : t.getGroupTopic ≠ t)
    {key : Nat} {map : SubMap (PublisherAction Unit Unit)}
    (hmap : SubMap.ctor.subscribe t echo .delayed = some (key, map)) (s : Pump Unit Unit) :
    postDelayed {} map 1 ⟨t, ()⟩ s = some (1, s.push ⟨t, ()⟩) := by
  have hentries := entries_of_subscribe_ctor hmap
  have hhas : map.hasDelayedSub t = true := by
    have hisSome := congrArg Option.isSome (hentries .delayed t)
    rw [if_pos ⟨rfl, rfl⟩] at hisSome
    exact hisSome
  have hpost : ∀ publish topic, postOnTopic publish (map.entries .immediate) ⟨t, ()⟩
      (s.push ⟨t, ()⟩) topic = some (0, s.push ⟨t, ()⟩) := by
    intro publish topic
    simp [postOnTopic, hentries]
  have hpublish : publish {} map 1 none ⟨t, ()⟩ s = some (0, s.push ⟨t, ()⟩) := by
    simp [publish, enqueueChecked, hhas, ownTopics, postTopics, hpost]
  simp [postDelayed, postTopics, ownTopics, postOnTopic, hvalid, hentries, hgroup, postSubs,
    Sub.postWith, Topic.isMatch_self, echo, Publisher.run, hpublish]

theorem exists_unbounded :
    let t := Topic.ofParts 1 2
    ∃ key map, SubMap.ctor.subscribe t echo .delayed = some (key, map)
      ∧ ¬Bounded {} map 1 ⟨[⟨t, ()⟩], (), []⟩ := by
  intro t
  obtain ⟨key, hkey⟩ := @SubMap.exists_subscribe_ctor (PublisherAction Unit Unit)
  obtain ⟨map, hmap, -⟩ := hkey t echo .delayed
  refine ⟨key, map, hmap, ?_⟩
  have hpost := postDelayed_echo (by decide) (by decide) hmap
  have hnone : ∀ fuel pushed, executeLoop {} map 1 fuel ⟨[⟨t, ()⟩], (), pushed⟩ = none := by
    intro fuel
    induction fuel with
    | zero =>
      intro pushed
      rfl
    | succ fuel ih =>
      intro pushed
      simp [executeLoop, hpost, push, ih]
  intro ⟨r, ⟨fuel, hloop⟩, _⟩
  rw [hnone] at hloop
  cases hloop

end Pump
end Lax
