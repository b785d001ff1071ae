import Lax.Channel.Lemmas.Posting
import Lax.Channel.Lemmas.SubMap
import Lax.Channel.Lemmas.Topic

/-!
This module contains who is called, how often and in which order when messages are published to a
channel and its queue is executed.
-/

namespace Lax
namespace Channel

open Posting

variable {W P : Type} {s s' : Channel W P} {sub : Sub (Action W P)} {m : Message P} {check : Bool}

-- The topic of a subscription is the topic of the message or its group topic.
def Addressed (m : Message P) (topic : Topic) : Prop :=
  topic.isValid = true ∧ (topic = m.topic ∨ topic = m.topic.getGroupTopic)

-- The subscription gets one turn for the publish, and is called if its condition holds then.
def Once (turns : List (Turn W P)) (sub : Sub (Action W P)) (n : Nat) (m : Message P) : Prop :=
  ∃ t, turns.filter (fun t => t.sub.action.serial = sub.action.serial ∧ t.published = n) = [t]
    ∧ t.sub = sub ∧ t.message = m ∧ t.called = (sub.action.cond t.world m).1

structure Delivers (check : Bool) (w : W) (s : Channel W P) : Prop where
  immediate : ∀ m, m.topic.getType ≠ 0 → ∃ turns,
    (s.publish check m).2.turns = s.turns ++ turns
      ∧ (s.publish check m).1 = (turns.filter (·.called)).length
      ∧ (∀ t ∈ turns, s.map.Live t.sub ∧ t.sub.mode = .immediate ∧ Addressed m t.sub.topic)
      ∧ ∀ sub, s.map.Live sub → sub.mode = .immediate → Addressed m sub.topic →
        Once turns sub s.published m
  executed : ∃ turns,
    s.execute.2.turns = s.turns ++ turns
      ∧ s.execute.1 = (turns.filter (·.called)).length
      ∧ ∀ t ∈ turns, s.map.Live t.sub ∧ t.sub.mode = .delayed ∧ Addressed t.message t.sub.topic
        ∧ (t.published, t.message) ∈ s.q
  delayed : ∀ m es s', m.topic.getType ≠ 0 → (∀ e ∈ es, e ≠ .execute) →
    (machine check w).run (s.publish check m).2 es = some s' → ∃ turns,
    s'.execute.2.turns = s'.turns ++ turns
      ∧ ∀ sub, s.map.Live sub → s'.map.Live sub → sub.mode = .delayed → Addressed m sub.topic →
        Once turns sub s.published m
  order : s.turns.Pairwise fun t t' =>
    t.sub.action.serial = t'.sub.action.serial → t.published ≤ t'.published
  unsubscribed : ∀ sub es s', s.map.Live sub →
    (machine check w).run (s.unsubscribe sub.key).2 es = some s' → ∃ turns,
    s'.turns = s.turns ++ turns ∧ ∀ t ∈ turns, t.sub.action.serial ≠ sub.action.serial

/-!
### Who is found
-/

theorem lookup_eq (map : SubMap (Action W P)) (mode : Mode) :
    lookup (map.entries mode) = map.lookup mode := rfl

theorem mem_lookup (h : s.map.Consistent) {mode : Mode} {topic : Topic} :
    sub ∈ lookup (s.map.entries mode) topic
      ↔
    s.map.Live sub ∧ sub.mode = mode ∧ sub.topic = topic ∧ topic.isValid = true := by
  rw [lookup_eq]
  apply h.mem_lookup_iff

theorem mem_found (h : s.map.Consistent) {mode : Mode} :
    sub ∈ found (s.map.entries mode) m
      ↔
    s.map.Live sub ∧ sub.mode = mode ∧ Addressed m sub.topic := by
  unfold found Addressed
  rw [List.mem_append, mem_lookup h, mem_lookup h]
  constructor
  . rintro (⟨hlive, hmode, htopic, hvalid⟩ | ⟨hlive, hmode, htopic, hvalid⟩)
    . exact ⟨hlive, hmode, htopic ▸ hvalid, Or.inl htopic⟩
    . exact ⟨hlive, hmode, htopic ▸ hvalid, Or.inr htopic⟩
  . rintro ⟨hlive, hmode, hvalid, htopic | htopic⟩
    . exact Or.inl ⟨hlive, hmode, htopic, htopic ▸ hvalid⟩
    . exact Or.inr ⟨hlive, hmode, htopic, htopic ▸ hvalid⟩

theorem found_eq (map : SubMap (Action W P)) (mode : Mode) (m : Message P) :
    found (map.entries mode) m = [m.topic, m.topic.getGroupTopic].flatMap (map.lookup mode) := by
  rw [List.flatMap_cons, List.flatMap_singleton]
  rfl

-- The two lookups do not find the same subscription twice.
theorem filter_found (h : s.map.Consistent) (htype : m.topic.getType ≠ 0) (hlive : s.map.Live sub)
    (haddressed : Addressed m sub.topic) :
    (found (s.map.entries sub.mode) m).filter (·.key = sub.key) = [sub] := by
  have hne := Topic.getGroupTopic_ne htype
  obtain ⟨hvalid, htopic⟩ := haddressed
  rw [found_eq, h.filter_lookups hlive hvalid]
  obtain htopic | htopic := htopic
  . rw [← htopic] at hne ⊢
    rw [List.count_cons_self, List.count_singleton, beq_false_of_ne hne]
    rfl
  . rw [← htopic] at hne ⊢
    rw [List.count_cons_of_ne hne.symm, List.count_singleton, beq_self_eq_true]
    rfl

theorem isMatch_of_addressed {topic : Topic} (h : Addressed m topic) :
    topic.isMatch m.topic = true := by
  obtain ⟨-, rfl | rfl⟩ := h
  . apply Topic.isMatch_self
  . apply Topic.isMatch_getGroupTopic

/-!
### The invariant
-/

structure Inv (s : Channel W P) : Prop where
  map : s.map.Inv
  created : ∀ sub, s.map.Live sub → s.created[sub.action.serial]? = some sub
  ordered : Ordered s.q
  q_lt : ∀ e ∈ s.q, e.1 < s.published
  turn_created : ∀ t ∈ s.turns, s.created[t.sub.action.serial]? = some t.sub
  turn_lt : ∀ t ∈ s.turns, t.published < s.published
  turn_before : ∀ t ∈ s.turns, t.sub.mode = .delayed → ∀ e ∈ s.q, t.published < e.1
  order : s.turns.Pairwise fun t t' =>
    t.sub.action.serial = t'.sub.action.serial → t.published ≤ t'.published

-- A serial belongs to one subscription, and so does a key while it is live.
theorem Inv.serial_iff_key (h : s.Inv) {sub' : Sub (Action W P)} (hlive : s.map.Live sub)
    (hlive' : s.map.Live sub') :
    sub'.action.serial = sub.action.serial ↔ sub'.key = sub.key := by
  constructor
  . intro heq
    have hcreated := h.created sub' hlive'
    rw [heq, h.created sub hlive] at hcreated
    injection hcreated with hcreated
    rw [hcreated]
  . intro heq
    rw [h.map.toConsistent.eq_of_key hlive hlive' heq]

theorem Inv.once (h : s.Inv) (htype : m.topic.getType ≠ 0) (hlive : s.map.Live sub)
    (haddressed : Addressed m sub.topic) {n : Nat} {p : Posting W P} {turns : List (Turn W P)}
    (hposts : Posts n m (found (s.map.entries sub.mode) m) p)
    (hturns : turns.filter (·.published = n) = p.turns) : Once turns sub n m := by
  have hcons := h.map.toConsistent
  have hlive' : ∀ t ∈ p.turns, s.map.Live t.sub := by
    intro t ht
    have hmem : t.sub ∈ found (s.map.entries sub.mode) m := by
      rw [← hposts.subs_eq]
      exact List.mem_map_of_mem ht
    exact ((mem_found hcons).mp hmem).1
  have hkey : (p.turns.filter fun t => t.sub.key = sub.key).map (·.sub) = [sub] := by
    rw [← filter_found hcons htype hlive haddressed, ← hposts.subs_eq, List.filter_map]
    rfl
  obtain ⟨t, ht, hsub⟩ := List.map_eq_singleton_iff.mp hkey
  have hmem : t ∈ p.turns := List.mem_of_mem_filter (ht ▸ List.mem_singleton_self t)
  obtain ⟨-, hmessage, hcalled⟩ := hposts.turnOf t hmem
  rw [hsub, isMatch_of_addressed haddressed, Bool.true_and] at hcalled
  refine ⟨t, ?_, hsub, hmessage, hcalled⟩
  rw [← ht, ← hturns, List.filter_filter]
  apply List.filter_congr
  intro t' ht'
  by_cases hn : t'.published = n
  . have hmem' : t' ∈ p.turns := by
      rw [← hturns]
      exact List.mem_filter.mpr ⟨ht', decide_eq_true hn⟩
    have hiff := h.serial_iff_key hlive (hlive' t' hmem')
    simp only [hn, hiff, and_true, decide_true, Bool.and_true]
  . simp [hn]

/-!
### Steps
-/

theorem enqueueChecked_eq (check : Bool) (s : Channel W P) (topic : Topic) (m : Message P) :
    ∃ q, (q = s.q ∨ q = s.q ++ [(s.published, m)])
      ∧ s.enqueueChecked check topic m = { s with q := q } := by
  unfold enqueueChecked
  split
  . split
    . exact ⟨_, Or.inr rfl, rfl⟩
    . exact ⟨_, Or.inl rfl, rfl⟩
  . exact ⟨_, Or.inr rfl, rfl⟩

-- What both forms of `publish` have in common.
structure Published (s : Channel W P) (m : Message P) (topics : List Topic)
    (r : Nat × Channel W P) : Prop where
  map_eq : r.2.map = s.map
  created_eq : r.2.created = s.created
  published_eq : r.2.published = s.published + 1
  q_eq : r.2.q = s.q ∨ r.2.q = s.q ++ [(s.published, m)]
  posts : ∃ p, Posts s.published m (topics.flatMap (lookup (s.map.entries .immediate))) p
    ∧ r.1 = p.count ∧ r.2.turns = s.turns ++ p.turns

theorem published_publish (check : Bool) (s : Channel W P) (m : Message P) :
    Published s m [m.topic, m.topic.getGroupTopic] (s.publish check m) := by
  obtain ⟨q, hq, heq⟩ := enqueueChecked_eq check s m.topic m
  unfold publish
  rw [heq]
  exact ⟨rfl, rfl, rfl, hq, _, posts_postTopics _ _, rfl, rfl⟩

theorem published_publishTo (check : Bool) (s : Channel W P) (topic : Topic) (m : Message P) :
    Published s m [topic, topic.getGroupTopic, m.topic, m.topic.getGroupTopic]
      (s.publishTo check topic m) := by
  obtain ⟨q, hq, heq⟩ := enqueueChecked_eq check s topic m
  unfold publishTo
  rw [heq]
  exact ⟨rfl, rfl, rfl, hq, _, posts_postTopics _ _, rfl, rfl⟩

theorem Published.exists_turns {topics : List Topic} {r : Nat × Channel W P}
    (hr : Published s m topics r) (h : s.map.Consistent) :
    ∃ turns, r.2.turns = s.turns ++ turns
      ∧ ∀ t ∈ turns, t.published = s.published ∧ s.map.Live t.sub ∧ t.sub.mode = .immediate := by
  obtain ⟨p, hposts, -, hturns⟩ := hr.posts
  refine ⟨p.turns, hturns, ?_⟩
  intro t ht
  have hmem : t.sub ∈ topics.flatMap (lookup (s.map.entries .immediate)) := by
    rw [← hposts.subs_eq]
    exact List.mem_map_of_mem ht
  obtain ⟨topic, -, hmem⟩ := List.mem_flatMap.mp hmem
  obtain ⟨hlive, hmode, -⟩ := (mem_lookup h).mp hmem
  exact ⟨(hposts.turnOf t ht).1, hlive, hmode⟩

theorem Published.mem_q {topics : List Topic} {r : Nat × Channel W P} (hr : Published s m topics r)
    {e : Nat × Message P} (he : e ∈ r.2.q) : e ∈ s.q ∨ e.1 = s.published := by
  rcases hr.q_eq with hq | hq
  . exact Or.inl (hq ▸ he)
  . rw [hq, List.mem_append, List.mem_singleton] at he
    exact he.imp_right fun heq => by rw [heq]

theorem Inv.ordered_published (h : s.Inv) {topics : List Topic} {r : Nat × Channel W P}
    (hr : Published s m topics r) : Ordered r.2.q := by
  rcases hr.q_eq with hq | hq
  . exact hq ▸ h.ordered
  . rw [hq]
    apply List.pairwise_append.mpr
    refine ⟨h.ordered, List.pairwise_singleton _ _, ?_⟩
    intro e he e' he'
    rw [List.mem_singleton.mp he']
    exact h.q_lt e he

theorem Inv.published (h : s.Inv) {topics : List Topic} {r : Nat × Channel W P}
    (hr : Published s m topics r) : r.2.Inv := by
  obtain ⟨turns, hturns, hnew⟩ := hr.exists_turns h.map.toConsistent
  constructor
  . exact hr.map_eq ▸ h.map
  . rw [hr.map_eq, hr.created_eq]
    exact h.created
  . exact h.ordered_published hr
  . intro e he
    rw [hr.published_eq]
    rcases hr.mem_q he with he | he
    . exact Nat.lt_succ_of_lt (h.q_lt e he)
    . omega
  . intro t ht
    rw [hr.created_eq]
    rw [hturns] at ht
    rcases List.mem_append.mp ht with ht | ht
    . exact h.turn_created t ht
    . exact h.created _ (hnew t ht).2.1
  . intro t ht
    rw [hr.published_eq]
    rw [hturns] at ht
    rcases List.mem_append.mp ht with ht | ht
    . exact Nat.lt_succ_of_lt (h.turn_lt t ht)
    . have := (hnew t ht).1
      omega
  . intro t ht hdelayed e he
    rw [hturns] at ht
    rcases List.mem_append.mp ht with ht | ht
    . rcases hr.mem_q he with he | he
      . exact h.turn_before t ht hdelayed e he
      . exact he ▸ h.turn_lt t ht
    . rw [(hnew t ht).2.2] at hdelayed
      contradiction
  . rw [hturns]
    apply List.pairwise_append.mpr
    refine ⟨h.order, ?_, ?_⟩
    . apply List.pairwise_of_forall_mem_list
      intro t ht t' ht' _
      apply Nat.le_of_eq
      rw [(hnew t ht).1, (hnew t' ht').1]
    . intro t ht t' ht' _
      rw [(hnew t' ht').1]
      exact Nat.le_of_lt (h.turn_lt t ht)

-- What the queue posts.
theorem mem_execute (h : s.Inv) {t : Turn W P}
    (ht : t ∈ (drain (s.map.entries .delayed) s.world s.q).turns) :
    s.map.Live t.sub ∧ t.sub.mode = .delayed ∧ Addressed t.message t.sub.topic
      ∧ (t.published, t.message) ∈ s.q := by
  obtain ⟨n, m, hmem, ⟨hpublished, hmessage, -⟩, hfound⟩ := mem_drain ht
  obtain ⟨hlive, hmode, haddressed⟩ := (mem_found h.map.toConsistent).mp hfound
  subst hpublished hmessage
  exact ⟨hlive, hmode, haddressed, hmem⟩

theorem Inv.execute (h : s.Inv) : s.execute.2.Inv := by
  constructor
  . exact h.map
  . exact h.created
  . exact List.Pairwise.nil
  . exact fun _ he => nomatch he
  . intro t ht
    rcases List.mem_append.mp ht with ht | ht
    . exact h.turn_created t ht
    . exact h.created _ (mem_execute h ht).1
  . intro t ht
    rcases List.mem_append.mp ht with ht | ht
    . exact h.turn_lt t ht
    . exact h.q_lt _ (mem_execute h ht).2.2.2
  . exact fun _ _ _ _ he => nomatch he
  . apply List.pairwise_append.mpr
    refine ⟨h.order, ?_, ?_⟩
    . apply (pairwise_drain h.ordered _).imp
      exact fun hle _ => hle
    . intro t ht t' ht' hserial
      obtain ⟨hlive, hmode, -, hmem⟩ := mem_execute h ht'
      -- The same serial is the same subscription, so its earlier turns are delayed ones, too.
      have hsub := h.turn_created t ht
      rw [hserial, h.created _ hlive] at hsub
      injection hsub with hsub
      exact Nat.le_of_lt (h.turn_before t ht (hsub ▸ hmode) _ hmem)

theorem Inv.subscribe (h : s.Inv) {topic : Topic} {cond : W → Message P → Bool × W}
    {cb : W → Message P → W} {mode : Mode} {key : Nat}
    (hsub : s.subscribe topic cond cb mode = some (key, s')) :
    s'.Inv ∧ ∃ new, s'.created = s.created ++ [new]
      ∧ (∀ sub, s'.map.Live sub ↔ s.map.Live sub ∨ sub = new)
      ∧ new.action.serial = s.created.length ∧ s'.turns = s.turns ∧ s'.q = s.q := by
  unfold Channel.subscribe at hsub
  dsimp only at hsub
  split at hsub
  . contradiction
  . next key map hmap =>
    injection hsub with hsub
    injection hsub with hkey hs
    subst hs
    have hsubscribed := SubMap.subscribed hmap
    have hlt : ∀ {n : Nat} {sub : Sub (Action W P)}, s.created[n]? = some sub →
        ∀ new, (s.created ++ [new])[n]? = some sub := by
      intro n sub hn new
      obtain ⟨hlt, -⟩ := List.getElem?_eq_some_iff.mp hn
      rw [List.getElem?_append_left hlt, hn]
    refine ⟨?_, _, rfl, fun _ => hsubscribed.live_iff, rfl, rfl, rfl⟩
    constructor
    . exact h.map.subscribed hsubscribed
    . intro sub hlive
      rcases hsubscribed.live_iff.mp hlive with hlive | rfl
      . exact hlt (h.created sub hlive) _
      . exact List.getElem?_concat_length
    . exact h.ordered
    . exact h.q_lt
    . exact fun t ht => hlt (h.turn_created t ht) _
    . exact h.turn_lt
    . exact h.turn_before
    . exact h.order

theorem Inv.unsubscribe (h : s.Inv) (key : Nat) : (s.unsubscribe key).2.Inv
    ∧ ∀ sub, (s.unsubscribe key).2.map.Live sub ↔ s.map.Live sub ∧ sub.key ≠ key := by
  have hlive : ∀ sub, (s.unsubscribe key).2.map.Live sub ↔ s.map.Live sub ∧ sub.key ≠ key := by
    intro sub
    have hcons := h.map.toConsistent
    show (s.map.unsubscribe key).2.Live sub ↔ _
    cases hkey : s.map.keys key with
    | none =>
      rw [SubMap.unsubscribe_of_none hkey, iff_self_and]
      intro hlive heq
      have hlink := hcons.keys_of_live hlive
      rw [heq, hkey] at hlink
      contradiction
    | some link => exact (hcons.unsubscribe hkey).2.1.live_iff hcons
  refine ⟨?_, hlive⟩
  constructor
  . exact h.map.unsubscribe key
  . exact fun sub hsub => h.created sub ((hlive sub).mp hsub).1
  . exact h.ordered
  . exact h.q_lt
  . exact h.turn_created
  . exact h.turn_lt
  . exact h.turn_before
  . exact h.order

-- What any step can do.
structure Stepped (s : Channel W P) (e : Event W P) (s' : Channel W P) : Prop where
  inv : s'.Inv
  created : ∀ (n : Nat) (sub : Sub (Action W P)), s.created[n]? = some sub →
    s'.created[n]? = some sub
  turns : ∃ turns, s'.turns = s.turns ++ turns ∧ ∀ t ∈ turns, s.map.Live t.sub
  live : ∀ sub, s'.map.Live sub → s.map.Live sub ∨ sub.action.serial = s.created.length
  q_mem : e ≠ .execute → ∀ x ∈ s.q, x ∈ s'.q

theorem Inv.stepped_published (h : s.Inv) {topics : List Topic} {r : Nat × Channel W P}
    (hr : Published s m topics r) (e : Event W P) : Stepped s e r.2 := by
  obtain ⟨turns, hturns, hnew⟩ := hr.exists_turns h.map.toConsistent
  constructor
  . exact h.published hr
  . rw [hr.created_eq]
    exact fun _ _ hn => hn
  . exact ⟨turns, hturns, fun t ht => (hnew t ht).2.1⟩
  . rw [hr.map_eq]
    exact fun _ hlive => Or.inl hlive
  . intro _ x hx
    rcases hr.q_eq with hq | hq
    . exact hq ▸ hx
    . rw [hq]
      exact List.mem_append_left _ hx

-- Only the world, the subscriptions that have gone and the queue are different.
theorem Stepped.quiet {e : Event W P} (hinv : s'.Inv) (hcreated : s'.created = s.created)
    (hturns : s'.turns = s.turns) (hlive : ∀ sub, s'.map.Live sub → s.map.Live sub)
    (hq : s'.q = s.q) : Stepped s e s' := by
  constructor
  . exact hinv
  . rw [hcreated]
    exact fun _ _ hn => hn
  . exact ⟨[], by rw [hturns, List.append_nil], fun _ ht => absurd ht List.not_mem_nil⟩
  . exact fun sub hsub => Or.inl (hlive sub hsub)
  . rw [hq]
    exact fun _ _ hx => hx

theorem Inv.stepped_subscribe (h : s.Inv) {topic : Topic} {cond : W → Message P → Bool × W}
    {cb : W → Message P → W} {mode : Mode} {key : Nat}
    (hsub : s.subscribe topic cond cb mode = some (key, s')) (e : Event W P) : Stepped s e s' := by
  obtain ⟨hinv, new, hcreated, hlive, hserial, hturns, hq⟩ := h.subscribe hsub
  constructor
  . exact hinv
  . intro n sub hn
    obtain ⟨hlt, -⟩ := List.getElem?_eq_some_iff.mp hn
    rw [hcreated, List.getElem?_append_left hlt, hn]
  . exact ⟨[], by rw [hturns, List.append_nil], fun _ ht => absurd ht List.not_mem_nil⟩
  . intro sub hsub
    rcases (hlive sub).mp hsub with hsub | rfl
    . exact Or.inl hsub
    . exact Or.inr hserial
  . exact fun _ x hx => hq ▸ hx

theorem Inv.stepped_execute (h : s.Inv) : Stepped s .execute s.execute.2 := by
  constructor
  . exact h.execute
  . exact fun _ _ hn => hn
  . exact ⟨_, rfl, fun t ht => (mem_execute h ht).1⟩
  . exact fun _ hlive => Or.inl hlive
  . exact fun hne => absurd rfl hne

theorem Inv.step (h : s.Inv) {e : Event W P} (hstep : Channel.step check s e = some s') :
    Stepped s e s' := by
  unfold Channel.step at hstep
  cases e with
  | subscribe topic cond cb mode =>
    dsimp only at hstep
    split at hstep
    . injection hstep with hstep
      subst hstep
      exact .quiet h rfl rfl (fun _ hlive => hlive) rfl
    . next hsub =>
      injection hstep with hstep
      exact hstep ▸ h.stepped_subscribe hsub _
  | unsubscribe key =>
    injection hstep with hstep
    subst hstep
    obtain ⟨hinv, hlive⟩ := h.unsubscribe key
    exact .quiet hinv rfl rfl (fun sub hsub => ((hlive sub).mp hsub).1) rfl
  | publish m =>
    injection hstep with hstep
    exact hstep ▸ h.stepped_published (published_publish check s m) _
  | publishTo topic m =>
    injection hstep with hstep
    exact hstep ▸ h.stepped_published (published_publishTo check s topic m) _
  | execute =>
    injection hstep with hstep
    exact hstep ▸ h.stepped_execute
  | outside w =>
    injection hstep with hstep
    subst hstep
    have hinv : Inv { s with world := w } :=
      ⟨h.map, h.created, h.ordered, h.q_lt, h.turn_created, h.turn_lt, h.turn_before, h.order⟩
    exact .quiet hinv rfl rfl (fun _ hlive => hlive) rfl

/-!
### Runs
-/

theorem inv_ctor (w : W) : (ctor w : Channel W P).Inv := by
  constructor
  . exact SubMap.inv_ctor
  . rintro sub ⟨subs, hsubs, -⟩
    cases hmode : sub.mode <;> rw [hmode] at hsubs <;> contradiction
  . exact List.Pairwise.nil
  . exact fun _ he => nomatch he
  . exact fun _ ht => nomatch ht
  . exact fun _ ht => nomatch ht
  . exact fun _ ht => nomatch ht
  . exact List.Pairwise.nil

theorem inv_of_reachable {w : W} (h : (machine check w).Reachable s) : s.Inv :=
  Machine.inv_of_reachable Inv (inv_ctor w) (fun _ _ _ hinv hstep => (hinv.step hstep).inv) h

theorem exists_step (check : Bool) (w : W) (s : Channel W P) (e : Event W P) :
    ∃ s', (machine check w).step s e = some s' := by
  unfold machine step
  cases e with
  | subscribe topic cond cb mode =>
    dsimp only
    split <;> exact ⟨_, rfl⟩
  | _ => exact ⟨_, rfl⟩

end Channel
end Lax
