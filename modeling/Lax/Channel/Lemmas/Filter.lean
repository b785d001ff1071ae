import Lax.Channel.Lemmas.Delivery

/-!
This module contains what `check_delayed_sub_before_enqueue` changes. The check asks for the topic that
a message is published to, and the queue is executed with the topic of the message itself.
-/

namespace Lax
namespace Channel

open Posting

variable {W P : Type} {s s' : Channel W P} {em : EntryMap (Action W P)} {m : Message P}

/-!
### Messages that nobody gets
-/

theorem postOnTopic_of_lookup_eq_nil {topic : Topic} (h : lookup em topic = []) (n : Nat) (w : W) :
    postOnTopic em n m w topic = ⟨0, [], w⟩ := by
  unfold lookup at h
  unfold postOnTopic
  split
  . rfl
  . next hvalid =>
    rw [if_pos (Decidable.of_not_not hvalid)] at h
    split
    . rfl
    . next subs hsubs =>
      rw [hsubs, Option.getD_some] at h
      rw [h]
      rfl

theorem post_of_found_eq_nil (h : found em m = []) (n : Nat) (w : W) :
    post em n m w = ⟨0, [], w⟩ := by
  obtain ⟨htopic, hgroup⟩ := List.append_eq_nil_iff.mp h
  simp only [post, postTopics, postOnTopic_of_lookup_eq_nil htopic,
    postOnTopic_of_lookup_eq_nil hgroup]
  rfl

-- The first queue is the second one without some of the messages that nobody gets.
inductive Thinned (em : EntryMap (Action W P)) :
    List (Nat × Message P) → List (Nat × Message P) → Prop where
  | nil : Thinned em [] []
  | kept (e : Nat × Message P) {q q' : List (Nat × Message P)} :
    Thinned em q q' → Thinned em (e :: q) (e :: q')
  | dropped {e : Nat × Message P} {q q' : List (Nat × Message P)} :
    found em e.2 = [] → Thinned em q q' → Thinned em q (e :: q')

theorem Thinned.append {q q' r r' : List (Nat × Message P)} (h : Thinned em q q')
    (h' : Thinned em r r') : Thinned em (q ++ r) (q' ++ r') := by
  induction h with
  | nil => exact h'
  | kept e _ ih => exact .kept e ih
  | dropped hfound _ ih => exact .dropped hfound ih

theorem Thinned.mono {em' : EntryMap (Action W P)} {q q' : List (Nat × Message P)}
    (h : Thinned em q q') (hfound : ∀ m, found em m = [] → found em' m = []) : Thinned em' q q' := by
  induction h with
  | nil => exact .nil
  | kept e _ ih => exact .kept e ih
  | dropped hnil _ ih => exact .dropped (hfound _ hnil) ih

theorem Thinned.eq_nil {q : List (Nat × Message P)} (h : Thinned em q []) : q = [] := by
  cases h
  rfl

theorem Thinned.drain_eq {q q' : List (Nat × Message P)} (h : Thinned em q q') (w : W) :
    drain em w q = drain em w q' := by
  induction h generalizing w with
  | nil => rfl
  | kept e _ ih =>
    unfold drain
    dsimp only
    rw [ih]
  | dropped hnil _ ih =>
    rw [ih]
    conv => rhs; unfold drain
    dsimp only
    rw [post_of_found_eq_nil hnil, Nat.zero_add, List.nil_append]

/-!
### Steps
-/

-- Nobody subscribes with a delay while messages wait in the queue.
def Quiet (s : Channel W P) : Event W P → Prop
  | .subscribe _ _ _ .delayed => s.q = []
  | _ => True

-- If the check finds no entry for the topic that a message is published to, there are no delayed
-- subscriptions to the topic of the message.
def Covered (s : Channel W P) : Event W P → Prop
  | .publishTo topic m =>
    (s.map.hasDelayedSub topic || s.map.hasDelayedSub topic.getGroupTopic) = false →
      ∀ sub, s.map.Live sub → sub.mode = .delayed → ¬Addressed m sub.topic
  | _ => True

theorem found_eq_nil_iff (h : s.map.Consistent) :
    found (s.map.entries .delayed) m = []
      ↔
    ∀ sub, s.map.Live sub → sub.mode = .delayed → ¬Addressed m sub.topic := by
  rw [List.eq_nil_iff_forall_not_mem]
  apply forall_congr'
  intro sub
  rw [mem_found h, not_and, not_and]

-- The channel that checks is the other one with a thinner queue.
def Simulates (s s' : Channel W P) : Prop :=
  s.Inv ∧ ∃ q, s' = { s with q := q } ∧ Thinned (s.map.entries .delayed) q s.q

theorem thinned_enqueueChecked {q : List (Nat × Message P)} {topic : Topic}
    (h : Thinned (s.map.entries .delayed) q s.q)
    (hfound : (s.map.hasDelayedSub topic || s.map.hasDelayedSub topic.getGroupTopic) = false →
      found (s.map.entries .delayed) m = []) :
    ∃ q', enqueueChecked true { s with q := q } topic m = { s with q := q' }
      ∧ Thinned (s.map.entries .delayed) q' (s.q ++ [(s.published, m)]) := by
  unfold enqueueChecked
  dsimp only
  rw [if_pos rfl]
  split
  . exact ⟨_, rfl, h.append (.kept _ .nil)⟩
  . next hnone =>
    refine ⟨q, rfl, ?_⟩
    have hnil := hfound (by simpa using hnone)
    have hdropped : Thinned _ (q ++ []) (s.q ++ [(s.published, m)]) := h.append (.dropped hnil .nil)
    rwa [List.append_nil] at hdropped

theorem lookup_of_hasDelayedSub {map : SubMap (Action W P)} {topic : Topic}
    (h : map.hasDelayedSub topic = false) : lookup (map.entries .delayed) topic = [] := by
  have hnone : map.entries .delayed topic = none := by
    rw [← Option.isNone_iff_eq_none, ← Option.isSome_eq_false_iff]
    exact h
  unfold lookup
  rw [hnone]
  split <;> rfl

theorem found_of_hasDelayedSub {map : SubMap (Action W P)}
    (h : (map.hasDelayedSub m.topic || map.hasDelayedSub m.topic.getGroupTopic) = false) :
    found (map.entries .delayed) m = [] := by
  obtain ⟨htopic, hgroup⟩ := Bool.or_eq_false_iff.mp h
  unfold found
  rw [lookup_of_hasDelayedSub htopic, lookup_of_hasDelayedSub hgroup]
  rfl

theorem simulates_subscribe {q : List (Nat × Message P)} {topic : Topic}
    {cond : W → Message P → Bool × W} {cb : W → Message P → W} {mode : Mode}
    (hthinned : Thinned (s.map.entries .delayed) q s.q)
    (hquiet : Quiet s (.subscribe topic cond cb mode)) {s₁ s₁' : Channel W P}
    (hstep : Channel.step false s (.subscribe topic cond cb mode) = some s₁)
    (hstep' : Channel.step true { s with q := q } (.subscribe topic cond cb mode) = some s₁') :
    ∃ q', s₁' = { s₁ with q := q' } ∧ Thinned (s₁.map.entries .delayed) q' s₁.q := by
  unfold Channel.step Channel.subscribe at hstep hstep'
  dsimp only at hstep hstep'
  cases hmap : s.map.subscribe topic ⟨s.created.length, cond, cb⟩ mode with
  | none =>
    rw [hmap] at hstep hstep'
    injection hstep with hstep
    injection hstep' with hstep'
    subst hstep hstep'
    exact ⟨q, rfl, hthinned⟩
  | some r =>
    rw [hmap] at hstep hstep'
    injection hstep with hstep
    injection hstep' with hstep'
    subst hstep hstep'
    refine ⟨q, rfl, ?_⟩
    cases mode with
    | immediate =>
      have hsame : r.2.entries .delayed = s.map.entries .delayed := by
        funext topic'
        rw [(SubMap.subscribed hmap).entries_eq]
        exact if_neg fun h => nomatch h.1
      exact hsame.symm ▸ hthinned
    | delayed =>
      have hempty : s.q = [] := hquiet
      dsimp only
      rw [hempty] at hthinned ⊢
      rw [hthinned.eq_nil]
      exact .nil

theorem Simulates.step {s₁ s₁' : Channel W P} {e : Event W P} (h : Simulates s s')
    (hquiet : Quiet s e) (hcovered : Covered s e) (hstep : Channel.step false s e = some s₁)
    (hstep' : Channel.step true s' e = some s₁') : Simulates s₁ s₁' := by
  obtain ⟨hinv, q, rfl, hthinned⟩ := h
  refine ⟨(hinv.step hstep).inv, ?_⟩
  cases e with
  | subscribe topic cond cb mode => exact simulates_subscribe hthinned hquiet hstep hstep'
  | unsubscribe key =>
    injection hstep with hstep
    injection hstep' with hstep'
    subst hstep hstep'
    refine ⟨q, rfl, hthinned.mono ?_⟩
    intro m hnil
    obtain ⟨hinv', hiff⟩ := hinv.unsubscribe key
    rw [found_eq_nil_iff hinv.map.toConsistent] at hnil
    apply (found_eq_nil_iff hinv'.map.toConsistent).mpr
    intro sub hlive
    exact hnil sub ((hiff sub).mp hlive).1
  | publish m =>
    injection hstep with hstep
    injection hstep' with hstep'
    subst hstep hstep'
    obtain ⟨q', heq, hthinned⟩ := thinned_enqueueChecked hthinned found_of_hasDelayedSub
    refine ⟨q', ?_, hthinned⟩
    unfold publish
    rw [heq]
    rfl
  | publishTo topic m =>
    injection hstep with hstep
    injection hstep' with hstep'
    subst hstep hstep'
    have hfound := (@found_eq_nil_iff _ _ s m hinv.map.toConsistent).mpr
    obtain ⟨q', heq, hthinned⟩ := thinned_enqueueChecked hthinned fun h => hfound (hcovered h)
    refine ⟨q', ?_, hthinned⟩
    unfold publishTo
    rw [heq]
    rfl
  | execute =>
    injection hstep with hstep
    injection hstep' with hstep'
    subst hstep hstep'
    refine ⟨[], ?_, .nil⟩
    unfold execute finish
    dsimp only
    rw [hthinned.drain_eq]
  | outside w =>
    injection hstep with hstep
    injection hstep' with hstep'
    subst hstep hstep'
    exact ⟨q, rfl, hthinned⟩

/-!
### Runs
-/

-- The callbacks that have been called, in this order.
def calls (s : Channel W P) : List (Sub (Action W P) × Message P) :=
  (s.turns.filter (·.called)).map fun t => (t.sub, t.message)

/--
The check before a message is put into the queue only keeps out messages that nobody would get.
-/
theorem calls_eq_of_run (w : W) (es : List (Event W P)) (s s' : Channel W P)
    (hrun : (machine false w).run (ctor w) es = some s)
    (hrun' : (machine true w).run (ctor w) es = some s')
    (hquiet : (machine false w).Along Quiet (ctor w) es)
    (hcovered : (machine false w).Along Covered (ctor w) es) : calls s' = calls s := by
  have hctor : Simulates (ctor w) (ctor w : Channel W P) := ⟨inv_ctor w, [], rfl, .nil⟩
  obtain ⟨-, q, rfl, -⟩ := Machine.simulation Simulates
    (fun _ _ _ _ _ h hP hstep hstep' => h.step hP.1 hP.2 hstep hstep') hrun hrun'
    (Machine.along_and hquiet hcovered) hctor
  rfl

section

variable {seq seq' : Sequence} {key : Nat} (hnext : seq.next = some (key, seq')) (check : Bool)

theorem topics_apart :
    (Topic.ofParts 1 1).isValid = true ∧ (Topic.ofParts 1 1).getGroupTopic ≠ Topic.ofParts 1 1
      ∧ Topic.ofParts 2 1 ≠ Topic.ofParts 1 1
      ∧ (Topic.ofParts 2 1).getGroupTopic ≠ Topic.ofParts 1 1 := by
  decide

-- One message is for nobody, and waits in the queue without the check. Two others are for the subscription.
def filtered : List (Event Unit Unit) :=
  let topic := Topic.ofParts 1 1
  [.subscribe topic (fun w _ => (true, w)) (fun w _ => w) .delayed, .publish ⟨Topic.ofParts 2 1, ()⟩,
    .publish ⟨topic, ()⟩, .publishTo topic ⟨topic, ()⟩, .execute]

-- A message that is published to a topic of another group.
def elsewhere : List (Event Unit Unit) :=
  let topic := Topic.ofParts 1 1
  [.subscribe topic (fun w _ => (true, w)) (fun w _ => w) .delayed,
    .publishTo (Topic.ofParts 2 1) ⟨topic, ()⟩, .execute]

include hnext

theorem length_calls_filtered :
    ∃ s, (machine check ()).run
        ⟨[], ⟨fun _ => none, fun _ => none, fun _ => none, seq⟩, (), [], 0, []⟩ filtered = some s
      ∧ (calls s).length = 2 := by
  obtain ⟨hvalid, hgroup, hother, hother'⟩ := topics_apart
  simp only [Machine.run, machine, step, subscribe, SubMap.subscribe, hnext, filtered]
  refine ⟨_, rfl, ?_⟩
  cases check <;>
    simp [publish, publishTo, enqueueChecked, SubMap.hasDelayedSub, finish, postTo, postTopics,
      postOnTopic, SubMap.entries, SubMap.withEntries, execute, drain, post, postSubs, Sub.post, calls,
      hvalid, hgroup, hother, hother', Topic.isMatch_self]

theorem length_calls_elsewhere :
    ∃ s, (machine check ()).run
        ⟨[], ⟨fun _ => none, fun _ => none, fun _ => none, seq⟩, (), [], 0, []⟩ elsewhere = some s
      ∧ (calls s).length = if check then 0 else 1 := by
  obtain ⟨hvalid, hgroup, hother, hother'⟩ := topics_apart
  simp only [Machine.run, machine, step, subscribe, SubMap.subscribe, hnext, elsewhere]
  refine ⟨_, rfl, ?_⟩
  cases check <;>
    simp [publishTo, enqueueChecked, SubMap.hasDelayedSub, finish, postTo, postTopics, postOnTopic,
      SubMap.entries, SubMap.withEntries, execute, drain, post, postSubs, Sub.post, calls, hvalid, hgroup,
      hother, hother', Topic.isMatch_self]

-- The check finds the entry that the message is published to.
theorem covered_filtered :
    (machine check ()).Along Covered
      ⟨[], ⟨fun _ => none, fun _ => none, fun _ => none, seq⟩, (), [], 0, []⟩ filtered := by
  obtain ⟨-, -, hother, hother'⟩ := topics_apart
  cases check <;>
    simp [Machine.Along, machine, step, subscribe, SubMap.subscribe, hnext, filtered, Covered, publish,
      enqueueChecked, SubMap.hasDelayedSub, finish, SubMap.entries, SubMap.withEntries, hother, hother']

end

theorem calls_eq_of_run_filtered :
    ∃ s s' : Channel Unit Unit, (machine false ()).run (ctor ()) filtered = some s
      ∧ (machine true ()).run (ctor ()) filtered = some s'
      ∧ calls s' = calls s ∧ (calls s').length = 2 := by
  obtain ⟨key, seq, hnext⟩ := @Sequence.exists_next_ctor 1 SubMap.maxKey (by decide) 1000
  obtain ⟨s, hrun, -⟩ := length_calls_filtered hnext false
  obtain ⟨s', hrun', hcalls⟩ := length_calls_filtered hnext true
  refine ⟨s, s', hrun, hrun', calls_eq_of_run () filtered s s' hrun hrun' ?_ ?_, hcalls⟩
  . exact ⟨rfl, fun _ _ => ⟨trivial, fun _ _ => ⟨trivial, fun _ _ => ⟨trivial, fun _ _ =>
      ⟨trivial, fun _ _ => trivial⟩⟩⟩⟩⟩
  . exact covered_filtered hnext false

theorem exists_calls_ne :
    (machine false ()).Along Quiet (ctor ()) elsewhere
      ∧ ∃ s s' : Channel Unit Unit, (machine false ()).run (ctor ()) elsewhere = some s
        ∧ (machine true ()).run (ctor ()) elsewhere = some s' ∧ calls s' ≠ calls s := by
  refine ⟨⟨rfl, fun _ _ => ⟨trivial, fun _ _ => ⟨trivial, fun _ _ => trivial⟩⟩⟩, ?_⟩
  obtain ⟨key, seq, hnext⟩ := @Sequence.exists_next_ctor 1 SubMap.maxKey (by decide) 1000
  obtain ⟨s, hrun, hcalls⟩ := length_calls_elsewhere hnext false
  obtain ⟨s', hrun', hcalls'⟩ := length_calls_elsewhere hnext true
  refine ⟨s, s', hrun, hrun', ?_⟩
  intro heq
  rw [heq, hcalls] at hcalls'
  exact absurd hcalls' (by decide)

end Channel
end Lax
