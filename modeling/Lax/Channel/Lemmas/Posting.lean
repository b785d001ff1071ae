import Lax.Channel.Impl.Channel

/-!
This module contains which subscriptions get a turn when a message is posted, and what the returned
count is.
-/

namespace Lax
namespace Posting

variable {W P : Type} {em : EntryMap (Action W P)} {m : Message P} {n : Nat}

-- The subscriptions that a lookup finds.
def lookup (em : EntryMap (Action W P)) (topic : Topic) : List (Sub (Action W P)) :=
  if topic.isValid then (em topic).getD [] else []

-- What a turn is like when the message with number `n` is posted.
def TurnOf (n : Nat) (m : Message P) (t : Turn W P) : Prop :=
  t.published = n ∧ t.message = m
    ∧ t.called = (t.sub.topic.isMatch m.topic && (t.sub.action.cond t.world m).1)

-- Each of the subscriptions gets one turn for the message, in this order.
structure Posts (n : Nat) (m : Message P) (subs : List (Sub (Action W P))) (p : Posting W P) :
    Prop where
  subs_eq : p.turns.map (·.sub) = subs
  turnOf : ∀ t ∈ p.turns, TurnOf n m t
  count_eq : p.count = (p.turns.filter (·.called)).length

theorem posts_nil (w : W) : Posts n m [] (⟨0, [], w⟩ : Posting W P) :=
  ⟨rfl, fun _ h => absurd h List.not_mem_nil, rfl⟩

theorem Posts.append {subs subs' : List (Sub (Action W P))} {p p' : Posting W P}
    (h : Posts n m subs p) (h' : Posts n m subs' p') :
    Posts n m (subs ++ subs') ⟨p.count + p'.count, p.turns ++ p'.turns, p'.world⟩ := by
  constructor
  . rw [List.map_append, h.subs_eq, h'.subs_eq]
  . intro t ht
    rcases List.mem_append.mp ht with ht | ht
    . exact h.turnOf t ht
    . exact h'.turnOf t ht
  . rw [List.filter_append, List.length_append, h.count_eq, h'.count_eq]

theorem post_fst (sub : Sub (Action W P)) (w : W) (m : Message P) :
    (sub.post w m).1 = (sub.topic.isMatch m.topic && (sub.action.cond w m).1) := by
  unfold Sub.post
  dsimp only
  cases sub.topic.isMatch m.topic <;> cases (sub.action.cond w m).1 <;> rfl

theorem posts_postSubs (w : W) (subs : List (Sub (Action W P))) :
    Posts n m subs (postSubs n m w subs) := by
  induction subs generalizing w with
  | nil => apply posts_nil
  | cons sub subs ih =>
    have hrest := ih (sub.post w m).2
    unfold postSubs
    dsimp only
    constructor
    . rw [List.map_cons, hrest.subs_eq]
    . intro t ht
      rcases List.mem_cons.mp ht with rfl | ht
      . exact ⟨rfl, rfl, post_fst sub w m⟩
      . exact hrest.turnOf t ht
    . rw [List.filter_cons, hrest.count_eq]
      cases (sub.post w m).1 <;> rfl

theorem posts_postOnTopic (w : W) (topic : Topic) :
    Posts n m (lookup em topic) (postOnTopic em n m w topic) := by
  unfold lookup postOnTopic
  cases htopic : topic.isValid with
  | false => apply posts_nil
  | true =>
    cases hem : em topic with
    | none => apply posts_nil
    | some subs => apply posts_postSubs

theorem posts_postTopics (w : W) (topics : List Topic) :
    Posts n m (topics.flatMap (lookup em)) (postTopics em n m w topics) := by
  induction topics generalizing w with
  | nil => apply posts_nil
  | cons topic topics ih =>
    unfold postTopics
    rw [List.flatMap_cons]
    exact (posts_postOnTopic w topic).append (ih _)

-- The subscriptions that a message without a topic of its own gets to.
def found (em : EntryMap (Action W P)) (m : Message P) : List (Sub (Action W P)) :=
  lookup em m.topic ++ lookup em m.topic.getGroupTopic

theorem posts_post (w : W) : Posts n m (found em m) (post em n m w) := by
  have h := @posts_postTopics _ _ em m n w [m.topic, m.topic.getGroupTopic]
  rw [List.flatMap_cons, List.flatMap_singleton] at h
  exact h

/-!
### The queue
-/

theorem mem_drain {w : W} {q : List (Nat × Message P)} {t : Turn W P}
    (h : t ∈ (drain em w q).turns) :
    ∃ n m, (n, m) ∈ q ∧ TurnOf n m t ∧ t.sub ∈ found em m := by
  induction q generalizing w with
  | nil => contradiction
  | cons e q ih =>
    obtain ⟨n, m⟩ := e
    unfold drain at h
    rcases List.mem_append.mp h with h | h
    . have hpost := @posts_post _ _ em m n w
      refine ⟨n, m, List.mem_cons_self, hpost.turnOf t h, ?_⟩
      rw [← hpost.subs_eq]
      exact List.mem_map_of_mem h
    . obtain ⟨n', m', hmem, hturn⟩ := ih h
      exact ⟨n', m', List.mem_cons_of_mem _ hmem, hturn⟩

-- Numbers are in the order of publishing.
def Ordered (q : List (Nat × Message P)) : Prop :=
  q.Pairwise fun e e' => e.1 < e'.1

theorem pairwise_drain {q : List (Nat × Message P)} (h : Ordered q) (w : W) :
    (drain em w q).turns.Pairwise fun t t' => t.published ≤ t'.published := by
  induction q generalizing w with
  | nil => exact List.Pairwise.nil
  | cons e q ih =>
    obtain ⟨n, m⟩ := e
    obtain ⟨hlt, hq⟩ := List.pairwise_cons.mp h
    have hturn := (@posts_post _ _ em m n w).turnOf
    unfold drain
    dsimp only
    rw [List.pairwise_append]
    refine ⟨?_, ih hq _, ?_⟩
    . apply List.pairwise_of_forall_mem_list
      intro t ht t' ht'
      apply Nat.le_of_eq
      rw [(hturn t ht).1, (hturn t' ht').1]
    . intro t ht t' ht'
      obtain ⟨n', m', hmem, hturn', -⟩ := mem_drain ht'
      rw [(hturn t ht).1, hturn'.1]
      exact Nat.le_of_lt (hlt _ hmem)

end Posting
end Lax
