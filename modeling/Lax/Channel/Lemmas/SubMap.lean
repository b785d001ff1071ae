import Lax.Channel.Impl.SubMap
import Lax.Util.Lemmas.Sequence

/-!
This module contains how the entries, the index of keys and the pool of keys of a `SubMap` stay in
step.
-/

namespace Lax
namespace SubMap

variable {α : Type} {map map' : SubMap α} {key : Nat} {topic : Topic} {mode : Mode} {action : α}

@[simp]
theorem entries_withEntries (map : SubMap α) (mode mode' : Mode) (em : EntryMap α) :
    (map.withEntries mode em).entries mode' = if mode' = mode then em else map.entries mode' := by
  cases mode <;> cases mode' <;> rfl

@[simp]
theorem keys_withEntries (map : SubMap α) (mode : Mode) (em : EntryMap α) :
    (map.withEntries mode em).keys = map.keys := by
  cases mode <;> rfl

@[simp]
theorem seq_withEntries (map : SubMap α) (mode : Mode) (em : EntryMap α) :
    (map.withEntries mode em).seq = map.seq := by
  cases mode <;> rfl

@[simp]
theorem entries_with (map : SubMap α) (keys : Nat → Option EntryLink) (seq : Sequence)
    (mode : Mode) : entries { map with keys := keys, seq := seq } mode = map.entries mode := by
  cases mode <;> rfl

theorem entries_update (map : SubMap α) (subs : List (Sub α)) (mode' : Mode) (topic' : Topic) :
    (map.withEntries mode (Function.update (map.entries mode) topic (some subs))).entries mode' topic'
      =
    if mode' = mode ∧ topic' = topic then some subs else map.entries mode' topic' := by
  rw [entries_withEntries]
  by_cases hmode : mode' = mode
  . subst hmode
    rw [if_pos rfl]
    by_cases htopic : topic' = topic
    . subst htopic
      simp
    . simp [htopic]
  . simp [hmode]

/-!
### Subscribing
-/

structure Subscribed (map : SubMap α) (topic : Topic) (action : α) (mode : Mode) (key : Nat)
    (map' : SubMap α) : Prop where
  next : map.seq.next = some (key, map'.seq)
  keys_eq : map'.keys = Function.update map.keys key (some ⟨topic, mode⟩)
  entries_eq : ∀ mode' topic', map'.entries mode' topic' =
    if mode' = mode ∧ topic' = topic then
      some ((map.entries mode topic).getD [] ++ [⟨key, topic, action, mode⟩])
    else
      map.entries mode' topic'

theorem subscribed (h : map.subscribe topic action mode = some (key, map')) :
    Subscribed map topic action mode key map' := by
  unfold subscribe at h
  split at h
  . contradiction
  . next hnext =>
    injection h with h
    injection h with hkey hmap
    subst hkey hmap
    constructor
    . exact hnext
    . rfl
    . intro mode' topic'
      rw [entries_with]
      apply entries_update

/-!
### The index
-/

-- What is stored is indexed where it is stored, and what is indexed is stored there once.
structure Consistent (map : SubMap α) : Prop where
  stored : ∀ mode topic subs, map.entries mode topic = some subs → ∀ sub ∈ subs,
    sub.topic = topic ∧ sub.mode = mode ∧ map.keys sub.key = some ⟨topic, mode⟩
  found : ∀ key topic mode, map.keys key = some ⟨topic, mode⟩ →
    ∃ subs sub, map.entries mode topic = some subs ∧ subs.filter (·.key = key) = [sub]

structure Inv (map : SubMap α) : Prop extends Consistent map where
  valid : map.seq.Valid fun key => map.keys key ≠ none

theorem inv_ctor : (ctor : SubMap α).Inv := by
  refine ⟨⟨?_, ?_⟩, ?_⟩
  . intro mode topic subs hsubs
    cases mode <;> contradiction
  . intro key topic mode hkey
    contradiction
  . apply (Sequence.valid_ctor (by decide) 1000).congr
    intro key
    exact ⟨False.elim, fun h => h rfl⟩

theorem exists_of_mem_getD {found : Option (List (Sub α))} {sub : Sub α}
    (hmem : sub ∈ found.getD []) : ∃ subs, found = some subs ∧ sub ∈ subs := by
  cases found with
  | none => contradiction
  | some subs => exact ⟨subs, rfl, hmem⟩

theorem Consistent.of_mem (h : map.Consistent) {sub : Sub α}
    (hmem : sub ∈ (map.entries mode topic).getD []) :
    sub.topic = topic ∧ sub.mode = mode ∧ map.keys sub.key = some ⟨topic, mode⟩ := by
  obtain ⟨subs, hsubs, hmem⟩ := exists_of_mem_getD hmem
  exact h.stored mode topic subs hsubs sub hmem

theorem ne_of_keys {key' : Nat} {link : EntryLink} (hkey : map.keys key = none)
    (hkey' : map.keys key' = some link) : key' ≠ key := by
  intro heq
  rw [heq, hkey] at hkey'
  contradiction

theorem Consistent.stored_of_subscribed (h : map.Consistent) (hkey : map.keys key = none)
    (hsub : Subscribed map topic action mode key map') {mode' : Mode} {topic' : Topic}
    {subs : List (Sub α)} (hsubs : map'.entries mode' topic' = some subs) {sub : Sub α}
    (hmem : sub ∈ subs) :
    sub.topic = topic' ∧ sub.mode = mode' ∧ map'.keys sub.key = some ⟨topic', mode'⟩ := by
  rw [hsub.entries_eq] at hsubs
  rw [hsub.keys_eq]
  split at hsubs
  . next heq =>
    obtain ⟨rfl, rfl⟩ := heq
    injection hsubs with hsubs
    subst hsubs
    rw [List.mem_append, List.mem_singleton] at hmem
    obtain hmem | rfl := hmem
    . obtain ⟨htopic, hmode, hkeys⟩ := h.of_mem hmem
      rw [Function.update_of_ne (ne_of_keys hkey hkeys)]
      exact ⟨htopic, hmode, hkeys⟩
    . rw [Function.update_self]
      exact ⟨rfl, rfl, rfl⟩
  . obtain ⟨htopic, hmode, hkeys⟩ := h.stored mode' topic' subs hsubs sub hmem
    rw [Function.update_of_ne (ne_of_keys hkey hkeys)]
    exact ⟨htopic, hmode, hkeys⟩

theorem Consistent.found_of_subscribed (h : map.Consistent) (hkey : map.keys key = none)
    (hsub : Subscribed map topic action mode key map') {key' : Nat} {topic' : Topic} {mode' : Mode}
    (hkey' : map'.keys key' = some ⟨topic', mode'⟩) :
    ∃ subs sub, map'.entries mode' topic' = some subs ∧ subs.filter (·.key = key') = [sub] := by
  rw [hsub.keys_eq] at hkey'
  rw [hsub.entries_eq]
  by_cases heq : key' = key
  . subst heq
    rw [Function.update_self] at hkey'
    injection hkey' with hkey'
    injection hkey' with htopic hmode
    subst htopic hmode
    rw [if_pos ⟨rfl, rfl⟩]
    refine ⟨_, ⟨key', topic, action, mode⟩, rfl, ?_⟩
    rw [List.filter_append, List.filter_eq_nil_iff.mpr]
    . simp
    . intro sub hmem
      rw [decide_eq_true_eq]
      exact ne_of_keys hkey (h.of_mem hmem).2.2
  . rw [Function.update_of_ne heq] at hkey'
    obtain ⟨subs, sub, hsubs, hfilter⟩ := h.found key' topic' mode' hkey'
    split
    . next hplace =>
      obtain ⟨rfl, rfl⟩ := hplace
      refine ⟨_, sub, rfl, ?_⟩
      rw [hsubs, List.filter_append]
      simp [hfilter, Ne.symm heq]
    . exact ⟨subs, sub, hsubs, hfilter⟩

theorem Inv.subscribed (h : map.Inv) (hsub : Subscribed map topic action mode key map') :
    map'.Inv := by
  have hnext := h.valid.next hsub.next
  have hkey : map.keys key = none := Decidable.of_not_not hnext.fresh
  refine ⟨⟨?_, ?_⟩, ?_⟩
  . intro mode' topic' subs hsubs sub hmem
    exact h.stored_of_subscribed hkey hsub hsubs hmem
  . intro key' topic' mode' hkey'
    exact h.found_of_subscribed hkey hsub hkey'
  . rw [hsub.keys_eq]
    exact hnext.valid.update ⟨topic, mode⟩

/-!
### Unsubscribing
-/

-- The only subscription with the key goes and the others stay in their order.
structure Removed (map : SubMap α) (key : Nat) (link : EntryLink) (map' : SubMap α) : Prop where
  keys_eq : map'.keys = Function.update map.keys key none
  entries_eq : ∃ before sub after, map.entries link.mode link.topic = some (before ++ sub :: after)
    ∧ sub.key = key ∧ (∀ sub ∈ before ++ after, sub.key ≠ key)
    ∧ ∀ mode topic, map'.entries mode topic =
      if mode = link.mode ∧ topic = link.topic then
        some (before ++ after)
      else
        map.entries mode topic

theorem unsubscribe_of_none (h : map.keys key = none) : map.unsubscribe key = (false, map) := by
  unfold unsubscribe
  rw [h]

theorem Consistent.unsubscribe (h : map.Consistent) {link : EntryLink}
    (hkey : map.keys key = some link) :
    (map.unsubscribe key).1 = true ∧ Removed map key link (map.unsubscribe key).2
      ∧ (map.unsubscribe key).2.seq = map.seq.release key := by
  obtain ⟨topic, mode⟩ := link
  obtain ⟨subs, sub, hsubs, hfilter⟩ := h.found key topic mode hkey
  obtain ⟨before, after, rfl, hbefore, hsub, hafter⟩ := List.filter_eq_cons_iff.mp hfilter
  have herase : (before ++ sub :: after).eraseP (fun sub => sub.key = key) = before ++ after := by
    rw [List.eraseP_append_right _ hbefore]
    simp [of_decide_eq_true hsub]
  have hne : ∀ sub ∈ before ++ after, sub.key ≠ key := by
    intro sub hmem heq
    rcases List.mem_append.mp hmem with hmem | hmem
    . exact hbefore sub hmem (decide_eq_true heq)
    . exact List.filter_eq_nil_iff.mp hafter sub hmem (decide_eq_true heq)
  have hany : (before ++ sub :: after).any (fun sub => sub.key = key) = true :=
    List.any_eq_true.mpr ⟨sub, by simp, hsub⟩
  unfold SubMap.unsubscribe
  rw [hkey]
  dsimp only
  rw [entries_with, hsubs]
  dsimp only
  rw [if_pos hany, herase]
  refine ⟨rfl, ⟨?_, before, sub, after, hsubs, of_decide_eq_true hsub, hne, ?_⟩, ?_⟩
  . rw [keys_withEntries]
  . intro mode' topic'
    rw [← entries_with map, entries_update, entries_with]
  . rw [seq_withEntries]

theorem Consistent.stored_of_removed (h : map.Consistent) {link : EntryLink}
    (hkey : map.keys key = some link) (hremoved : Removed map key link map') {subs : List (Sub α)}
    (hsubs : map'.entries mode topic = some subs) {sub : Sub α} (hmem : sub ∈ subs) :
    sub.topic = topic ∧ sub.mode = mode ∧ map'.keys sub.key = some ⟨topic, mode⟩ := by
  obtain ⟨before, old, after, hold, -, hne, hentries⟩ := hremoved.entries_eq
  rw [hentries] at hsubs
  rw [hremoved.keys_eq]
  split at hsubs
  . next hplace =>
    obtain ⟨rfl, rfl⟩ := hplace
    injection hsubs with hsubs
    subst hsubs
    rw [Function.update_of_ne (hne sub hmem)]
    apply h.stored _ _ _ hold
    rw [List.mem_append] at hmem
    rw [List.mem_append, List.mem_cons]
    exact hmem.imp_right Or.inr
  . next hplace =>
    obtain ⟨htopic, hmode, hkeys⟩ := h.stored mode topic subs hsubs sub hmem
    -- The subscription with the key is in another place.
    have hne' : sub.key ≠ key := by
      intro heq
      rw [heq, hkey] at hkeys
      injection hkeys with hkeys
      exact hplace ⟨by rw [hkeys], by rw [hkeys]⟩
    rw [Function.update_of_ne hne']
    exact ⟨htopic, hmode, hkeys⟩

theorem Consistent.found_of_removed (h : map.Consistent) {link : EntryLink}
    (hremoved : Removed map key link map') {key' : Nat}
    (hkey' : map'.keys key' = some ⟨topic, mode⟩) :
    ∃ subs sub, map'.entries mode topic = some subs ∧ subs.filter (·.key = key') = [sub] := by
  obtain ⟨before, old, after, hold, hkey, -, hentries⟩ := hremoved.entries_eq
  rw [hremoved.keys_eq] at hkey'
  have hne : key' ≠ key := by
    intro heq
    rw [heq, Function.update_self] at hkey'
    contradiction
  rw [Function.update_of_ne hne] at hkey'
  obtain ⟨subs, sub, hsubs, hfilter⟩ := h.found key' topic mode hkey'
  rw [hentries]
  split
  . next hplace =>
    obtain ⟨rfl, rfl⟩ := hplace
    rw [hold] at hsubs
    injection hsubs with hsubs
    subst hsubs
    refine ⟨_, sub, rfl, ?_⟩
    rw [List.filter_append, List.filter_cons_of_neg] at hfilter
    . rwa [List.filter_append]
    . rw [hkey, decide_eq_true_eq]
      exact Ne.symm hne
  . exact ⟨subs, sub, hsubs, hfilter⟩

theorem Inv.removed (h : map.Inv) {link : EntryLink} (hkey : map.keys key = some link)
    (hremoved : Removed map key link map') (hseq : map'.seq = map.seq.release key) : map'.Inv := by
  refine ⟨⟨?_, ?_⟩, ?_⟩
  . intro mode topic subs hsubs sub hmem
    exact h.stored_of_removed hkey hremoved hsubs hmem
  . intro key' topic mode hkey'
    exact h.found_of_removed hremoved hkey'
  . rw [hseq, hremoved.keys_eq]
    apply Sequence.Valid.erase
    apply h.valid.release
    rw [hkey]
    exact Option.some_ne_none _

theorem Inv.unsubscribe (h : map.Inv) (key : Nat) : (map.unsubscribe key).2.Inv := by
  cases hkey : map.keys key with
  | none =>
    rw [unsubscribe_of_none hkey]
    exact h
  | some link =>
    obtain ⟨-, hremoved, hseq⟩ := h.toConsistent.unsubscribe hkey
    exact h.removed hkey hremoved hseq

/-!
### Live subscriptions
-/

def Live (map : SubMap α) (sub : Sub α) : Prop :=
  ∃ subs, map.entries sub.mode sub.topic = some subs ∧ sub ∈ subs

variable {sub sub' : Sub α}

theorem Consistent.live_of_mem (h : map.Consistent)
    (hmem : sub ∈ (map.entries mode topic).getD []) :
    map.Live sub ∧ sub.mode = mode ∧ sub.topic = topic := by
  obtain ⟨rfl, rfl, -⟩ := h.of_mem hmem
  exact ⟨exists_of_mem_getD hmem, rfl, rfl⟩

theorem Consistent.keys_of_live (h : map.Consistent) (hlive : map.Live sub) :
    map.keys sub.key = some ⟨sub.topic, sub.mode⟩ := by
  obtain ⟨subs, hsubs, hmem⟩ := hlive
  exact (h.stored _ _ subs hsubs sub hmem).2.2

theorem Consistent.filter_key (h : map.Consistent) (hlive : map.Live sub) :
    ((map.entries sub.mode sub.topic).getD []).filter (·.key = sub.key) = [sub] := by
  obtain ⟨subs, sub', hsubs, hfilter⟩ := h.found _ _ _ (h.keys_of_live hlive)
  obtain ⟨subs', hsubs', hmem⟩ := hlive
  rw [hsubs] at hsubs'
  injection hsubs' with hsubs'
  subst hsubs'
  have hmem' : sub ∈ subs.filter (·.key = sub.key) := List.mem_filter.mpr ⟨hmem, by simp⟩
  rw [hfilter, List.mem_singleton] at hmem'
  subst hmem'
  rw [hsubs]
  exact hfilter

theorem Consistent.eq_of_key (h : map.Consistent) (hlive : map.Live sub) (hlive' : map.Live sub')
    (hkey : sub'.key = sub.key) : sub' = sub := by
  have hlink := h.keys_of_live hlive'
  rw [hkey, h.keys_of_live hlive] at hlink
  injection hlink with hlink
  injection hlink with htopic hmode
  obtain ⟨subs, hsubs, hmem⟩ := hlive'
  have hfilter := h.filter_key hlive
  rw [htopic, hmode, hsubs, Option.getD_some] at hfilter
  have hmem' : sub' ∈ subs.filter (·.key = sub.key) := List.mem_filter.mpr ⟨hmem, by simp [hkey]⟩
  rw [hfilter] at hmem'
  exact List.mem_singleton.mp hmem'

theorem Subscribed.live_iff (hsub : Subscribed map topic action mode key map') :
    map'.Live sub ↔ map.Live sub ∨ sub = ⟨key, topic, action, mode⟩ := by
  unfold Live
  rw [hsub.entries_eq]
  split
  . next heq =>
    obtain ⟨hmode, htopic⟩ := heq
    rw [hmode, htopic]
    simp only [Option.some.injEq, exists_eq_left', List.mem_append, List.mem_singleton]
    apply or_congr_left
    cases map.entries mode topic <;> simp
  . next hne =>
    rw [or_iff_left]
    rintro rfl
    exact hne ⟨rfl, rfl⟩

theorem Removed.live_iff {link : EntryLink} (h : map.Consistent)
    (hremoved : Removed map key link map') : map'.Live sub ↔ map.Live sub ∧ sub.key ≠ key := by
  obtain ⟨before, old, after, hsubs, hold, hne, hentries⟩ := hremoved.entries_eq
  unfold Live
  rw [hentries]
  split
  . next heq =>
    rw [heq.1, heq.2, hsubs]
    simp only [Option.some.injEq, exists_eq_left', List.mem_append, List.mem_cons]
    constructor
    . intro hmem
      exact ⟨hmem.imp_right Or.inr, hne sub (List.mem_append.mpr hmem)⟩
    . rintro ⟨hmem | rfl | hmem, hkey⟩
      . exact Or.inl hmem
      . exact absurd hold hkey
      . exact Or.inr hmem
  . next hplace =>
    rw [iff_self_and]
    rintro ⟨subs, hsubs', hmem⟩ hkey
    have hlink := (h.stored _ _ subs hsubs' sub hmem).2.2
    have hold' := (h.stored _ _ _ hsubs old (by simp)).2.2
    rw [hkey, ← hold, hold'] at hlink
    injection hlink with hlink
    injection hlink with htopic hmode
    exact hplace ⟨hmode.symm, htopic.symm⟩

/-!
### Lookups
-/

-- The subscriptions that are found under a topic.
def lookup (map : SubMap α) (mode : Mode) (topic : Topic) : List (Sub α) :=
  if topic.isValid then (map.entries mode topic).getD [] else []

theorem Consistent.mem_lookup_iff (h : map.Consistent) :
    sub ∈ map.lookup mode topic
      ↔
    map.Live sub ∧ sub.mode = mode ∧ sub.topic = topic ∧ topic.isValid = true := by
  unfold lookup
  constructor
  . intro hmem
    split at hmem
    . next hvalid =>
      obtain ⟨hlive, hmode, htopic⟩ := h.live_of_mem hmem
      exact ⟨hlive, hmode, htopic, hvalid⟩
    . contradiction
  . rintro ⟨⟨subs, hsubs, hmem⟩, rfl, rfl, hvalid⟩
    rw [if_pos hvalid, hsubs]
    exact hmem

theorem Consistent.filter_lookup (h : map.Consistent) (hlive : map.Live sub)
    (hvalid : sub.topic.isValid = true) (topic : Topic) :
    (map.lookup sub.mode topic).filter (·.key = sub.key)
      = if topic = sub.topic then [sub] else [] := by
  split
  . next htopic =>
    unfold lookup
    rw [htopic, if_pos hvalid]
    exact h.filter_key hlive
  . next htopic =>
    rw [List.filter_eq_nil_iff]
    intro sub' hmem hkey
    obtain ⟨hlive', -, htopic', -⟩ := h.mem_lookup_iff.mp hmem
    rw [h.eq_of_key hlive hlive' (of_decide_eq_true hkey)] at htopic'
    exact htopic htopic'.symm

-- Each lookup of its topic finds a live subscription once more.
theorem Consistent.filter_lookups (h : map.Consistent) (hlive : map.Live sub)
    (hvalid : sub.topic.isValid = true) (topics : List Topic) :
    (topics.flatMap (map.lookup sub.mode)).filter (·.key = sub.key)
      = List.replicate (topics.count sub.topic) sub := by
  induction topics with
  | nil => rfl
  | cons topic topics ih =>
    rw [List.flatMap_cons, List.filter_append, ih, h.filter_lookup hlive hvalid]
    by_cases htopic : topic = sub.topic
    . rw [if_pos htopic, htopic, List.count_cons_self, List.replicate_succ]
      rfl
    . rw [if_neg htopic, List.count_cons_of_ne htopic]
      rfl

theorem inv_step {e : Event α} (h : map.Inv) (hstep : step map e = some map') : map'.Inv := by
  unfold step at hstep
  cases e with
  | subscribe topic action mode =>
    dsimp only at hstep
    split at hstep
    . injection hstep with hstep
      exact hstep ▸ h
    . next hsub =>
      injection hstep with hstep
      exact hstep ▸ h.subscribed (subscribed hsub)
  | unsubscribe key =>
    injection hstep with hstep
    exact hstep ▸ h.unsubscribe key

theorem inv_of_reachable (h : (machine α).Reachable map) : map.Inv :=
  Machine.inv_of_reachable Inv inv_ctor (fun _ _ _ hinv hstep => inv_step hinv hstep) h

theorem exists_subscribe {key : Nat} {seq : Sequence} (hnext : map.seq.next = some (key, seq))
    (topic : Topic) (action : α) (mode : Mode) :
    ∃ map', map.subscribe topic action mode = some (key, map')
      ∧ (machine α).run map [.subscribe topic action mode] = some map' := by
  have hsub : ∃ map', map.subscribe topic action mode = some (key, map') := by
    unfold subscribe
    rw [hnext]
    exact ⟨_, rfl⟩
  obtain ⟨map', hmap'⟩ := hsub
  refine ⟨map', hmap', ?_⟩
  simp only [Machine.run, machine, step, hmap']
  rfl

theorem room_ctor : (ctor : SubMap α).seq.room = maxKey - 1 := by
  rw [ctor, Sequence.room_ctor]

-- The key does not depend on what is subscribed, so that a callback may know its own.
theorem Inv.exists_subscribe (h : map.Inv) (hroom : 0 < map.seq.room) :
    ∃ key, ∀ (topic : Topic) (action : α) (mode : Mode), ∃ map',
      map.subscribe topic action mode = some (key, map')
        ∧ map'.seq.room + 1 = map.seq.room
        ∧ (machine α).run map [.subscribe topic action mode] = some map' := by
  obtain ⟨key, seq, hnext, hseq⟩ := h.valid.exists_next hroom
  refine ⟨key, ?_⟩
  intro topic action mode
  obtain ⟨map', hmap', hrun⟩ := SubMap.exists_subscribe hnext topic action mode
  have hnext' := (SubMap.subscribed hmap').next
  rw [hnext] at hnext'
  injection hnext' with hnext'
  injection hnext' with _ heq
  exact ⟨map', hmap', heq ▸ hseq, hrun⟩

theorem exists_subscribe_of_reachable (h : (machine α).Reachable map) (hroom : 0 < map.seq.room) :
    ∃ key, ∀ (topic : Topic) (action : α) (mode : Mode), ∃ map',
      map.subscribe topic action mode = some (key, map')
        ∧ map'.seq.room + 1 = map.seq.room ∧ (machine α).Reachable map' := by
  obtain ⟨key, hsubscribe⟩ := (inv_of_reachable h).exists_subscribe hroom
  obtain ⟨es, hes⟩ := h
  refine ⟨key, ?_⟩
  intro topic action mode
  obtain ⟨map', hmap', hroom', hrun⟩ := hsubscribe topic action mode
  refine ⟨map', hmap', hroom', es ++ [.subscribe topic action mode], ?_⟩
  rw [Machine.run_append, hes]
  exact hrun

theorem exists_subscribe_ctor :
    ∃ key, ∀ (topic : Topic) (action : α) (mode : Mode), ∃ map,
      (ctor : SubMap α).subscribe topic action mode = some (key, map)
        ∧ map.seq.room + 1 = maxKey - 1 ∧ (machine α).Reachable map := by
  have hctor : (machine α).Reachable ctor := ⟨[], rfl⟩
  rw [← @room_ctor α]
  apply exists_subscribe_of_reachable hctor
  rw [room_ctor]
  decide

/--
Entries and keys agree, and an unsubscribe takes away what has the key and nothing else.
-/
theorem consistent_of_reachable (h : (machine α).Reachable map) :
    Consistent map
      ∧ (∀ key, map.keys key = none → map.unsubscribe key = (false, map))
      ∧ ∀ key link, map.keys key = some link →
        (map.unsubscribe key).1 = true ∧ Removed map key link (map.unsubscribe key).2 := by
  have hinv := inv_of_reachable h
  refine ⟨hinv.toConsistent, fun _ => unsubscribe_of_none, ?_⟩
  intro key link hkey
  obtain ⟨htrue, hremoved, -⟩ := hinv.toConsistent.unsubscribe hkey
  exact ⟨htrue, hremoved⟩

theorem exists_step (map : SubMap α) (e : Event α) : ∃ map', (machine α).step map e = some map' := by
  unfold machine step
  cases e with
  | subscribe topic action mode =>
    dsimp only
    split <;> exact ⟨_, rfl⟩
  | unsubscribe key => exact ⟨_, rfl⟩

theorem consistent_of_reachable_subscribe :
    ∃ map, (machine Unit).run ctor [.subscribe (Topic.ofParts 1 2) () .delayed, .unsubscribe 1] = some map
      ∧ Consistent map := by
  obtain ⟨map, hrun⟩ := Machine.exists_run exists_step ctor
    [.subscribe (Topic.ofParts 1 2) () .delayed, .unsubscribe 1]
  exact ⟨map, hrun, (consistent_of_reachable ⟨_, hrun⟩).1⟩

end SubMap
end Lax
