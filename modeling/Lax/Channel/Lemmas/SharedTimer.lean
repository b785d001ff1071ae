import Lax.Channel.Impl.SharedTimer
import Lax.Channel.Lemmas.Timer
import Lax.Foundation.Cells

/-!
This module contains how the map of requests, the slots and the pool of ids of a timer stay in step while
actions call it back.
-/

namespace Lax
namespace SharedTimer

open Timer (Req)

variable {ω : Type} {t : SharedTimer ω} {held : List Nat} {p : Nat} {r : Req (TimerAction ω)}
  {pq : KeyedQueue Nat ℚ}

def queued (t : SharedTimer ω) : List Nat :=
  t.slots.flatMap (·.queue)

/-!
### Objects
-/

-- The objects have their ids from the pool, each of them its own.
structure Objs (objs : Nat → Option (Req (TimerAction ω))) (fresh : Nat) (seq : Sequence) : Prop where
  ids : ∀ p q r r', objs p = some r → objs q = some r' → r.id = r'.id → p = q
  lt_fresh : ∀ p r, objs p = some r → p < fresh
  taken : ∃ taken, seq.Valid taken ∧ ∀ p r, objs p = some r → taken r.id

namespace Objs

variable {objs : Nat → Option (Req (TimerAction ω))} {fresh : Nat} {seq : Sequence}

theorem release (h : Objs objs fresh seq) (hobj : objs p = some r) :
    Objs (Function.update objs p none) fresh (r.release seq) := by
  have hother : ∀ q r', Function.update objs p none q = some r' → q ≠ p ∧ objs q = some r' := by
    intro q r' hq
    by_cases heq : q = p
    . rw [heq, Function.update_self] at hq
      contradiction
    . rw [Function.update_of_ne heq] at hq
      exact ⟨heq, hq⟩
  constructor
  . intro q q' r' r'' hq hq'
    exact h.ids q q' r' r'' (hother q r' hq).2 (hother q' r'' hq').2
  . intro q r' hq
    exact h.lt_fresh q r' (hother q r' hq).2
  . obtain ⟨taken, hvalid, htaken⟩ := h.taken
    unfold Req.release
    split
    . refine ⟨_, hvalid.release (htaken p r hobj), ?_⟩
      intro q r' hq
      obtain ⟨hne, hq⟩ := hother q r' hq
      exact ⟨fun hid => hne (h.ids q p r' r hq hobj hid), htaken q r' hq⟩
    . exact ⟨taken, hvalid, fun q r' hq => htaken q r' (hother q r' hq).2⟩

theorem modify (h : Objs objs fresh seq) (p : Nat) {f : Req (TimerAction ω) → Req (TimerAction ω)}
    (hf : ∀ r, (f r).id = r.id) : Objs (Function.update objs p ((objs p).map f)) fresh seq := by
  have hsame : ∀ q r', Function.update objs p ((objs p).map f) q = some r' →
      ∃ r'', objs q = some r'' ∧ r''.id = r'.id := by
    intro q r' hq
    by_cases heq : q = p
    . subst heq
      rw [Function.update_self, Option.map_eq_some_iff] at hq
      obtain ⟨r'', hobj, rfl⟩ := hq
      exact ⟨r'', hobj, (hf r'').symm⟩
    . rw [Function.update_of_ne heq] at hq
      exact ⟨r', hq, rfl⟩
  constructor
  . intro q q' r' r'' hq hq' hid
    obtain ⟨s, hs, hsid⟩ := hsame q r' hq
    obtain ⟨s', hs', hsid'⟩ := hsame q' r'' hq'
    apply h.ids q q' s s' hs hs'
    rw [hsid, hsid', hid]
  . intro q r' hq
    obtain ⟨s, hs, -⟩ := hsame q r' hq
    exact h.lt_fresh q s hs
  . obtain ⟨taken, hvalid, htaken⟩ := h.taken
    refine ⟨taken, hvalid, ?_⟩
    intro q r' hq
    obtain ⟨s, hs, hsid⟩ := hsame q r' hq
    rw [← hsid]
    exact htaken q s hs

theorem id_ne (h : Objs objs fresh seq) {id : Nat} {seq' : Sequence}
    (hnext : seq.next = some (id, seq')) (hobj : objs p = some r) : r.id ≠ id := by
  obtain ⟨taken, hvalid, htaken⟩ := h.taken
  rintro rfl
  exact (hvalid.next hnext).fresh (htaken p r hobj)

theorem next (h : Objs objs fresh seq) {id : Nat} {seq' : Sequence}
    (hnext : seq.next = some (id, seq')) (hid : r.id = id) :
    Objs (Function.update objs fresh (some r)) (fresh + 1) seq' := by
  obtain ⟨taken, hvalid, htaken⟩ := h.taken
  have hcases : ∀ q r', Function.update objs fresh (some r) q = some r' →
      (q = fresh ∧ r'.id = id) ∨ (objs q = some r' ∧ r'.id ≠ id) := by
    intro q r' hq
    by_cases heq : q = fresh
    . rw [heq, Function.update_self] at hq
      cases hq
      exact Or.inl ⟨heq, hid⟩
    . rw [Function.update_of_ne heq] at hq
      exact Or.inr ⟨hq, h.id_ne hnext hq⟩
  constructor
  . intro q q' r' r'' hq hq' hsame
    obtain ⟨rfl, hid'⟩ | ⟨hobj, hne⟩ := hcases q r' hq
    . obtain ⟨rfl, -⟩ | ⟨-, hne'⟩ := hcases q' r'' hq'
      . rfl
      . exact absurd (hsame.symm.trans hid') hne'
    . obtain ⟨rfl, hid'⟩ | ⟨hobj', -⟩ := hcases q' r'' hq'
      . exact absurd (hsame.trans hid') hne
      . exact h.ids q q' r' r'' hobj hobj' hsame
  . intro q r' hq
    obtain ⟨rfl, -⟩ | ⟨hobj, -⟩ := hcases q r' hq
    . apply Nat.lt_succ_self
    . exact Nat.lt_succ_of_lt (h.lt_fresh q r' hobj)
  . refine ⟨_, (hvalid.next hnext).valid, ?_⟩
    intro q r' hq
    obtain ⟨-, hid'⟩ | ⟨hobj, -⟩ := hcases q r' hq
    . exact Or.inl hid'
    . exact Or.inr (htaken q r' hobj)

end Objs

/-!
### The map of requests
-/

theorem mem_eraseP_iff {reqs : List (Nat × Nat)} (hkeys : (reqs.map Prod.fst).Nodup) (id : Nat)
    (entry : Nat × Nat) :
    entry ∈ reqs.eraseP (fun entry => entry.1 = id) ↔ entry ∈ reqs ∧ entry.1 ≠ id := by
  induction reqs with
  | nil => simp
  | cons first reqs ih =>
    rw [List.map_cons, List.nodup_cons] at hkeys
    by_cases hfirst : first.1 = id
    . rw [List.eraseP_cons_of_pos (by simpa using hfirst), List.mem_cons]
      constructor
      . intro hentry
        refine ⟨Or.inr hentry, ?_⟩
        intro hid
        apply hkeys.1
        rw [hfirst, ← hid]
        exact List.mem_map_of_mem hentry
      . rintro ⟨rfl | hentry, hid⟩
        . exact absurd hfirst hid
        . exact hentry
    . rw [List.eraseP_cons_of_neg (by simpa using hfirst), List.mem_cons, List.mem_cons, ih hkeys.2]
      constructor
      . rintro (rfl | ⟨hentry, hid⟩)
        . exact ⟨Or.inl rfl, hfirst⟩
        . exact ⟨Or.inr hentry, hid⟩
      . rintro ⟨rfl | hentry, hid⟩
        . exact Or.inl rfl
        . exact Or.inr ⟨hentry, hid⟩

theorem emplace_eq {id : Nat} (h : t.find id = none) (p : Nat) :
    t.emplace id p = { t with reqs := (id, p) :: t.reqs } := by
  unfold emplace
  rw [h]

theorem find_emplace {id : Nat} (h : t.find id = none) (p : Nat) : (t.emplace id p).find id = some p := by
  rw [emplace_eq h]
  apply List.lookup_cons_self

theorem mem_of_find {id : Nat} (h : t.find id = some p) : (id, p) ∈ t.reqs := by
  obtain ⟨before, after, hreqs, -⟩ := List.lookup_eq_some_iff.mp h
  rw [hreqs]
  simp

theorem not_mem_of_find {id : Nat} (h : t.find id = none) : (id, p) ∉ t.reqs := by
  intro hmem
  simpa using List.lookup_eq_none_iff.mp h (id, p) hmem

-- The members are in a slot, or have been taken out of one to be run.
structure Tables (objs : Nat → Option (Req (TimerAction ω))) (reqs : List (Nat × Nat))
    (members : List Nat) : Prop where
  nodup : members.Nodup
  keys : (reqs.map Prod.fst).Nodup
  known : ∀ id p, (id, p) ∈ reqs →
    p ∈ members ∧ ∃ r, objs p = some r ∧ r.id = id ∧ r.cancel = false
  found : ∀ p ∈ members, ∃ r, objs p = some r ∧ (r.cancel = false → (r.id, p) ∈ reqs)

namespace Tables

variable {objs : Nat → Option (Req (TimerAction ω))} {reqs : List (Nat × Nat)} {members : List Nat}

theorem perm (h : Tables objs reqs members) {members' : List Nat} (hperm : members.Perm members') :
    Tables objs reqs members' := by
  constructor
  . exact hperm.nodup_iff.mp h.nodup
  . exact h.keys
  . intro id p hmem
    rw [← hperm.mem_iff]
    exact h.known id p hmem
  . intro p hp
    exact h.found p (hperm.mem_iff.mpr hp)

-- Nobody has to know what an object was that is not a member.
theorem congr (h : Tables objs reqs members) {objs' : Nat → Option (Req (TimerAction ω))}
    (hobjs : ∀ p ∈ members, ∀ r, objs p = some r →
      ∃ r', objs' p = some r' ∧ r'.id = r.id ∧ r'.cancel = r.cancel) :
    Tables objs' reqs members := by
  constructor
  . exact h.nodup
  . exact h.keys
  . intro id p hmem
    obtain ⟨hp, r, hobj, hid, hcancel⟩ := h.known id p hmem
    obtain ⟨r', hobj', hid', hcancel'⟩ := hobjs p hp r hobj
    exact ⟨hp, r', hobj', hid'.trans hid, hcancel'.trans hcancel⟩
  . intro p hp
    obtain ⟨r, hobj, hreqs⟩ := h.found p hp
    obtain ⟨r', hobj', hid, hcancel⟩ := hobjs p hp r hobj
    refine ⟨r', hobj', ?_⟩
    rw [hid, hcancel]
    exact hreqs

theorem release (h : Tables objs reqs members) (hp : p ∉ members) :
    Tables (Function.update objs p none) reqs members := by
  apply h.congr
  intro q hq r hobj
  have hne : q ≠ p := fun heq => hp (heq ▸ hq)
  rw [Function.update_of_ne hne]
  exact ⟨r, hobj, rfl, rfl⟩

theorem modify (h : Tables objs reqs members) (p : Nat) {f : Req (TimerAction ω) → Req (TimerAction ω)}
    (hid : ∀ r, (f r).id = r.id) (hcancel : ∀ r, (f r).cancel = r.cancel) :
    Tables (Function.update objs p ((objs p).map f)) reqs members := by
  apply h.congr
  intro q hq r hobj
  by_cases heq : q = p
  . subst heq
    rw [Function.update_self, hobj]
    exact ⟨f r, rfl, hid r, hcancel r⟩
  . rw [Function.update_of_ne heq]
    exact ⟨r, hobj, rfl, rfl⟩

-- Who is known after one has been forgotten.
theorem known_erase (h : Tables objs reqs members) {id id' q : Nat} (hmem : (id, p) ∈ reqs)
    (hmem' : (id', q) ∈ reqs.eraseP fun entry => entry.1 = id) :
    q ≠ p ∧ q ∈ members ∧ ∃ r, objs q = some r ∧ r.id = id' ∧ r.cancel = false := by
  obtain ⟨-, r, hobj, hid, -⟩ := h.known id p hmem
  rw [mem_eraseP_iff h.keys] at hmem'
  obtain ⟨hq, r', hobj', hid', hcancel⟩ := h.known id' q hmem'.1
  refine ⟨?_, hq, r', hobj', hid', hcancel⟩
  rintro rfl
  rw [hobj] at hobj'
  cases hobj'
  exact hmem'.2 (hid'.symm.trans hid)

theorem found_erase (h : Tables objs reqs members) {id q : Nat} (hmem : (id, p) ∈ reqs)
    (hq : q ∈ members) (hne : q ≠ p) :
    ∃ r, objs q = some r ∧ (r.cancel = false → (r.id, q) ∈ reqs.eraseP fun entry => entry.1 = id) := by
  obtain ⟨r, hobj, hreqs⟩ := h.found q hq
  refine ⟨r, hobj, ?_⟩
  intro hcancel
  rw [mem_eraseP_iff h.keys]
  refine ⟨hreqs hcancel, ?_⟩
  intro hid
  apply hne
  exact congrArg Prod.snd (List.inj_on_of_nodup_map h.keys (hreqs hcancel) hmem hid)

theorem cancel (h : Tables objs reqs members) {id : Nat} (hmem : (id, p) ∈ reqs) :
    Tables (Function.update objs p ((objs p).map fun r => { r with cancel := true }))
      (reqs.eraseP fun entry => entry.1 = id) members := by
  constructor
  . exact h.nodup
  . exact h.keys.sublist (List.eraseP_sublist.map _)
  . intro id' q hmem'
    obtain ⟨hne, hq⟩ := h.known_erase hmem hmem'
    rwa [Function.update_of_ne hne]
  . intro q hq
    by_cases heq : q = p
    . subst heq
      obtain ⟨r, hobj, -⟩ := h.found q hq
      rw [Function.update_self, hobj]
      refine ⟨_, rfl, ?_⟩
      intro hcancel
      contradiction
    . rw [Function.update_of_ne heq]
      exact h.found_erase hmem hq heq

theorem drop (h : Tables objs reqs (p :: members)) (hobj : objs p = some r) (hcancel : r.cancel = true) :
    Tables objs reqs members := by
  constructor
  . exact h.nodup.of_cons
  . exact h.keys
  . intro id q hmem
    obtain ⟨hq, r', hobj', hid, hcancel'⟩ := h.known id q hmem
    refine ⟨List.mem_of_ne_of_mem ?_ hq, r', hobj', hid, hcancel'⟩
    rintro rfl
    rw [hobj] at hobj'
    cases hobj'
    rw [hcancel] at hcancel'
    contradiction
  . intro q hq
    exact h.found q (List.mem_cons_of_mem p hq)

theorem remove (h : Tables objs reqs (p :: members)) {id : Nat} (hmem : (id, p) ∈ reqs) :
    Tables objs (reqs.eraseP fun entry => entry.1 = id) members := by
  have hp := (List.nodup_cons.mp h.nodup).1
  constructor
  . exact h.nodup.of_cons
  . exact h.keys.sublist (List.eraseP_sublist.map _)
  . intro id' q hmem'
    obtain ⟨hne, hq, hobj⟩ := h.known_erase hmem hmem'
    exact ⟨List.mem_of_ne_of_mem hne hq, hobj⟩
  . intro q hq
    apply h.found_erase hmem (List.mem_cons_of_mem p hq)
    rintro rfl
    exact hp hq

-- A new object gets to be known and becomes a member.
theorem insert (h : Tables objs reqs members) (hp : p ∉ members) (hid : ∀ q, (r.id, q) ∉ reqs)
    (hcancel : r.cancel = false) :
    Tables (Function.update objs p (some r)) ((r.id, p) :: reqs) (p :: members) := by
  have hother : ∀ q ∈ members, Function.update objs p (some r) q = objs q := by
    intro q hq
    apply Function.update_of_ne
    rintro rfl
    exact hp hq
  constructor
  . exact List.nodup_cons.mpr ⟨hp, h.nodup⟩
  . rw [List.map_cons, List.nodup_cons]
    refine ⟨?_, h.keys⟩
    intro hmem
    obtain ⟨⟨id, q⟩, hmem, rfl⟩ := List.mem_map.mp hmem
    exact hid q hmem
  . intro id q hmem
    obtain heq | hmem := List.mem_cons.mp hmem
    . cases heq
      rw [Function.update_self]
      exact ⟨List.mem_cons_self, r, rfl, rfl, hcancel⟩
    . obtain ⟨hq, hobj⟩ := h.known id q hmem
      rw [hother q hq]
      exact ⟨List.mem_cons_of_mem p hq, hobj⟩
  . intro q hq
    obtain rfl | hq := List.mem_cons.mp hq
    . rw [Function.update_self]
      exact ⟨r, rfl, fun _ => List.mem_cons_self⟩
    . obtain ⟨r', hobj, hreqs⟩ := h.found q hq
      rw [hother q hq]
      exact ⟨r', hobj, fun hcancel => List.mem_cons_of_mem _ (hreqs hcancel)⟩

end Tables

/-!
### What every call keeps
-/

def Fronts (t : SharedTimer ω) : Prop :=
  ∀ sl ∈ t.slots, FrontGreatest t.nextRunTick sl.queue

-- An object in `held` has been taken out of its slot and is the one that is running.
structure Good (t : SharedTimer ω) (held : List (Nat × Nat)) : Prop where
  objs : Objs t.objs t.fresh t.seq
  tables : Tables t.objs t.reqs (held.map Prod.fst ++ t.queued)
  held : ∀ entry ∈ held, t.running = some entry.1 ∧ ∃ r, t.objs entry.1 = some r ∧ r.id = entry.2
  fronts : t.Fronts

theorem mem_queued {sl : Slot} (hsl : sl ∈ t.slots) (hp : p ∈ sl.queue) : p ∈ t.queued :=
  List.mem_flatMap.mpr ⟨sl, hsl, hp⟩

theorem Fronts.congr {t' : SharedTimer ω} (h : t.Fronts) (hslots : t'.slots = t.slots)
    (hkey : ∀ p ∈ t.queued, t'.nextRunTick p = t.nextRunTick p) : t'.Fronts := by
  intro sl hsl
  rw [hslots] at hsl
  apply (h sl hsl).congr
  intro p hp
  exact hkey p (mem_queued hsl hp)

theorem nextRunTick_congr {t' : SharedTimer ω} (hobj : t'.objs p = t.objs p) :
    t'.nextRunTick p = t.nextRunTick p := by
  unfold nextRunTick
  rw [hobj]

theorem nextRunTick_modify {f : Req (TimerAction ω) → Req (TimerAction ω)}
    (hf : ∀ r, (f r).nextRunTick = r.nextRunTick) (q : Nat) :
    (t.modify p f).nextRunTick q = t.nextRunTick q := by
  by_cases heq : q = p
  . subst heq
    unfold nextRunTick
    rw [objs_modify_self]
    cases t.objs q with
    | none => rfl
    | some r => exact hf r
  . exact nextRunTick_congr (objs_modify_of_ne t heq f)

theorem exists_objs_modify {q id : Nat} (h : ∃ r, t.objs q = some r ∧ r.id = id) (p : Nat)
    {f : Req (TimerAction ω) → Req (TimerAction ω)} (hid : ∀ r, (f r).id = r.id) :
    ∃ r, (t.modify p f).objs q = some r ∧ r.id = id := by
  obtain ⟨r, hobj, rfl⟩ := h
  by_cases heq : q = p
  . subst heq
    rw [objs_modify_self, hobj]
    exact ⟨f r, rfl, hid r⟩
  . rw [objs_modify_of_ne t heq]
    exact ⟨r, hobj, rfl⟩

@[simp]
theorem running_collect (t : SharedTimer ω) (p : Nat) : (t.collect p).running = t.running := by
  unfold collect
  split
  . rfl
  . split <;> rfl

@[simp]
theorem running_assign (t : SharedTimer ω) (e : Option Nat) : (t.assign e).running = e := by
  unfold assign
  split
  . rfl
  . apply running_collect

theorem not_mem_of_not_referenced (h : ¬t.referenced p = true) :
    p ∉ t.queued ∧ t.running ≠ some p := by
  unfold referenced at h
  simp only [Bool.or_eq_true, List.any_eq_true, decide_eq_true_eq, not_or] at h
  refine ⟨?_, h.2⟩
  intro hp
  obtain ⟨sl, hsl, hp⟩ := List.mem_flatMap.mp hp
  exact h.1.2 ⟨sl, hsl, hp⟩

theorem fronts_modify_slots (h : t.Fronts) (i : Nat) {g : Slot → Slot}
    (hg : ∀ sl, FrontGreatest t.nextRunTick sl.queue → FrontGreatest t.nextRunTick (g sl).queue) :
    ∀ sl ∈ t.slots.modify i g, FrontGreatest t.nextRunTick sl.queue := by
  apply Cells.forall_mem_modify h
  exact fun sl hsl => hg sl (h sl (List.mem_of_getElem? hsl))

theorem queued_pop {i : Nat} (htop : t.top i = some p) :
    t.queued.Perm (p :: (t.pop pq i).queued) := by
  obtain ⟨sl, l, hsl, hqueue⟩ := top_eq_some htop
  obtain ⟨rest, hqueued, hpop⟩ := Cells.exists_perm_flatMap_modify (·.queue)
    (fun sl : Slot => { sl with queue := pq.pop t.nextRunTick sl.queue }) hsl
  rw [hqueue, List.cons_append] at hqueued
  apply hqueued.trans
  apply List.Perm.cons
  apply List.Perm.trans _ hpop.symm
  exact (pq.pop_perm _ _ _ _ hqueue).symm.append_right rest

theorem flatMap_push (pq : KeyedQueue Nat ℚ) (key : Nat → ℚ) {slots : List Slot} {i : Nat}
    (hi : i < slots.length) (p : Nat) :
    (p :: slots.flatMap (·.queue)).Perm
      ((slots.modify i fun sl => { sl with queue := pq.push key sl.queue p }).flatMap (·.queue)) := by
  obtain ⟨rest, hslots, hpush⟩ := Cells.exists_perm_flatMap_modify (·.queue)
    (fun sl : Slot => { sl with queue := pq.push key sl.queue p }) (List.getElem?_eq_getElem hi)
  apply List.Perm.trans _ hpush.symm
  apply (hslots.cons p).trans
  rw [← List.cons_append]
  exact (pq.push_perm _ _ _).symm.append_right rest

theorem Fronts.pop (h : t.Fronts) (pq : KeyedQueue Nat ℚ) (i : Nat) : (t.pop pq i).Fronts := by
  apply fronts_modify_slots h
  intro sl
  apply pq.pop_front

theorem Fronts.push (h : t.Fronts) (pq : KeyedQueue Nat ℚ) (i p : Nat) : (t.push pq i p).Fronts := by
  apply fronts_modify_slots h
  intro sl
  apply pq.push_front

namespace Good

variable {held : List (Nat × Nat)} {id : Nat}

theorem collect (h : Good t held) (p : Nat) : Good (t.collect p) held := by
  unfold SharedTimer.collect
  split
  . exact h
  . next href =>
    obtain ⟨hqueued, hrunning⟩ := not_mem_of_not_referenced href
    split
    . exact h
    . next r hobj =>
      have hheld : ∀ entry ∈ held, entry.1 ≠ p := by
        rintro entry hentry rfl
        exact hrunning (h.held entry hentry).1
      constructor
      . exact h.objs.release hobj
      . apply h.tables.release
        rw [List.mem_append, not_or]
        refine ⟨?_, hqueued⟩
        intro hp
        obtain ⟨entry, hentry, heq⟩ := List.mem_map.mp hp
        exact hheld entry hentry heq
      . intro entry hentry
        dsimp only
        rw [Function.update_of_ne (hheld entry hentry)]
        exact h.held entry hentry
      . apply h.fronts.congr
        . rfl
        . intro q hq
          apply nextRunTick_congr
          apply Function.update_of_ne
          rintro rfl
          exact hqueued hq

theorem note (h : Good t held) (entry : Log) : Good (t.note entry) held :=
  ⟨h.objs, h.tables, h.held, h.fronts⟩

theorem outside (h : Good t held) (w : ω) : Good { t with world := w } held :=
  ⟨h.objs, h.tables, h.held, h.fronts⟩

theorem assign (h : Good t []) (e : Option Nat) : Good (t.assign e) [] := by
  have hrunning : Good { t with running := e } [] :=
    ⟨h.objs, h.tables, by simp, h.fronts⟩
  unfold SharedTimer.assign
  split
  . exact hrunning
  . apply hrunning.collect

theorem modify (h : Good t held) (p : Nat) {f : Req (TimerAction ω) → Req (TimerAction ω)}
    (hid : ∀ r, (f r).id = r.id) (hcancel : ∀ r, (f r).cancel = r.cancel)
    (hfronts : (t.modify p f).Fronts) : Good (t.modify p f) held := by
  constructor
  . exact h.objs.modify p hid
  . exact h.tables.modify p hid hcancel
  . intro entry hentry
    obtain ⟨hrunning, hobj⟩ := h.held entry hentry
    exact ⟨hrunning, exists_objs_modify hobj p hid⟩
  . exact hfronts

theorem modify_of_nextRunTick (h : Good t held) (p : Nat)
    {f : Req (TimerAction ω) → Req (TimerAction ω)} (hid : ∀ r, (f r).id = r.id)
    (hcancel : ∀ r, (f r).cancel = r.cancel) (htick : ∀ r, (f r).nextRunTick = r.nextRunTick) :
    Good (t.modify p f) held := by
  apply h.modify p hid hcancel
  apply h.fronts.congr
  . rfl
  . intro q _
    exact nextRunTick_modify htick q

theorem lastRunTick (h : Good t held) (now : ℚ) (p : Nat) :
    Good (t.modify p fun r => { r with lastRunTick := now }) held := by
  apply h.modify_of_nextRunTick p
  . exact fun _ => rfl
  . exact fun _ => rfl
  . exact fun _ => rfl

theorem add (h : Good t held) (id : Nat) (act : TimerAction ω) : Good (t.add id act).2 held := by
  unfold SharedTimer.add
  split
  . exact h
  . next p _ =>
    apply h.modify_of_nextRunTick p
    . exact fun _ => rfl
    . exact fun _ => rfl
    . exact fun _ => rfl

theorem cancel (h : Good t held) (id : Nat) : Good (t.cancel id).2 held := by
  unfold SharedTimer.cancel
  split
  . exact h
  . next p hfind =>
    unfold erase
    apply Good.collect
    constructor
    . exact h.objs.modify p fun _ => rfl
    . exact h.tables.cancel (mem_of_find hfind)
    . intro entry hentry
      obtain ⟨hrunning, hobj⟩ := h.held entry hentry
      exact ⟨hrunning, exists_objs_modify hobj p fun _ => rfl⟩
    . apply h.fronts.congr
      . rfl
      . intro q _
        apply nextRunTick_modify (p := p)
        exact fun _ => rfl

theorem runScript (h : Good t held) (script : TimerScript ω) : Good (t.runScript script) held := by
  induction script generalizing t with
  | ret w => exact h.outside w
  | cancel id next ih =>
    apply ih
    exact h.cancel id
  | has id next ih =>
    apply ih
    exact h

theorem runActions (h : Good t held) (p id : Nat) (acts : List (TimerAction ω)) :
    Good (t.runActions p id acts) held := by
  induction acts generalizing t with
  | nil => exact h
  | cons act acts ih =>
    apply ih
    apply (h.note _).runScript

theorem runAt (h : Good t held) (now : ℚ) (p : Nat) (r : Req (TimerAction ω)) :
    Good (t.runAt now p r) held := by
  unfold SharedTimer.runAt SharedTimer.run
  apply modify_of_nextRunTick
  . apply runActions
    apply h.lastRunTick
  . exact fun _ => rfl
  . exact fun _ => rfl
  . exact fun _ => rfl

theorem pop (h : Good t []) {i : Nat} (htop : t.top i = some p) (hrunning : t.running = some p)
    (hobj : t.objs p = some r) : Good (t.pop pq i) [(p, r.id)] := by
  constructor
  . exact h.objs
  . exact h.tables.perm (queued_pop htop)
  . intro entry hentry
    rw [List.mem_singleton] at hentry
    rw [hentry]
    exact ⟨hrunning, r, hobj, rfl⟩
  . exact h.fronts.pop pq i

theorem push (h : Good t [(p, id)]) {i : Nat} (hi : i < t.slots.length) : Good (t.push pq i p) [] := by
  constructor
  . exact h.objs
  . exact h.tables.perm (flatMap_push pq _ hi p)
  . simp
  . exact h.fronts.push pq i p

theorem drop (h : Good t [(p, id)]) (hobj : t.objs p = some r) (hcancel : r.cancel = true) : Good t [] := by
  constructor
  . exact h.objs
  . exact h.tables.drop hobj hcancel
  . simp
  . exact h.fronts

theorem later (h : Good t [(p, id)]) (now : ℚ) : Good (t.later now p) [(p, id)] := by
  have hp := (List.nodup_cons.mp h.tables.nodup).1
  unfold SharedTimer.later
  apply h.modify p
  . exact fun _ => rfl
  . exact fun _ => rfl
  . apply h.fronts.congr
    . rfl
    . intro q hq
      apply nextRunTick_congr
      apply objs_modify_of_ne
      rintro rfl
      exact hp hq

theorem exists_held (h : Good t [(p, id)]) : ∃ r, t.objs p = some r ∧ r.id = id :=
  (h.held (p, id) (List.mem_singleton_self _)).2

theorem removeEndReq (h : Good t [(p, id)]) : Good (t.removeEndReq id) [] := by
  obtain ⟨r, hobj, hid⟩ := h.exists_held
  obtain ⟨r', hobj', hreqs⟩ := h.tables.found p List.mem_cons_self
  rw [hobj] at hobj'
  cases hobj'
  rw [hid] at hreqs
  unfold SharedTimer.removeEndReq
  split
  . next hfind =>
    -- It has cancelled itself.
    apply h.drop hobj
    rw [← Bool.not_eq_false]
    intro hcancel
    exact not_mem_of_find hfind (hreqs hcancel)
  . next q hfind =>
    obtain ⟨-, r', hobj', hid', -⟩ := h.tables.known id q (mem_of_find hfind)
    have heq : q = p := h.objs.ids q p r' r hobj' hobj (hid'.trans hid.symm)
    subst heq
    unfold erase
    apply Good.collect
    constructor
    . exact h.objs
    . exact h.tables.remove (mem_of_find hfind)
    . simp
    . exact h.fronts

end Good

/-!
### The operations
-/

theorem slots_assign (t : SharedTimer ω) (e : Option Nat) : (t.assign e).slots = t.slots :=
  (quiet_assign t e : Quiet 0 t (t.assign e)).slots_eq

theorem top_assign (t : SharedTimer ω) (e : Option Nat) (i : Nat) : (t.assign e).top i = t.top i := by
  unfold top
  rw [slots_assign]

theorem mem_queued_of_top {i : Nat} (h : t.top i = some p) : p ∈ t.queued := by
  obtain ⟨sl, l, hsl, hqueue⟩ := top_eq_some h
  apply mem_queued (List.mem_of_getElem? hsl)
  rw [hqueue]
  exact List.mem_cons_self

theorem Good.popped (h : Good t []) {i : Nat} (htop : t.top i = some p)
    (hobj : (t.assign (some p)).objs p = some r) :
    Good ((t.assign (some p)).pop pq i) [(p, r.id)] := by
  apply (h.assign (some p)).pop
  . rwa [top_assign]
  . apply running_assign
  . exact hobj

theorem lt_length_of_runAt {i : Nat} (htop : t.top i = some p) (now : ℚ) (r : Req (TimerAction ω)) :
    i < ((((t.assign (some p)).pop pq i).runAt now p r).later now p).slots.length := by
  obtain ⟨sl, l, hsl, -⟩ := top_eq_some htop
  have hslots := (quiet_runAt ((t.assign (some p)).pop pq i) now p r).slots_eq
  have hlater : ∀ t : SharedTimer ω, (t.later now p).slots = t.slots := fun _ => rfl
  rw [hlater, hslots]
  unfold SharedTimer.pop
  rw [List.length_modify, slots_assign]
  exact (List.getElem?_eq_some_iff.mp hsl).1

theorem good_updateReqs {now : ℚ} {i : Nat} (h : Good t []) :
    Good (t.updateReqs pq now i).2 [] ∧ (t.updateReqs pq now i).2.running = none := by
  fun_induction updateReqs pq now i t with
  | case1 t htop => exact ⟨h.assign none, running_assign t none⟩
  | case2 t p htop e hobj =>
    have hp : p ∈ e.queued := by
      apply mem_queued_of_top
      rwa [top_assign]
    obtain ⟨r, hr, -⟩ := (h.assign (some p)).tables.found p hp
    rw [hobj] at hr
    contradiction
  | case3 t p htop e r hobj hdue popped hcancel ih =>
    apply ih
    apply (h.popped htop hobj).drop hobj hcancel
  | case4 t p htop e r hobj hdue popped hcancel ran hagain ih =>
    apply ih
    apply (((h.popped htop hobj).runAt now p r).later now).push
    apply lt_length_of_runAt htop
  | case5 t p htop e r hobj hdue popped hcancel ran hagain ih =>
    apply ih
    apply ((h.popped htop hobj).runAt now p r).removeEndReq
  | case6 t p htop e r hobj hdue =>
    exact ⟨(h.assign (some p)).assign none, running_assign e none⟩

-- Between two calls nothing is running.
structure Idle (t : SharedTimer ω) : Prop where
  good : Good t []
  running : t.running = none

theorem Idle.collect (h : Idle t) (p : Nat) : Idle (t.collect p) :=
  ⟨h.good.collect p, (running_collect t p).trans h.running⟩

-- Slots may be added or change when they are looked at.
theorem Idle.slots (h : Idle t) {slots : List Slot} (hperm : t.queued.Perm (slots.flatMap (·.queue)))
    (hfronts : ∀ sl ∈ slots, FrontGreatest t.nextRunTick sl.queue) :
    Idle { t with slots := slots } := by
  refine ⟨?_, h.running⟩
  constructor
  . exact h.good.objs
  . exact h.good.tables.perm hperm
  . simp
  . exact hfronts

theorem queued_looked (t : SharedTimer ω) (now : ℚ) (i : Nat) :
    { t with slots := t.slots.modify i fun sl => { sl with lastRunTick := now } }.queued
      =
    t.queued := by
  unfold queued
  rw [List.flatMap_def, List.flatMap_def, Cells.map_modify_of_eq]
  exact fun _ => rfl

theorem Good.looked (h : Good t []) (now : ℚ) (i : Nat) :
    Good { t with slots := t.slots.modify i fun sl => { sl with lastRunTick := now } } [] := by
  constructor
  . exact h.objs
  . rw [queued_looked]
    exact h.tables
  . simp
  . apply fronts_modify_slots h.fronts
    exact fun _ h => h

theorem idle_updateSlot {now : ℚ} (h : Idle t) (i : Nat) : Idle (t.updateSlot pq now i).2 := by
  unfold updateSlot
  split
  . exact h
  . split
    . exact h
    . obtain ⟨hgood, hrunning⟩ := good_updateReqs (h.good.looked now i)
      exact ⟨hgood, hrunning⟩

theorem createSlot_eq (slots : List Slot) (interval : ℚ) :
    (createSlot slots interval).2 < (createSlot slots interval).1.length
      ∧
    ((createSlot slots interval).1 = slots
      ∨
    ∃ sl : Slot, sl.queue = [] ∧ (createSlot slots interval).1 = slots ++ [sl]) := by
  unfold createSlot
  dsimp only
  split
  . rw [List.length_append, List.length_singleton]
    exact ⟨Nat.lt_succ_self _, Or.inr ⟨_, rfl, rfl⟩⟩
  . next i foundInterval hfind =>
    split
    . rw [List.length_append, List.length_singleton]
      exact ⟨Nat.lt_succ_self _, Or.inr ⟨_, rfl, rfl⟩⟩
    . refine ⟨?_, Or.inl rfl⟩
      have hlt := Timer.findSlot_lt (by simp) hfind
      rwa [Nat.zero_add, List.length_map] at hlt

theorem Idle.createSlot (h : Idle t) (interval : ℚ) :
    Idle { t with slots := (SharedTimer.createSlot t.slots interval).1 } := by
  obtain ⟨-, heq | ⟨sl, hqueue, heq⟩⟩ := createSlot_eq t.slots interval
  . rw [heq]
    exact h
  . rw [heq]
    apply h.slots
    . rw [List.flatMap_append, List.flatMap_singleton, hqueue, List.append_nil]
      apply List.Perm.refl
    . intro sl' hsl'
      obtain hsl' | hsl' := List.mem_append.mp hsl'
      . exact h.good.fronts sl' hsl'
      . rw [List.mem_singleton.mp hsl', hqueue]
        apply FrontGreatest.nil

theorem Idle.insert (h : Idle t) {i id : Nat} {seq : Sequence} (hi : i < t.slots.length)
    (hnext : t.seq.next = some (id, seq)) (hid : r.id = id) (hcancel : r.cancel = false) :
    Idle (({ t with
      objs := Function.update t.objs t.fresh (some r)
      fresh := t.fresh + 1
      seq := seq
      reqs := (id, t.fresh) :: t.reqs
    } : SharedTimer ω).push pq i t.fresh) := by
  have hfresh : ∀ r', t.objs t.fresh ≠ some r' := by
    intro r' hobj
    exact Nat.lt_irrefl _ (h.good.objs.lt_fresh t.fresh r' hobj)
  have hmember : t.fresh ∉ t.queued := by
    intro hmem
    obtain ⟨r', hobj, -⟩ := h.good.tables.found t.fresh hmem
    exact hfresh r' hobj
  subst hid
  refine ⟨?_, h.running⟩
  constructor
  . exact h.good.objs.next hnext rfl
  . have hid : ∀ q, (r.id, q) ∉ t.reqs := by
      intro q hmem
      obtain ⟨-, r', hobj, hid, -⟩ := h.good.tables.known r.id q hmem
      exact h.good.objs.id_ne hnext hobj hid
    exact (h.good.tables.insert hmember hid hcancel).perm (flatMap_push pq _ hi t.fresh)
  . simp
  . apply Fronts.push
    apply h.good.fronts.congr
    . rfl
    . intro q hq
      apply nextRunTick_congr
      apply Function.update_of_ne
      rintro rfl
      exact hmember hq

theorem Idle.find_eq_none (h : Idle t) {id : Nat} {seq : Sequence} (hnext : t.seq.next = some (id, seq)) :
    t.find id = none := by
  cases hfind : t.find id with
  | none => rfl
  | some p =>
    obtain ⟨-, r, hobj, hid, -⟩ := h.good.tables.known id p (mem_of_find hfind)
    exact absurd hid (h.good.objs.id_ne hnext hobj)

-- A new request gets an id that nobody knows.
theorem set_cases (h : Idle t) (pq : KeyedQueue Nat ℚ) (interval duration : ℚ) (repeats : Bool)
    (after tick tick' : ℚ) :
    ∃ fi, t.set pq interval duration repeats after tick tick'
        = (none, { t with slots := (createSlot t.slots fi).1 })
      ∨
    ∃ id seq, t.seq.next = some (id, seq)
      ∧ t.set pq interval duration repeats after tick tick' = (some id, (({ t with
          objs := Function.update t.objs t.fresh
            (some (Req.ctor id interval duration after repeats tick tick'))
          fresh := t.fresh + 1
          reqs := (id, t.fresh) :: t.reqs
          slots := (createSlot t.slots fi).1
          seq := seq
        } : SharedTimer ω).push pq (createSlot t.slots fi).2 t.fresh).collect t.fresh) := by
  refine ⟨Timer.slotInterval (interval / 2) Timer.minInterval Timer.minInterval le_rfl, ?_⟩
  unfold SharedTimer.set
  dsimp only
  cases hnext : t.seq.next with
  | none =>
    left
    rfl
  | some next =>
    obtain ⟨id, seq⟩ := next
    right
    have hnone : t.find id = none := h.find_eq_none hnext
    refine ⟨id, seq, rfl, ?_⟩
    dsimp only
    rw [find_emplace, emplace_eq]
    . exact hnone
    . exact hnone

theorem Idle.set (h : Idle t) (interval duration : ℚ) (repeats : Bool) (after tick tick' : ℚ) :
    Idle (t.set pq interval duration repeats after tick tick').2 := by
  obtain ⟨fi, hset | ⟨id, seq, hnext, hset⟩⟩ :=
    set_cases h pq interval duration repeats after tick tick'
  . rw [hset]
    exact h.createSlot fi
  . rw [hset]
    apply Idle.collect
    exact (h.createSlot fi).insert (createSlot_eq t.slots fi).1 hnext rfl rfl

theorem idle_updateSlots {now : ℚ} (h : Idle t) (is : List Nat) : Idle (t.updateSlots pq now is).2 := by
  induction is generalizing t with
  | nil => exact h
  | cons i is ih => exact ih (idle_updateSlot h i)

theorem idle_update (h : Idle t) (now : ℚ) : Idle (t.update pq now) :=
  idle_updateSlots h _

theorem Idle.add (h : Idle t) (id : Nat) (act : TimerAction ω) : Idle (t.add id act).2 := by
  refine ⟨h.good.add id act, ?_⟩
  unfold SharedTimer.add
  split
  . exact h.running
  . exact h.running

theorem Idle.cancel (h : Idle t) (id : Nat) : Idle (t.cancel id).2 := by
  refine ⟨h.good.cancel id, ?_⟩
  unfold SharedTimer.cancel
  split
  . exact h.running
  . exact (running_collect _ _).trans h.running

/-!
### Runs
-/

theorem idle_step {t' : SharedTimer ω} {e : Event ω} (h : Idle t) (hstep : step pq t e = some t') :
    Idle t' := by
  cases e with
  | set interval duration repeats after tick tick' =>
    cases hstep
    apply h.set
  | add id act =>
    cases hstep
    apply h.add
  | cancel id =>
    cases hstep
    apply h.cancel
  | update now =>
    cases hstep
    exact idle_update h now
  | outside w =>
    cases hstep
    exact ⟨h.good.outside w, h.running⟩

theorem idle_ctor (w : ω) : Idle (ctor w) := by
  have hnone : ∀ p r, (ctor w).objs p ≠ some r := by
    intro p r hobj
    cases hobj
  refine ⟨⟨⟨?_, ?_, ?_⟩, ⟨?_, ?_, ?_, ?_⟩, ?_, ?_⟩, rfl⟩
  . exact fun p _ r _ hobj => absurd hobj (hnone p r)
  . exact fun p r hobj => absurd hobj (hnone p r)
  . refine ⟨_, Sequence.valid_ctor (by decide) 16, ?_⟩
    exact fun p r hobj => absurd hobj (hnone p r)
  . exact List.nodup_nil
  . exact List.nodup_nil
  . intro id p hmem
    cases hmem
  . intro p hp
    cases hp
  . intro entry hentry
    cases hentry
  . intro sl hsl
    cases hsl

theorem idle_of_reachable {w : ω} (h : (machine pq w).Reachable t) : Idle t := by
  apply Machine.inv_of_reachable (m := machine pq w) Idle
  . exact idle_ctor w
  . intro t e t' ht hstep
    exact idle_step ht hstep
  . exact h

-- No tick of an object changes while it is in a queue, so that the queues stay what they are.
theorem fronts_of_reachable {w : ω} (h : (machine pq w).Reachable t) : t.Fronts :=
  (idle_of_reachable h).good.fronts

-- What the map, the slots and the ids have to do with each other.
structure InStep (t : SharedTimer ω) : Prop where
  keys : (t.reqs.map Prod.fst).Nodup
  known : ∀ id p, (id, p) ∈ t.reqs →
    t.queued.count p = 1 ∧ ∃ r, t.objs p = some r ∧ r.id = id ∧ r.cancel = false
  queued : ∀ p ∈ t.queued, ∃ r, t.objs p = some r ∧ (r.cancel = false → (r.id, p) ∈ t.reqs)
  ids : ∀ p q, t.referenced p = true → t.referenced q = true → ∀ r r', t.objs p = some r →
    t.objs q = some r' → p ≠ q → r.id ≠ r'.id

/--
Between two calls, the map, the slots and the ids are about the same requests.
-/
theorem inStep_of_reachable (pq : KeyedQueue Nat ℚ) (w : ω) (h : (machine pq w).Reachable t) :
    t.InStep := by
  have hgood := (idle_of_reachable h).good
  have htables : Tables t.objs t.reqs t.queued := hgood.tables
  constructor
  . exact htables.keys
  . intro id p hmem
    obtain ⟨hp, hobj⟩ := htables.known id p hmem
    exact ⟨List.count_eq_one_of_mem htables.nodup hp, hobj⟩
  . exact htables.found
  . intro p q _ _ r r' hobj hobj' hne hid
    exact hne (hgood.objs.ids p q r r' hobj hobj' hid)

theorem exists_step (pq : KeyedQueue Nat ℚ) (w : ω) (t : SharedTimer ω) (e : Event ω) :
    ∃ t', (machine pq w).step t e = some t' := by
  cases e with
  | set => exact ⟨_, rfl⟩
  | add => exact ⟨_, rfl⟩
  | cancel => exact ⟨_, rfl⟩
  | update => exact ⟨_, rfl⟩
  | outside => exact ⟨_, rfl⟩

-- A request cancels itself while it is running.
theorem inStep_of_reachable_cancel :
    ∃ t, (machine KeyedQueue.sorted ()).Reachable t ∧ t.InStep := by
  obtain ⟨t, hrun⟩ := Machine.exists_run (exists_step KeyedQueue.sorted ()) (ctor ()) [
    .set 10 0 true 0 0 0,
    .add 1 fun id _ => .cancel id fun _ => .ret (),
    .update 20
  ]
  exact ⟨t, ⟨_, hrun⟩, inStep_of_reachable KeyedQueue.sorted () ⟨_, hrun⟩⟩

end SharedTimer
end Lax
