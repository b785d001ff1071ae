import Mathlib.Data.List.Count
import Mathlib.Data.List.Pairwise
import Lax.Channel.Impl.Timer
import Lax.Foundation.Cells
import Lax.Util.Lemmas.Sequence

/-!
This module contains which requests an update of the timer runs.
-/

namespace Lax
namespace Timer

variable {α : Type} {pq : PriorityQueue (@Entry.lt α)}

/-!
### The loop over one queue
-/

-- What the loop runs of a queue that gives `d` in this order.
def ranBy (now : ℚ) : List (Req α) → List (Req α)
  | [] => []
  | e :: d =>
    if e.nextRunTick < now then
      if e.cancel then
        ranBy now d
      else if again e now then
        [e]
      else
        e :: ranBy now d
    else
      []

theorem ranBy_drain_of_not_due {now : ℚ} {queue : Entries α} {e : Req α} (he : e ∈ queue.items)
    (hdue : ¬e.nextRunTick < now) : ranBy now (pq.drain queue) = [] := by
  cases hitems : queue.items with
  | nil =>
    rw [hitems] at he
    cases he
  | cons top l =>
    have htop := MaxQueue.not_lt_of_items hitems he
    unfold Entry.lt at htop
    rw [PriorityQueue.drain_of_cons hitems]
    unfold ranBy
    rw [if_neg (by linarith)]

theorem ran_updateReqs (now : ℚ) (queue : Entries α) (u : Update α) :
    (updateReqs pq now queue u).2.ran = u.ran ++ ranBy now (pq.drain queue) := by
  fun_induction updateReqs pq now queue u with
  | case1 queue u hitems =>
    rw [PriorityQueue.drain_of_nil hitems]
    simp [ranBy]
  | case2 queue u e l hitems hdue popped hcancel ih =>
    rw [ih, PriorityQueue.drain_of_cons hitems]
    conv =>
      rhs
      unfold ranBy
    rw [if_pos hdue, if_pos hcancel]
  | case3 queue u e l hitems hdue popped hcancel hagain e' ih =>
    -- What is pushed is not due, so that the loop ends here.
    have hmem : e' ∈ (pq.push popped e').items :=
      (pq.push_perm popped e').mem_iff.mpr List.mem_cons_self
    rw [ih, ranBy_drain_of_not_due hmem (not_add_interval_lt e now),
      PriorityQueue.drain_of_cons hitems]
    conv =>
      rhs
      unfold ranBy
    rw [if_pos hdue, if_neg hcancel, if_pos hagain, List.append_nil]
  | case4 queue u e l hitems hdue popped hcancel hagain ih =>
    rw [ih, PriorityQueue.drain_of_cons hitems]
    conv =>
      rhs
      unfold ranBy
    rw [if_pos hdue, if_neg hcancel, if_neg hagain, List.append_assoc, List.singleton_append]
  | case5 queue u e l hitems hdue =>
    rw [PriorityQueue.drain_of_cons hitems]
    unfold ranBy
    rw [if_neg hdue, List.append_nil]

/-!
### Who is behind whom
-/

def Req.Due (r : Req α) (now : ℚ) : Prop :=
  r.cancel = false ∧ r.nextRunTick < now

-- The loop does not go on after `r`.
def Req.Last (r : Req α) (now : ℚ) : Prop :=
  now ≤ r.nextRunTick ∨ r.cancel = false ∧ again r now = true

def Unblocked (now : ℚ) (d : List (Req α)) : Prop :=
  d.Pairwise fun r r' => r.Last now → ¬r'.Due now

theorem ranBy_sublist (now : ℚ) (d : List (Req α)) : (ranBy now d).Sublist d := by
  fun_induction ranBy now d with
  | case1 => exact List.Sublist.refl _
  | case2 e d _ _ ih => exact ih.cons e
  | case3 e d => exact (List.nil_sublist d).cons_cons e
  | case4 e d _ _ _ ih => exact ih.cons_cons e
  | case5 e d => exact List.nil_sublist _

theorem due_of_mem_ranBy {now : ℚ} {d : List (Req α)} {r : Req α} (h : r ∈ ranBy now d) :
    r.Due now := by
  fun_induction ranBy now d with
  | case1 => cases h
  | case2 e d _ _ ih => exact ih h
  | case3 e d hdue hcancel =>
    rw [List.mem_singleton] at h
    exact h ▸ ⟨Bool.eq_false_iff.mpr hcancel, hdue⟩
  | case4 e d hdue hcancel _ ih =>
    obtain rfl | h := List.mem_cons.mp h
    . exact ⟨Bool.eq_false_iff.mpr hcancel, hdue⟩
    . exact ih h
  | case5 => cases h

theorem unblocked_cons_of_last {now : ℚ} {e : Req α} {d : List (Req α)} (he : e.Last now) :
    Unblocked now (e :: d) ↔ ∀ r ∈ d, ¬r.Due now := by
  unfold Unblocked
  rw [List.pairwise_cons]
  constructor
  . exact fun h r hr => h.1 r hr he
  . intro h
    refine ⟨fun r hr _ => h r hr, ?_⟩
    exact List.pairwise_of_forall_mem_list fun r _ r' hr' _ => h r' hr'

theorem unblocked_cons_of_not_last {now : ℚ} {e : Req α} {d : List (Req α)} (he : ¬e.Last now) :
    Unblocked now (e :: d) ↔ Unblocked now d := by
  unfold Unblocked
  rw [List.pairwise_cons, and_iff_right]
  exact fun r _ hlast => absurd hlast he

theorem forall_due_mem_ranBy_iff {now : ℚ} {d : List (Req α)} (hnodup : d.Nodup) :
    (∀ r ∈ d, r.Due now → r ∈ ranBy now d) ↔ Unblocked now d := by
  fun_induction ranBy now d with
  | case1 => simp [Unblocked]
  | case2 e d hdue hcancel ih =>
    have he : ¬e.Due now := fun h => by simp [h.1] at hcancel
    have hlast : ¬e.Last now := by
      rintro (h | h)
      . linarith
      . simp [h.1] at hcancel
    rw [unblocked_cons_of_not_last hlast, ← ih hnodup.of_cons, List.forall_mem_cons]
    exact and_iff_right fun h => absurd h he
  | case3 e d hdue hcancel hagain =>
    have hlast : e.Last now := .inr ⟨Bool.eq_false_iff.mpr hcancel, hagain⟩
    rw [unblocked_cons_of_last hlast, List.forall_mem_cons,
      and_iff_right fun _ => List.mem_singleton_self e]
    apply forall₂_congr
    intro r hr
    have hne : r ≠ e := fun heq => (List.nodup_cons.mp hnodup).1 (heq ▸ hr)
    rw [List.mem_singleton, iff_false_intro hne, imp_false]
  | case4 e d hdue hcancel hagain ih =>
    have hlast : ¬e.Last now := by
      rintro (h | h)
      . linarith
      . exact hagain h.2
    rw [unblocked_cons_of_not_last hlast, ← ih hnodup.of_cons, List.forall_mem_cons,
      and_iff_right fun _ => List.mem_cons_self]
    apply forall₂_congr
    intro r hr
    have hne : r ≠ e := fun heq => (List.nodup_cons.mp hnodup).1 (heq ▸ hr)
    rw [List.mem_cons, or_iff_right hne]
  | case5 e d hdue =>
    have he : ¬e.Due now := fun h => hdue h.2
    have hlast : e.Last now := .inl (not_lt.mp hdue)
    rw [unblocked_cons_of_last hlast, List.forall_mem_cons, and_iff_right fun h => absurd h he]
    simp only [List.not_mem_nil, imp_false]

/-!
### One update
-/

def Slot.Due (sl : Slot α) (now : ℚ) : Prop :=
  sl.lastRunTick + sl.interval ≤ now

instance (sl : Slot α) (now : ℚ) : Decidable (sl.Due now) :=
  inferInstanceAs (Decidable (sl.lastRunTick + sl.interval ≤ now))

def Entries.ids (queue : Entries α) : List Nat :=
  queue.items.map Req.id

def Slot.ids (sl : Slot α) : List Nat :=
  sl.reqs.ids

def ids (t : Timer α) : List Nat :=
  t.slots.flatMap Slot.ids

-- The due requests of the due slots have been run, each of them once, and nothing else.
structure RunsDue (pq : PriorityQueue (@Entry.lt α)) (t : Timer α) (now : ℚ) : Prop where
  once : ((t.update pq now).1.map Req.id).Nodup
  mem_iff : ∀ r, r ∈ (t.update pq now).1 ↔
    ∃ sl ∈ t.slots, sl.Due now ∧ r ∈ sl.reqs.items ∧ r.Due now

def slotRan (pq : PriorityQueue (@Entry.lt α)) (now : ℚ) (sl : Slot α) : List (Req α) :=
  if sl.Due now then ranBy now (pq.drain sl.reqs) else []

theorem ran_updateSlots (now : ℚ) (slots : List (Slot α)) (u : Update α) :
    (updateSlots pq now slots u).2.ran = u.ran ++ slots.flatMap (slotRan pq now) := by
  induction slots generalizing u with
  | nil => simp [updateSlots]
  | cons sl slots ih =>
    have hslot : (updateSlot pq now sl u).2.ran = u.ran ++ slotRan pq now sl := by
      unfold updateSlot slotRan
      by_cases hdue : sl.Due now
      . rw [if_neg (not_lt.mpr hdue), if_pos hdue, ← ran_updateReqs]
      . rw [if_pos (not_le.mp hdue), if_neg hdue, List.append_nil]
    unfold updateSlots
    dsimp only
    rw [ih, hslot, List.flatMap_cons, List.append_assoc]

theorem ran_update (t : Timer α) (now : ℚ) :
    (t.update pq now).1 = t.slots.flatMap (slotRan pq now) := by
  unfold update
  dsimp only
  rw [ran_updateSlots, List.nil_append]

theorem slotRan_sublist (now : ℚ) (sl : Slot α) :
    (slotRan pq now sl).Sublist (pq.drain sl.reqs) := by
  unfold slotRan
  split
  . exact ranBy_sublist now _
  . exact List.nil_sublist _

theorem mem_slotRan {now : ℚ} {sl : Slot α} {r : Req α} (h : r ∈ slotRan pq now sl) :
    sl.Due now ∧ r ∈ sl.reqs.items ∧ r.Due now := by
  unfold slotRan at h
  split at h
  . next hdue =>
    exact ⟨hdue, PriorityQueue.mem_drain.mp ((ranBy_sublist now _).subset h), due_of_mem_ranBy h⟩
  . cases h

theorem nodup_ran {t : Timer α} (hnodup : t.ids.Nodup) (now : ℚ) :
    ((t.update pq now).1.map Req.id).Nodup := by
  have hsublist : ∀ slots : List (Slot α),
      (slots.flatMap (slotRan pq now)).Sublist (slots.flatMap fun sl => pq.drain sl.reqs) := by
    intro slots
    induction slots with
    | nil => exact List.Sublist.refl _
    | cons sl slots ih => exact (slotRan_sublist now sl).append ih
  have hperm : ((t.slots.flatMap fun sl => pq.drain sl.reqs).map Req.id).Perm t.ids := by
    unfold ids
    rw [List.map_flatMap]
    exact List.Perm.flatMap_left _ fun sl _ => (pq.drain_perm sl.reqs).map Req.id
  rw [ran_update]
  exact (hperm.nodup_iff.mpr hnodup).sublist ((hsublist t.slots).map Req.id)

theorem eq_of_mem_items {t : Timer α} (hnodup : t.ids.Nodup) {sl sl' : Slot α} {r : Req α}
    (hsl : sl ∈ t.slots) (hsl' : sl' ∈ t.slots) (h : r ∈ sl.reqs.items) (h' : r ∈ sl'.reqs.items) :
    sl = sl' := by
  by_contra hne
  have hsymm : Std.Symm (Function.onFun List.Disjoint (@Slot.ids α)) :=
    ⟨fun _ _ h => List.disjoint_symm h⟩
  have hdisjoint := (List.nodup_flatMap.mp hnodup).2.forall hsl hsl' hne
  exact hdisjoint (List.mem_map_of_mem h) (List.mem_map_of_mem h')

theorem nodup_drain {t : Timer α} (hnodup : t.ids.Nodup) {sl : Slot α} (hsl : sl ∈ t.slots) :
    (pq.drain sl.reqs).Nodup := by
  have hids : sl.ids.Nodup := (List.nodup_flatMap.mp hnodup).1 sl hsl
  exact (pq.drain_perm sl.reqs).nodup_iff.mpr (List.Nodup.of_map Req.id hids)

-- In the order of its queue no due request is behind one that ends the loop.
def NoneBehind (pq : PriorityQueue (@Entry.lt α)) (t : Timer α) (now : ℚ) : Prop :=
  ∀ sl ∈ t.slots, sl.Due now → Unblocked now (pq.drain sl.reqs)

theorem runsDue_iff {t : Timer α} (hnodup : t.ids.Nodup) (now : ℚ) :
    RunsDue pq t now ↔ NoneBehind pq t now := by
  constructor
  . intro h sl hsl hdue
    rw [← forall_due_mem_ranBy_iff (nodup_drain hnodup hsl)]
    intro r hr hr'
    rw [PriorityQueue.mem_drain] at hr
    have hran := (h.mem_iff r).mpr ⟨sl, hsl, hdue, hr, hr'⟩
    rw [ran_update] at hran
    obtain ⟨sl', hsl', hmem⟩ := List.mem_flatMap.mp hran
    have heq := eq_of_mem_items hnodup hsl hsl' hr (mem_slotRan hmem).2.1
    subst heq
    unfold slotRan at hmem
    rwa [if_pos hdue] at hmem
  . intro h
    constructor
    . exact nodup_ran hnodup now
    . intro r
      rw [ran_update, List.mem_flatMap]
      constructor
      . rintro ⟨sl, hsl, hmem⟩
        exact ⟨sl, hsl, mem_slotRan hmem⟩
      . rintro ⟨sl, hsl, hdue, hr, hr'⟩
        refine ⟨sl, hsl, ?_⟩
        unfold slotRan
        rw [if_pos hdue]
        exact (forall_due_mem_ranBy_iff (nodup_drain hnodup hsl)).mpr (h sl hsl hdue) r
          (PriorityQueue.mem_drain.mpr hr) hr'

theorem count_calls_eq_zero [DecidableEq α] {ran : List (Req α)} {id : Nat}
    (h : id ∉ ran.map Req.id) (act : α) : (ran.flatMap Req.calls).count (act, id) = 0 := by
  apply List.count_eq_zero.mpr
  intro hmem
  obtain ⟨r, hr, hcall⟩ := List.mem_flatMap.mp hmem
  obtain ⟨act', -, heq⟩ := List.mem_map.mp hcall
  injection heq with _ hid
  exact h (hid ▸ List.mem_map_of_mem hr)

theorem count_calls [DecidableEq α] {ran : List (Req α)} (hnodup : (ran.map Req.id).Nodup)
    {r : Req α} (hr : r ∈ ran) (act : α) :
    (ran.flatMap Req.calls).count (act, r.id) = r.actions.count act := by
  induction ran with
  | nil => cases hr
  | cons r' ran ih =>
    rw [List.map_cons, List.nodup_cons] at hnodup
    rw [List.flatMap_cons, List.count_append]
    obtain rfl | hr := List.mem_cons.mp hr
    . rw [count_calls_eq_zero hnodup.1, Nat.add_zero]
      have hinj : Function.Injective fun act : α => (act, r.id) := by
        intro _ _ h
        exact congrArg Prod.fst h
      exact List.count_map_of_injective r.actions _ hinj act
    . have hne : r.id ∉ [r'].map Req.id := by
        rw [List.map_singleton, List.mem_singleton]
        exact fun heq => hnodup.1 (heq ▸ List.mem_map_of_mem hr)
      have hzero := count_calls_eq_zero hne act
      rw [List.flatMap_singleton] at hzero
      rw [hzero, Nat.zero_add, ih hnodup.2 hr]

-- The actions of a due request are called as often as it has them.
theorem RunsDue.count_calls [DecidableEq α] {t : Timer α} {now : ℚ} (h : RunsDue pq t now)
    {sl : Slot α} (hsl : sl ∈ t.slots) (hdue : sl.Due now) {r : Req α} (hr : r ∈ sl.reqs.items)
    (hr' : r.Due now) (act : α) :
    ((t.update pq now).1.flatMap Req.calls).count (act, r.id) = r.actions.count act :=
  Timer.count_calls h.once ((h.mem_iff r).mpr ⟨sl, hsl, hdue, hr, hr'⟩) act

/-!
### The ids of the requests
-/

-- The ids are taken from the pool, each of them once.
def Live (seq : Sequence) (ids : List Nat) : Prop :=
  ids.Nodup ∧ ∃ taken, seq.Valid taken ∧ ∀ id ∈ ids, taken id

theorem Live.perm {seq : Sequence} {l l' : List Nat} (h : Live seq l) (hperm : l.Perm l') :
    Live seq l' := by
  obtain ⟨hnodup, taken, hvalid, htaken⟩ := h
  exact ⟨hperm.nodup_iff.mp hnodup, taken, hvalid, fun id hid => htaken id (hperm.mem_iff.mpr hid)⟩

theorem Live.next {seq seq' : Sequence} {id : Nat} {l : List Nat} (h : Live seq l)
    (hnext : seq.next = some (id, seq')) : Live seq' (id :: l) := by
  obtain ⟨hnodup, taken, hvalid, htaken⟩ := h
  have hnew := hvalid.next hnext
  refine ⟨List.nodup_cons.mpr ⟨fun hid => hnew.fresh (htaken id hid), hnodup⟩, _, hnew.valid, ?_⟩
  intro id' hid'
  exact (List.mem_cons.mp hid').imp_right (htaken id')

theorem Live.release {seq : Sequence} {r : Req α} {l : List Nat} (h : Live seq (r.id :: l)) :
    Live (r.release seq) l := by
  obtain ⟨hnodup, taken, hvalid, htaken⟩ := h
  obtain ⟨hid, hnodup⟩ := List.nodup_cons.mp hnodup
  have hmem := List.forall_mem_cons.mp htaken
  unfold Req.release
  split
  . refine ⟨hnodup, _, hvalid.release hmem.1, ?_⟩
    intro id' hid'
    exact ⟨fun heq => hid (heq ▸ hid'), hmem.2 id' hid'⟩
  . exact ⟨hnodup, taken, hvalid, hmem.2⟩

theorem Entries.ids_pop {queue : Entries α} {e : Req α} {l : List (Req α)}
    (hitems : queue.items = e :: l) :
    queue.ids.Perm (e.id :: Entries.ids (pq.pop queue)) := by
  unfold ids
  rw [hitems, List.map_cons]
  exact ((pq.pop_perm queue e l hitems).map Req.id).symm.cons e.id

theorem Entries.ids_push (queue : Entries α) (e : Req α) :
    (Entries.ids (pq.push queue e)).Perm (e.id :: queue.ids) :=
  (pq.push_perm queue e).map Req.id

-- `rest` has the ids of the other slots.
theorem live_updateReqs {now : ℚ} {queue : Entries α} {u : Update α} {rest : List Nat}
    (h : Live u.seq (queue.ids ++ rest)) :
    Live (updateReqs pq now queue u).2.seq
      (Entries.ids (updateReqs pq now queue u).1 ++ rest) := by
  fun_induction updateReqs pq now queue u with
  | case1 => exact h
  | case2 queue u e l hitems hdue popped hcancel ih =>
    exact ih (h.perm ((Entries.ids_pop hitems).append_right rest)).release
  | case3 queue u e l hitems hdue popped hcancel hagain e' ih =>
    apply ih
    apply h.perm
    apply List.Perm.append_right
    exact (Entries.ids_pop hitems).trans (Entries.ids_push popped e').symm
  | case4 queue u e l hitems hdue popped hcancel hagain ih =>
    exact ih (h.perm ((Entries.ids_pop hitems).append_right rest)).release
  | case5 => exact h

theorem live_updateSlots (pq : PriorityQueue (@Entry.lt α)) (now : ℚ) {slots : List (Slot α)}
    (u : Update α) {rest : List Nat}
    (h : Live u.seq (slots.flatMap Slot.ids ++ rest)) :
    Live (updateSlots pq now slots u).2.seq
      ((updateSlots pq now slots u).1.flatMap Slot.ids ++ rest) := by
  induction slots generalizing u rest with
  | nil => exact h
  | cons sl slots ih =>
    have hslot : Live (updateSlot pq now sl u).2.seq
        ((updateSlot pq now sl u).1.ids ++ (slots.flatMap Slot.ids ++ rest)) := by
      rw [List.flatMap_cons, List.append_assoc] at h
      unfold updateSlot
      split
      . exact h
      . exact live_updateReqs h
    -- The slots that come later take the ids of this one for those of the others.
    have hswap := ih _ (hslot.perm (List.perm_append_comm_assoc _ _ _))
    unfold updateSlots
    dsimp only
    rw [List.flatMap_cons, List.append_assoc]
    exact hswap.perm (List.perm_append_comm_assoc _ _ _)

/-!
### What an operation does to them
-/

theorem findSlot_lt {interval foundInterval : ℚ} {slots : List (Slot α)} {i j : Nat}
    {found : Option (Nat × ℚ)} (hfound : ∀ p ∈ found, p.1 < i)
    (h : findSlot interval slots i found = some (j, foundInterval)) : j < i + slots.length := by
  induction slots generalizing i found with
  | nil => exact hfound _ h
  | cons slt slots ih =>
    rw [List.length_cons, Nat.add_comm slots.length, ← Nat.add_assoc]
    unfold findSlot at h
    split at h
    . apply ih _ h
      intro p hp
      cases hp
      exact Nat.lt_succ_self i
    . exact ih (fun p hp => Nat.lt_succ_of_lt (hfound p hp)) h

-- The slots that there were keep their places, and the result is one of the slots.
theorem createSlot_cases (slots : List (Slot α)) (interval : ℚ) :
    ∃ added : List (Slot α), (createSlot slots interval).1 = slots ++ added
      ∧ added.flatMap Slot.ids = []
      ∧ (createSlot slots interval).2 < (slots ++ added).length := by
  have hnew : slots.length < (slots ++ [(⟨interval, 0, .empty⟩ : Slot α)]).length := by
    rw [List.length_append, List.length_singleton]
    exact Nat.lt_succ_self _
  unfold createSlot
  dsimp only
  split
  . exact ⟨_, rfl, rfl, hnew⟩
  . next i foundInterval hfound =>
    have hlt := findSlot_lt (fun _ hp => absurd hp (Option.not_mem_none _)) hfound
    split
    . exact ⟨_, rfl, rfl, hnew⟩
    . refine ⟨[], (List.append_nil _).symm, rfl, ?_⟩
      rwa [List.append_nil, ← Nat.zero_add slots.length]

theorem ids_modify_push (pq : PriorityQueue (@Entry.lt α)) {slots : List (Slot α)} {i : Nat}
    (r : Req α) (h : i < slots.length) :
    ((slots.modify i fun slt => { slt with reqs := pq.push slt.reqs r }).flatMap Slot.ids).Perm
      (r.id :: slots.flatMap Slot.ids) := by
  obtain ⟨rest, hslots, hpush⟩ := Cells.exists_perm_flatMap_modify Slot.ids
    (fun slt => { slt with reqs := pq.push slt.reqs r }) (List.getElem?_eq_getElem h)
  apply hpush.trans
  apply List.Perm.trans _ (hslots.cons r.id).symm
  exact (Entries.ids_push _ r).append_right rest

theorem Live.set {t : Timer α} (h : Live t.seq t.ids) (interval duration : ℚ) (repeats : Bool)
    (after tick tick' : ℚ) :
    Live (t.set pq interval duration repeats after tick tick').2.seq
      (t.set pq interval duration repeats after tick tick').2.ids := by
  unfold Timer.set
  dsimp only
  generalize slotInterval (interval / 2) minInterval minInterval le_rfl = fi
  obtain ⟨added, hslots, hadded, hlt⟩ := createSlot_cases t.slots fi
  have hids : (createSlot t.slots fi).1.flatMap Slot.ids = t.ids := by
    rw [hslots, List.flatMap_append, hadded, List.append_nil]
    rfl
  split
  . unfold ids
    dsimp only
    rwa [hids]
  . next id seq hnext =>
    have hpush := ids_modify_push pq (Req.ctor id interval duration after repeats tick tick')
      (hslots.symm ▸ hlt)
    rw [hids] at hpush
    exact (h.next hnext).perm hpush.symm

theorem Live.modifyReq {t : Timer α} (h : Live t.seq t.ids) {id : Nat} {f : Req α → Req α}
    {hf : ∀ r, (f r).nextRunTick = r.nextRunTick} (hid : ∀ r, (f r).id = r.id) :
    Live t.seq ((t.slots.map (·.modifyReq id f hf)).flatMap Slot.ids) := by
  have hids : (t.slots.map (·.modifyReq id f hf)).flatMap Slot.ids = t.ids := by
    rw [List.flatMap_map]
    apply List.flatMap_congr
    intro slt hslt
    unfold Slot.ids Entries.ids Slot.modifyReq MaxQueue.map
    dsimp only
    rw [List.map_map]
    apply List.map_congr_left
    intro r hr
    rw [Function.comp_apply]
    split
    . exact hid r
    . rfl
  exact hids ▸ h

theorem Live.step {t t' : Timer α} {e : Event α} (h : Live t.seq t.ids)
    (hstep : (machine pq).step t e = some t') : Live t'.seq t'.ids := by
  change Timer.step pq t e = some t' at hstep
  cases e with
  | set interval duration repeats after tick tick' =>
    unfold Timer.step at hstep
    dsimp only at hstep
    split at hstep
    . injection hstep with hstep
      exact hstep ▸ h.set interval duration repeats after tick tick'
    . contradiction
  | add id act =>
    injection hstep with hstep
    subst hstep
    unfold add
    split
    . exact h.modifyReq fun _ => rfl
    . exact h
  | cancel id =>
    injection hstep with hstep
    subst hstep
    unfold cancel
    split
    . exact h.modifyReq fun _ => rfl
    . exact h
  | update now =>
    unfold Timer.step at hstep
    dsimp only at hstep
    split at hstep
    . injection hstep with hstep
      subst hstep
      unfold ids at h ⊢
      rw [← List.append_nil (List.flatMap _ t.slots)] at h
      have hslots := live_updateSlots pq now { reqs := t.reqs, seq := t.seq, ran := [] } h
      rwa [List.append_nil] at hslots
    . contradiction

theorem live_ctor : Live (ctor : Timer α).seq (ctor : Timer α).ids := by
  refine ⟨List.nodup_nil, _, Sequence.valid_ctor (by decide) 16, ?_⟩
  intro id hid
  cases hid

/-!
### Runs
-/

def RunsDueAt (pq : PriorityQueue (@Entry.lt α)) (t : Timer α) : Event α → Prop
  | .update now => RunsDue pq t now
  | _ => True

def NoneBehindAt (pq : PriorityQueue (@Entry.lt α)) (t : Timer α) : Event α → Prop
  | .update now => NoneBehind pq t now
  | _ => True

theorem runsDueAt_iff {t : Timer α} (h : Live t.seq t.ids) (e : Event α) :
    RunsDueAt pq t e ↔ NoneBehindAt pq t e := by
  cases e with
  | update now => exact runsDue_iff h.1 now
  | _ => rfl

/--
An update runs what is due just if no request is behind one that is not due yet.
-/
theorem runsDue_iff_along (pq : PriorityQueue (@Entry.lt α)) (es : List (Event α)) :
    (machine pq).Along (RunsDueAt pq) ctor es ↔ (machine pq).Along (NoneBehindAt pq) ctor es :=
  Machine.along_congr (fun t => Live t.seq t.ids) (fun _ _ _ => Live.step)
    (fun _ e h => runsDueAt_iff h e) live_ctor

/-!
### A request that is starved
-/

instance : DecidableRel (@Entry.lt α) :=
  fun lhs rhs => inferInstanceAs (Decidable (lhs.nextRunTick < rhs.nextRunTick))

def sortedQueue : PriorityQueue (@Entry.lt α) :=
  PriorityQueue.sorted (fun _ _ => lt_asymm) fun _ _ _ h h' =>
    not_lt.mpr ((not_lt.mp h').trans (not_lt.mp h))

theorem slotInterval_eq {target si : ℚ} (fi : ℚ) (h : minInterval ≤ si) {n : Nat}
    (hlt : si * 2 ^ n < target) (hle : target ≤ si * 2 ^ (n + 1)) :
    slotInterval target si fi h = si * 2 ^ n := by
  have hpos : 0 < si := by
    unfold minInterval at h
    linarith
  induction n generalizing si fi with
  | zero =>
    rw [pow_zero, mul_one] at hlt ⊢
    rw [zero_add, pow_one] at hle
    rw [slotInterval, if_pos hlt, slotInterval, if_neg (not_lt.mpr hle)]
  | succ n ih =>
    have hsi : si < target := by
      have : (1 : ℚ) ≤ 2 ^ (n + 1) := one_le_pow₀ (by norm_num)
      nlinarith
    have hmul : ∀ m : Nat, si * 2 ^ (m + 1) = si * 2 * 2 ^ m := fun m => by ring
    rw [hmul] at hlt hle ⊢
    rw [slotInterval, if_pos hsi]
    exact ih si _ hlt hle (by linarith)

theorem step_set {t : Timer α} {slots : List (Slot α)} {i id : Nat} {seq : Sequence}
    {interval duration after tick tick' fi : ℚ} {repeats : Bool}
    (htick : t.tick ≤ tick ∧ tick ≤ tick')
    (hfi : slotInterval (interval / 2) minInterval minInterval le_rfl = fi)
    (hslot : createSlot t.slots fi = (slots, i)) (hnext : t.seq.next = some (id, seq)) :
    (machine pq).step t (.set interval duration repeats after tick tick')
      =
    some {
      slots := slots.modify i fun slt =>
        { slt with
          reqs := pq.push slt.reqs (Req.ctor id interval duration after repeats tick tick') }
      reqs := t.reqs.insert id
      seq := seq
      tick := tick'
    } := by
  unfold machine step Timer.set
  dsimp only
  rw [if_pos htick, hfi, hslot, hnext]

theorem createSlot_singleton {sl : Slot α} {interval : ℚ} (hpos : 0 < sl.interval)
    (hlt : sl.interval < interval) : createSlot [sl] interval = ([sl], 0) := by
  unfold createSlot findSlot
  rw [if_pos ⟨hlt, hpos⟩]
  exact if_neg (not_lt.mpr hlt.le)

-- A request that is not due yet keeps all of its slot from running.
theorem not_runsDue_of_not_due {t : Timer α} (hlive : Live t.seq t.ids) {now : ℚ} {sl : Slot α}
    (hsl : sl ∈ t.slots) (hdue : sl.Due now) {r r' : Req α} (hr : r ∈ sl.reqs.items)
    (hr' : r' ∈ sl.reqs.items) (hrdue : r.Due now) (hnot : now ≤ r'.nextRunTick) :
    ¬RunsDue pq t now := by
  intro h
  have hunblocked := (runsDue_iff hlive.1 now).mp h sl hsl hdue
  have hall := (forall_due_mem_ranBy_iff (nodup_drain hlive.1 hsl)).mpr hunblocked
  have hmem := hall r (PriorityQueue.mem_drain.mpr hr) hrdue
  rw [ranBy_drain_of_not_due hr' (not_lt.mpr hnot)] at hmem
  cases hmem

-- Both requests come into one slot. The first one is due before the second one.
theorem exists_not_runsDue :
    ¬(machine (@sortedQueue Unit)).Along (RunsDueAt sortedQueue) ctor
      [.set (1 / 10) 0 true 0 0 0, .set (3 / 10) 0 true 0 0 0, .update (1 / 5)] := by
  have hfirst : slotInterval (1 / 10 / 2) minInterval minInterval le_rfl = 1 / 25 := by
    rw [slotInterval_eq (n := 2)] <;> norm_num [minInterval]
  have hsecond : slotInterval (3 / 10 / 2) minInterval minInterval le_rfl = 2 / 25 := by
    rw [slotInterval_eq (n := 3)] <;> norm_num [minInterval]
  have hids : ∃ seq, (ctor : Timer Unit).seq.next = some (1, seq)
      ∧ ∃ seq', seq.next = some (2, seq') := ⟨_, rfl, _, rfl⟩
  obtain ⟨seq, hnext, seq', hnext'⟩ := hids
  let r : Req Unit := Req.ctor 1 (1 / 10) 0 0 true 0 0
  let r' : Req Unit := Req.ctor 2 (3 / 10) 0 0 true 0 0
  let sl : Slot Unit := ⟨1 / 25, 0, sortedQueue.push .empty r⟩
  let sl' : Slot Unit := ⟨1 / 25, 0, sortedQueue.push sl.reqs r'⟩
  have hstep : (machine sortedQueue).step ctor (.set (1 / 10) 0 true 0 0 0)
      = some ⟨[sl], [1], seq, 0⟩ :=
    step_set ⟨le_refl 0, le_refl 0⟩ hfirst rfl hnext
  have hcreate : createSlot [sl] (2 / 25) = ([sl], 0) := by
    apply createSlot_singleton <;> norm_num [sl]
  have hstep' : (machine sortedQueue).step ⟨[sl], [1], seq, 0⟩ (.set (3 / 10) 0 true 0 0 0)
      = some ⟨[sl'], [2, 1], seq', 0⟩ :=
    (step_set ⟨le_refl 0, le_refl 0⟩ hsecond hcreate hnext').trans rfl
  have hitems : sl'.reqs.items.Perm [r', r] :=
    (sortedQueue.push_perm sl.reqs r').trans ((sortedQueue.push_perm .empty r).cons r')
  have hlive := (live_ctor.step hstep).step hstep'
  have hdue : sl'.Due (1 / 5) := by norm_num [Slot.Due, sl']
  have hr : r ∈ sl'.reqs.items := hitems.mem_iff.mpr (List.mem_cons_of_mem r' List.mem_cons_self)
  have hr' : r' ∈ sl'.reqs.items := hitems.mem_iff.mpr List.mem_cons_self
  have hrdue : r.Due (1 / 5) := by norm_num [Req.Due, r, Req.ctor, minInterval]
  have hnot : 1 / 5 ≤ r'.nextRunTick := by norm_num [r', Req.ctor, minInterval]
  intro h
  have hruns : RunsDue sortedQueue _ (1 / 5) := ((h.2 _ hstep).2 _ hstep').1
  exact not_runsDue_of_not_due hlive (List.mem_singleton_self sl') hdue hr hr' hrdue hnot hruns

end Timer
end Lax
