import Mathlib.Data.List.Perm.Subperm
import Lax.Channel.Lemmas.Timer

/-!
This module contains how many slots a timer gets, and which ones its requests come into.
-/

namespace Lax

-- A timer, and history: the intervals that `set` has been called with.
structure TimerSets (α : Type) where
  timer : Timer α
  intervals : List ℚ

namespace TimerSets

open Timer

variable {α : Type} (pq : PriorityQueue (@Entry.lt α))

def intervalOf : Timer.Event α → List ℚ
  | .set interval _ _ _ _ _ => [interval]
  | _ => []

def step (s : TimerSets α) (e : Timer.Event α) : Option (TimerSets α) :=
  (s.timer.step pq e).map fun t => ⟨t, s.intervals ++ intervalOf e⟩

def machine : Machine (TimerSets α) (Timer.Event α) where
  init := ⟨Timer.ctor, []⟩
  step := step pq

def Wide : Timer.Event α → Prop
  | .set interval _ _ _ _ _ => 2 * minInterval ≤ interval
  | _ => True

-- Every request is in a slot that is looked at twice as often, and there is at most one slot for
-- each power of two.
structure Shared (s : TimerSets α) : Prop where
  placed : ∀ sl ∈ s.timer.slots, ∀ r ∈ sl.reqs.items, sl.interval ≤ r.interval / 2
  distinct : (s.timer.slots.map Timer.Slot.interval).Nodup
  length_le : ∀ n, (∀ interval ∈ s.intervals, interval ≤ minInterval * 2 ^ n) →
    s.timer.slots.length ≤ n

-- The step that `set` looks for is not the smallest one that there is a slot for.
def FindsSlot (t : Timer α) : Timer.Event α → Prop
  | .set interval _ _ _ _ _ =>
    let fi := slotInterval (interval / 2) minInterval minInterval le_rfl
    (∃ sl ∈ t.slots, sl.interval = fi) → ∃ sl ∈ t.slots, sl.interval < fi
  | _ => True

variable {pq}

/-!
### The step of an interval
-/

theorem slotInterval_cases (target si fi : ℚ) (h : minInterval ≤ si) (hfi : fi ≤ target)
    {k j : Nat} (hsi : si = minInterval * 2 ^ k) (hpower : fi = minInterval * 2 ^ j) :
    slotInterval target si fi h ≤ target
      ∧
    ∃ k, slotInterval target si fi h = minInterval * 2 ^ k := by
  fun_induction slotInterval target si fi h generalizing k j with
  | case1 si fi h hlt ih =>
    apply ih hlt.le (k := k + 1)
    . rw [hsi, pow_succ, mul_assoc]
    . exact hsi
  | case2 si fi h hlt => exact ⟨hfi, j, hpower⟩

theorem slotInterval_of_wide {interval : ℚ} (h : 2 * minInterval ≤ interval) :
    slotInterval (interval / 2) minInterval minInterval le_rfl ≤ interval / 2
      ∧
    ∃ k, slotInterval (interval / 2) minInterval minInterval le_rfl = minInterval * 2 ^ k := by
  have hpower : minInterval = minInterval * 2 ^ 0 := by
    rw [pow_zero, mul_one]
  apply slotInterval_cases
  . linarith
  . exact hpower
  . exact hpower

theorem power_pos (k : Nat) : 0 < minInterval * 2 ^ k := by
  unfold minInterval
  positivity

theorem lt_of_power_le {k n : Nat} {x : ℚ} (h : minInterval * 2 ^ k ≤ x / 2)
    (hx : x ≤ minInterval * 2 ^ n) : k < n := by
  have hpow : (2 : ℚ) ^ (k + 1) ≤ 2 ^ n := by
    unfold minInterval at h hx
    rw [pow_succ]
    linarith
  exact (pow_le_pow_iff_right₀ one_lt_two).mp hpow

/-!
### The slot of an interval
-/

theorem findSlot_eq_none {interval : ℚ} {slots : List (Timer.Slot α)}
    (h : ∀ sl ∈ slots, ¬sl.interval < interval) (i : Nat) :
    findSlot interval slots i none = none := by
  induction slots generalizing i with
  | nil => rfl
  | cons slt slots ih =>
    rw [List.forall_mem_cons] at h
    unfold findSlot
    rw [if_neg fun hlt => h.1 hlt.1]
    exact ih h.2 (i + 1)

-- What has been found is a slot below the interval.
def Below (interval : ℚ) (slots : List (Timer.Slot α)) (p : Nat × ℚ) : Prop :=
  ∃ sl, slots[p.1]? = some sl ∧ sl.interval = p.2 ∧ p.2 < interval

theorem below_of_findSlot {interval : ℚ} {all slots : List (Timer.Slot α)} {i : Nat}
    {found : Option (Nat × ℚ)} {p : Nat × ℚ} (hslots : slots = all.drop i)
    (hfound : ∀ p ∈ found, Below interval all p) (h : findSlot interval slots i found = some p) :
    Below interval all p := by
  induction slots generalizing i found with
  | nil => exact hfound p h
  | cons slt slots ih =>
    have hslt : all[i]? = some slt := by
      rw [← List.head?_drop, ← hslots, List.head?_cons]
    have hrest : slots = all.drop (i + 1) := by
      rw [← List.tail_drop, ← hslots, List.tail_cons]
    unfold findSlot at h
    split at h
    . next hlt =>
      apply ih hrest _ h
      intro p hp
      cases hp
      exact ⟨slt, hslt, rfl, hlt.1⟩
    . exact ih hrest hfound h

theorem findSlot_ne_none {interval : ℚ} {slots : List (Timer.Slot α)} {i : Nat}
    {found : Option (Nat × ℚ)}
    (h : found ≠ none ∨ ∃ sl ∈ slots, 0 < sl.interval ∧ sl.interval < interval) :
    findSlot interval slots i found ≠ none := by
  induction slots generalizing i found with
  | nil =>
    apply h.resolve_right
    rintro ⟨sl, hsl, -⟩
    cases hsl
  | cons slt slots ih =>
    unfold findSlot
    split
    . apply ih
      left
      exact Option.some_ne_none _
    . next hnot =>
      apply ih
      cases found with
      | some p =>
        left
        exact Option.some_ne_none _
      | none =>
        right
        obtain ⟨sl, hsl, hpos, hlt⟩ := h.resolve_left fun hne => hne rfl
        obtain rfl | hsl := List.mem_cons.mp hsl
        . exact absurd ⟨hlt, hpos⟩ hnot
        . exact ⟨sl, hsl, hpos, hlt⟩

theorem createSlot_of_lt {fi : ℚ} {slots : List (Timer.Slot α)}
    (hpos : ∀ sl ∈ slots, 0 < sl.interval) (h : ∃ sl ∈ slots, sl.interval < fi) :
    ∃ i sl, createSlot slots fi = (slots, i) ∧ slots[i]? = some sl ∧ sl.interval < fi := by
  obtain ⟨sl, hsl, hlt⟩ := h
  have hne : findSlot fi slots 0 none ≠ none := findSlot_ne_none (.inr ⟨sl, hsl, hpos sl hsl, hlt⟩)
  obtain ⟨⟨i, foundInterval⟩, hfound⟩ := Option.ne_none_iff_exists'.mp hne
  have hbelow : Below fi slots (i, foundInterval) := by
    apply below_of_findSlot _ _ hfound
    . rfl
    . intro p hp
      cases hp
  obtain ⟨sl, hi, heq, hlt⟩ := hbelow
  refine ⟨i, sl, ?_, hi, heq ▸ hlt⟩
  unfold createSlot
  rw [hfound]
  exact if_neg (not_lt.mpr hlt.le)

theorem createSlot_of_not_lt {fi : ℚ} {slots : List (Timer.Slot α)}
    (h : ∀ sl ∈ slots, ¬sl.interval < fi) :
    createSlot slots fi = (slots ++ [⟨fi, 0, .empty⟩], slots.length) := by
  unfold createSlot
  rw [findSlot_eq_none h]

/-!
### What an operation does to the slots
-/

-- The slot stays, and no request comes into it.
structure Follows (sl sl' : Timer.Slot α) : Prop where
  interval_eq : sl'.interval = sl.interval
  items : ∀ r' ∈ sl'.reqs.items, ∃ r ∈ sl.reqs.items, r'.interval = r.interval

theorem mem_updateReqs {now : ℚ} {queue : Entries α} {u : Update α} {r' : Req α}
    (h : r' ∈ (updateReqs pq now queue u).1.items) :
    ∃ r ∈ queue.items, r'.interval = r.interval := by
  fun_induction updateReqs pq now queue u with
  | case1 => exact ⟨r', h, rfl⟩
  | case2 queue u e l hitems hdue popped hcancel ih =>
    obtain ⟨r, hr, heq⟩ := ih h
    have hr : r ∈ l := (pq.pop_perm queue e l hitems).mem_iff.mp hr
    exact ⟨r, hitems ▸ List.mem_cons_of_mem e hr, heq⟩
  | case3 queue u e l hitems hdue popped hcancel hagain e' ih =>
    obtain ⟨r, hr, heq⟩ := ih h
    obtain rfl | hr := List.mem_cons.mp ((pq.push_perm popped e').mem_iff.mp hr)
    . exact ⟨e, hitems ▸ List.mem_cons_self, heq⟩
    . have hr : r ∈ l := (pq.pop_perm queue e l hitems).mem_iff.mp hr
      exact ⟨r, hitems ▸ List.mem_cons_of_mem e hr, heq⟩
  | case4 queue u e l hitems hdue popped hcancel hagain ih =>
    obtain ⟨r, hr, heq⟩ := ih h
    have hr : r ∈ l := (pq.pop_perm queue e l hitems).mem_iff.mp hr
    exact ⟨r, hitems ▸ List.mem_cons_of_mem e hr, heq⟩
  | case5 => exact ⟨r', h, rfl⟩

theorem follows_updateSlot (now : ℚ) (sl : Timer.Slot α) (u : Update α) :
    Follows sl (updateSlot pq now sl u).1 := by
  unfold updateSlot
  split
  . exact ⟨rfl, fun r hr => ⟨r, hr, rfl⟩⟩
  . exact ⟨rfl, fun r hr => mem_updateReqs hr⟩

theorem follows_updateSlots (now : ℚ) (slots : List (Timer.Slot α)) (u : Update α) :
    List.Forall₂ Follows slots (updateSlots pq now slots u).1 := by
  induction slots generalizing u with
  | nil => exact .nil
  | cons sl slots ih => exact .cons (follows_updateSlot now sl u) (ih _)

theorem follows_modifyReq (slots : List (Timer.Slot α)) (id : Nat) (f : Req α → Req α)
    (hf : ∀ r, (f r).nextRunTick = r.nextRunTick) (hinterval : ∀ r, (f r).interval = r.interval) :
    List.Forall₂ Follows slots (slots.map (·.modifyReq id f hf)) := by
  rw [List.forall₂_map_right_iff, List.forall₂_same]
  intro sl _
  refine ⟨rfl, ?_⟩
  intro r' hr'
  obtain ⟨r, hr, rfl⟩ := List.mem_map.mp hr'
  refine ⟨r, hr, ?_⟩
  split
  . exact hinterval r
  . rfl

theorem follows_refl (slots : List (Timer.Slot α)) : List.Forall₂ Follows slots slots :=
  List.forall₂_same.mpr fun _ _ => ⟨rfl, fun r hr => ⟨r, hr, rfl⟩⟩

theorem slots_step {t t' : Timer α} {e : Timer.Event α} (hstep : t.step pq e = some t') :
    List.Forall₂ Follows t.slots t'.slots
      ∨
    ∃ interval duration repeats after tick tick',
      e = .set interval duration repeats after tick tick'
        ∧ t' = (t.set pq interval duration repeats after tick tick').2 := by
  cases e with
  | set interval duration repeats after tick tick' =>
    right
    obtain ⟨-, hstep⟩ := Option.ite_none_right_eq_some.mp hstep
    injection hstep with hstep
    exact ⟨interval, duration, repeats, after, tick, tick', rfl, hstep.symm⟩
  | add id act =>
    left
    injection hstep with hstep
    subst hstep
    unfold add
    split
    . exact follows_modifyReq t.slots id _ _ fun _ => rfl
    . exact follows_refl t.slots
  | cancel id =>
    left
    injection hstep with hstep
    subst hstep
    unfold cancel
    split
    . exact follows_modifyReq t.slots id _ _ fun _ => rfl
    . exact follows_refl t.slots
  | update now =>
    left
    obtain ⟨-, hstep⟩ := Option.ite_none_right_eq_some.mp hstep
    injection hstep with hstep
    subst hstep
    apply follows_updateSlots

/-!
### Runs
-/

-- A slot has been made for an interval that `set` has been called with.
structure Made (intervals : List ℚ) (sl : Timer.Slot α) : Prop where
  placed : ∀ r ∈ sl.reqs.items, sl.interval ≤ r.interval / 2
  power : ∃ k, sl.interval = minInterval * 2 ^ k
  asked : ∃ interval ∈ intervals, sl.interval ≤ interval / 2

theorem Made.pos {intervals : List ℚ} {sl : Timer.Slot α} (h : Made intervals sl) :
    0 < sl.interval := by
  obtain ⟨k, hpower⟩ := h.power
  rw [hpower]
  apply power_pos

theorem Made.append {intervals : List ℚ} {sl : Timer.Slot α} (h : Made intervals sl)
    (added : List ℚ) : Made (intervals ++ added) sl := by
  obtain ⟨interval, hmem, hle⟩ := h.asked
  exact ⟨h.placed, h.power, interval, List.mem_append_left added hmem, hle⟩

theorem Made.follows {intervals : List ℚ} {sl sl' : Timer.Slot α} (h : Made intervals sl)
    (hfollows : Follows sl sl') : Made intervals sl' := by
  constructor
  . intro r' hr'
    obtain ⟨r, hr, heq⟩ := hfollows.items r' hr'
    rw [hfollows.interval_eq, heq]
    exact h.placed r hr
  . rw [hfollows.interval_eq]
    exact h.power
  . rw [hfollows.interval_eq]
    exact h.asked

theorem map_interval_of_follows {slots slots' : List (Timer.Slot α)}
    (h : List.Forall₂ Follows slots slots') :
    slots'.map Timer.Slot.interval = slots.map Timer.Slot.interval := by
  induction h with
  | nil => rfl
  | cons hfollows _ ih => rw [List.map_cons, List.map_cons, hfollows.interval_eq, ih]

theorem made_of_follows {intervals : List ℚ} {slots slots' : List (Timer.Slot α)}
    (h : List.Forall₂ Follows slots slots') (hslots : ∀ sl ∈ slots, Made intervals sl) :
    ∀ sl ∈ slots', Made intervals sl := by
  induction h with
  | nil => exact hslots
  | cons hfollows _ ih =>
    rw [List.forall_mem_cons] at hslots ⊢
    exact ⟨hslots.1.follows hfollows, ih hslots.2⟩

-- A slot is made exactly when there is none below the step that is looked for.
theorem createSlot_iff {fi : ℚ} {slots : List (Timer.Slot α)}
    (hpos : ∀ sl ∈ slots, 0 < sl.interval) :
    ∃ created i sl, createSlot slots fi = (created, i) ∧ created[i]? = some sl ∧ sl.interval ≤ fi
      ∧ (created = slots ∧ (∃ sl ∈ slots, sl.interval < fi)
        ∨ created = slots ++ [⟨fi, 0, .empty⟩] ∧ ∀ sl ∈ slots, ¬sl.interval < fi) := by
  by_cases h : ∃ sl ∈ slots, sl.interval < fi
  . obtain ⟨i, sl, hcreate, hi, hlt⟩ := createSlot_of_lt hpos h
    exact ⟨slots, i, sl, hcreate, hi, hlt.le, .inl ⟨rfl, h⟩⟩
  . have hnot : ∀ sl ∈ slots, ¬sl.interval < fi := fun sl hsl hlt => h ⟨sl, hsl, hlt⟩
    refine ⟨_, _, ⟨fi, 0, .empty⟩, createSlot_of_not_lt hnot, ?_, le_rfl, .inr ⟨rfl, hnot⟩⟩
    apply List.getElem?_concat_length

-- The request that is new comes into the slot that has been found or made.
theorem slots_set (pq : PriorityQueue (@Entry.lt α)) {t : Timer α} {interval fi : ℚ}
    {created : List (Timer.Slot α)} {i : Nat}
    (hfi : slotInterval (interval / 2) minInterval minInterval le_rfl = fi)
    (hcreate : createSlot t.slots fi = (created, i)) (duration : ℚ) (repeats : Bool)
    (after tick tick' : ℚ) :
    ∃ f : Timer.Slot α → Timer.Slot α,
      (t.set pq interval duration repeats after tick tick').2.slots = created.modify i f
        ∧ (∀ sl, (f sl).interval = sl.interval)
        ∧ ∀ sl, ∀ r ∈ (f sl).reqs.items,
          r ∈ sl.reqs.items ∨ r.interval = max minInterval interval := by
  unfold Timer.set
  dsimp only
  rw [hfi, hcreate]
  split
  . refine ⟨id, ?_, fun _ => rfl, fun _ r hr => .inl hr⟩
    dsimp only
    rw [List.modify_id]
  . next id seq hnext =>
    refine ⟨_, rfl, fun _ => rfl, ?_⟩
    intro sl r hr
    obtain rfl | hr := List.mem_cons.mp ((pq.push_perm _ _).mem_iff.mp hr)
    . right
      rfl
    . left
      exact hr

theorem made_set {t : Timer α} {intervals : List ℚ} {interval : ℚ}
    (hmade : ∀ sl ∈ t.slots, Made intervals sl) (hwide : 2 * minInterval ≤ interval)
    (duration : ℚ) (repeats : Bool) (after tick tick' : ℚ) :
    ∀ sl ∈ (t.set pq interval duration repeats after tick tick').2.slots,
      Made (intervals ++ [interval]) sl := by
  have hwide' : max minInterval interval = interval := by
    apply max_eq_right
    unfold minInterval at hwide ⊢
    linarith
  obtain ⟨hle, hpower⟩ := slotInterval_of_wide hwide
  obtain ⟨created, i, sl, hcreate, hi, hfi, hcases⟩ :=
    createSlot_iff fun sl hsl => (hmade sl hsl).pos
  obtain ⟨f, hslots, hf, hitems⟩ :=
    slots_set pq rfl hcreate duration repeats after tick tick'
  have hold : ∀ sl ∈ t.slots, Made (intervals ++ [interval]) sl := fun sl hsl =>
    (hmade sl hsl).append [interval]
  have hcreated : ∀ sl ∈ created, Made (intervals ++ [interval]) sl := by
    obtain ⟨rfl, -⟩ | ⟨rfl, -⟩ := hcases
    . exact hold
    . rw [List.forall_mem_append]
      refine ⟨hold, ?_⟩
      intro sl hsl
      rw [List.mem_singleton.mp hsl]
      constructor
      . exact fun r hr => absurd hr List.not_mem_nil
      . exact hpower
      . exact ⟨interval, List.mem_append_right _ (List.mem_singleton_self interval), hle⟩
  rw [hslots]
  apply Cells.forall_mem_modify hcreated
  intro sl' hi'
  rw [hi] at hi'
  cases hi'
  have hsl := hcreated sl (List.mem_of_getElem? hi)
  constructor
  . intro r hr
    rw [hf]
    obtain hr | hr := hitems sl r hr
    . exact hsl.placed r hr
    . rw [hr, hwide']
      exact hfi.trans hle
  . rw [hf]
    exact hsl.power
  . rw [hf]
    exact hsl.asked

-- The only slot that can be there twice is the smallest one.
theorem nodup_set_iff {t : Timer α} (hpos : ∀ sl ∈ t.slots, 0 < sl.interval)
    (hnodup : (t.slots.map Timer.Slot.interval).Nodup) (interval duration : ℚ) (repeats : Bool)
    (after tick tick' : ℚ) :
    ((t.set pq interval duration repeats after tick tick').2.slots.map Timer.Slot.interval).Nodup
      ↔ FindsSlot t (.set interval duration repeats after tick tick') := by
  obtain ⟨created, i, sl, hcreate, -, -, hcases⟩ := createSlot_iff hpos
  obtain ⟨f, hslots, hf, -⟩ :=
    slots_set pq rfl hcreate duration repeats after tick tick'
  rw [hslots, Cells.map_modify_of_eq hf]
  obtain ⟨rfl, hlt⟩ | ⟨rfl, hnot⟩ := hcases
  . exact iff_of_true hnodup fun _ => hlt
  . have hno : ¬∃ sl ∈ t.slots, sl.interval < _ := fun ⟨sl, hsl, hlt⟩ => hnot sl hsl hlt
    unfold FindsSlot
    dsimp only
    rw [List.map_append, List.map_singleton, ← List.concat_eq_append, List.nodup_concat,
      and_iff_left hnodup, List.mem_map]
    exact (imp_iff_not hno).symm

theorem Shared.of_nodup {s : TimerSets α} (hmade : ∀ sl ∈ s.timer.slots, Made s.intervals sl)
    (hnodup : (s.timer.slots.map Timer.Slot.interval).Nodup) : Shared s := by
  constructor
  . exact fun sl hsl => (hmade sl hsl).placed
  . exact hnodup
  . intro n hn
    have hsubset : s.timer.slots.map Timer.Slot.interval
        ⊆ (List.range n).map fun k => minInterval * 2 ^ k := by
      intro x hx
      obtain ⟨sl, hsl, rfl⟩ := List.mem_map.mp hx
      obtain ⟨k, hpower⟩ := (hmade sl hsl).power
      obtain ⟨interval, hmem, hle⟩ := (hmade sl hsl).asked
      rw [hpower] at hle ⊢
      apply List.mem_map_of_mem (f := fun k => minInterval * 2 ^ k)
      apply List.mem_range.mpr
      exact lt_of_power_le hle (hn interval hmem)
    have hlength := (hnodup.subperm hsubset).length_le
    rw [List.length_map, List.length_map, List.length_range] at hlength
    exact hlength

theorem made_step {s s' : TimerSets α} {e : Timer.Event α}
    (hmade : ∀ sl ∈ s.timer.slots, Made s.intervals sl) (hwide : Wide e)
    (hstep : (machine pq).step s e = some s') : ∀ sl ∈ s'.timer.slots, Made s'.intervals sl := by
  obtain ⟨t, htimer, rfl⟩ := Option.map_eq_some_iff.mp hstep
  obtain hfollows | ⟨interval, duration, repeats, after, tick, tick', rfl, rfl⟩ := slots_step htimer
  . intro sl hsl
    exact (made_of_follows hfollows hmade sl hsl).append (intervalOf e)
  . exact made_set hmade hwide duration repeats after tick tick'

theorem nodup_step_iff {s s' : TimerSets α} {e : Timer.Event α}
    (hmade : ∀ sl ∈ s.timer.slots, Made s.intervals sl)
    (hnodup : (s.timer.slots.map Timer.Slot.interval).Nodup)
    (hstep : (machine pq).step s e = some s') :
    (s'.timer.slots.map Timer.Slot.interval).Nodup ↔ FindsSlot s.timer e := by
  obtain ⟨t, htimer, rfl⟩ := Option.map_eq_some_iff.mp hstep
  cases e with
  | set interval duration repeats after tick tick' =>
    obtain ⟨-, htimer⟩ := Option.ite_none_right_eq_some.mp htimer
    injection htimer with htimer
    subst htimer
    apply nodup_set_iff _ hnodup
    exact fun sl hsl => (hmade sl hsl).pos
  | _ =>
    obtain hfollows | ⟨_, _, _, _, _, _, heq, -⟩ := slots_step htimer
    . dsimp only
      rw [map_interval_of_follows hfollows]
      exact iff_of_true hnodup trivial
    . contradiction

/--
The requests share the slots, each in one that is looked at twice as often as it is to be run, if
and only if no call of `set` looks for the smallest step that there is a slot for.
-/
theorem shared_iff_findsSlot (pq : PriorityQueue (@Entry.lt α)) (es : List (Timer.Event α))
    (h : ∀ e ∈ es, Wide e) :
    (machine pq).Along (fun s e => ∀ s', (machine pq).step s e = some s' → Shared s')
        (machine pq).init es
      ↔
    (machine pq).Along (fun s e => ∀ s', (machine pq).step s e = some s' → FindsSlot s.timer e)
        (machine pq).init es := by
  apply Machine.along_congr_on fun s => (∀ sl ∈ s.timer.slots, Made s.intervals sl)
    ∧ (s.timer.slots.map Timer.Slot.interval).Nodup
  . intro s e s' ⟨hmade, hnodup⟩ hwide hfinds hstep
    exact ⟨made_step hmade hwide hstep, (nodup_step_iff hmade hnodup hstep).mpr (hfinds s' hstep)⟩
  . intro s e ⟨hmade, hnodup⟩ hwide
    apply forall₂_congr
    intro s' hstep
    rw [← nodup_step_iff hmade hnodup hstep]
    exact ⟨Shared.distinct, Shared.of_nodup (made_step hmade hwide hstep)⟩
  . exact h
  . exact ⟨fun sl hsl => absurd hsl List.not_mem_nil, List.nodup_nil⟩

theorem step_of_timer {s : TimerSets α} {t : Timer α} {e : Timer.Event α}
    (htimer : (Timer.machine pq).step s.timer e = some t) :
    (machine pq).step s e = some ⟨t, s.intervals ++ intervalOf e⟩ :=
  Option.map_eq_some_iff.mpr ⟨t, htimer, rfl⟩

def shortest : Timer.Event Unit :=
  .set (1 / 50) 0 true 0 0 0

theorem wide_shortest : Wide shortest := by
  unfold Wide shortest minInterval
  norm_num

theorem slotInterval_shortest :
    slotInterval (1 / 50 / 2) minInterval minInterval le_rfl = 1 / 100 := by
  unfold slotInterval
  norm_num [minInterval]

-- The only request is in the only slot.
def once (seq : Sequence) : TimerSets Unit :=
  let r := Req.ctor 1 (1 / 50) 0 0 true 0 0
  ⟨⟨[⟨1 / 100, 0, sortedQueue.push .empty r⟩], [1], seq, 0⟩, [1 / 50]⟩

theorem run_shortest :
    ∃ seq seq', (machine sortedQueue).step (machine sortedQueue).init shortest = some (once seq)
      ∧ seq.next = some (2, seq')
      ∧ ∀ e s, (machine sortedQueue).step (once seq) e = some s →
        (machine sortedQueue).run (machine sortedQueue).init [shortest, e] = some s := by
  have hids : ∃ seq, (Timer.ctor : Timer Unit).seq.next = some (1, seq)
      ∧ ∃ seq', seq.next = some (2, seq') := ⟨_, rfl, _, rfl⟩
  obtain ⟨seq, hnext, seq', hnext'⟩ := hids
  have hstep : (machine sortedQueue).step (machine sortedQueue).init shortest = some (once seq) :=
    step_of_timer (step_set ⟨le_refl 0, le_refl 0⟩ slotInterval_shortest rfl hnext)
  refine ⟨seq, seq', hstep, hnext', ?_⟩
  intro e s h
  simp only [Machine.run, hstep, h, Option.bind_some]

theorem shared_iff_findsSlot_two :
    let longer : Timer.Event Unit := .set (1 / 20) 0 true 0 0 0
    (machine sortedQueue).Along
        (fun s e => ∀ s', (machine sortedQueue).step s e = some s' → Shared s')
        (machine sortedQueue).init [shortest, longer]
      ∧ ∃ s, (machine sortedQueue).run (machine sortedQueue).init [shortest, longer] = some s
        ∧ s.timer.slots.length = 1 := by
  intro longer
  have hwide : ∀ e ∈ [shortest, longer], Wide e := by
    rw [List.forall_mem_cons, List.forall_mem_singleton]
    refine ⟨wide_shortest, ?_⟩
    unfold longer Wide minInterval
    norm_num
  obtain ⟨seq, seq', hfirst, hnext, hrun⟩ := run_shortest
  have hfi : slotInterval (1 / 20 / 2) minInterval minInterval le_rfl = 1 / 50 := by
    unfold slotInterval slotInterval slotInterval
    norm_num [minInterval]
  have hlt : (1 / 100 : ℚ) < 1 / 50 := by norm_num
  constructor
  . rw [shared_iff_findsSlot sortedQueue [shortest, longer] hwide]
    refine ⟨?_, ?_⟩
    . rintro s' - ⟨sl, hsl, -⟩
      cases hsl
    . intro s' hs'
      rw [hfirst] at hs'
      cases hs'
      refine ⟨?_, fun _ _ => trivial⟩
      intro _ _ _
      exact ⟨_, List.mem_singleton_self _, hfi ▸ hlt⟩
  . have hcreate : createSlot (once seq).timer.slots (1 / 50) = ((once seq).timer.slots, 0) := by
      simp [createSlot, once, findSlot]
      norm_num
    refine ⟨_, hrun longer _ (step_of_timer (step_set ⟨le_refl 0, le_refl 0⟩ hfi hcreate hnext)), ?_⟩
    rfl

-- The second request finds no slot, although there is one with the interval that it looks for.
theorem exists_not_shared :
    ∃ s, (machine sortedQueue).run (machine sortedQueue).init [shortest, shortest] = some s
      ∧ s.timer.slots.map Timer.Slot.interval = [1 / 100, 1 / 100] ∧ ¬Shared s := by
  obtain ⟨seq, seq', -, hnext, hrun⟩ := run_shortest
  have hcreate : createSlot (once seq).timer.slots (1 / 100)
      = ((once seq).timer.slots ++ [⟨1 / 100, 0, .empty⟩], 1) := by
    apply createSlot_of_not_lt
    intro sl hsl
    rw [List.mem_singleton.mp hsl]
    exact lt_irrefl _
  refine ⟨_, hrun shortest _ (step_of_timer (step_set ⟨le_refl 0, le_refl 0⟩ slotInterval_shortest
    hcreate hnext)), rfl, ?_⟩
  intro hshared
  exact absurd hshared.distinct (List.not_nodup_cons_of_mem List.mem_cons_self)

end TimerSets
end Lax
