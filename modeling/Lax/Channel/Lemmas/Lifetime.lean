import Lax.Channel.Lemmas.Visits

/-!
This module contains how often a request is run, and how long a timer knows it.
-/

namespace Lax
namespace SharedTimer

open Timer (Req again)

variable {ω : Type} {t t' t'' : SharedTimer ω} {p id : Nat} {r : Req (TimerAction ω)}
  {pq : KeyedQueue Nat ℚ} {now : ℚ} {i : Nat} {vs : List (Visit ω)} {made : Nat → Option (Made ω)}
  {runs : List (Nat × ℚ)} {m : Made ω}

def Known (t : SharedTimer ω) (p : Nat) : Prop :=
  ∃ id, (id, p) ∈ t.reqs

def ticksOf (runs : List (Nat × ℚ)) (p : Nat) : List ℚ :=
  (runs.filter fun run => run.1 = p).map Prod.snd

namespace History

-- What has been asked for is what the request gets.
structure Honours (s : History ω) (p : Nat) (m : Made ω) : Prop where
  once : m.req.repeats = false →
    (ticksOf s.runs p).length ≤ 1 ∧ (ticksOf s.runs p ≠ [] → ¬s.timer.Known p)
  ended : m.req.repeats = true → 0 < m.duration →
    ((ticksOf s.runs p).filter fun now => m.req.endRunTick ≤ now).length ≤ 1
      ∧ ∀ now ∈ ticksOf s.runs p, m.req.endRunTick ≤ now → ¬s.timer.Known p
  forever : m.req.repeats = true → m.duration = 0 →
    s.timer.Known p ∨ .cancelled p ∈ s.timer.log
  apart : (ticksOf s.runs p).Pairwise fun now now' => now + m.req.interval ≤ now'

def Honoured (s : History ω) : Prop :=
  ∀ p m, s.made p = some m → s.Honours p m

end History

-- A request that is not to be repeated is not run before its end, and one with an end not from then
-- on.
def Visit.Ends (made : Nat → Option (Made ω)) (now : ℚ) (v : Visit ω) : Prop :=
  ∀ m, made v.p = some m →
    (m.req.repeats = false → m.req.endRunTick ≤ now)
      ∧ (m.req.repeats = true → 0 < m.duration → now < m.req.endRunTick)

def History.EndsAt (pq : KeyedQueue Nat ℚ) (s : History ω) : Event ω → Prop
  | .update now => ∀ v ∈ s.timer.visits pq now, v.Ends s.made now
  | _ => True

/-!
### What a timer and its history have to do with each other
-/

theorem mem_ticksOf {x : ℚ} : x ∈ ticksOf runs p ↔ (p, x) ∈ runs := by
  simp [ticksOf]

theorem ticksOf_append (runs runs' : List (Nat × ℚ)) (p : Nat) :
    ticksOf (runs ++ runs') p = ticksOf runs p ++ ticksOf runs' p := by
  simp [ticksOf]

theorem ticksOf_singleton_self (p : Nat) (x : ℚ) : ticksOf [(p, x)] p = [x] := by
  simp [ticksOf]

theorem ticksOf_singleton_of_ne {q : Nat} (hne : q ≠ p) (x : ℚ) : ticksOf [(p, x)] q = [] := by
  simp [ticksOf, hne.symm]

structure Tracks (t : SharedTimer ω) (made : Nat → Option (Made ω)) (runs : List (Nat × ℚ)) :
    Prop where
  made_lt : ∀ p m, made p = some m → p < t.fresh
  runs_lt : ∀ p x, (p, x) ∈ runs → p < t.fresh
  objs : ∀ p r, t.objs p = some r → ∃ m, made p = some m ∧ r.interval = m.req.interval
    ∧ r.repeats = m.req.repeats ∧ r.endRunTick = m.req.endRunTick
  next : ∀ p ∈ t.queued, ∀ r, t.objs p = some r → ∀ x, (p, x) ∈ runs → x + r.interval ≤ r.nextRunTick
  apart : ∀ p m, made p = some m → (ticksOf runs p).Pairwise fun x y => x + m.req.interval ≤ y
  once : ∀ p m, made p = some m → m.req.repeats = false →
    (ticksOf runs p).length ≤ 1 ∧ (ticksOf runs p ≠ [] → p ∉ t.queued)
  early : ∀ p m, made p = some m → m.req.repeats = true → 0 < m.duration →
    ∀ x ∈ ticksOf runs p, x < m.req.endRunTick
  kept : ∀ p m, made p = some m → m.req.repeats = true → t.Known p ∨ .cancelled p ∈ t.log

-- Nothing but a cancellation makes a request unknown.
def Keeps (t t' : SharedTimer ω) : Prop :=
  ∀ p, t.Known p → t'.Known p ∨ .cancelled p ∈ t'.log

theorem keeps_of_reqs (h : t'.reqs = t.reqs) : Keeps t t' := by
  rintro p ⟨id, hmem⟩
  left
  exact ⟨id, h ▸ hmem⟩

theorem Keeps.trans (h : Keeps t t') (h' : Keeps t' t'') (hlog : t'.log <+: t''.log) :
    Keeps t t'' := by
  intro p hp
  obtain hp | hp := h p hp
  . exact h' p hp
  . right
    exact hlog.subset hp

@[simp]
theorem reqs_collect (t : SharedTimer ω) (p : Nat) : (t.collect p).reqs = t.reqs := by
  unfold collect
  split
  . rfl
  . split <;> rfl

theorem reqs_assign (t : SharedTimer ω) (e : Option Nat) : (t.assign e).reqs = t.reqs := by
  unfold assign
  split
  . rfl
  . apply reqs_collect

theorem reqs_erase (t : SharedTimer ω) (id p : Nat) :
    (t.erase id p).reqs = t.reqs.eraseP fun entry => entry.1 = id := by
  unfold erase
  rw [reqs_collect]

theorem keeps_cancel {held : List (Nat × Nat)} (h : Good t held) (id : Nat) :
    Keeps t (t.cancel id).2 := by
  rintro p ⟨id', hmem⟩
  cases hfind : t.find id with
  | none =>
    left
    unfold cancel
    rw [hfind]
    exact ⟨id', hmem⟩
  | some q =>
    by_cases heq : id' = id
    . right
      have hq := List.inj_on_of_nodup_map h.tables.keys hmem (mem_of_find hfind) heq
      cases hq
      rw [log_cancel, hfind]
      exact List.mem_append_right _ List.mem_cons_self
    . left
      refine ⟨id', ?_⟩
      unfold cancel
      rw [hfind]
      dsimp only
      rw [reqs_erase]
      exact (mem_eraseP_iff h.tables.keys id (id', p)).mpr ⟨hmem, heq⟩

theorem keeps_runScript {held : List (Nat × Nat)} (h : Good t held) (script : TimerScript ω) :
    Keeps t (t.runScript script) := by
  induction script generalizing t with
  | ret w => exact keeps_of_reqs rfl
  | cancel id next ih =>
    have hcancel := h.cancel id
    exact (keeps_cancel h id).trans (ih _ hcancel) (Follows.runScript hcancel _).log
  | has id next ih => exact ih _ h

theorem keeps_runActions {held : List (Nat × Nat)} (h : Good t held) (p id : Nat)
    (acts : List (TimerAction ω)) : Keeps t (t.runActions p id acts) := by
  induction acts generalizing t with
  | nil => exact keeps_of_reqs rfl
  | cons act acts ih =>
    have hstarted := h.note (.started p)
    have hscript := hstarted.runScript (act id t.world)
    apply Keeps.trans _ (ih hscript) (Follows.runActions hscript p id acts).log
    exact keeps_runScript hstarted _

theorem keeps_runAt {held : List (Nat × Nat)} (h : Good t held) (now : ℚ) (p : Nat)
    (r : Req (TimerAction ω)) : Keeps t (t.runAt now p r) := by
  exact keeps_runActions (h.lastRunTick now p) p r.id r.actions

namespace Tracks

theorem follows (h : Tracks t made runs) (hfollows : Follows t t')
    (hkeeps : ∀ p m, made p = some m → m.req.repeats = true → t.Known p →
      t'.Known p ∨ .cancelled p ∈ t'.log) : Tracks t' made runs := by
  have hqueued : t'.queued = t.queued := by
    unfold queued
    rw [hfollows.slots_eq]
  constructor
  . rw [hfollows.fresh_eq]
    exact h.made_lt
  . rw [hfollows.fresh_eq]
    exact h.runs_lt
  . intro p r' hobj'
    obtain ⟨r, hobj, hsame⟩ := hfollows.objs p r' hobj'
    rw [hsame.interval, hsame.repeats, hsame.endRunTick]
    exact h.objs p r hobj
  . intro p hp r' hobj' x hx
    obtain ⟨r, hobj, hsame⟩ := hfollows.objs p r' hobj'
    rw [hqueued] at hp
    rw [hsame.interval, hsame.nextRunTick]
    exact h.next p hp r hobj x hx
  . exact h.apart
  . rw [hqueued]
    exact h.once
  . exact h.early
  . intro p m hmade hrepeats
    obtain hknown | hcancelled := h.kept p m hmade hrepeats
    . exact hkeeps p m hmade hrepeats hknown
    . right
      exact hfollows.log.subset hcancelled

theorem follows_of_reqs (h : Tracks t made runs) (hfollows : Follows t t')
    (hreqs : t'.reqs = t.reqs) : Tracks t' made runs :=
  h.follows hfollows fun p _ _ _ hknown => keeps_of_reqs hreqs p hknown

theorem assign (h : Tracks t made runs) (e : Option Nat) : Tracks (t.assign e) made runs :=
  h.follows_of_reqs (Follows.assign t e) (reqs_assign t e)

theorem runAt {held : List (Nat × Nat)} (h : Tracks t made runs) (hgood : Good t held) (now : ℚ)
    (p : Nat) (r : Req (TimerAction ω)) : Tracks (t.runAt now p r) made runs :=
  h.follows (Follows.runAt hgood now p r) fun q _ _ _ hknown => keeps_runAt hgood now p r q hknown

theorem pop (h : Tracks t made runs) (htop : t.top i = some p) : Tracks (t.pop pq i) made runs := by
  have hsub : ∀ q ∈ (t.pop pq i).queued, q ∈ t.queued := fun q hq =>
    (queued_pop htop).mem_iff.mpr (List.mem_cons_of_mem p hq)
  constructor
  . exact h.made_lt
  . exact h.runs_lt
  . exact h.objs
  . exact fun q hq => h.next q (hsub q hq)
  . exact h.apart
  . intro q m hmade hrepeats
    obtain ⟨hlength, hnot⟩ := h.once q m hmade hrepeats
    exact ⟨hlength, fun hne hq => hnot hne (hsub q hq)⟩
  . exact h.early
  . exact h.kept

-- The request that has been taken out is run.
theorem visit (h : Tracks t made runs) (hobj : t.objs p = some r) (hp : p ∉ t.queued)
    (hnext : ∀ x, (p, x) ∈ runs → x + r.interval ≤ now)
    (hfirst : r.repeats = false → ticksOf runs p = [])
    (hearly : ∀ m, made p = some m → m.req.repeats = true → 0 < m.duration → now < m.req.endRunTick) :
    Tracks t made (runs ++ [(p, now)]) := by
  have hself : ticksOf (runs ++ [(p, now)]) p = ticksOf runs p ++ [now] := by
    rw [ticksOf_append, ticksOf_singleton_self]
  have hother : ∀ q, q ≠ p → ticksOf (runs ++ [(p, now)]) q = ticksOf runs q := by
    intro q hne
    rw [ticksOf_append, ticksOf_singleton_of_ne hne, List.append_nil]
  obtain ⟨m, hmade, hinterval, hrepeats, -⟩ := h.objs p r hobj
  constructor
  . exact h.made_lt
  . intro q x hx
    obtain hx | hx := List.mem_append.mp hx
    . exact h.runs_lt q x hx
    . cases List.mem_singleton.mp hx
      exact h.made_lt p m hmade
  . exact h.objs
  . intro q hq r' hobj' x hx
    obtain hx | hx := List.mem_append.mp hx
    . exact h.next q hq r' hobj' x hx
    . cases List.mem_singleton.mp hx
      exact absurd hq hp
  . intro q m' hmade'
    by_cases heq : q = p
    . subst heq
      cases hmade.symm.trans hmade'
      rw [hself, List.pairwise_append]
      refine ⟨h.apart q m hmade, List.pairwise_singleton _ _, ?_⟩
      intro x hx y hy
      rw [List.mem_singleton.mp hy, ← hinterval]
      exact hnext x (mem_ticksOf.mp hx)
    . rw [hother q heq]
      exact h.apart q m' hmade'
  . intro q m' hmade' hrepeats'
    by_cases heq : q = p
    . subst heq
      cases hmade.symm.trans hmade'
      rw [hself, hfirst (hrepeats.trans hrepeats')]
      exact ⟨Nat.le_refl 1, fun _ => hp⟩
    . rw [hother q heq]
      exact h.once q m' hmade' hrepeats'
  . intro q m' hmade' hrepeats' hduration x hx
    by_cases heq : q = p
    . subst heq
      rw [hself] at hx
      obtain hx | hx := List.mem_append.mp hx
      . exact h.early q m' hmade' hrepeats' hduration x hx
      . rw [List.mem_singleton.mp hx]
        exact hearly m' hmade' hrepeats' hduration
    . rw [hother q heq] at hx
      exact h.early q m' hmade' hrepeats' hduration x hx
  . exact h.kept

-- It is put back in.
theorem push (h : Tracks t made runs) (pq : KeyedQueue Nat ℚ) (hobj : t.objs p = some r)
    (hi : i < t.slots.length) (hnow : ∀ x, (p, x) ∈ runs → x ≤ now) (hrepeats : r.repeats = true) :
    Tracks ((t.later now p).push pq i p) made runs := by
  have hqueued : ((t.later now p).push pq i p).queued.Perm (p :: t.queued) :=
    (flatMap_push pq _ hi p).symm
  have hself : (t.later now p).objs p = some { r with nextRunTick := now + r.interval } := by
    unfold SharedTimer.later
    rw [objs_modify_self, hobj]
    rfl
  have hother : ∀ q, q ≠ p → (t.later now p).objs q = t.objs q := fun q hne =>
    objs_modify_of_ne t hne _
  constructor
  . exact h.made_lt
  . exact h.runs_lt
  . intro q r' hobj'
    change (t.later now p).objs q = some r' at hobj'
    by_cases heq : q = p
    . subst heq
      rw [hself] at hobj'
      cases hobj'
      exact h.objs q r hobj
    . rw [hother q heq] at hobj'
      exact h.objs q r' hobj'
  . intro q hq r' hobj' x hx
    change (t.later now p).objs q = some r' at hobj'
    by_cases heq : q = p
    . subst heq
      rw [hself] at hobj'
      cases hobj'
      have hle := hnow x hx
      dsimp only
      linarith
    . rw [hother q heq] at hobj'
      have hq := List.mem_of_ne_of_mem heq (hqueued.mem_iff.mp hq)
      exact h.next q hq r' hobj' x hx
  . exact h.apart
  . intro q m hmade hrepeats'
    obtain ⟨hlength, hnot⟩ := h.once q m hmade hrepeats'
    refine ⟨hlength, ?_⟩
    intro hne hq
    by_cases heq : q = p
    . subst heq
      obtain ⟨m', hmade', -, hsame, -⟩ := h.objs q r hobj
      cases hmade.symm.trans hmade'
      exact nomatch hrepeats.symm.trans (hsame.trans hrepeats')
    . exact hnot hne (List.mem_of_ne_of_mem heq (hqueued.mem_iff.mp hq))
  . exact h.early
  . exact h.kept

-- It is forgotten.
theorem removeEndReq (h : Tracks t made runs) (hgood : Good t [(p, id)]) (hobj : t.objs p = some r)
    (hrepeats : r.repeats = false) : Tracks (t.removeEndReq id) made runs := by
  apply h.follows (Follows.removeEndReq t id)
  rintro q m hmade hrepeats' ⟨id', hmem⟩
  left
  refine ⟨id', ?_⟩
  unfold SharedTimer.removeEndReq
  cases hfind : t.find id with
  | none => exact hmem
  | some p' =>
    dsimp only
    rw [reqs_erase]
    apply (mem_eraseP_iff hgood.tables.keys id (id', q)).mpr
    refine ⟨hmem, ?_⟩
    intro hid
    -- Nobody else has this id.
    obtain ⟨r', hobj', hid'⟩ := hgood.exists_held
    obtain ⟨-, rq, hq, hidq, -⟩ := hgood.tables.known id' q hmem
    cases hgood.objs.ids q p rq r' hq hobj' (hidq.trans (hid.trans hid'.symm))
    obtain ⟨m', hmade', -, hsame, -⟩ := h.objs p r hobj
    cases hmade.symm.trans hmade'
    exact nomatch hrepeats.symm.trans (hsame.trans hrepeats')

end Tracks

/-!
### Updates
-/

theorem add_interval_le (h : Tracks t made runs) (htop : t.top i = some p)
    (hobj : (t.assign (some p)).objs p = some r) (hdue : r.nextRunTick < now) {x : ℚ}
    (hx : (p, x) ∈ runs) : x + r.interval ≤ now := by
  have hp : p ∈ (t.assign (some p)).queued := by
    apply mem_queued_of_top
    rwa [top_assign]
  exact ((h.assign (some p)).next p hp r hobj x hx).trans hdue.le

theorem repeats_of_again (h : Tracks t made runs) (hobj : t.objs p = some r)
    (hagain : again r now = true)
    (hends : ∀ m, made p = some m → m.req.repeats = false → m.req.endRunTick ≤ now) :
    r.repeats = true := by
  obtain ⟨m, hmade, -, hrepeats, hend⟩ := h.objs p r hobj
  unfold again at hagain
  rw [Bool.or_eq_true, decide_eq_true_eq] at hagain
  by_contra hnot
  rw [Bool.not_eq_true] at hnot
  have hle := hends m hmade (hrepeats.symm.trans hnot)
  rw [hnot, hend] at hagain
  exact absurd (hagain.resolve_left Bool.false_ne_true) (not_lt.mpr hle)

theorem repeats_of_not_again (hagain : again r now = false) : r.repeats = false := by
  unfold again at hagain
  rw [Bool.or_eq_false_iff] at hagain
  exact hagain.1

-- The request that has come out of the queue has been run.
theorem tracks_visit (hgood : Good t []) (h : Tracks t made runs) (htop : t.top i = some p)
    (hobj : (t.assign (some p)).objs p = some r) (hdue : r.nextRunTick < now)
    (hends : ∀ m, made p = some m → m.req.repeats = true → 0 < m.duration → now < m.req.endRunTick) :
    Tracks (((t.assign (some p)).pop pq i).runAt now p r) made (runs ++ [(p, now)]) := by
  have hassign := h.assign (some p)
  have htop' : (t.assign (some p)).top i = some p := by
    rwa [top_assign]
  have hp := mem_queued_of_top htop'
  have hpopped : Good ((t.assign (some p)).pop pq i) [(p, r.id)] := hgood.popped htop hobj
  apply Tracks.runAt _ hpopped
  apply (hassign.pop htop').visit hobj
  . exact (List.nodup_cons.mp hpopped.tables.nodup).1
  . exact fun x hx => add_interval_le h htop hobj hdue hx
  . intro hrepeats
    obtain ⟨m, hmade, -, hsame, -⟩ := hassign.objs p r hobj
    by_contra hne
    exact (hassign.once p m hmade (hsame.symm.trans hrepeats)).2 hne hp
  . exact hends

theorem exists_ran (hgood : Good t []) (htop : t.top i = some p)
    (hobj : (t.assign (some p)).objs p = some r) (pq : KeyedQueue Nat ℚ) (now : ℚ) :
    ∃ r', (((t.assign (some p)).pop pq i).runAt now p r).objs p = some r'
      ∧ r'.repeats = r.repeats := by
  have hpopped : Good ((t.assign (some p)).pop pq i) [(p, r.id)] := hgood.popped htop hobj
  obtain ⟨r', hobj', -⟩ := (hpopped.runAt now p r).exists_held
  obtain ⟨r'', hobj'', hsame⟩ := (Follows.runAt hpopped now p r).objs p r' hobj'
  cases hobj''.symm.trans hobj
  exact ⟨r', hobj', hsame.repeats⟩

-- What a visit leaves, whether the request is to be run again or not.
theorem visited (hgood : Good t []) (h : Tracks t made runs) (htop : t.top i = some p)
    (hobj : (t.assign (some p)).objs p = some r) (hdue : r.nextRunTick < now)
    (hends : ∀ m, made p = some m → m.req.repeats = true → 0 < m.duration → now < m.req.endRunTick) :
    Good (((t.assign (some p)).pop pq i).runAt now p r) [(p, r.id)]
      ∧ Tracks (((t.assign (some p)).pop pq i).runAt now p r) made (runs ++ [(p, now)])
      ∧ ∃ r', (((t.assign (some p)).pop pq i).runAt now p r).objs p = some r'
        ∧ r'.repeats = r.repeats := by
  have hpopped : Good ((t.assign (some p)).pop pq i) [(p, r.id)] := hgood.popped htop hobj
  refine ⟨hpopped.runAt now p r, ?_, exists_ran hgood htop hobj pq now⟩
  exact tracks_visit hgood h htop hobj hdue hends

theorem le_now_of_visit (h : Tracks t made runs) (htop : t.top i = some p)
    (hobj : (t.assign (some p)).objs p = some r) (hdue : r.nextRunTick < now) {x : ℚ}
    (hx : (p, x) ∈ runs ++ [(p, now)]) : x ≤ now := by
  obtain hx | hx := List.mem_append.mp hx
  . have hle := add_interval_le h htop hobj hdue hx
    have hpos := r.minInterval_le
    unfold Timer.minInterval at hpos
    linarith
  . cases List.mem_singleton.mp hx
    exact le_rfl

theorem tracks_of_loop (h : Loop pq now i t vs t') (hgood : Good t []) (htracks : Tracks t made runs)
    (hends : ∀ v ∈ vs, v.Ends made now) :
    Good t' [] ∧ Tracks t' made (runs ++ vs.map fun v => (v.p, now)) := by
  induction h generalizing runs with
  | empty htop =>
    rw [List.map_nil, List.append_nil]
    exact ⟨hgood.assign none, htracks.assign none⟩
  | gone htop hobj =>
    rw [List.map_nil, List.append_nil]
    exact ⟨hgood.assign _, htracks.assign _⟩
  | @cancelled t t' vs p r htop hobj hcancel hrest ih =>
    have hpopped : Good ((t.assign (some p)).pop pq i) [(p, r.id)] := hgood.popped htop hobj
    have htop' : (t.assign (some p)).top i = some p := by
      rwa [top_assign]
    exact ih (hpopped.drop hobj hcancel) ((htracks.assign _).pop htop') hends
  | @again t t' vs p r htop hobj hdue hcancel hagain hrest ih =>
    rw [List.forall_mem_cons] at hends
    obtain ⟨hran, hvisit, r', hobj', hsame⟩ :=
      visited hgood htracks htop hobj hdue fun m hmade => (hends.1 m hmade).2
    have hrepeats := repeats_of_again (htracks.assign (some p)) hobj hagain fun m hmade =>
      (hends.1 m hmade).1
    have hi : i < (((t.assign (some p)).pop pq i).runAt now p r).slots.length :=
      lt_length_of_runAt htop now r
    have hnow : ∀ x, (p, x) ∈ runs ++ [(p, now)] → x ≤ now :=
      fun x hx => le_now_of_visit htracks htop hobj hdue hx
    have hpush := hvisit.push pq hobj' hi hnow (hsame.trans hrepeats)
    have hrest := ih ((hran.later now).push hi) hpush hends.2
    rw [List.append_assoc, List.singleton_append] at hrest
    exact hrest
  | @ended t t' vs p r htop hobj hdue hcancel hagain hrest ih =>
    rw [List.forall_mem_cons] at hends
    obtain ⟨hran, hvisit, r', hobj', hsame⟩ :=
      visited hgood htracks htop hobj hdue fun m hmade => (hends.1 m hmade).2
    have hrepeats := hsame.trans (repeats_of_not_again hagain)
    have hrest := ih hran.removeEndReq (hvisit.removeEndReq hran hobj' hrepeats) hends.2
    rw [List.append_assoc, List.singleton_append] at hrest
    exact hrest
  | notDue htop hobj hdue =>
    rw [List.map_nil, List.append_nil]
    exact ⟨(hgood.assign _).assign _, (htracks.assign _).assign _⟩

theorem Tracks.of_queued (h : Tracks t made runs) {slots : List Slot}
    (hqueued : { t with slots := slots }.queued = t.queued) :
    Tracks { t with slots := slots } made runs := by
  constructor
  . exact h.made_lt
  . exact h.runs_lt
  . exact h.objs
  . rw [hqueued]
    exact h.next
  . exact h.apart
  . rw [hqueued]
    exact h.once
  . exact h.early
  . exact h.kept

theorem tracks_of_loops {is : List Nat} (h : Loops pq now is t vs t') (hgood : Good t [])
    (htracks : Tracks t made runs) (hends : ∀ v ∈ vs, v.Ends made now) :
    Tracks t' made (runs ++ vs.map fun v => (v.p, now)) := by
  induction h generalizing runs with
  | nil =>
    rw [List.map_nil, List.append_nil]
    exact htracks
  | skip hrest ih => exact ih hgood htracks hends
  | @slot t t' t'' vs vs' i is hloop hrest ih =>
    rw [List.forall_mem_append] at hends
    have hlooked := htracks.of_queued (queued_looked t now i)
    obtain ⟨hgood', htracks'⟩ := tracks_of_loop hloop (hgood.looked now i) hlooked hends.1
    rw [List.map_append, ← List.append_assoc]
    exact ih hgood' htracks' hends.2

/-!
### Runs
-/

namespace History

variable {s s' : History ω}

def Tracked (s : History ω) : Prop :=
  Idle s.timer ∧ Tracks s.timer s.made s.runs

theorem queued_createSlot (t : SharedTimer ω) (fi : ℚ) :
    { t with slots := (createSlot t.slots fi).1 }.queued = t.queued := by
  unfold queued
  obtain ⟨-, heq | ⟨sl, hqueue, heq⟩⟩ := createSlot_eq t.slots fi
  . rw [heq]
  . rw [heq, List.flatMap_append, List.flatMap_singleton, hqueue, List.append_nil]

theorem update_eq_some {α : Type} {f : Nat → Option α} {q : Nat} {x y : α}
    (h : Function.update f p (some x) q = some y) : q = p ∧ y = x ∨ q ≠ p ∧ f q = some y := by
  by_cases heq : q = p
  . subst heq
    rw [Function.update_self] at h
    injection h with h
    exact Or.inl ⟨rfl, h.symm⟩
  . rw [Function.update_of_ne heq] at h
    exact Or.inr ⟨heq, h⟩

theorem tracks_insert (h : Tracks t made runs) (pq : KeyedQueue Nat ℚ) {i : Nat}
    (hi : i < t.slots.length) (m : Made ω) (id : Nat) (seq : Sequence) :
    Tracks (({ t with
      objs := Function.update t.objs t.fresh (some m.req)
      fresh := t.fresh + 1
      reqs := (id, t.fresh) :: t.reqs
      seq := seq
    } : SharedTimer ω).push pq i t.fresh) (Function.update made t.fresh (some m)) runs := by
  have hnone : ∀ x, (t.fresh, x) ∉ runs := fun x hx => Nat.lt_irrefl _ (h.runs_lt _ x hx)
  have hticks : ticksOf runs t.fresh = [] := by
    apply List.eq_nil_iff_forall_not_mem.mpr
    intro x hx
    exact hnone x (mem_ticksOf.mp hx)
  constructor
  . intro q m' hmade
    obtain ⟨rfl, -⟩ | ⟨-, hmade⟩ := update_eq_some hmade
    . exact Nat.lt_succ_self _
    . exact Nat.lt_succ_of_lt (h.made_lt q m' hmade)
  . intro q x hx
    exact Nat.lt_succ_of_lt (h.runs_lt q x hx)
  . intro q r' hobj
    obtain ⟨rfl, rfl⟩ | ⟨hne, hobj⟩ := update_eq_some hobj
    . rw [Function.update_self]
      exact ⟨m, rfl, rfl, rfl, rfl⟩
    . rw [Function.update_of_ne hne]
      exact h.objs q r' hobj
  . intro q hq r' hobj x hx
    obtain ⟨rfl, -⟩ | ⟨hne, hobj⟩ := update_eq_some hobj
    . exact absurd hx (hnone x)
    . have hq := (flatMap_push pq _ hi t.fresh).mem_iff.mpr hq
      exact h.next q (List.mem_of_ne_of_mem hne hq) r' hobj x hx
  . intro q m' hmade
    obtain ⟨rfl, -⟩ | ⟨-, hmade⟩ := update_eq_some hmade
    . rw [hticks]
      exact List.Pairwise.nil
    . exact h.apart q m' hmade
  . intro q m' hmade hrepeats
    obtain ⟨rfl, -⟩ | ⟨hne, hmade⟩ := update_eq_some hmade
    . rw [hticks]
      exact ⟨Nat.zero_le _, fun hne => absurd rfl hne⟩
    . obtain ⟨hlength, hnot⟩ := h.once q m' hmade hrepeats
      refine ⟨hlength, ?_⟩
      intro hne' hq
      have hq := (flatMap_push pq _ hi t.fresh).mem_iff.mpr hq
      exact hnot hne' (List.mem_of_ne_of_mem hne hq)
  . intro q m' hmade
    obtain ⟨rfl, -⟩ | ⟨-, hmade⟩ := update_eq_some hmade
    . rw [hticks]
      exact fun _ _ x hx => absurd hx List.not_mem_nil
    . exact h.early q m' hmade
  . intro q m' hmade hrepeats
    obtain ⟨rfl, -⟩ | ⟨-, hmade⟩ := update_eq_some hmade
    . left
      exact ⟨id, List.mem_cons_self⟩
    . apply (h.kept q m' hmade hrepeats).imp_left
      rintro ⟨id', hmem⟩
      exact ⟨id', List.mem_cons_of_mem _ hmem⟩

theorem tracked_set (h : s.Tracked) (interval duration : ℚ) (repeats : Bool) (after tick tick' : ℚ) :
    (s.set pq interval duration repeats after tick tick').Tracked := by
  obtain ⟨hidle, htracks⟩ := h
  have hidle' : Idle (s.timer.set pq interval duration repeats after tick tick').2 := by
    apply hidle.set
  obtain ⟨fi, hset | ⟨id, seq, -, hset⟩⟩ :=
    set_cases hidle pq interval duration repeats after tick tick'
  . unfold History.set
    rw [hset] at hidle' ⊢
    exact ⟨hidle', htracks.of_queued (queued_createSlot s.timer fi)⟩
  . unfold History.set
    rw [hset] at hidle' ⊢
    refine ⟨hidle', ?_⟩
    have hslots := htracks.of_queued (queued_createSlot s.timer fi)
    have hinsert := tracks_insert hslots pq (createSlot_eq s.timer.slots fi).1
      ⟨Req.ctor id interval duration after repeats tick tick', duration⟩ id seq
    exact hinsert.follows_of_reqs (Follows.collect _ _) (reqs_collect _ _)

theorem tracked_step {w : ω} {e : Event ω} (h : s.Tracked) (hends : EndsAt pq s e)
    (hstep : (machine pq w).step s e = some s') : s'.Tracked := by
  obtain ⟨hidle, htracks⟩ := h
  cases e with
  | set interval duration repeats after tick tick' =>
    cases hstep
    apply tracked_set ⟨hidle, htracks⟩
  | add id act =>
    cases hstep
    refine ⟨hidle.add id act, ?_⟩
    dsimp only
    unfold SharedTimer.add
    split
    . exact htracks
    . refine htracks.follows_of_reqs (Follows.modify _ _ ?_) rfl
      exact fun _ => ⟨rfl, rfl, rfl, rfl, fun hcancel => hcancel⟩
  | cancel id =>
    cases hstep
    refine ⟨hidle.cancel id, ?_⟩
    apply htracks.follows (Follows.cancel hidle.good id)
    exact fun q _ _ _ hknown => keeps_cancel hidle.good id q hknown
  | update now =>
    cases hstep
    refine ⟨idle_update hidle now, ?_⟩
    exact tracks_of_loops (loops_update pq now s.timer) hidle.good htracks hends
  | outside w =>
    cases hstep
    refine ⟨⟨hidle.good.outside w, hidle.running⟩, ?_⟩
    exact htracks.follows_of_reqs (Follows.of_objs rfl rfl rfl rfl) rfl

theorem tracked_init (pq : KeyedQueue Nat ℚ) (w : ω) : (machine pq w).init.Tracked := by
  refine ⟨idle_ctor w, ?_⟩
  constructor
  . exact fun p m hmade => nomatch hmade
  . exact fun p x hx => absurd hx List.not_mem_nil
  . exact fun p r hobj => nomatch hobj
  . exact fun p hp => absurd hp List.not_mem_nil
  . exact fun p m hmade => nomatch hmade
  . exact fun p m hmade => nomatch hmade
  . exact fun p m hmade => nomatch hmade
  . exact fun p m hmade => nomatch hmade

theorem Tracked.honours (h : s.Tracked) (hmade : s.made p = some m) : s.Honours p m := by
  obtain ⟨hidle, htracks⟩ := h
  have hqueued : s.timer.Known p → p ∈ s.timer.queued := by
    rintro ⟨id, hmem⟩
    exact (hidle.good.tables.known id p hmem).1
  constructor
  . intro hrepeats
    obtain ⟨hlength, hnot⟩ := htracks.once p m hmade hrepeats
    exact ⟨hlength, fun hne hknown => hnot hne (hqueued hknown)⟩
  . intro hrepeats hduration
    have hearly := htracks.early p m hmade hrepeats hduration
    have hnone : (ticksOf s.runs p).filter (fun now => m.req.endRunTick ≤ now) = [] := by
      rw [List.filter_eq_nil_iff]
      intro x hx
      simpa using hearly x hx
    refine ⟨?_, ?_⟩
    . rw [hnone]
      exact Nat.zero_le 1
    . intro x hx hle
      exact absurd (hearly x hx) (not_lt.mpr hle)
  . exact fun hrepeats _ => htracks.kept p m hmade hrepeats
  . exact htracks.apart p m hmade

/--
Every request is run as it has been asked for in every run in which none that is not to be repeated is
run before its end, and none that is, for a finite time, from its end on.
-/
theorem honoured_of_endsAt (pq : KeyedQueue Nat ℚ) (w : ω) (es : List (Event ω)) (s : History ω)
    (hrun : (machine pq w).run (machine pq w).init es = some s)
    (h : (machine pq w).Along (EndsAt pq) (machine pq w).init es) : s.Honoured := by
  have htracked : s.Tracked := by
    apply Machine.inv_of_along Tracked _ hrun h
    . exact tracked_init pq w
    . exact fun s e s' htracked hends hstep => tracked_step htracked hends hstep
  exact fun p m hmade => htracked.honours hmade

/-!
### A timer with one request
-/

def asked (duration : ℚ) (repeats : Bool) : Made Unit :=
  ⟨Req.ctor 1 (1 / 50) duration 0 repeats 0 0, duration⟩

def afterSet (duration : ℚ) (repeats : Bool) (seq : Sequence) : History Unit where
  timer := first (asked duration repeats).req 0 seq
  made := Function.update (fun _ => none) 0 (some (asked duration repeats))
  runs := []

theorem set_init (duration : ℚ) (repeats : Bool) :
    ∃ seq, (machine KeyedQueue.sorted ()).step (machine KeyedQueue.sorted ()).init
        (.set (1 / 50) duration repeats 0 0 0) = some (afterSet duration repeats seq) := by
  obtain ⟨seq, hset⟩ := set_ctor duration repeats
  refine ⟨seq, ?_⟩
  unfold machine step
  dsimp only
  unfold History.set
  dsimp only
  rw [hset]
  rfl

theorem run_afterSet {duration : ℚ} {repeats : Bool} {seq : Sequence}
    (h : (machine KeyedQueue.sorted ()).step (machine KeyedQueue.sorted ()).init
      (.set (1 / 50) duration repeats 0 0 0) = some (afterSet duration repeats seq)) :
    (machine KeyedQueue.sorted ()).run (machine KeyedQueue.sorted ()).init
        [.set (1 / 50) duration repeats 0 0 0, .update 1]
      =
    some ((afterSet duration repeats seq).update KeyedQueue.sorted 1) := by
  unfold Machine.run
  rw [h]
  rfl

-- A request that is run once, and is over then.
theorem honoured_of_endsAt_once :
    ∃ s, (machine KeyedQueue.sorted ()).run (machine KeyedQueue.sorted ()).init
        [.set (1 / 50) 0 false 0 0 0, .update 1] = some s ∧ s.Honoured := by
  obtain ⟨seq, hset⟩ := set_init 0 false
  have hrun := run_afterSet hset
  refine ⟨_, hrun, honoured_of_endsAt KeyedQueue.sorted () _ _ hrun ?_⟩
  apply Machine.along_cons trivial hset
  refine ⟨?_, fun _ _ => trivial⟩
  intro v _ m hmade
  change Function.update (fun _ => none) 0 (some (asked 0 false)) v.p = some m at hmade
  obtain ⟨-, rfl⟩ | ⟨-, hmade⟩ := update_eq_some hmade
  . refine ⟨?_, ?_⟩
    . norm_num [asked, Req.ctor]
    . intro hrepeats
      cases hrepeats
  . cases hmade

-- It is put back into the queue, although it has come to its end.
theorem again_of_loop {seq : Sequence} {vs : List (Visit Unit)} {t' : SharedTimer Unit}
    (h : Loop KeyedQueue.sorted 1 0 (first (asked (1 / 10) true).req 1 seq) vs t') :
    vs.map Visit.p = [0] ∧ t'.reqs = [(1, 0)] := by
  obtain ⟨_, -, -, rfl, hrest⟩ | ⟨_, -, hagain, -⟩ | ⟨hdue, -⟩ := h.of_live rfl rfl rfl
  . -- It is not due a second time.
    obtain ⟨_, hdue, -⟩ | ⟨_, hdue, -⟩ | ⟨-, rfl, rfl⟩ := hrest.of_live rfl rfl rfl
    . norm_num [asked, Req.ctor, Req.run, Timer.minInterval] at hdue
    . norm_num [asked, Req.ctor, Req.run, Timer.minInterval] at hdue
    . rw [reqs_assign, reqs_assign]
      exact ⟨rfl, rfl⟩
  . cases hagain
  . norm_num [asked, Req.ctor, Timer.minInterval] at hdue

-- A request for a tenth of a second is run after a second, and is still there.
theorem exists_not_honoured :
    ∃ s, (machine KeyedQueue.sorted ()).run (machine KeyedQueue.sorted ()).init
        [.set (1 / 50) (1 / 10) true 0 0 0, .update 1] = some s
      ∧ s.runs = [(0, 1)] ∧ s.timer.Known 0 ∧ ¬s.Honoured := by
  obtain ⟨seq, hset⟩ := set_init (1 / 10) true
  obtain ⟨hvisits, hreqs⟩ := again_of_loop (loop_update_first (asked (1 / 10) true).req seq)
  have hruns : ((afterSet (1 / 10) true seq).update KeyedQueue.sorted 1).runs = [(0, 1)] := by
    have hmap := congrArg (List.map fun p => (p, (1 : ℚ))) hvisits
    rw [List.map_map] at hmap
    exact hmap
  have hknown : ((afterSet (1 / 10) true seq).update KeyedQueue.sorted 1).timer.Known 0 :=
    ⟨1, hreqs ▸ List.mem_singleton_self (1, 0)⟩
  refine ⟨_, run_afterSet hset, hruns, hknown, ?_⟩
  intro hhonoured
  have hends := (hhonoured 0 (asked (1 / 10) true) rfl).ended rfl (by norm_num [asked])
  refine hends.2 1 ?_ ?_ hknown
  . rw [hruns]
    exact List.mem_singleton_self 1
  . norm_num [asked, Req.ctor]

end History

end SharedTimer
end Lax
