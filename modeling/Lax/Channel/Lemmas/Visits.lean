import Lax.Channel.Impl.TimerHistory
import Lax.Channel.Lemmas.SharedTimer

/-!
This module contains the ways that an update takes through its slots, and what the callbacks leave as
it is.
-/

namespace Lax
namespace SharedTimer

open Timer (Req again)

variable {ω : Type} {t t' t'' : SharedTimer ω} {p : Nat} {r : Req (TimerAction ω)}
  {pq : KeyedQueue Nat ℚ} {now : ℚ} {i : Nat} {vs : List (Visit ω)}

-- The loop runs these requests and leaves this timer behind.
inductive Loop (pq : KeyedQueue Nat ℚ) (now : ℚ) (i : Nat) :
    SharedTimer ω → List (Visit ω) → SharedTimer ω → Prop
  | empty {t : SharedTimer ω} (htop : t.top i = none) : Loop pq now i t [] (t.assign none)
  | gone {t : SharedTimer ω} {p : Nat} (htop : t.top i = some p)
    (hobj : (t.assign (some p)).objs p = none) : Loop pq now i t [] (t.assign (some p))
  | cancelled {t t' : SharedTimer ω} {vs : List (Visit ω)} {p : Nat} {r : Req (TimerAction ω)}
    (htop : t.top i = some p) (hobj : (t.assign (some p)).objs p = some r)
    (hcancel : r.cancel = true)
    (hrest : Loop pq now i ((t.assign (some p)).pop pq i) vs t') : Loop pq now i t vs t'
  | again {t t' : SharedTimer ω} {vs : List (Visit ω)} {p : Nat} {r : Req (TimerAction ω)}
    (htop : t.top i = some p) (hobj : (t.assign (some p)).objs p = some r)
    (hdue : r.nextRunTick < now) (hcancel : r.cancel = false) (hagain : again r now = true)
    (hrest : Loop pq now i
      (((((t.assign (some p)).pop pq i).runAt now p r).later now p).push pq i p) vs t') :
    Loop pq now i t (⟨p, r, (t.assign (some p)).pop pq i⟩ :: vs) t'
  | ended {t t' : SharedTimer ω} {vs : List (Visit ω)} {p : Nat} {r : Req (TimerAction ω)}
    (htop : t.top i = some p) (hobj : (t.assign (some p)).objs p = some r)
    (hdue : r.nextRunTick < now) (hcancel : r.cancel = false) (hagain : again r now = false)
    (hrest : Loop pq now i ((((t.assign (some p)).pop pq i).runAt now p r).removeEndReq r.id) vs t') :
    Loop pq now i t (⟨p, r, (t.assign (some p)).pop pq i⟩ :: vs) t'
  | notDue {t : SharedTimer ω} {p : Nat} {r : Req (TimerAction ω)} (htop : t.top i = some p)
    (hobj : (t.assign (some p)).objs p = some r) (hdue : ¬r.nextRunTick < now) :
    Loop pq now i t [] ((t.assign (some p)).assign none)

theorem loop_updateReqs (pq : KeyedQueue Nat ℚ) (now : ℚ) (i : Nat) (t : SharedTimer ω) :
    Loop pq now i t (t.updateReqs pq now i).1 (t.updateReqs pq now i).2 := by
  fun_induction updateReqs pq now i t with
  | case1 t htop => exact .empty htop
  | case2 t p htop e hobj => exact .gone htop hobj
  | case3 t p htop e r hobj hdue popped hcancel ih => exact .cancelled htop hobj hcancel ih
  | case4 t p htop e r hobj hdue popped hcancel ran hagain ih =>
    exact .again htop hobj hdue (Bool.eq_false_iff.mpr hcancel) hagain ih
  | case5 t p htop e r hobj hdue popped hcancel ran hagain ih =>
    exact .ended htop hobj hdue (Bool.eq_false_iff.mpr hcancel) (Bool.eq_false_iff.mpr hagain) ih
  | case6 t p htop e r hobj hdue => exact .notDue htop hobj hdue

namespace Loop

theorem of_empty (h : Loop pq now i t vs t') (hempty : t.top i = none) :
    vs = [] ∧ t' = t.assign none := by
  cases h with
  | empty htop => exact ⟨rfl, rfl⟩
  | gone htop => cases hempty.symm.trans htop
  | cancelled htop => cases hempty.symm.trans htop
  | again htop => cases hempty.symm.trans htop
  | ended htop => cases hempty.symm.trans htop
  | notDue htop => cases hempty.symm.trans htop

-- A request that has not been cancelled is run, or it is not due yet.
theorem of_live (h : Loop pq now i t vs t') (hp : t.top i = some p)
    (hr : (t.assign (some p)).objs p = some r) (hlive : r.cancel = false) :
    let popped := (t.assign (some p)).pop pq i
    let ran := popped.runAt now p r
    (∃ vs', r.nextRunTick < now ∧ Timer.again r now = true ∧ vs = ⟨p, r, popped⟩ :: vs'
        ∧ Loop pq now i ((ran.later now p).push pq i p) vs' t')
      ∨ (∃ vs', r.nextRunTick < now ∧ Timer.again r now = false ∧ vs = ⟨p, r, popped⟩ :: vs'
        ∧ Loop pq now i (ran.removeEndReq r.id) vs' t')
      ∨ ¬r.nextRunTick < now ∧ vs = [] ∧ t' = (t.assign (some p)).assign none := by
  cases h with
  | empty htop => cases hp.symm.trans htop
  | gone htop hobj =>
    cases hp.symm.trans htop
    cases hr.symm.trans hobj
  | cancelled htop hobj hcancel =>
    cases hp.symm.trans htop
    cases hr.symm.trans hobj
    cases hlive.symm.trans hcancel
  | again htop hobj hdue hcancel hagain hrest =>
    cases hp.symm.trans htop
    cases hr.symm.trans hobj
    exact .inl ⟨_, hdue, hagain, rfl, hrest⟩
  | ended htop hobj hdue hcancel hagain hrest =>
    cases hp.symm.trans htop
    cases hr.symm.trans hobj
    exact .inr (.inl ⟨_, hdue, hagain, rfl, hrest⟩)
  | notDue htop hobj hdue =>
    cases hp.symm.trans htop
    cases hr.symm.trans hobj
    exact .inr (.inr ⟨hdue, rfl, rfl⟩)

end Loop

-- One slot after the other.
inductive Loops (pq : KeyedQueue Nat ℚ) (now : ℚ) :
    List Nat → SharedTimer ω → List (Visit ω) → SharedTimer ω → Prop
  | nil {t : SharedTimer ω} : Loops pq now [] t [] t
  | skip {t t' : SharedTimer ω} {vs : List (Visit ω)} {i : Nat} {is : List Nat}
    (hrest : Loops pq now is t vs t') : Loops pq now (i :: is) t vs t'
  | slot {t t' t'' : SharedTimer ω} {vs vs' : List (Visit ω)} {i : Nat} {is : List Nat}
    (hloop : Loop pq now i
      { t with slots := t.slots.modify i fun sl => { sl with lastRunTick := now } } vs t')
    (hrest : Loops pq now is t' vs' t'') : Loops pq now (i :: is) t (vs ++ vs') t''

theorem loop_updateSlot (pq : KeyedQueue Nat ℚ) (now : ℚ) (t : SharedTimer ω) (i : Nat) :
    t.updateSlot pq now i = ([], t)
      ∨
    Loop pq now i { t with slots := t.slots.modify i fun sl => { sl with lastRunTick := now } }
      (t.updateSlot pq now i).1 (t.updateSlot pq now i).2 := by
  unfold updateSlot
  cases t.slots[i]? with
  | none => exact .inl rfl
  | some sl =>
    dsimp only
    split
    . exact .inl rfl
    . exact .inr (loop_updateReqs pq now i _)

theorem loops_updateSlots (pq : KeyedQueue Nat ℚ) (now : ℚ) (is : List Nat) (t : SharedTimer ω) :
    Loops pq now is t (t.updateSlots pq now is).1 (t.updateSlots pq now is).2 := by
  induction is generalizing t with
  | nil => exact .nil
  | cons i is ih =>
    have hrest := ih (updateSlot pq now t i).2
    unfold updateSlots
    dsimp only
    obtain hslot | hloop := loop_updateSlot pq now t i
    . rw [hslot] at hrest ⊢
      exact .skip hrest
    . exact .slot hloop hrest

theorem loops_update (pq : KeyedQueue Nat ℚ) (now : ℚ) (t : SharedTimer ω) :
    Loops pq now (List.range t.slots.length) t (t.visits pq now) (t.update pq now) :=
  loops_updateSlots pq now _ t

/-!
### The log
-/

@[simp]
theorem log_collect (t : SharedTimer ω) (p : Nat) : (t.collect p).log = t.log := by
  unfold collect
  split
  . rfl
  . split <;> rfl

@[simp]
theorem log_assign (t : SharedTimer ω) (e : Option Nat) : (t.assign e).log = t.log := by
  unfold assign
  split
  . rfl
  . apply log_collect

@[simp]
theorem log_removeEndReq (t : SharedTimer ω) (id : Nat) : (t.removeEndReq id).log = t.log := by
  unfold removeEndReq
  split
  . rfl
  . apply log_collect

theorem log_cancel (t : SharedTimer ω) (id : Nat) :
    (t.cancel id).2.log = t.log ++ ((t.find id).map Log.cancelled).toList := by
  unfold cancel
  cases t.find id with
  | none => exact (List.append_nil _).symm
  | some p => apply log_collect

/-!
### What callbacks leave
-/

-- What the loop has to know of a request stays, and nothing takes a cancellation back.
structure Same (r r' : Req (TimerAction ω)) : Prop where
  interval : r'.interval = r.interval
  repeats : r'.repeats = r.repeats
  nextRunTick : r'.nextRunTick = r.nextRunTick
  endRunTick : r'.endRunTick = r.endRunTick
  cancel : r.cancel = true → r'.cancel = true

-- No object is new, the slots are the same, and whoever is cancelled is marked.
structure Follows (t t' : SharedTimer ω) : Prop where
  objs : ∀ p r', t'.objs p = some r' → ∃ r, t.objs p = some r ∧ Same r r'
  fresh_eq : t'.fresh = t.fresh
  slots_eq : t'.slots = t.slots
  log : t.log <+: t'.log
  dead : ∀ p, .cancelled p ∈ t'.log → .cancelled p ∈ t.log
    ∨ p < t.fresh ∧ ∀ r', t'.objs p = some r' → r'.cancel = true

theorem Same.refl (r : Req (TimerAction ω)) : Same r r :=
  ⟨rfl, rfl, rfl, rfl, id⟩

theorem Same.trans {r r' r'' : Req (TimerAction ω)} (h : Same r r') (h' : Same r' r'') :
    Same r r'' := by
  constructor
  . exact h'.interval.trans h.interval
  . exact h'.repeats.trans h.repeats
  . exact h'.nextRunTick.trans h.nextRunTick
  . exact h'.endRunTick.trans h.endRunTick
  . exact fun hcancel => h'.cancel (h.cancel hcancel)

namespace Follows

theorem of_log (hobjs : ∀ p r', t'.objs p = some r' → ∃ r, t.objs p = some r ∧ Same r r')
    (hfresh : t'.fresh = t.fresh) (hslots : t'.slots = t.slots) (hlog : t'.log = t.log) :
    Follows t t' := by
  refine ⟨hobjs, hfresh, hslots, ?_, ?_⟩
  . rw [hlog]
  . intro p hp
    left
    exact hlog ▸ hp

theorem refl (t : SharedTimer ω) : Follows t t :=
  of_log (fun _ r hobj => ⟨r, hobj, Same.refl r⟩) rfl rfl rfl

theorem trans (h : Follows t t') (h' : Follows t' t'') : Follows t t'' := by
  constructor
  . intro p r'' hobj
    obtain ⟨r', hobj', hsame'⟩ := h'.objs p r'' hobj
    obtain ⟨r, hobj, hsame⟩ := h.objs p r' hobj'
    exact ⟨r, hobj, hsame.trans hsame'⟩
  . exact h'.fresh_eq.trans h.fresh_eq
  . exact h'.slots_eq.trans h.slots_eq
  . exact h.log.trans h'.log
  . intro p hp
    obtain hp | ⟨hlt, hdead⟩ := h'.dead p hp
    . obtain hp | ⟨hlt, hdead⟩ := h.dead p hp
      . left
        exact hp
      . right
        refine ⟨hlt, ?_⟩
        intro r'' hobj
        obtain ⟨r', hobj', hsame⟩ := h'.objs p r'' hobj
        exact hsame.cancel (hdead r' hobj')
    . right
      exact ⟨h.fresh_eq ▸ hlt, hdead⟩

theorem of_objs (hobjs : t'.objs = t.objs) (hfresh : t'.fresh = t.fresh)
    (hslots : t'.slots = t.slots) (hlog : t'.log = t.log) : Follows t t' := by
  apply of_log _ hfresh hslots hlog
  intro p r hobj
  rw [hobjs] at hobj
  exact ⟨r, hobj, Same.refl r⟩

theorem started (t : SharedTimer ω) (p : Nat) : Follows t (t.note (.started p)) := by
  constructor
  . exact fun _ r hobj => ⟨r, hobj, Same.refl r⟩
  . rfl
  . rfl
  . exact List.prefix_append t.log [.started p]
  . intro q hq
    left
    simpa [note] using hq

theorem modify (t : SharedTimer ω) (p : Nat) {f : Req (TimerAction ω) → Req (TimerAction ω)}
    (hf : ∀ r, Same r (f r)) : Follows t (t.modify p f) := by
  refine of_log ?_ rfl rfl rfl
  intro q r' hobj
  by_cases heq : q = p
  . subst heq
    rw [objs_modify_self] at hobj
    obtain ⟨r, hobj', rfl⟩ := Option.map_eq_some_iff.mp hobj
    exact ⟨r, hobj', hf r⟩
  . rw [objs_modify_of_ne t heq] at hobj
    exact ⟨r', hobj, Same.refl r'⟩

theorem collect (t : SharedTimer ω) (p : Nat) : Follows t (t.collect p) := by
  unfold SharedTimer.collect
  split
  . apply refl
  . split
    . apply refl
    . refine of_log ?_ rfl rfl rfl
      intro q r' hobj
      dsimp only at hobj
      by_cases heq : q = p
      . rw [heq, Function.update_self] at hobj
        contradiction
      . rw [Function.update_of_ne heq] at hobj
        exact ⟨r', hobj, Same.refl r'⟩

theorem erase (t : SharedTimer ω) (id p : Nat) : Follows t (t.erase id p) := by
  apply trans _ (collect _ p)
  exact of_objs rfl rfl rfl rfl

theorem assign (t : SharedTimer ω) (e : Option Nat) : Follows t (t.assign e) := by
  unfold SharedTimer.assign
  split
  . exact of_objs rfl rfl rfl rfl
  . apply trans _ (collect _ _)
    exact of_objs rfl rfl rfl rfl

theorem removeEndReq (t : SharedTimer ω) (id : Nat) : Follows t (t.removeEndReq id) := by
  unfold SharedTimer.removeEndReq
  split
  . apply refl
  . apply erase

theorem cancel {held : List (Nat × Nat)} (h : Good t held) (id : Nat) :
    Follows t (t.cancel id).2 := by
  unfold SharedTimer.cancel
  split
  . apply refl
  . next p hfind =>
    dsimp only
    obtain ⟨-, r, hobj, -⟩ := h.tables.known id p (mem_of_find hfind)
    apply trans _ (erase _ id p)
    have hmodify : Follows t (t.modify p fun r => { r with cancel := true }) :=
      modify t p fun _ => ⟨rfl, rfl, rfl, rfl, fun _ => rfl⟩
    constructor
    . exact hmodify.objs
    . rfl
    . rfl
    . exact List.prefix_append t.log [.cancelled p]
    . intro q hq
      obtain hq | hq := List.mem_append.mp hq
      . left
        exact hq
      . right
        cases List.mem_singleton.mp hq
        refine ⟨h.objs.lt_fresh p r hobj, ?_⟩
        intro r' hobj'
        change (t.modify p _).objs p = some r' at hobj'
        rw [objs_modify_self, hobj] at hobj'
        cases hobj'
        rfl

theorem runScript {held : List (Nat × Nat)} (h : Good t held) (script : TimerScript ω) :
    Follows t (t.runScript script) := by
  induction script generalizing t with
  | ret w => exact of_objs rfl rfl rfl rfl
  | cancel id next ih => exact (cancel h id).trans (ih _ (h.cancel id))
  | has id next ih => exact ih _ h

theorem runActions {held : List (Nat × Nat)} (h : Good t held) (p id : Nat)
    (acts : List (TimerAction ω)) : Follows t (t.runActions p id acts) := by
  induction acts generalizing t with
  | nil => apply refl
  | cons act acts ih =>
    have hstarted := h.note (.started p)
    exact ((started t p).trans (runScript hstarted _)).trans (ih (hstarted.runScript _))

theorem runAt {held : List (Nat × Nat)} (h : Good t held) (now : ℚ) (p : Nat)
    (r : Req (TimerAction ω)) : Follows t (t.runAt now p r) := by
  unfold SharedTimer.runAt run
  have hlast : Follows t (t.modify p fun r => { r with lastRunTick := now }) :=
    modify t p fun _ => ⟨rfl, rfl, rfl, rfl, id⟩
  have hrun : ∀ t : SharedTimer ω, Follows t (t.modify p Req.run) := fun t =>
    modify t p fun _ => ⟨rfl, rfl, rfl, rfl, id⟩
  apply trans _ (hrun _)
  apply hlast.trans
  apply runActions
  apply h.lastRunTick

end Follows

/-!
### A timer with one request
-/

-- It is in the slot for the shortest intervals.
def first (r : Req (TimerAction Unit)) (lastRunTick : ℚ) (seq : Sequence) : SharedTimer Unit where
  objs := Function.update (fun _ => none) 0 (some r)
  fresh := 1
  reqs := [(1, 0)]
  slots := [⟨1 / 100, lastRunTick, [0]⟩]
  seq := seq
  running := none
  world := ()
  log := []

theorem set_ctor (duration : ℚ) (repeats : Bool) :
    ∃ seq, (ctor ()).set KeyedQueue.sorted (1 / 50) duration repeats 0 0 0
      = (some 1, first (Req.ctor 1 (1 / 50) duration 0 repeats 0 0) 0 seq) := by
  have hfi : Timer.slotInterval (1 / 50 / 2) Timer.minInterval Timer.minInterval le_rfl = 1 / 100 := by
    unfold Timer.slotInterval
    norm_num [Timer.minInterval]
  have hnext : ∃ seq, (ctor ()).seq.next = some (1, seq) := ⟨_, rfl⟩
  obtain ⟨seq, hnext⟩ := hnext
  refine ⟨seq, ?_⟩
  unfold set
  dsimp only
  rw [hfi, hnext]
  rfl

theorem add_first (r : Req (TimerAction Unit)) (lastRunTick : ℚ) (seq : Sequence)
    (act : TimerAction Unit) :
    ((first r lastRunTick seq).add 1 act).2 = first (r.add act) lastRunTick seq := by
  have hfind : (first r lastRunTick seq).find 1 = some 0 := rfl
  unfold add
  rw [hfind]
  unfold first modify
  dsimp only
  rw [Function.update_idem, Function.update_self]
  rfl

theorem loop_update_first (r : Req (TimerAction Unit)) (seq : Sequence) :
    Loop KeyedQueue.sorted 1 0 (first r 1 seq) ((first r 0 seq).visits KeyedQueue.sorted 1)
      ((first r 0 seq).update KeyedQueue.sorted 1) := by
  have hdue : ¬(0 : ℚ) + 1 / 100 > 1 := by norm_num
  have hslot : updateSlot KeyedQueue.sorted 1 (first r 0 seq) 0
      = updateReqs KeyedQueue.sorted 1 0 (first r 1 seq) := if_neg hdue
  have hupdate : (first r 0 seq).update KeyedQueue.sorted 1
      = (updateReqs KeyedQueue.sorted 1 0 (first r 1 seq)).2 :=
    congrArg (fun ran => ran.2) hslot
  have hvisits : (first r 0 seq).visits KeyedQueue.sorted 1
      = (updateReqs KeyedQueue.sorted 1 0 (first r 1 seq)).1 ++ [] :=
    congrArg (fun ran => ran.1 ++ []) hslot
  rw [hupdate, hvisits, List.append_nil]
  apply loop_updateReqs

end SharedTimer
end Lax
