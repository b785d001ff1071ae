import Lax.Channel.Impl.Timer
import Lax.Foundation.KeyedQueue

/-!
This module contains the timer with requests as objects: the map of requests and the slots refer to them,
an object goes away with the last reference, and actions may call the timer back.
-/

namespace Lax

-- What an action does, one thing after the other. It may ask for any id and cancel any id.
inductive TimerScript (ω : Type) where
  | ret (w : ω)
  | cancel (id : Nat) (next : Bool → TimerScript ω)
  | has (id : Nat) (next : Bool → TimerScript ω)

-- An action takes the id of its request. `ω` is the world of the actions.
abbrev TimerAction (ω : Type) := Nat → ω → TimerScript ω

namespace SharedTimer

structure Slot where
  interval : ℚ
  lastRunTick : ℚ
  -- references
  queue : List Nat

-- History: an action of the object is started, or the object is cancelled.
inductive Log where
  | started (p : Nat)
  | cancelled (p : Nat)
  deriving DecidableEq, Repr

end SharedTimer

structure SharedTimer (ω : Type) where
  objs : Nat → Option (Timer.Req (TimerAction ω))
  -- The next object gets this reference.
  fresh : Nat
  reqs : List (Nat × Nat)
  slots : List SharedTimer.Slot
  seq : Sequence
  -- `e` in `update_slot`
  running : Option Nat
  world : ω
  log : List SharedTimer.Log

namespace SharedTimer

open Timer (Req slotInterval findSlot minInterval again)

variable {ω : Type}

def ctor (w : ω) : SharedTimer ω where
  objs := fun _ => none
  fresh := 0
  reqs := []
  slots := []
  seq := Sequence.ctor 1 Timer.endId 16
  running := none
  world := w
  log := []

/-!
### Objects and references
-/

def nextRunTick (t : SharedTimer ω) (p : Nat) : ℚ :=
  match t.objs p with
  | none => 0
  | some r => r.nextRunTick

def modify (t : SharedTimer ω) (p : Nat)
    (f : Req (TimerAction ω) → Req (TimerAction ω)) : SharedTimer ω :=
  { t with objs := Function.update t.objs p ((t.objs p).map f) }

theorem objs_modify_self (t : SharedTimer ω) (p : Nat)
    (f : Req (TimerAction ω) → Req (TimerAction ω)) :
    (t.modify p f).objs p = (t.objs p).map f := by
  simp [modify]

theorem objs_modify_of_ne (t : SharedTimer ω) {p q : Nat} (hq : q ≠ p)
    (f : Req (TimerAction ω) → Req (TimerAction ω)) : (t.modify p f).objs q = t.objs q := by
  simp [modify, hq]

def note (t : SharedTimer ω) (entry : Log) : SharedTimer ω :=
  { t with log := t.log ++ [entry] }

def referenced (t : SharedTimer ω) (p : Nat) : Bool :=
  t.reqs.any (fun entry => entry.2 = p) || t.slots.any (fun sl => p ∈ sl.queue)
    || t.running = some p

-- A reference to the object has gone. If it was the last one, the object releases its id.
def collect (t : SharedTimer ω) (p : Nat) : SharedTimer ω :=
  if t.referenced p then
    t
  else
    match t.objs p with
    | none => t
    | some r => { t with objs := Function.update t.objs p none, seq := r.release t.seq }

def find (t : SharedTimer ω) (id : Nat) : Option Nat :=
  t.reqs.lookup id

-- A key that is there already keeps what it refers to.
def emplace (t : SharedTimer ω) (id p : Nat) : SharedTimer ω :=
  match t.find id with
  | none => { t with reqs := (id, p) :: t.reqs }
  | some _ => t

def erase (t : SharedTimer ω) (id p : Nat) : SharedTimer ω :=
  { t with reqs := t.reqs.eraseP fun entry => entry.1 = id }.collect p

def assign (t : SharedTimer ω) (e : Option Nat) : SharedTimer ω :=
  match t.running with
  | none => { t with running := e }
  | some old => { t with running := e }.collect old

/-!
### The operations
-/

def has (t : SharedTimer ω) (id : Nat) : Bool :=
  (t.find id).isSome

def add (t : SharedTimer ω) (id : Nat) (act : TimerAction ω) : Bool × SharedTimer ω :=
  match t.find id with
  | none => (false, t)
  | some p => (true, t.modify p (·.add act))

def cancel (t : SharedTimer ω) (id : Nat) : Bool × SharedTimer ω :=
  match t.find id with
  | none => (false, t)
  | some p =>
    let t := t.modify p fun r => { r with cancel := true }
    (true, (t.note (.cancelled p)).erase id p)

def removeEndReq (t : SharedTimer ω) (id : Nat) : SharedTimer ω :=
  match t.find id with
  | none => t
  | some p => t.erase id p

-- The loop of `create_slot` reads nothing but the intervals.
def intervalOf (sl : Slot) : Timer.Slot Unit where
  interval := sl.interval
  lastRunTick := sl.lastRunTick
  reqs := .empty

def createSlot (slots : List Slot) (interval : ℚ) : List Slot × Nat :=
  let added := (slots ++ [{ interval := interval, lastRunTick := 0, queue := [] }], slots.length)
  match findSlot interval (slots.map intervalOf) 0 none with
  | none => added
  | some (i, foundInterval) => if foundInterval > interval then added else (slots, i)

variable (pq : KeyedQueue Nat ℚ)

def push (t : SharedTimer ω) (i p : Nat) : SharedTimer ω :=
  { t with
    slots := t.slots.modify i fun sl => { sl with queue := pq.push t.nextRunTick sl.queue p } }

def pop (t : SharedTimer ω) (i : Nat) : SharedTimer ω :=
  { t with slots := t.slots.modify i fun sl => { sl with queue := pq.pop t.nextRunTick sl.queue } }

-- `none` is the exception of a pool without ids. The clock is read at `tick` and `tick'`.
def set (t : SharedTimer ω) (interval duration : ℚ) (repeats : Bool) (after tick tick' : ℚ) :
    Option Nat × SharedTimer ω :=
  let fi := slotInterval (interval / 2) minInterval minInterval le_rfl
  let (slots, i) := createSlot t.slots fi
  let t := { t with slots := slots }
  match t.seq.next with
  | none => (none, t)
  | some (id, seq) =>
    let rp := t.fresh
    let req := Req.ctor id interval duration after repeats tick tick'
    let t := { t with objs := Function.update t.objs rp (some req), fresh := rp + 1, seq := seq }
    let t := t.emplace id rp
    match t.find id with
    | none => (some id, t.collect rp)
    | some p => (some id, (t.push pq i p).collect rp)

/-!
### Running a request
-/

def runScript (t : SharedTimer ω) : TimerScript ω → SharedTimer ω
  | .ret w => { t with world := w }
  | .cancel id next =>
    let (found, t) := t.cancel id
    t.runScript (next found)
  | .has id next => t.runScript (next (t.has id))

def runActions (t : SharedTimer ω) (p id : Nat) : List (TimerAction ω) → SharedTimer ω
  | [] => t
  | act :: acts =>
    ((t.note (.started p)).runScript (act id t.world)).runActions p id acts

-- `req::run`. No action adds an action.
def run (t : SharedTimer ω) (p : Nat) (r : Req (TimerAction ω)) : SharedTimer ω :=
  (t.runActions p r.id r.actions).modify p Req.run

/-!
### What a callback leaves

The loop of `update_slot` ends because a request that has been run is not due any more.
-/

def due (t : SharedTimer ω) (now : ℚ) (p : Nat) : Bool :=
  match t.objs p with
  | none => false
  | some r => r.nextRunTick < now

def countDue (t : SharedTimer ω) (now : ℚ) (i : Nat) : Nat :=
  match t.slots[i]? with
  | none => 0
  | some sl => sl.queue.countP (t.due now)

-- The slots are the same, and no request has become due.
structure Quiet (now : ℚ) (t t' : SharedTimer ω) : Prop where
  slots_eq : t'.slots = t.slots
  due : ∀ p, t'.due now p = true → t.due now p = true

variable {now : ℚ} {t t' t'' : SharedTimer ω}

theorem Quiet.refl (t : SharedTimer ω) : Quiet now t t :=
  ⟨rfl, fun _ h => h⟩

theorem Quiet.trans (h : Quiet now t t') (h' : Quiet now t' t'') : Quiet now t t'' :=
  ⟨h'.slots_eq.trans h.slots_eq, fun p hp => h.due p (h'.due p hp)⟩

theorem quiet_of_objs (hslots : t'.slots = t.slots) (hobjs : t'.objs = t.objs) : Quiet now t t' := by
  refine ⟨hslots, ?_⟩
  intro p h
  unfold SharedTimer.due at h ⊢
  rwa [hobjs] at h

theorem quiet_note (t : SharedTimer ω) (entry : Log) : Quiet now t (t.note entry) :=
  quiet_of_objs rfl rfl

theorem quiet_collect (t : SharedTimer ω) (p : Nat) : Quiet now t (t.collect p) := by
  unfold collect
  split
  . apply Quiet.refl
  . split
    . apply Quiet.refl
    . refine ⟨rfl, ?_⟩
      intro q h
      unfold SharedTimer.due at h ⊢
      dsimp only at h
      by_cases hq : q = p
      . subst hq
        rw [Function.update_self] at h
        contradiction
      . rwa [Function.update_of_ne hq] at h

theorem quiet_modify (t : SharedTimer ω) (p : Nat) {f : Req (TimerAction ω) → Req (TimerAction ω)}
    (hf : ∀ r, (f r).nextRunTick < now → r.nextRunTick < now) : Quiet now t (t.modify p f) := by
  refine ⟨rfl, ?_⟩
  intro q h
  unfold SharedTimer.due at h ⊢
  by_cases hq : q = p
  . subst hq
    rw [objs_modify_self] at h
    cases hobj : t.objs q with
    | none =>
      rw [hobj] at h
      contradiction
    | some r =>
      rw [hobj] at h
      exact decide_eq_true (hf r (of_decide_eq_true h))
  . rwa [objs_modify_of_ne t hq] at h

theorem quiet_erase (t : SharedTimer ω) (id p : Nat) : Quiet now t (t.erase id p) := by
  apply Quiet.trans _ (quiet_collect _ p)
  exact quiet_of_objs rfl rfl

theorem quiet_assign (t : SharedTimer ω) (e : Option Nat) : Quiet now t (t.assign e) := by
  unfold assign
  split
  . exact quiet_of_objs rfl rfl
  . apply Quiet.trans _ (quiet_collect _ _)
    exact quiet_of_objs rfl rfl

theorem quiet_removeEndReq (t : SharedTimer ω) (id : Nat) : Quiet now t (t.removeEndReq id) := by
  unfold removeEndReq
  split
  . apply Quiet.refl
  . apply quiet_erase

theorem quiet_cancel (t : SharedTimer ω) (id : Nat) : Quiet now t (t.cancel id).2 := by
  unfold cancel
  split
  . apply Quiet.refl
  . next p hfind =>
    apply Quiet.trans _ (quiet_erase _ id p)
    apply Quiet.trans _ (quiet_note _ _)
    apply quiet_modify
    exact fun _ h => h

theorem quiet_runScript (script : TimerScript ω) (t : SharedTimer ω) :
    Quiet now t (t.runScript script) := by
  induction script generalizing t with
  | ret w => exact quiet_of_objs rfl rfl
  | cancel id next ih => exact (quiet_cancel t id).trans (ih _ _)
  | has id next ih => exact ih _ t

theorem quiet_runActions (acts : List (TimerAction ω)) (t : SharedTimer ω) (p id : Nat) :
    Quiet now t (t.runActions p id acts) := by
  induction acts generalizing t with
  | nil => apply Quiet.refl
  | cons act acts ih =>
    apply Quiet.trans _ (ih _)
    apply Quiet.trans _ (quiet_runScript _ _)
    apply quiet_note

theorem quiet_run (t : SharedTimer ω) (p : Nat) (r : Req (TimerAction ω)) :
    Quiet now t (t.run p r) := by
  apply (quiet_runActions r.actions t p r.id).trans
  apply quiet_modify
  exact fun _ h => h

theorem Quiet.countDue_le (h : Quiet now t t') (i : Nat) : t'.countDue now i ≤ t.countDue now i := by
  unfold countDue
  rw [h.slots_eq]
  split
  . apply Nat.le_refl
  . next sl _ =>
    apply List.countP_mono_left
    exact fun p _ hp => h.due p hp

def top (t : SharedTimer ω) (i : Nat) : Option Nat :=
  t.slots[i]?.bind fun sl => sl.queue.head?

theorem top_eq_some {i p : Nat} (h : t.top i = some p) :
    ∃ sl l, t.slots[i]? = some sl ∧ sl.queue = p :: l := by
  obtain ⟨sl, hsl, hhead⟩ := Option.bind_eq_some_iff.mp h
  obtain ⟨l, hqueue⟩ := List.head?_eq_some_iff.mp hhead
  exact ⟨sl, l, hsl, hqueue⟩

theorem countDue_pop {i p : Nat} (htop : t.top i = some p) (hdue : t.due now p = true) :
    (t.pop pq i).countDue now i < t.countDue now i := by
  obtain ⟨sl, l, hsl, hqueue⟩ := top_eq_some htop
  have hperm := pq.pop_perm t.nextRunTick _ _ _ hqueue
  have hpop : (t.pop pq i).slots[i]? = some { sl with queue := pq.pop t.nextRunTick sl.queue } := by
    simp [pop, hsl]
  unfold countDue
  rw [hpop, hsl]
  dsimp only
  have hsame : (t.pop pq i).due now = t.due now := rfl
  rw [hsame, hperm.countP_eq, hqueue, List.countP_cons, if_pos hdue]
  apply Nat.lt_succ_self

theorem countDue_push {i p : Nat} (hdue : t.due now p = false) :
    (t.push pq i p).countDue now i = t.countDue now i := by
  have hsame : (t.push pq i p).due now = t.due now := rfl
  unfold countDue
  rw [hsame]
  unfold push
  rw [List.getElem?_modify_eq]
  cases t.slots[i]? with
  | none => rfl
  | some sl =>
    simp only [Option.map_eq_map, Option.map_some]
    rw [(pq.push_perm _ _ _).countP_eq, List.countP_cons_of_neg]
    rw [hdue]
    decide

theorem countDue_popped {i p : Nat} {r : Req (TimerAction ω)} (htop : t.top i = some p)
    (hobj : (t.assign (some p)).objs p = some r) (hdue : r.nextRunTick < now) :
    ((t.assign (some p)).pop pq i).countDue now i < t.countDue now i := by
  have hquiet : Quiet now t (t.assign (some p)) := quiet_assign t (some p)
  have htop' : (t.assign (some p)).top i = some p := by
    unfold top at htop ⊢
    rwa [hquiet.slots_eq]
  have hdue' : (t.assign (some p)).due now p = true := by
    unfold due
    rw [hobj]
    exact decide_eq_true hdue
  exact Nat.lt_of_lt_of_le (countDue_pop pq htop' hdue') (hquiet.countDue_le i)

-- When a request is run.
def runAt (t : SharedTimer ω) (now : ℚ) (p : Nat) (r : Req (TimerAction ω)) : SharedTimer ω :=
  (t.modify p fun r => { r with lastRunTick := now }).run p r

-- When it is going to be run again.
def later (t : SharedTimer ω) (now : ℚ) (p : Nat) : SharedTimer ω :=
  t.modify p fun r => { r with nextRunTick := now + r.interval }

theorem quiet_runAt (t : SharedTimer ω) (now : ℚ) (p : Nat) (r : Req (TimerAction ω)) :
    Quiet now t (t.runAt now p r) := by
  apply Quiet.trans _ (quiet_run _ p r)
  apply quiet_modify
  exact fun _ h => h

theorem countDue_later (t : SharedTimer ω) (now : ℚ) (i p : Nat) :
    ((t.later now p).push pq i p).countDue now i ≤ t.countDue now i := by
  have hquiet : Quiet now t (t.later now p) := by
    apply quiet_modify
    exact fun r h => absurd h (Timer.not_add_interval_lt r now)
  have hdue : (t.later now p).due now p = false := by
    unfold due later
    rw [objs_modify_self]
    cases t.objs p with
    | none => rfl
    | some r => exact decide_eq_false (Timer.not_add_interval_lt r now)
  rw [countDue_push pq hdue]
  exact hquiet.countDue_le i

/-!
### `update`
-/

-- History: a request is run. The object, what it is then, and the timer at that moment.
structure Visit (ω : Type) where
  p : Nat
  req : Req (TimerAction ω)
  timer : SharedTimer ω

-- The requests that have been run, and the timer that is left.
def updateReqs (now : ℚ) (i : Nat) (t : SharedTimer ω) : List (Visit ω) × SharedTimer ω :=
  match _htop : t.top i with
  | none => ([], t.assign none)
  | some p =>
    let e := t.assign (some p)
    match _hobj : e.objs p with
    -- A queue does not refer to an object that has gone.
    | none => ([], e)
    | some r =>
      if _hdue : r.nextRunTick < now then
        let popped := e.pop pq i
        if r.cancel then
          updateReqs now i popped
        else
          let ran := popped.runAt now p r
          if again r now then
            (updateReqs now i ((ran.later now p).push pq i p)).map (⟨p, r, popped⟩ :: ·) id
          else
            (updateReqs now i (ran.removeEndReq r.id)).map (⟨p, r, popped⟩ :: ·) id
      else
        ([], e.assign none)
termination_by t.countDue now i
decreasing_by
  . exact countDue_popped pq _htop _hobj _hdue
  . apply Nat.lt_of_le_of_lt (countDue_later pq _ now i p)
    apply Nat.lt_of_le_of_lt ((quiet_runAt _ now p r).countDue_le i)
    exact countDue_popped pq _htop _hobj _hdue
  . apply Nat.lt_of_le_of_lt ((quiet_removeEndReq _ r.id).countDue_le i)
    apply Nat.lt_of_le_of_lt ((quiet_runAt _ now p r).countDue_le i)
    exact countDue_popped pq _htop _hobj _hdue

def updateSlot (now : ℚ) (t : SharedTimer ω) (i : Nat) : List (Visit ω) × SharedTimer ω :=
  match t.slots[i]? with
  | none => ([], t)
  | some sl =>
    if sl.lastRunTick + sl.interval > now then
      ([], t)
    else
      updateReqs pq now i
        { t with slots := t.slots.modify i fun sl => { sl with lastRunTick := now } }

def updateSlots (now : ℚ) : List Nat → SharedTimer ω → List (Visit ω) × SharedTimer ω
  | [], t => ([], t)
  | i :: is, t =>
    let (visits, t) := updateSlot pq now t i
    let (visits', t) := updateSlots now is t
    (visits ++ visits', t)

def update (t : SharedTimer ω) (now : ℚ) : SharedTimer ω :=
  (updateSlots pq now (List.range t.slots.length) t).2

-- The requests that `update` runs.
def visits (t : SharedTimer ω) (now : ℚ) : List (Visit ω) :=
  (updateSlots pq now (List.range t.slots.length) t).1

/-!
### Runs
-/

inductive Event (ω : Type) where
  | set (interval duration : ℚ) (repeats : Bool) (after tick tick' : ℚ)
  | add (id : Nat) (act : TimerAction ω)
  | cancel (id : Nat)
  | update (now : ℚ)
  -- The world changes between two calls.
  | outside (w : ω)

-- The clock may show anything, what follows does not depend on it.
def step (t : SharedTimer ω) : Event ω → Option (SharedTimer ω)
  | .set interval duration repeats after tick tick' =>
    some (t.set pq interval duration repeats after tick tick').2
  | .add id act => some (t.add id act).2
  | .cancel id => some (t.cancel id).2
  | .update now => some (t.update pq now)
  | .outside w => some { t with world := w }

def machine (w : ω) : Machine (SharedTimer ω) (Event ω) where
  init := ctor w
  step := step pq

end SharedTimer
end Lax
