import Mathlib.Data.Rat.Floor
import Mathlib.Tactic.Linarith
import Mathlib.Tactic.NormNum
import Lax.Foundation.Machine
import Lax.Foundation.PriorityQueue
import Lax.Util.Impl.Sequence

/-!
This module contains the interval timer of the channels. Ticks are exact rationals. `α` is the type
of actions, which only take the id of their request and do not call the timer back.
-/

namespace Lax
namespace Timer

def minInterval : ℚ := 1 / 100

structure Req (α : Type) where
  id : Nat
  interval : ℚ
  repeats : Bool
  actions : List α
  lastRunTick : ℚ
  nextRunTick : ℚ
  endRunTick : ℚ
  cancel : Bool
  runCount : Nat
  minInterval_le : minInterval ≤ interval

namespace Req

variable {α : Type}

-- The clock is read twice.
def ctor (id : Nat) (interval duration after : ℚ) (repeats : Bool) (tick tick' : ℚ) : Req α where
  id := id
  interval := max minInterval interval
  repeats := repeats
  actions := []
  lastRunTick := 0
  nextRunTick := tick + after + max minInterval interval
  endRunTick := tick' + after + duration
  cancel := false
  runCount := 0
  minInterval_le := le_max_left _ _

def add (r : Req α) (act : α) : Req α :=
  { r with actions := r.actions ++ [act] }

-- The calls of a run, in their order.
def calls (r : Req α) : List (α × Nat) :=
  r.actions.map fun act => (act, r.id)

def run (r : Req α) : Req α :=
  { r with runCount := r.runCount + 1 }

-- `id_` is an `int`, an id from 2^31 on is a negative one.
def release (r : Req α) (seq : Sequence) : Sequence :=
  if r.id < 0x80000000 then seq.release r.id else seq

end Req

-- `slot::entry::operator<`
def Entry.lt {α : Type} (lhs rhs : Req α) : Prop :=
  lhs.nextRunTick < rhs.nextRunTick

abbrev Entries (α : Type) : Type :=
  MaxQueue (@Entry.lt α)

structure Slot (α : Type) where
  interval : ℚ
  lastRunTick : ℚ
  reqs : Entries α

end Timer

-- `reqs` has the ids that the map of requests knows, `tick` is the last one that was read.
structure Timer (α : Type) where
  slots : List (Timer.Slot α)
  reqs : List Nat
  seq : Sequence
  tick : ℚ

namespace Timer

variable {α : Type} (pq : PriorityQueue (@Entry.lt α))

-- `UINT32_MAX`
def endId : Nat := 0xffffffff

def ctor : Timer α where
  slots := []
  reqs := []
  seq := Sequence.ctor 1 endId 16
  tick := 0

/-!
### `set`
-/

def slotInterval (target si fi : ℚ) (h : minInterval ≤ si) : ℚ :=
  if si < target then
    slotInterval target (si * 2) si (by
      unfold minInterval at h ⊢
      linarith)
  else
    fi
termination_by ⌈(target - si) * 100⌉₊
decreasing_by
  have hstep : (target - si * 2) * 100 ≤ (target - si) * 100 - 1 := by
    unfold minInterval at h
    linarith
  calc ⌈(target - si * 2) * 100⌉₊
    _ ≤ ⌈(target - si) * 100 - 1⌉₊ := Nat.ceil_mono hstep
    _ = ⌈(target - si) * 100⌉₊ - 1 := Nat.ceil_sub_one _
    _ < ⌈(target - si) * 100⌉₊ := by
      have : 0 < ⌈(target - si) * 100⌉₊ := Nat.ceil_pos.mpr (by linarith)
      omega

-- The slot with the largest interval below `interval`, with its position. The first one is taken.
def findSlot (interval : ℚ) : List (Slot α) → Nat → Option (Nat × ℚ) → Option (Nat × ℚ)
  | [], _, found => found
  | slt :: slots, i, found =>
    if slt.interval < interval ∧ (found.map Prod.snd).getD 0 < slt.interval then
      findSlot interval slots (i + 1) (some (i, slt.interval))
    else
      findSlot interval slots (i + 1) found

def createSlot (slots : List (Slot α)) (interval : ℚ) : List (Slot α) × Nat :=
  let added := (slots ++ [{ interval := interval, lastRunTick := 0, reqs := .empty }], slots.length)
  match findSlot interval slots 0 none with
  | none => added
  | some (i, foundInterval) => if foundInterval > interval then added else (slots, i)

-- `none` is the exception of a pool without ids.
def set (t : Timer α) (interval duration : ℚ) (repeats : Bool) (after tick tick' : ℚ) :
    Option Nat × Timer α :=
  let fi := slotInterval (interval / 2) minInterval minInterval le_rfl
  let (slots, i) := createSlot t.slots fi
  match t.seq.next with
  | none => (none, { t with slots := slots, tick := tick' })
  | some (id, seq) =>
    let rp := Req.ctor id interval duration after repeats tick tick'
    (some id, {
      slots := slots.modify i fun slt => { slt with reqs := pq.push slt.reqs rp }
      reqs := t.reqs.insert id
      seq := seq
      tick := tick'
    })

/-!
### `add` and `cancel`
-/

-- What the map and a slot know of a request is the same object.
def Slot.modifyReq (slt : Slot α) (id : Nat) (f : Req α → Req α)
    (hf : ∀ r, (f r).nextRunTick = r.nextRunTick) : Slot α :=
  { slt with
    reqs := slt.reqs.map (fun r => if r.id = id then f r else r) (by
      intro a b
      unfold Entry.lt
      split <;> split <;> simp only [hf, imp_self]) }

def add (t : Timer α) (id : Nat) (act : α) : Bool × Timer α :=
  if id ∈ t.reqs then
    (true, { t with slots := t.slots.map (·.modifyReq id (·.add act) fun _ => rfl) })
  else
    (false, t)

def cancel (t : Timer α) (id : Nat) : Bool × Timer α :=
  if id ∈ t.reqs then
    (true, {
      t with
      slots := t.slots.map (·.modifyReq id (fun r => { r with cancel := true }) fun _ => rfl)
      reqs := t.reqs.erase id
    })
  else
    (false, t)

/-!
### `update`
-/

-- What all slots share, and the requests that were run in this update as they were before.
structure Update (α : Type) where
  reqs : List Nat
  seq : Sequence
  ran : List (Req α)

def again (e : Req α) (now : ℚ) : Bool :=
  e.repeats || now < e.endRunTick

def countDue (now : ℚ) (queue : Entries α) : Nat :=
  queue.items.countP fun r => r.nextRunTick < now

theorem countDue_pop {now : ℚ} {queue : Entries α} {e : Req α} {l : List (Req α)}
    (hitems : queue.items = e :: l) (hdue : e.nextRunTick < now) :
    countDue now (pq.pop queue) < countDue now queue := by
  unfold countDue
  rw [(pq.pop_perm _ _ _ hitems).countP_eq, hitems, List.countP_cons, if_pos (decide_eq_true hdue)]
  omega

theorem countDue_push {now : ℚ} {queue : Entries α} {e : Req α} (hdue : ¬e.nextRunTick < now) :
    countDue now (pq.push queue e) = countDue now queue := by
  unfold countDue
  rw [(pq.push_perm _ _).countP_eq, List.countP_cons_of_neg]
  simpa using hdue

theorem not_add_interval_lt (e : Req α) (now : ℚ) : ¬now + e.interval < now := by
  have := e.minInterval_le
  unfold minInterval at this
  linarith

def updateReqs (now : ℚ) (queue : Entries α) (u : Update α) : Entries α × Update α :=
  match _hitems : queue.items with
  | [] => (queue, u)
  | e :: _ =>
    if _hdue : e.nextRunTick < now then
      let popped := pq.pop queue
      if e.cancel then
        updateReqs now popped { u with seq := e.release u.seq }
      else if again e now then
        let e' := { e.run with lastRunTick := now, nextRunTick := now + e.interval }
        updateReqs now (pq.push popped e') { u with ran := u.ran ++ [e] }
      else
        updateReqs now popped {
          reqs := u.reqs.erase e.id
          seq := e.release u.seq
          ran := u.ran ++ [e]
        }
    else
      (queue, u)
termination_by countDue now queue
decreasing_by
  . exact countDue_pop pq _hitems _hdue
  . rw [countDue_push pq (not_add_interval_lt e now)]
    exact countDue_pop pq _hitems _hdue
  . exact countDue_pop pq _hitems _hdue

def updateSlot (now : ℚ) (sl : Slot α) (u : Update α) : Slot α × Update α :=
  if sl.lastRunTick + sl.interval > now then
    (sl, u)
  else
    let (queue, u) := updateReqs pq now sl.reqs u
    ({ sl with lastRunTick := now, reqs := queue }, u)

def updateSlots (now : ℚ) : List (Slot α) → Update α → List (Slot α) × Update α
  | [], u => ([], u)
  | sl :: slots, u =>
    let (sl, u) := updateSlot pq now sl u
    let (slots, u) := updateSlots now slots u
    (sl :: slots, u)

-- The requests that were run, in their order, and the timer after that.
def update (t : Timer α) (now : ℚ) : List (Req α) × Timer α :=
  let (slots, u) := updateSlots pq now t.slots { reqs := t.reqs, seq := t.seq, ran := [] }
  (u.ran, { slots := slots, reqs := u.reqs, seq := u.seq, tick := now })

/-!
### Runs
-/

inductive Event (α : Type) where
  | set (interval duration : ℚ) (repeats : Bool) (after tick tick' : ℚ)
  | add (id : Nat) (act : α)
  | cancel (id : Nat)
  | update (now : ℚ)

def step (t : Timer α) : Event α → Option (Timer α)
  | .set interval duration repeats after tick tick' =>
    if t.tick ≤ tick ∧ tick ≤ tick' then
      some (t.set pq interval duration repeats after tick tick').2
    else
      none
  | .add id act => some (t.add id act).2
  | .cancel id => some (t.cancel id).2
  | .update now => if t.tick ≤ now then some (t.update pq now).2 else none

def machine : Machine (Timer α) (Event α) where
  init := ctor
  step := step pq

end Timer
end Lax
