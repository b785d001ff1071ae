import Lax.Task.Impl.Placement

/-!
This module contains the task scheduler in smaller steps: between what `run_schedule` reads about a
task and the push, and between the check in `task::execute` and the note of the runner, the others
may move.
-/

namespace Lax

-- `place` is the position that the calling thread has chosen and not pushed to yet, `entered` who
-- is past the checks, `began` has the executions of tasks with affinity and the id of the runner.
structure FineScheduler where
  scheduler : TaskScheduler
  place : Option Nat
  entered : Nat → Bool
  began : List (Nat × Nat)

namespace FineScheduler

open TaskScheduler (target getTargetRunnerId)

def start (cfg : TaskScheduler.Config) (tasks : Nat → Task) : FineScheduler where
  scheduler := TaskScheduler.start cfg tasks
  place := none
  entered := fun _ => false
  began := []

/-!
### The calling thread
-/

-- `counts` are the lengths of the queues, each one at the moment when the loop gets to it.
def choose (s : FineScheduler) (random : Nat) (counts : List Nat) : Option FineScheduler :=
  match s.scheduler.caller with
  | .scheduling (some t) =>
    if s.place = none ∧ counts.length = s.scheduler.runners.length then
      match target (s.scheduler.tasks t) (getTargetRunnerId random counts) with
      | none => none
      | some i => some { s with place := some i }
    else
      none
  | _ => none

def push (s : FineScheduler) : Option FineScheduler :=
  match s.scheduler.caller with
  | .scheduling (some t) =>
    match s.place with
    | none => none
    | some i =>
      match s.scheduler.runners[i]? with
      | none => none
      | some r => some { s with
          scheduler := {
            s.scheduler.setRunner i { r with queue := r.queue ++ [t] } with
            caller := .scheduling none
          }
          place := none
        }
  | _ => none

/-!
### The runners
-/

-- The call of `execute` up to the end of its checks.
def enter (s : FineScheduler) (i : Nat) : Option FineScheduler :=
  match s.scheduler.runners[i]? with
  | none => none
  | some r =>
    match r.pc with
    | .execute t _ =>
      if s.entered i then
        none
      else
        match (s.scheduler.tasks t).execute r.id with
        | .error msg => some { s with scheduler := { s.scheduler with threw := some msg } }
        | .ok _ => some { s with
            entered := Function.update s.entered i true
            began := if (s.scheduler.tasks t).affinity then s.began ++ [(t, r.id)] else s.began
          }
    | _ => none

def noteRunner (s : FineScheduler) (i : Nat) : Option FineScheduler :=
  match s.scheduler.runners[i]? with
  | none => none
  | some r =>
    match r.pc with
    | .execute t loopCount =>
      if s.entered i then
        some { s with
          scheduler :=
            (s.scheduler.setTask t { s.scheduler.tasks t with lastRunnerId := r.id }).setRunner i
              { r with pc := .executing t loopCount }
          entered := Function.update s.entered i false
        }
      else
        none
    | _ => none

/-!
### Runs
-/

inductive Event where
  | choose (random : Nat) (counts : List Nat)
  | push
  | enter (i : Nat)
  | noteRunner (i : Nat)
  | whole (e : TaskScheduler.Event)
  deriving DecidableEq, Repr

-- The step is taken in two here.
def splits (s : TaskScheduler) : TaskScheduler.Event → Bool
  | .caller _ =>
    match s.caller with
    | .scheduling (some _) => true
    | _ => false
  | .runner i =>
    match s.runners[i]? with
    | none => false
    | some r =>
      match r.pc with
      | .execute _ _ => true
      | _ => false
  | _ => false

def step (onStart : Nat → Bool) (s : FineScheduler) (e : Event) : Option FineScheduler :=
  if s.scheduler.threw.isSome then
    none
  else
    match e with
    | .choose random counts => s.choose random counts
    | .push => s.push
    | .enter i => s.enter i
    | .noteRunner i => s.noteRunner i
    | .whole e =>
      if splits s.scheduler e then
        none
      else
        (TaskScheduler.step onStart s.scheduler e).map fun scheduler =>
          { s with scheduler := scheduler }

def machine (onStart : Nat → Bool) (cfg : TaskScheduler.Config) (tasks : Nat → Task) :
    Machine FineScheduler Event where
  init := start cfg tasks
  step := step onStart

end FineScheduler
end Lax
