import Mathlib.Logic.Function.Basic
import Lax.Foundation.Machine
import Lax.Task.Impl.Task

/-!
This module contains the task scheduler with its runners: the thread that calls the scheduler and
the thread of each runner move one queue operation or one call of a task at a time. Tasks are
numbers, what they are is in `tasks`.
-/

namespace Lax

-- Where the thread of a runner is in `task_runner::run`, with the tasks of this loop so far.
inductive TaskRunner.Pc where
  | check
  | pop (loopCount : Nat)
  | execute (task loopCount : Nat)
  | executing (task loopCount : Nat)
  | pass (task loopCount : Nat)
  | ended
  deriving DecidableEq, Repr

structure TaskRunner where
  id : Nat
  queue : List Nat
  stop : Bool
  pc : TaskRunner.Pc
  deriving DecidableEq, Repr

namespace TaskScheduler

structure Config where
  runnerCount : Nat
  singleLoopRunLimit : Nat
  startTaskWhenScheduleCalled : Bool
  runScheduleWhenScheduleCalled : Bool
  deriving DecidableEq, Repr

-- Where the calling thread is. `some task` is its local variable between a pop and what follows.
inductive Caller where
  | idle
  | starting (task : Nat)
  | pushing (task : Nat)
  | scheduling (task : Option Nat)
  | stopping (runner : Nat)
  | joining (runner : Nat)
  | draining (runner : Nat) (task : Option Nat)
  | finishing (task : Option Nat)
  | finished
  deriving DecidableEq, Repr

end TaskScheduler

-- `scheduled` has the tasks that `schedule` was called with, `threw` the exception that has ended
-- the thread of a runner and the process with it.
structure TaskScheduler where
  config : TaskScheduler.Config
  tasks : Nat → Task
  queue : List Nat
  runners : List TaskRunner
  caller : TaskScheduler.Caller
  scheduled : List Nat
  threw : Option String

namespace TaskScheduler

def start (cfg : Config) (tasks : Nat → Task) : TaskScheduler where
  config := cfg
  tasks := tasks
  queue := []
  runners := (List.range cfg.runnerCount).map fun i =>
    { id := i + 1, queue := [], stop := false, pc := .check }
  caller := .idle
  scheduled := []
  threw := none

def setRunner (s : TaskScheduler) (i : Nat) (r : TaskRunner) : TaskScheduler :=
  { s with runners := s.runners.set i r }

def setTask (s : TaskScheduler) (t : Nat) (task : Task) : TaskScheduler :=
  { s with tasks := Function.update s.tasks t task }

def pass (s : TaskScheduler) (t : Nat) : TaskScheduler :=
  { s with queue := s.queue ++ [t] }

/-!
### The runners
-/

def limitReached (cfg : Config) (loopCount : Nat) : Bool :=
  cfg.singleLoopRunLimit > 0 && loopCount ≥ cfg.singleLoopRunLimit

def stepRunner (s : TaskScheduler) (i : Nat) : Option TaskScheduler :=
  match s.runners[i]? with
  | none => none
  | some r =>
    match r.pc with
    | .check => some (s.setRunner i { r with pc := if r.stop then .ended else .pop 0 })
    | .pop loopCount =>
      match r.queue with
      | [] => some (s.setRunner i { r with pc := .check })
      | t :: queue => some (s.setRunner i { r with queue := queue, pc := .execute t loopCount })
    | .execute t loopCount =>
      match (s.tasks t).execute r.id with
      | .error msg => some { s with threw := some msg }
      | .ok task => some ((s.setTask t task).setRunner i { r with pc := .executing t loopCount })
    | .executing t loopCount => some (s.setRunner i { r with pc := .pass t loopCount })
    | .pass t loopCount =>
      let pc := if limitReached s.config (loopCount + 1) then .check else .pop (loopCount + 1)
      some ((s.pass t).setRunner i { r with pc := pc })
    | .ended => none

-- A task calls its own `finish` while it is executed.
def finishSelf (s : TaskScheduler) (i : Nat) : Option TaskScheduler :=
  match s.runners[i]? with
  | none => none
  | some r =>
    match r.pc with
    | .executing t _ => some (s.setTask t (s.tasks t).finish)
    | _ => none

/-!
### The calling thread
-/

-- What `schedule` does after its task.
def afterSchedule (cfg : Config) : Caller :=
  if cfg.runScheduleWhenScheduleCalled then .scheduling none else .idle

-- The position in `runners_` when `get_target_runner_id` returns `id`.
def target (task : Task) (id : Nat) : Option Nat :=
  if task.affinity then
    let id := if task.lastRunnerId = 0 then id else task.lastRunnerId
    if id = 0 then none else some (id - 1)
  else
    some id

-- `none` where the position is not one of a runner.
def push (s : TaskScheduler) (t id : Nat) : Option TaskScheduler :=
  match target (s.tasks t) id with
  | none => none
  | some i =>
    match s.runners[i]? with
    | none => none
    | some r => some {
        s.setRunner i { r with queue := r.queue ++ [t] } with
        caller := .scheduling none
      }

-- `onStart` is what `on_start` of the task returns.
def startTask (s : TaskScheduler) (onStart : Bool) (t : Nat) : TaskScheduler :=
  if s.config.startTaskWhenScheduleCalled ∧ (s.tasks t).state = .constructed then
    s.setTask t ((s.tasks t).start onStart).2
  else
    s

-- `id` is what `get_target_runner_id` returns if it is called.
def stepCaller (onStart : Nat → Bool) (s : TaskScheduler) (id : Nat) : Option TaskScheduler :=
  match s.caller with
  | .idle => none
  | .starting t =>
    let s := s.startTask (onStart t) t
    if (s.tasks t).state = .ready then
      some { s with caller := .pushing t }
    else
      some { s with caller := afterSchedule s.config }
  | .pushing t => some { s.pass t with caller := afterSchedule s.config }
  | .scheduling none =>
    match s.queue with
    | [] => some { s with caller := .idle }
    | t :: queue => some { s with queue := queue, caller := .scheduling (some t) }
  | .scheduling (some t) => s.push t id
  | .stopping i =>
    match s.runners[i]? with
    | none => some { s with caller := .finishing none }
    | some r => some { s.setRunner i { r with stop := true } with caller := .joining i }
  | .joining i =>
    match s.runners[i]? with
    | none => none
    | some r => if r.pc = .ended then some { s with caller := .draining i none } else none
  | .draining i none =>
    match s.runners[i]? with
    | none => none
    | some r =>
      match r.queue with
      | [] => some { s with caller := .stopping (i + 1) }
      | t :: queue =>
        some { s.setRunner i { r with queue := queue } with caller := .draining i (some t) }
  | .draining i (some t) => some { s.pass t with caller := .draining i none }
  | .finishing none =>
    match s.queue with
    | [] => some { s with caller := .finished }
    | t :: queue => some { s with queue := queue, caller := .finishing (some t) }
  | .finishing (some t) =>
    let task := if (s.tasks t).state = .ready then (s.tasks t).finish else s.tasks t
    some { s.setTask t task with caller := .finishing none }
  | .finished => none

/-!
### Runs
-/

inductive Event where
  | schedule (t : Nat)
  | execute
  | finish
  | caller (id : Nat)
  | runner (i : Nat)
  | finishSelf (i : Nat)
  | setRunnerAffinity (t : Nat)
  deriving DecidableEq, Repr

def call (s : TaskScheduler) (caller : Caller) : Option TaskScheduler :=
  if s.caller = .idle then some { s with caller := caller } else none

def step (onStart : Nat → Bool) (s : TaskScheduler) (e : Event) : Option TaskScheduler :=
  if s.threw.isSome then
    none
  else
    match e with
    | .schedule t => { s with scheduled := s.scheduled ++ [t] }.call (.starting t)
    | .execute => s.call (.scheduling none)
    | .finish => s.call (.stopping 0)
    | .caller id => stepCaller onStart s id
    | .runner i => s.stepRunner i
    | .finishSelf i => s.finishSelf i
    | .setRunnerAffinity t => some (s.setTask t { s.tasks t with affinity := true })

def machine (onStart : Nat → Bool) (cfg : Config) (tasks : Nat → Task) :
    Machine TaskScheduler Event where
  init := start cfg tasks
  step := step onStart

end TaskScheduler
end Lax
