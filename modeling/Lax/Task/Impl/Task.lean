/-!
This module contains tasks without what they measure about their executions.
-/

namespace Lax

inductive Task.State where
  | constructed
  | ready
  | finished
  deriving DecidableEq, Repr

-- `finishCount` is how often `finish` has been called.
structure Task where
  state : Task.State
  affinity : Bool
  lastRunnerId : Nat
  finishCount : Nat
  deriving DecidableEq, Repr

namespace Task

def ctor : Task where
  state := .constructed
  affinity := false
  lastRunnerId := 0
  finishCount := 0

-- `onStart` is what the virtual function returns.
def start (task : Task) (onStart : Bool) : Bool × Task :=
  let task := if onStart then { task with state := .ready } else task
  (task.state = .ready, task)

def hasRightAffinity (task : Task) (runnerId : Nat) : Bool :=
  task.affinity && (task.lastRunnerId = runnerId || task.lastRunnerId = 0)

-- `execute` up to the call of `on_execute`.
def execute (task : Task) (runnerId : Nat) : Except String Task :=
  if task.state ≠ .ready then
    .error "task not ready in execute"
  else if task.affinity && !task.hasRightAffinity runnerId then
    .error "invalid runner affinity"
  else
    .ok { task with lastRunnerId := runnerId }

def finish (task : Task) : Task :=
  { task with state := .finished, finishCount := task.finishCount + 1 }

end Task
end Lax
