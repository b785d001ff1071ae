import Lax.Task.Impl.TaskScheduler

/-!
This module contains how the scheduler chooses a runner. Ids of runners begin at 1, positions in
`runners_` at 0.
-/

namespace Lax
namespace TaskScheduler

-- `UINT32_MAX`
def maxTaskCount : Nat := 4294967295

-- The loop of `get_target_runner_id` from position `i` on.
def pick (candId minTaskCount i : Nat) : List Nat → Nat
  | [] => candId
  | taskCount :: counts =>
    if taskCount < minTaskCount then
      pick (i + 1) taskCount (i + 1) counts
    else
      pick candId minTaskCount (i + 1) counts

-- `random` is what `rand` returns, `counts` are the lengths of the queues of the runners.
def getTargetRunnerId (random : Nat) (counts : List Nat) : Nat :=
  pick (random % counts.length) maxTaskCount 0 counts

def counts (s : TaskScheduler) : List Nat :=
  s.runners.map fun r => r.queue.length

-- `run_schedule` with a task that it has taken.
def place (s : TaskScheduler) (t random : Nat) : Option TaskScheduler :=
  s.push t (getTargetRunnerId random s.counts)

-- No runner has less to do than the one at `i`.
def Shortest (s : TaskScheduler) (i : Nat) : Prop :=
  ∃ r, s.runners[i]? = some r ∧ ∀ r' ∈ s.runners, r.queue.length ≤ r'.queue.length

-- The task gets to the runner that has executed it last if it is bound to one, and else to one with
-- the least to do.
def Placed (s : TaskScheduler) (t random : Nat) : Prop :=
  ∃ i r, s.runners[i]? = some r
    ∧ target (s.tasks t) (getTargetRunnerId random s.counts) = some i
    ∧ s.place t random
      = some { s.setRunner i { r with queue := r.queue ++ [t] } with caller := .scheduling none }
    ∧ (if (s.tasks t).affinity ∧ (s.tasks t).lastRunnerId ≠ 0 then
        r.id = (s.tasks t).lastRunnerId
      else
        s.Shortest i)

-- Every queue is so long that the loop never changes its candidate.
def Overlong (s : TaskScheduler) : Prop :=
  ∀ r ∈ s.runners, maxTaskCount ≤ r.queue.length

-- The runner after the first of those with the least to do has as little to do.
def NextAsShort (s : TaskScheduler) : Prop :=
  ∃ i, s.Shortest i ∧ (∀ j < i, ¬s.Shortest j) ∧ s.Shortest (i + 1)

def Fits (s : TaskScheduler) (t random : Nat) : Prop :=
  let candId := random % s.runners.length
  if (s.tasks t).affinity then
    if (s.tasks t).lastRunnerId ≠ 0 then
      (s.tasks t).lastRunnerId ≤ s.runners.length
    else
      s.Overlong → candId ≠ 0 ∧ s.Shortest (candId - 1)
  else
    (s.Overlong → s.Shortest candId) ∧ (¬s.Overlong → s.NextAsShort)

end TaskScheduler
end Lax
