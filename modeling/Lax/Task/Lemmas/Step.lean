import Mathlib.Data.List.Count
import Lax.Foundation.Cells
import Lax.Task.Impl.TaskScheduler

/-!
This module contains where the tasks are and what the steps of the threads do to that.
-/

namespace Lax

/-!
### Places
-/

-- The task in the hands of a runner.
@[simp]
def TaskRunner.Pc.hand : TaskRunner.Pc → List Nat
  | .execute t _ => [t]
  | .executing t _ => [t]
  | .pass t _ => [t]
  | _ => []

def TaskRunner.held (r : TaskRunner) : List Nat :=
  r.queue ++ r.pc.hand

namespace TaskScheduler

-- The task in the hands of the calling thread.
@[simp]
def Caller.hand : Caller → List Nat
  | .starting t => [t]
  | .pushing t => [t]
  | .scheduling t => t.toList
  | .draining _ t => t.toList
  | .finishing t => t.toList
  | _ => []

-- Every task as often as it is somewhere.
def held (s : TaskScheduler) : List Nat :=
  s.queue ++ s.runners.flatMap TaskRunner.held ++ s.caller.hand

/-!
### Steps that only move tasks
-/

structure Moved (s s' : TaskScheduler) : Prop where
  scheduled_eq : s'.scheduled = s.scheduled
  config_eq : s'.config = s.config
  state_eq : ∀ t, (s'.tasks t).state = (s.tasks t).state
  finishCount_eq : ∀ t, (s'.tasks t).finishCount = (s.tasks t).finishCount
  count_eq : ∀ t, s'.held.count t = s.held.count t

variable {s s' : TaskScheduler} {i t : Nat} {r : TaskRunner}

@[simp]
theorem queue_pass : (s.pass t).queue = s.queue ++ [t] := rfl

@[simp]
theorem queue_setRunner : (s.setRunner i r).queue = s.queue := rfl

theorem count_held (s : TaskScheduler) (t : Nat) :
    s.held.count t
      =
    s.queue.count t + (s.runners.flatMap TaskRunner.held).count t + s.caller.hand.count t := by
  unfold held
  rw [List.count_append, List.count_append]

theorem Moved.trans {s'' : TaskScheduler} (h : Moved s s') (h' : Moved s' s'') : Moved s s'' where
  scheduled_eq := h'.scheduled_eq.trans h.scheduled_eq
  config_eq := h'.config_eq.trans h.config_eq
  state_eq t := (h'.state_eq t).trans (h.state_eq t)
  finishCount_eq t := (h'.finishCount_eq t).trans (h.finishCount_eq t)
  count_eq t := (h'.count_eq t).trans (h.count_eq t)

theorem moved_queue {queue : List Nat} {caller : Caller}
    (hcount : ∀ t, queue.count t + caller.hand.count t = s.queue.count t + s.caller.hand.count t) :
    Moved s { s with queue := queue, caller := caller } := by
  refine ⟨rfl, rfl, fun _ => rfl, fun _ => rfl, ?_⟩
  intro t
  have := hcount t
  rw [count_held, count_held]
  dsimp only
  omega

theorem moved_runner (h : s.runners[i]? = some r) {r' : TaskRunner} {queue : List Nat}
    {caller : Caller}
    (hcount : ∀ t, queue.count t + r'.held.count t + caller.hand.count t
      = s.queue.count t + r.held.count t + s.caller.hand.count t) :
    Moved s { s.setRunner i r' with queue := queue, caller := caller } := by
  refine ⟨rfl, rfl, fun _ => rfl, fun _ => rfl, ?_⟩
  intro t
  have := hcount t
  have := Cells.count_flatMap_set (f := TaskRunner.held) h r' t
  rw [count_held, count_held]
  unfold setRunner
  dsimp only
  omega

-- What a step of a task keeps, it keeps for all of them.
theorem setTask_congr {β : Type} (f : Task → β) {task : Task} (h : f task = f (s.tasks t))
    (t' : Nat) : f ((s.setTask t task).tasks t') = f (s.tasks t') := by
  unfold setTask
  dsimp only
  rw [Function.update_apply]
  split
  . next heq => rw [h, heq]
  . rfl

theorem moved_setTask {task : Task} (hstate : task.state = (s.tasks t).state)
    (hfinishCount : task.finishCount = (s.tasks t).finishCount) : Moved s (s.setTask t task) := by
  constructor
  . rfl
  . rfl
  . exact setTask_congr Task.state hstate
  . exact setTask_congr Task.finishCount hfinishCount
  . exact fun _ => rfl

theorem state_execute {task task' : Task} {id : Nat} (h : task.execute id = .ok task') :
    task.state = .ready ∧ task'.state = task.state ∧ task'.finishCount = task.finishCount := by
  unfold Task.execute at h
  split at h
  . contradiction
  . next hstate =>
    split at h
    . contradiction
    . injection h with h
      subst h
      exact ⟨not_not.mp hstate, rfl, rfl⟩

/-!
### The step of a runner
-/

inductive RunnerStep (s : TaskScheduler) (i : Nat) (r : TaskRunner) : TaskScheduler → Prop where
  | check (hpc : r.pc = .check) :
    RunnerStep s i r (s.setRunner i { r with pc := if r.stop then .ended else .pop 0 })
  | empty {loopCount : Nat} (hpc : r.pc = .pop loopCount) (hqueue : r.queue = []) :
    RunnerStep s i r (s.setRunner i { r with pc := .check })
  | pop {t loopCount : Nat} {queue : List Nat} (hpc : r.pc = .pop loopCount)
    (hqueue : r.queue = t :: queue) :
    RunnerStep s i r (s.setRunner i { r with queue := queue, pc := .execute t loopCount })
  | throws {t loopCount : Nat} {msg : String} (hpc : r.pc = .execute t loopCount)
    (hexecute : (s.tasks t).execute r.id = .error msg) :
    RunnerStep s i r { s with threw := some msg }
  | execute {t loopCount : Nat} {task : Task} (hpc : r.pc = .execute t loopCount)
    (hexecute : (s.tasks t).execute r.id = .ok task) :
    RunnerStep s i r ((s.setTask t task).setRunner i { r with pc := .executing t loopCount })
  | executed {t loopCount : Nat} (hpc : r.pc = .executing t loopCount) :
    RunnerStep s i r (s.setRunner i { r with pc := .pass t loopCount })
  | pass {t loopCount : Nat} {pc : TaskRunner.Pc} (hpc : r.pc = .pass t loopCount)
    (hnext : pc.hand = []) :
    RunnerStep s i r ((s.pass t).setRunner i { r with pc := pc })

theorem runnerStep (h : s.stepRunner i = some s') :
    ∃ r, s.runners[i]? = some r ∧ RunnerStep s i r s' := by
  unfold stepRunner at h
  split at h
  . contradiction
  . next r hr =>
    refine ⟨r, hr, ?_⟩
    split at h
    . next hpc => exact Option.some.inj h ▸ .check hpc
    . next hpc =>
      split at h
      . next hqueue => exact Option.some.inj h ▸ .empty hpc hqueue
      . next hqueue => exact Option.some.inj h ▸ .pop hpc hqueue
    . next hpc =>
      split at h
      . next hexecute => exact Option.some.inj h ▸ .throws hpc hexecute
      . next hexecute => exact Option.some.inj h ▸ .execute hpc hexecute
    . next hpc => exact Option.some.inj h ▸ .executed hpc
    . next loopCount hpc =>
      refine Option.some.inj h ▸ .pass hpc ?_
      split <;> rfl
    . contradiction

theorem RunnerStep.moved (h : RunnerStep s i r s') (hr : s.runners[i]? = some r) : Moved s s' := by
  cases h with
  | check hpc =>
    apply moved_runner hr
    intro t
    unfold TaskRunner.held
    rw [hpc]
    dsimp only
    split <;> rfl
  | empty hpc hqueue =>
    apply moved_runner hr
    intro t
    unfold TaskRunner.held
    rw [hpc]
    rfl
  | pop hpc hqueue =>
    apply moved_runner hr
    intro t
    unfold TaskRunner.held TaskRunner.Pc.hand
    rw [hpc, hqueue]
    simp only [List.count_append, List.count_cons, List.count_nil]
    omega
  | throws hpc hexecute => exact ⟨rfl, rfl, fun _ => rfl, fun _ => rfl, fun _ => rfl⟩
  | @execute t _ task hpc hexecute =>
    have hr' : (s.setTask t task).runners[i]? = some r := hr
    obtain ⟨-, hstate, hfinishCount⟩ := state_execute hexecute
    apply (moved_setTask hstate hfinishCount).trans
    apply moved_runner hr'
    intro t
    unfold TaskRunner.held TaskRunner.Pc.hand
    rw [hpc]
  | executed hpc =>
    apply moved_runner hr
    intro t
    unfold TaskRunner.held TaskRunner.Pc.hand
    rw [hpc]
  | pass hpc hnext =>
    apply moved_runner hr
    intro t
    unfold TaskRunner.held
    dsimp only
    rw [hnext, hpc]
    unfold TaskRunner.Pc.hand TaskScheduler.pass
    simp only [List.count_append, List.count_nil]
    omega

theorem RunnerStep.pc_ne_ended (h : RunnerStep s i r s') : r.pc ≠ .ended := by
  intro hended
  cases h with
  | _ hpc => rw [hpc] at hended; contradiction

theorem RunnerStep.caller_eq (h : RunnerStep s i r s') : s'.caller = s.caller := by
  cases h <;> rfl

theorem RunnerStep.runners_eq (h : RunnerStep s i r s') :
    s'.runners.length = s.runners.length ∧ ∀ j ≠ i, s'.runners[j]? = s.runners[j]? := by
  cases h with
  | throws => exact ⟨rfl, fun _ _ => rfl⟩
  | _ => exact ⟨List.length_set, fun j hj => List.getElem?_set_ne hj.symm⟩

theorem runners_cases {j : Nat} {r' r'' : TaskRunner} (hr : s.runners[i]? = some r)
    (hrunners : s'.runners = s.runners.set i r') (hr'' : s'.runners[j]? = some r'') :
    s.runners[j]? = some r'' ∨ j = i ∧ r'' = r' := by
  rw [hrunners] at hr''
  by_cases heq : i = j
  . subst heq
    rw [List.getElem?_set_self (List.getElem?_eq_some_iff.mp hr).1] at hr''
    injection hr'' with hr''
    exact .inr ⟨rfl, hr''.symm⟩
  . rw [List.getElem?_set_ne heq] at hr''
    exact .inl hr''

/-!
### The step of the calling thread
-/

inductive CallerStep (onStart : Nat → Bool) (s : TaskScheduler) : TaskScheduler → Prop where
  | started {t : Nat} (hcaller : s.caller = .starting t)
    (hready : ((s.startTask (onStart t) t).tasks t).state = .ready) :
    CallerStep onStart s { s.startTask (onStart t) t with caller := .pushing t }
  | refused {t : Nat} {next : Caller} (hcaller : s.caller = .starting t)
    (hready : ((s.startTask (onStart t) t).tasks t).state ≠ .ready)
    (hnext : next = .idle ∨ next = .scheduling none) :
    CallerStep onStart s { s.startTask (onStart t) t with caller := next }
  | pushed {t : Nat} {next : Caller} (hcaller : s.caller = .pushing t)
    (hnext : next = .idle ∨ next = .scheduling none) :
    CallerStep onStart s { s.pass t with caller := next }
  | scheduled (hcaller : s.caller = .scheduling none) (hqueue : s.queue = []) :
    CallerStep onStart s { s with caller := .idle }
  | take {t : Nat} {queue : List Nat} (hcaller : s.caller = .scheduling none)
    (hqueue : s.queue = t :: queue) :
    CallerStep onStart s { s with queue := queue, caller := .scheduling (some t) }
  | place {t i : Nat} {r : TaskRunner} (hcaller : s.caller = .scheduling (some t))
    (hr : s.runners[i]? = some r) :
    CallerStep onStart s
      { s.setRunner i { r with queue := r.queue ++ [t] } with caller := .scheduling none }
  | stopped {i : Nat} (hcaller : s.caller = .stopping i) (hr : s.runners[i]? = none) :
    CallerStep onStart s { s with caller := .finishing none }
  | stop {i : Nat} {r : TaskRunner} (hcaller : s.caller = .stopping i)
    (hr : s.runners[i]? = some r) :
    CallerStep onStart s { s.setRunner i { r with stop := true } with caller := .joining i }
  | join {i : Nat} {r : TaskRunner} (hcaller : s.caller = .joining i)
    (hr : s.runners[i]? = some r) (hpc : r.pc = .ended) :
    CallerStep onStart s { s with caller := .draining i none }
  | drained {i : Nat} {r : TaskRunner} (hcaller : s.caller = .draining i none)
    (hr : s.runners[i]? = some r) (hqueue : r.queue = []) :
    CallerStep onStart s { s with caller := .stopping (i + 1) }
  | drain {i t : Nat} {r : TaskRunner} {queue : List Nat} (hcaller : s.caller = .draining i none)
    (hr : s.runners[i]? = some r) (hqueue : r.queue = t :: queue) :
    CallerStep onStart s
      { s.setRunner i { r with queue := queue } with caller := .draining i (some t) }
  | passed {i t : Nat} (hcaller : s.caller = .draining i (some t)) :
    CallerStep onStart s { s.pass t with caller := .draining i none }
  | finished (hcaller : s.caller = .finishing none) (hqueue : s.queue = []) :
    CallerStep onStart s { s with caller := .finished }
  | takeLast {t : Nat} {queue : List Nat} (hcaller : s.caller = .finishing none)
    (hqueue : s.queue = t :: queue) :
    CallerStep onStart s { s with queue := queue, caller := .finishing (some t) }
  | finish {t : Nat} (hcaller : s.caller = .finishing (some t)) :
    CallerStep onStart s {
      s.setTask t (if (s.tasks t).state = .ready then (s.tasks t).finish else s.tasks t) with
      caller := .finishing none
    }

theorem runners_startTask (s : TaskScheduler) (b : Bool) (t : Nat) :
    (s.startTask b t).runners = s.runners := by
  unfold startTask
  split <;> rfl

theorem threw_startTask (s : TaskScheduler) (b : Bool) (t : Nat) :
    (s.startTask b t).threw = s.threw := by
  unfold startTask
  split <;> rfl

theorem afterSchedule_cases (cfg : Config) :
    afterSchedule cfg = .idle ∨ afterSchedule cfg = .scheduling none := by
  unfold afterSchedule
  split
  . exact .inr rfl
  . exact .inl rfl

theorem callerStep {onStart : Nat → Bool} {id : Nat} (h : stepCaller onStart s id = some s') :
    CallerStep onStart s s' := by
  unfold stepCaller at h
  split at h
  . contradiction
  . next hcaller =>
    dsimp only at h
    split at h
    . next hready => exact Option.some.inj h ▸ .started hcaller hready
    . next hready => exact Option.some.inj h ▸ .refused hcaller hready (afterSchedule_cases _)
  . next hcaller => exact Option.some.inj h ▸ .pushed hcaller (afterSchedule_cases _)
  . next hcaller =>
    split at h
    . next hqueue => exact Option.some.inj h ▸ .scheduled hcaller hqueue
    . next hqueue => exact Option.some.inj h ▸ .take hcaller hqueue
  . next hcaller =>
    unfold push at h
    split at h
    . contradiction
    . split at h
      . contradiction
      . next hr => exact Option.some.inj h ▸ .place hcaller hr
  . next hcaller =>
    split at h
    . next hr => exact Option.some.inj h ▸ .stopped hcaller hr
    . next hr => exact Option.some.inj h ▸ .stop hcaller hr
  . next hcaller =>
    split at h
    . contradiction
    . next hr =>
      split at h
      . next hpc => exact Option.some.inj h ▸ .join hcaller hr hpc
      . contradiction
  . next hcaller =>
    split at h
    . contradiction
    . next hr =>
      split at h
      . next hqueue => exact Option.some.inj h ▸ .drained hcaller hr hqueue
      . next hqueue => exact Option.some.inj h ▸ .drain hcaller hr hqueue
  . next hcaller => exact Option.some.inj h ▸ .passed hcaller
  . next hcaller =>
    split at h
    . next hqueue => exact Option.some.inj h ▸ .finished hcaller hqueue
    . next hqueue => exact Option.some.inj h ▸ .takeLast hcaller hqueue
  . next hcaller => exact Option.some.inj h ▸ .finish hcaller
  . contradiction

theorem CallerStep.moved {onStart : Nat → Bool} (h : CallerStep onStart s s')
    (hstarting : ∀ t, s.caller ≠ .starting t) (hfinishing : ∀ t, s.caller ≠ .finishing (some t)) :
    Moved s s' := by
  cases h with
  | started hcaller => exact absurd hcaller (hstarting _)
  | refused hcaller => exact absurd hcaller (hstarting _)
  | pushed hcaller hnext =>
    apply moved_queue
    intro t
    obtain rfl | rfl := hnext <;> simp [hcaller]
  | scheduled hcaller =>
    apply moved_queue
    intro t
    simp [hcaller]
  | take hcaller hqueue =>
    apply moved_queue
    intro t
    simp [hcaller, hqueue, List.count_cons]
  | place hcaller hr =>
    apply moved_runner hr
    intro t
    simp only [hcaller, TaskRunner.held, Caller.hand, Option.toList_some, Option.toList_none,
      queue_setRunner, List.count_append, List.count_nil]
    omega
  | stopped hcaller =>
    apply moved_queue
    intro t
    simp [hcaller]
  | stop hcaller hr =>
    apply moved_runner hr
    intro t
    simp [hcaller, TaskRunner.held]
  | join hcaller =>
    apply moved_queue
    intro t
    simp [hcaller]
  | drained hcaller =>
    apply moved_queue
    intro t
    simp [hcaller]
  | drain hcaller hr hqueue =>
    apply moved_runner hr
    intro t
    simp only [hcaller, hqueue, TaskRunner.held, Caller.hand, Option.toList_some,
      Option.toList_none, queue_setRunner, List.count_append, List.count_cons, List.count_nil]
    omega
  | passed hcaller =>
    apply moved_queue
    intro t
    simp [hcaller]
  | finished hcaller =>
    apply moved_queue
    intro t
    simp [hcaller]
  | takeLast hcaller hqueue =>
    apply moved_queue
    intro t
    simp [hcaller, hqueue, List.count_cons]
  | finish hcaller => exact absurd hcaller (hfinishing _)

/-!
### All steps
-/

inductive Stepped (onStart : Nat → Bool) (s : TaskScheduler) : Event → TaskScheduler → Prop where
  | schedule {t : Nat} (hcaller : s.caller = .idle) :
    Stepped onStart s (.schedule t)
      { s with scheduled := s.scheduled ++ [t], caller := .starting t }
  | execute (hcaller : s.caller = .idle) :
    Stepped onStart s .execute { s with caller := .scheduling none }
  | finish (hcaller : s.caller = .idle) :
    Stepped onStart s .finish { s with caller := .stopping 0 }
  | caller {id : Nat} {s' : TaskScheduler} (hstep : CallerStep onStart s s') :
    Stepped onStart s (.caller id) s'
  | runner {i : Nat} {r : TaskRunner} {s' : TaskScheduler} (hr : s.runners[i]? = some r)
    (hstep : RunnerStep s i r s') : Stepped onStart s (.runner i) s'
  | finishSelf {i t loopCount : Nat} {r : TaskRunner} (hr : s.runners[i]? = some r)
    (hpc : r.pc = .executing t loopCount) :
    Stepped onStart s (.finishSelf i) (s.setTask t (s.tasks t).finish)
  | setRunnerAffinity {t : Nat} :
    Stepped onStart s (.setRunnerAffinity t) (s.setTask t { s.tasks t with affinity := true })

theorem call_eq_some {caller : Caller} (h : s.call caller = some s') :
    s.caller = .idle ∧ { s with caller := caller } = s' := by
  unfold call at h
  split at h
  . next hcaller => exact ⟨hcaller, Option.some.inj h⟩
  . contradiction

theorem stepped {onStart : Nat → Bool} {e : Event} (h : step onStart s e = some s') :
    s.threw = none ∧ Stepped onStart s e s' := by
  unfold step at h
  split at h
  . contradiction
  . next hthrew =>
    refine ⟨Option.not_isSome_iff_eq_none.mp hthrew, ?_⟩
    cases e with
    | schedule t =>
      obtain ⟨hcaller, rfl⟩ := call_eq_some h
      exact .schedule hcaller
    | execute =>
      obtain ⟨hcaller, rfl⟩ := call_eq_some h
      exact .execute hcaller
    | finish =>
      obtain ⟨hcaller, rfl⟩ := call_eq_some h
      exact .finish hcaller
    | caller id => exact .caller (callerStep h)
    | runner i =>
      obtain ⟨r, hr, hstep⟩ := runnerStep h
      exact .runner hr hstep
    | finishSelf i =>
      dsimp only at h
      unfold finishSelf at h
      split at h
      . contradiction
      . next hr =>
        split at h
        . next hpc => exact Option.some.inj h ▸ .finishSelf hr hpc
        . contradiction
    | setRunnerAffinity t => exact Option.some.inj h ▸ .setRunnerAffinity

end TaskScheduler
end Lax
