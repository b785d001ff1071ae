import Lax.Task.Lemmas.Shutdown

/-!
This module contains that no task is lost or in two places, when every task is scheduled at most
once and none of them finishes itself.
-/

namespace Lax
namespace TaskScheduler

variable {s s' : TaskScheduler} {t : Nat}

/-!
### Starting and finishing a task
-/

theorem state_start (task : Task) (b : Bool) :
    (task.start b).2.state = if b then .ready else task.state := by
  unfold Task.start
  split <;> rfl

theorem finishCount_start (task : Task) (b : Bool) :
    (task.start b).2.finishCount = task.finishCount := by
  unfold Task.start
  split <;> rfl

theorem state_startTask (s : TaskScheduler) (b : Bool) (t : Nat) :
    ((s.startTask b t).tasks t).state
      =
    if s.config.startTaskWhenScheduleCalled ∧ (s.tasks t).state = .constructed ∧ b then
      .ready
    else
      (s.tasks t).state := by
  unfold startTask setTask
  by_cases hstart : s.config.startTaskWhenScheduleCalled ∧ (s.tasks t).state = .constructed
  . rw [if_pos hstart]
    dsimp only
    rw [Function.update_self, state_start]
    simp [hstart.1, hstart.2]
  . rw [if_neg hstart, if_neg fun h => hstart ⟨h.1, h.2.1⟩]

theorem finishCount_startTask (s : TaskScheduler) (b : Bool) (t : Nat) :
    ((s.startTask b t).tasks t).finishCount = (s.tasks t).finishCount := by
  unfold startTask setTask
  split
  . dsimp only
    rw [Function.update_self, finishCount_start]
  . rfl

theorem startTask_of_ne {t' : Nat} (b : Bool) (h : t' ≠ t) :
    (s.startTask b t).tasks t' = s.tasks t' := by
  unfold startTask
  split
  . exact Function.update_of_ne h _ _
  . rfl

theorem held_startTask (b : Bool) (caller : Caller) :
    { s.startTask b t with caller := caller }.held = { s with caller := caller }.held := by
  unfold startTask
  split <;> rfl

theorem startTask_frame (s : TaskScheduler) (b : Bool) (t : Nat) :
    (s.startTask b t).config = s.config ∧ (s.startTask b t).scheduled = s.scheduled := by
  unfold startTask
  split <;> exact ⟨rfl, rfl⟩

theorem CallerStep.of_starting {onStart : Nat → Bool} (h : CallerStep onStart s s')
    (hcaller : s.caller = .starting t) :
    ∃ next, s' = { s.startTask (onStart t) t with caller := next }
      ∧ ((((s.startTask (onStart t) t).tasks t).state = .ready ∧ next = .pushing t)
        ∨ (((s.startTask (onStart t) t).tasks t).state ≠ .ready ∧ next.hand = [])) := by
  cases h with
  | started hcaller' hready =>
    cases hcaller'.symm.trans hcaller
    exact ⟨_, rfl, .inl ⟨hready, rfl⟩⟩
  | refused hcaller' hready hnext =>
    cases hcaller'.symm.trans hcaller
    refine ⟨_, rfl, .inr ⟨hready, ?_⟩⟩
    obtain rfl | rfl := hnext <;> rfl
  | _ hcaller' => cases hcaller'.symm.trans hcaller

theorem CallerStep.of_finishing {onStart : Nat → Bool} (h : CallerStep onStart s s')
    (hcaller : s.caller = .finishing (some t)) (hready : (s.tasks t).state = .ready) :
    s' = { s.setTask t (s.tasks t).finish with caller := .finishing none } := by
  cases h with
  | finish hcaller' =>
    cases hcaller'.symm.trans hcaller
    rw [if_pos hready]
  | _ hcaller' => cases hcaller'.symm.trans hcaller

/-!
### What becomes of a task
-/

-- Some tasks have been started before they are scheduled.
def newTasks (started : Nat → Bool) (t : Nat) : Task :=
  if started t then (Task.ctor.start true).2 else Task.ctor

-- The `start` of the task succeeds, be it in `schedule` or before.
def Started (onStart : Nat → Bool) (cfg : Config) (started : Nat → Bool) (t : Nat) : Prop :=
  started t = true ∨ cfg.startTaskWhenScheduleCalled = true ∧ onStart t = true

section
variable {onStart : Nat → Bool} {cfg : Config} {started : Nat → Bool}

inductive Fate (onStart : Nat → Bool) (cfg : Config) (started : Nat → Bool) (s : TaskScheduler)
    (t : Nat) : Prop where
  | unscheduled (hscheduled : t ∉ s.scheduled) (hcount : s.held.count t = 0)
    (hstate : (s.tasks t).state = (newTasks started t).state)
    (hfinishCount : (s.tasks t).finishCount = 0)
  | starting (hscheduled : t ∈ s.scheduled) (hcount : s.held.count t = 1)
    (hcaller : s.caller = .starting t)
    (hstate : (s.tasks t).state = (newTasks started t).state)
    (hfinishCount : (s.tasks t).finishCount = 0)
  | held (hscheduled : t ∈ s.scheduled) (hcount : s.held.count t = 1)
    (hstate : (s.tasks t).state = .ready) (hfinishCount : (s.tasks t).finishCount = 0)
  | finished (hscheduled : t ∈ s.scheduled) (hcount : s.held.count t = 0)
    (hstate : (s.tasks t).state = .finished) (hfinishCount : (s.tasks t).finishCount = 1)
  | refused (hscheduled : t ∈ s.scheduled) (hcount : s.held.count t = 0)
    (hstate : (s.tasks t).state = .constructed) (hstarted : ¬Started onStart cfg started t)

theorem Fate.congr (h : Fate onStart cfg started s t)
    (hscheduled : t ∈ s'.scheduled ↔ t ∈ s.scheduled)
    (hcount : s'.held.count t = s.held.count t)
    (hcaller : s.caller = .starting t → s'.caller = .starting t)
    (hstate : (s'.tasks t).state = (s.tasks t).state)
    (hfinishCount : (s'.tasks t).finishCount = (s.tasks t).finishCount) :
    Fate onStart cfg started s' t := by
  cases h with
  | unscheduled hnot hc hs hf =>
    exact .unscheduled (fun hmem => hnot (hscheduled.mp hmem)) (hcount.trans hc) (hstate.trans hs)
      (hfinishCount.trans hf)
  | starting hmem hc hcall hs hf =>
    exact .starting (hscheduled.mpr hmem) (hcount.trans hc) (hcaller hcall) (hstate.trans hs)
      (hfinishCount.trans hf)
  | held hmem hc hs hf =>
    exact .held (hscheduled.mpr hmem) (hcount.trans hc) (hstate.trans hs) (hfinishCount.trans hf)
  | finished hmem hc hs hf =>
    exact .finished (hscheduled.mpr hmem) (hcount.trans hc) (hstate.trans hs)
      (hfinishCount.trans hf)
  | refused hmem hc hs hstarted =>
    exact .refused (hscheduled.mpr hmem) (hcount.trans hc) (hstate.trans hs) hstarted

theorem Fate.moved (h : Fate onStart cfg started s t) (hmoved : Moved s s')
    (hcaller : s.caller = .starting t → s'.caller = .starting t) :
    Fate onStart cfg started s' t :=
  h.congr (by rw [hmoved.scheduled_eq]) (hmoved.count_eq t) hcaller (hmoved.state_eq t)
    (hmoved.finishCount_eq t)

-- The call of a function that gets no task.
theorem Fate.call (h : Fate onStart cfg started s t) (hcaller : s.caller = .idle) {caller : Caller}
    (hhand : caller.hand = []) : Fate onStart cfg started { s with caller := caller } t := by
  have hmoved : Moved s { s with caller := caller } := by
    apply moved_queue
    intro t
    rw [hcaller, hhand]
    rfl
  apply h.moved hmoved
  intro hstarting
  cases hcaller.symm.trans hstarting

structure Inv (onStart : Nat → Bool) (cfg : Config) (started : Nat → Bool) (s : TaskScheduler) :
    Prop where
  config_eq : s.config = cfg
  shutdown : s.Shutdown
  fate : ∀ t, Fate onStart cfg started s t

theorem inv_start : Inv onStart cfg started (start cfg (newTasks started)) := by
  refine ⟨rfl, trivial, ?_⟩
  intro t
  refine .unscheduled List.not_mem_nil ?_ rfl ?_
  . have hheld : ∀ ids : List Nat,
        (ids.map fun i => (⟨i + 1, [], false, .check⟩ : TaskRunner)).flatMap TaskRunner.held
          = [] := by
      intro ids
      rw [List.flatMap_map, List.flatMap_eq_nil_iff]
      exact fun _ _ => rfl
    rw [count_held]
    unfold start
    dsimp only
    rw [hheld]
    rfl
  . unfold start newTasks
    dsimp only
    split <;> rfl

/-!
### The steps that change a task
-/

theorem Inv.schedule (h : Inv onStart cfg started s) (hcaller : s.caller = .idle) {t : Nat}
    (hnot : t ∉ s.scheduled) (t' : Nat) :
    Fate onStart cfg started
      { s with scheduled := s.scheduled ++ [t], caller := .starting t } t' := by
  have hcount : ({ s with scheduled := s.scheduled ++ [t], caller := .starting t }
      : TaskScheduler).held.count t' = s.held.count t' + [t].count t' := by
    rw [count_held, count_held, hcaller]
    rfl
  by_cases heq : t' = t
  . subst heq
    cases h.fate t' with
    | unscheduled _ hc hs hf =>
      rw [hc, List.count_singleton_self] at hcount
      exact .starting (List.mem_append_right _ (List.mem_singleton_self _)) hcount rfl hs hf
    | _ hmem => exact absurd hmem hnot
  . rw [List.count_eq_zero.mpr (mt List.mem_singleton.mp heq), Nat.add_zero] at hcount
    apply (h.fate t').congr _ hcount _ rfl rfl
    . rw [List.mem_append, List.mem_singleton, or_iff_left heq]
    . intro hstarting
      cases hcaller.symm.trans hstarting

-- What the calling thread has in its hands has been scheduled and is nowhere else.
theorem Inv.fate_of_hand (h : Inv onStart cfg started s) {t : Nat} (hhand : t ∈ s.caller.hand) :
    t ∈ s.scheduled ∧ s.held.count t = 1 ∧ (s.tasks t).finishCount = 0
      ∧ ((s.tasks t).state = .ready
        ∨ s.caller = .starting t ∧ (s.tasks t).state = (newTasks started t).state) := by
  have hpos : 1 ≤ s.held.count t := by
    have := List.count_pos_iff.mpr hhand
    rw [count_held]
    omega
  cases h.fate t with
  | unscheduled _ hc => omega
  | starting hmem hc hcaller hs hf => exact ⟨hmem, hc, hf, .inr ⟨hcaller, hs⟩⟩
  | held hmem hc hs hf => exact ⟨hmem, hc, hf, .inl hs⟩
  | finished _ hc => omega
  | refused _ hc => omega

-- The task that `schedule` has started or could not start.
theorem Inv.startTask (h : Inv onStart cfg started s) {t : Nat} {next : Caller}
    (hcaller : s.caller = .starting t)
    (hcount : { s.startTask (onStart t) t with caller := next }.held.count t + 1
      = s.held.count t + next.hand.count t)
    (hnext : (((s.startTask (onStart t) t).tasks t).state = .ready ∧ next = .pushing t)
      ∨ (((s.startTask (onStart t) t).tasks t).state ≠ .ready ∧ next.hand = [])) :
    Fate onStart cfg started { s.startTask (onStart t) t with caller := next } t := by
  have hscheduled := (startTask_frame s (onStart t) t).2
  have hstate := state_startTask s (onStart t) t
  have hfinishCount := finishCount_startTask s (onStart t) t
  have hhand : t ∈ s.caller.hand := hcaller ▸ List.mem_singleton_self t
  obtain ⟨hmem, hone, hzero, hold⟩ := h.fate_of_hand hhand
  obtain ⟨hready, rfl⟩ | ⟨hready, hhand⟩ := hnext
  . rw [Caller.hand, List.count_singleton_self] at hcount
    exact .held (hscheduled.symm ▸ hmem) (by omega) hready (hfinishCount.trans hzero)
  . rw [hhand, List.count_nil] at hcount
    -- The task was new: only `on_start` could have made it ready.
    rw [hstate] at hready
    have hnew : started t = false ∧ (s.tasks t).state = .constructed := by
      have hne : (s.tasks t).state ≠ .ready := by
        intro heq
        rw [heq, ite_self] at hready
        exact hready rfl
      have hold := (hold.resolve_left hne).2
      unfold newTasks at hold
      cases hstarted : started t with
      | false =>
        rw [hstarted] at hold
        exact ⟨rfl, hold⟩
      | true =>
        rw [hstarted] at hold
        exact absurd hold hne
    have hnot : ¬(s.config.startTaskWhenScheduleCalled ∧ (s.tasks t).state = .constructed
        ∧ onStart t) := by
      intro hstart
      rw [if_pos hstart] at hready
      exact hready rfl
    rw [if_neg hnot] at hstate
    refine .refused (hscheduled.symm ▸ hmem) (by omega) (hstate.trans hnew.2) ?_
    rintro (hstarted | ⟨hconfig, hstart⟩)
    . rw [hnew.1] at hstarted
      contradiction
    . exact hnot ⟨h.config_eq ▸ hconfig, hnew.2, hstart⟩

theorem Inv.starting (h : Inv onStart cfg started s) {t : Nat} (hcaller : s.caller = .starting t)
    (hstep : CallerStep onStart s s') (t' : Nat) : Fate onStart cfg started s' t' := by
  obtain ⟨next, rfl, hnext⟩ := hstep.of_starting hcaller
  have hscheduled := (startTask_frame s (onStart t) t).2
  have hcount : { s.startTask (onStart t) t with caller := next }.held.count t' + [t].count t'
      = s.held.count t' + next.hand.count t' := by
    rw [held_startTask, count_held, count_held, hcaller]
    dsimp only
    rw [Caller.hand]
    omega
  by_cases heq : t' = t
  . subst heq
    rw [List.count_singleton_self] at hcount
    exact h.startTask hcaller hcount hnext
  . have hhand : next.hand.count t' = 0 := by
      obtain ⟨-, rfl⟩ | ⟨-, hhand⟩ := hnext
      . exact List.count_eq_zero.mpr fun hmem => heq (List.mem_singleton.mp hmem)
      . rw [hhand, List.count_nil]
    rw [hhand, List.count_eq_zero.mpr (mt List.mem_singleton.mp heq)] at hcount
    apply (h.fate t').congr (by rw [hscheduled]) hcount _ _ _
    . intro hstarting
      cases hcaller.symm.trans hstarting
      exact absurd rfl heq
    . dsimp only
      rw [startTask_of_ne _ heq]
    . dsimp only
      rw [startTask_of_ne _ heq]

theorem Inv.finishing (h : Inv onStart cfg started s) {t : Nat}
    (hcaller : s.caller = .finishing (some t)) (hstep : CallerStep onStart s s') (t' : Nat) :
    Fate onStart cfg started s' t' := by
  have hhand : t ∈ s.caller.hand := hcaller ▸ List.mem_singleton_self t
  obtain ⟨hmem, hone, hzero, hready⟩ := h.fate_of_hand hhand
  have hready : (s.tasks t).state = .ready := by
    apply hready.resolve_right
    rintro ⟨hstarting, -⟩
    cases hcaller.symm.trans hstarting
  have heq := hstep.of_finishing hcaller hready
  subst heq
  have hcount : { s.setTask t (s.tasks t).finish with caller := .finishing none }.held.count t'
      + [t].count t' = s.held.count t' := by
    rw [count_held, count_held, hcaller]
    rfl
  by_cases heq : t' = t
  . subst heq
    rw [List.count_singleton_self] at hcount
    have hself : (s.setTask t' (s.tasks t').finish).tasks t' = (s.tasks t').finish :=
      Function.update_self ..
    refine .finished hmem (by omega) (congrArg Task.state hself) ?_
    refine (congrArg Task.finishCount hself).trans ?_
    unfold Task.finish
    rw [hzero]
  . rw [List.count_eq_zero.mpr (mt List.mem_singleton.mp heq)] at hcount
    have hsame : (s.setTask t (s.tasks t).finish).tasks t' = s.tasks t' :=
      Function.update_of_ne heq _ _
    refine (h.fate t').congr Iff.rfl hcount ?_ (congrArg Task.state hsame)
      (congrArg Task.finishCount hsame)
    intro hstarting
    cases hcaller.symm.trans hstarting

/-!
### Runs
-/

-- No task is scheduled twice, and none finishes itself.
def Once (s : TaskScheduler) : Event → Prop
  | .schedule t => t ∉ s.scheduled
  | .finishSelf _ => False
  | _ => True

theorem Inv.callerStep (h : Inv onStart cfg started s) (hstep : CallerStep onStart s s') (t : Nat) :
    Fate onStart cfg started s' t := by
  by_cases hstarting : ∃ t, s.caller = .starting t
  . obtain ⟨t', hcaller⟩ := hstarting
    exact h.starting hcaller hstep t
  . by_cases hfinishing : ∃ t, s.caller = .finishing (some t)
    . obtain ⟨t', hcaller⟩ := hfinishing
      exact h.finishing hcaller hstep t
    . rw [not_exists] at hstarting hfinishing
      exact (h.fate t).moved (hstep.moved hstarting hfinishing) fun hcaller =>
        absurd hcaller (hstarting t)

theorem config_eq_of_stepped {e : Event} (h : Stepped onStart s e s') : s'.config = s.config := by
  cases h with
  | caller hstep =>
    cases hstep with
    | started => exact (startTask_frame s _ _).1
    | refused => exact (startTask_frame s _ _).1
    | _ => rfl
  | runner hr hstep => exact (hstep.moved hr).config_eq
  | _ => rfl

theorem Inv.step {e : Event} (h : Inv onStart cfg started s) (honce : s.Once e)
    (hstep : Stepped onStart s e s') : Inv onStart cfg started s' := by
  refine ⟨(config_eq_of_stepped hstep).trans h.config_eq, h.shutdown.step hstep, ?_⟩
  intro t
  cases hstep with
  | schedule hcaller => exact h.schedule hcaller honce t
  | execute hcaller => exact (h.fate t).call hcaller rfl
  | finish hcaller => exact (h.fate t).call hcaller rfl
  | caller hstep => exact h.callerStep hstep t
  | runner hr hstep =>
    exact (h.fate t).moved (hstep.moved hr) fun hcaller => hstep.caller_eq.trans hcaller
  | finishSelf => exact honce.elim
  | setRunnerAffinity => exact (h.fate t).moved (moved_setTask rfl rfl) id

def Executing (s : TaskScheduler) (i t : Nat) : Prop :=
  ∃ r loopCount, s.runners[i]? = some r ∧ r.pc = .executing t loopCount

theorem Fate.count_le_one (h : Fate onStart cfg started s t) : s.held.count t ≤ 1 := by
  cases h <;> omega

theorem two_le_count_held {i j : Nat} (hne : i ≠ j) (hi : s.Executing i t) (hj : s.Executing j t) :
    2 ≤ s.held.count t := by
  obtain ⟨r, loopCount, hr, hpc⟩ := hi
  obtain ⟨r', loopCount', hr', hpc'⟩ := hj
  have hhand : 1 ≤ r.held.count t := by
    unfold TaskRunner.held
    rw [hpc, List.count_append, TaskRunner.Pc.hand, List.count_singleton_self]
    omega
  have hhand' : t ∈ r'.held := by
    unfold TaskRunner.held
    rw [hpc']
    exact List.mem_append_right _ (List.mem_singleton_self t)
  -- What remains without the first runner.
  let gone : TaskRunner := { r with queue := [], pc := .ended }
  have hset : ((s.runners.set i gone).flatMap TaskRunner.held).count t + r.held.count t
      = (s.runners.flatMap TaskRunner.held).count t + 0 := Cells.count_flatMap_set hr gone t
  have hmem : t ∈ (s.runners.set i gone).flatMap TaskRunner.held := by
    apply List.mem_flatMap.mpr
    exact ⟨r', List.mem_of_getElem? ((List.getElem?_set_ne hne).trans hr'), hhand'⟩
  have hrest := List.count_pos_iff.mpr hmem
  rw [count_held]
  omega

-- Every ready task is in the queue of the scheduler or of a runner, or in the hands of a runner or
-- of the calling thread, and nowhere else. When `finish` has returned, all tasks are finished.
structure Conserved (onStart : Nat → Bool) (cfg : Config) (started : Nat → Bool)
    (s : TaskScheduler) : Prop where
  count_eq_one : ∀ t ∈ s.scheduled, (s.tasks t).state = .ready → s.held.count t = 1
  executing_unique : ∀ i j t, s.Executing i t → s.Executing j t → i = j
  finished : s.caller = .finished → ∀ t ∈ s.scheduled, Started onStart cfg started t →
    (s.tasks t).state = .finished ∧ (s.tasks t).finishCount = 1
  held_eq_nil : s.caller = .finished → s.held = []

theorem Inv.conserved (h : Inv onStart cfg started s) : Conserved onStart cfg started s := by
  constructor
  . intro t hmem hready
    cases h.fate t with
    | unscheduled hnot => exact absurd hmem hnot
    | starting _ hc => exact hc
    | held _ hc => exact hc
    | finished _ _ hs => cases hready.symm.trans hs
    | refused _ _ hs => cases hready.symm.trans hs
  . intro i j t hi hj
    by_contra hne
    have := two_le_count_held hne hi hj
    have := (h.fate t).count_le_one
    omega
  . intro hcaller t hmem hstarted
    have hnil := congrArg (List.count t) (held_eq_nil h.shutdown hcaller)
    rw [List.count_nil] at hnil
    cases h.fate t with
    | unscheduled hnot => exact absurd hmem hnot
    | starting _ hc => omega
    | held _ hc => omega
    | finished _ _ hs hf => exact ⟨hs, hf⟩
    | refused _ _ _ hnot => exact absurd hstarted hnot
  . exact held_eq_nil h.shutdown

theorem once_of_unscheduled {t : Nat} {es : List Event} (hnot : t ∉ s.scheduled)
    (h : ∀ s, ∀ e ∈ es, Once s e) :
    (machine onStart cfg (newTasks started)).Along Once s (.schedule t :: es) :=
  ⟨hnot, fun s' _ => Machine.along_of_forall h s'⟩

end

/--
Tasks that are scheduled once are in one place at a time and are not lost.
-/
theorem conserved_of_run (onStart : Nat → Bool) (cfg : Config) (started : Nat → Bool)
    (es : List Event) (s : TaskScheduler)
    (hrun : (machine onStart cfg (newTasks started)).run (start cfg (newTasks started)) es = some s)
    (honce : (machine onStart cfg (newTasks started)).Along Once (start cfg (newTasks started)) es) :
    Conserved onStart cfg started s :=
  (Machine.inv_of_along (Inv onStart cfg started)
    (fun _ _ _ h hevent hstep => h.step hevent (stepped hstep).2) hrun honce inv_start).conserved

/-!
### A run
-/

def smallConfig : Config where
  runnerCount := 2
  singleLoopRunLimit := 0
  startTaskWhenScheduleCalled := true
  runScheduleWhenScheduleCalled := true

-- The second runner executes the task once, and the scheduler finishes it.
theorem conserved_of_run_finish :
    let es : List Event :=
      [.schedule 7, .caller 0, .caller 0, .caller 0, .caller 1, .caller 0,
        .runner 1, .runner 1, .runner 1, .runner 1, .runner 1,
        .finish, .caller 0, .runner 0, .caller 0, .caller 0,
        .caller 0, .runner 1, .runner 1, .caller 0, .caller 0,
        .caller 0, .caller 0, .caller 0, .caller 0]
    ∃ s, (machine (fun _ => true) smallConfig (newTasks fun _ => false)).run
        (start smallConfig (newTasks fun _ => false)) es = some s
      ∧ s.caller = .finished
      ∧ Conserved (fun _ => true) smallConfig (fun _ => false) s := by
  intro es
  refine ⟨_, rfl, rfl, conserved_of_run _ _ _ es _ rfl ?_⟩
  exact once_of_unscheduled List.not_mem_nil (by simp [Once])

-- The calling thread has taken the task from the queue and not given it to a runner yet.
theorem exists_not_in_queues :
    let es : List Event := [.schedule 7, .caller 0, .caller 0, .caller 0]
    ∃ s, (machine (fun _ => true) smallConfig (newTasks fun _ => false)).run
        (start smallConfig (newTasks fun _ => false)) es = some s
      ∧ (machine (fun _ => true) smallConfig (newTasks fun _ => false)).Along Once
        (start smallConfig (newTasks fun _ => false)) es
      ∧ 7 ∈ s.scheduled ∧ (s.tasks 7).state = .ready
      ∧ (s.queue ++ s.runners.flatMap TaskRunner.held).count 7 = 0 := by
  intro es
  refine ⟨_, rfl, ?_, List.mem_singleton_self 7, rfl, rfl⟩
  exact once_of_unscheduled List.not_mem_nil (by simp [Once])

end TaskScheduler
end Lax
