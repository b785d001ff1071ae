import Lax.Task.Lemmas.Conservation

/-!
This module contains when no runner is handed a task that has finished.
-/

namespace Lax

def TaskRunner.Pc.next : TaskRunner.Pc → List Nat
  | .execute t _ => [t]
  | _ => []

-- The tasks that the runner is going to execute.
def TaskRunner.waiting (r : TaskRunner) : List Nat :=
  r.queue ++ r.pc.next

theorem TaskRunner.Pc.mem_hand_of_mem_next {pc : TaskRunner.Pc} {t : Nat} (h : t ∈ pc.next) :
    t ∈ pc.hand := by
  unfold next at h
  split at h
  . exact h
  . cases h

namespace TaskScheduler

variable {s s' : TaskScheduler} {i t : Nat} {r r' : TaskRunner} {onStart : Nat → Bool}

-- The task is on its way to a call of `execute`.
def Waiting (s : TaskScheduler) (t : Nat) : Prop :=
  (∃ r ∈ s.runners, t ∈ r.waiting) ∨ s.caller = .scheduling (some t)

-- The runner at `i` is going to execute the task.
def WaitsIn (s : TaskScheduler) (i t : Nat) : Prop :=
  ∃ r, s.runners[i]? = some r ∧ t ∈ r.waiting

theorem exists_waitsIn_iff : (∃ i, s.WaitsIn i t) ↔ ∃ r ∈ s.runners, t ∈ r.waiting := by
  constructor
  . rintro ⟨i, r, hr, hmem⟩
    exact ⟨r, List.mem_of_getElem? hr, hmem⟩
  . rintro ⟨r, hr, hmem⟩
    obtain ⟨i, hi⟩ := List.mem_iff_getElem?.mp hr
    exact ⟨i, r, hi, hmem⟩

theorem waitsIn_congr (hrunners : s'.runners = s.runners) : s'.WaitsIn i t ↔ s.WaitsIn i t := by
  unfold WaitsIn
  rw [hrunners]

theorem waitsIn_of_set {j : Nat} (hr : s.runners[i]? = some r)
    (hrunners : s'.runners = s.runners.set i r') (h : s'.WaitsIn j t) :
    s.WaitsIn j t ∨ j = i ∧ t ∈ r'.waiting := by
  obtain ⟨r'', hr'', hmem⟩ := h
  obtain hr'' | ⟨rfl, rfl⟩ := runners_cases hr hrunners hr''
  . exact .inl ⟨r'', hr'', hmem⟩
  . exact .inr ⟨rfl, hmem⟩

theorem WaitsIn.of_set {j : Nat} (hr : s.runners[i]? = some r)
    (hrunners : s'.runners = s.runners.set i r') (hsub : t ∈ r'.waiting → t ∈ r.waiting)
    (h : s'.WaitsIn j t) : s.WaitsIn j t := by
  obtain h | ⟨rfl, hmem⟩ := waitsIn_of_set hr hrunners h
  . exact h
  . exact ⟨r, hr, hsub hmem⟩

theorem WaitsIn.of_push {j t' : Nat} (hr : s.runners[i]? = some r)
    (hrunners : s'.runners = s.runners.set i { r with queue := r.queue ++ [t] })
    (h : s'.WaitsIn j t') : s.WaitsIn j t' ∨ t' = t ∧ j = i := by
  obtain h | ⟨rfl, hmem⟩ := waitsIn_of_set hr hrunners h
  . exact .inl h
  . unfold TaskRunner.waiting at hmem
    rw [List.append_assoc, List.mem_append, List.mem_append, List.mem_singleton] at hmem
    obtain hmem | heq | hmem := hmem
    . exact .inl ⟨r, hr, List.mem_append_left _ hmem⟩
    . exact .inr ⟨heq, rfl⟩
    . exact .inl ⟨r, hr, List.mem_append_right _ hmem⟩

theorem WaitsIn.of_execute {j t' loopCount : Nat} (hr : s.runners[i]? = some r)
    (hrunners : s'.runners = s.runners.set i { r with pc := .executing t' loopCount })
    (h : s'.WaitsIn j t) : s.WaitsIn j t := by
  apply h.of_set hr hrunners
  unfold TaskRunner.waiting
  exact fun hmem => List.mem_append_left _ (List.append_nil r.queue ▸ hmem)

-- A runner hands on what it has, and gets nothing from the others.
theorem RunnerStep.waitsIn {j : Nat} (h : RunnerStep s i r s') (hr : s.runners[i]? = some r)
    (hwaits : s'.WaitsIn j t) : s.WaitsIn j t := by
  cases h with
  | check hpc =>
    apply hwaits.of_set hr rfl
    unfold TaskRunner.waiting
    rw [hpc]
    dsimp only
    split <;> exact id
  | empty hpc =>
    apply hwaits.of_set hr rfl
    unfold TaskRunner.waiting
    rw [hpc]
    exact id
  | pop hpc hqueue =>
    apply hwaits.of_set hr rfl
    unfold TaskRunner.waiting TaskRunner.Pc.next
    rw [hpc, hqueue]
    simp [or_comm]
  | throws => exact hwaits
  | execute => exact hwaits.of_execute hr rfl
  | executed hpc =>
    apply hwaits.of_set hr rfl
    unfold TaskRunner.waiting
    rw [hpc]
    exact id
  | pass hpc hnext =>
    apply hwaits.of_set hr rfl
    intro hmem
    obtain hmem | hmem := List.mem_append.mp hmem
    . exact List.mem_append_left _ hmem
    . have := TaskRunner.Pc.mem_hand_of_mem_next hmem
      rw [hnext] at this
      cases this

theorem RunnerStep.waiting (h : RunnerStep s i r s') (hr : s.runners[i]? = some r)
    (hwaiting : s'.Waiting t) : s.Waiting t := by
  unfold Waiting at hwaiting ⊢
  rw [h.caller_eq] at hwaiting
  rw [← exists_waitsIn_iff] at hwaiting ⊢
  apply hwaiting.imp_left
  exact fun ⟨j, hwaits⟩ => ⟨j, h.waitsIn hr hwaits⟩

theorem CallerStep.waitsIn {j : Nat} (h : CallerStep onStart s s') (hwaits : s'.WaitsIn j t) :
    s.WaitsIn j t ∨ s.caller = .scheduling (some t) := by
  cases h with
  | started => exact .inl ((waitsIn_congr (runners_startTask s _ _)).mp hwaits)
  | refused => exact .inl ((waitsIn_congr (runners_startTask s _ _)).mp hwaits)
  | @place t' i r hcaller hr =>
    apply (hwaits.of_push hr rfl).imp_right
    rintro ⟨rfl, -⟩
    exact hcaller
  | stop _ hr =>
    left
    apply hwaits.of_set hr rfl
    exact id
  | drain _ hr hqueue =>
    left
    apply hwaits.of_set hr rfl
    unfold TaskRunner.waiting
    rw [hqueue]
    apply List.mem_cons_of_mem
  | _ => exact .inl hwaits

theorem CallerStep.waiting_of_runner (h : CallerStep onStart s s')
    (hwaiting : ∃ r ∈ s'.runners, t ∈ r.waiting) : s.Waiting t := by
  obtain ⟨j, hwaits⟩ := exists_waitsIn_iff.mpr hwaiting
  apply (h.waitsIn hwaits).imp_left
  exact fun hwaits => exists_waitsIn_iff.mp ⟨j, hwaits⟩

-- Only `run_schedule` sets a task on its way.
theorem CallerStep.waiting_of_caller (h : CallerStep onStart s s')
    (hcaller : s'.caller = .scheduling (some t)) :
    s.caller = .scheduling none ∧ t ∈ s.queue.head? := by
  cases h with
  | refused _ _ hnext =>
    cases hcaller
    obtain hnext | hnext := hnext <;> cases hnext
  | pushed _ hnext =>
    cases hcaller
    obtain hnext | hnext := hnext <;> cases hnext
  | take hscheduling hqueue =>
    cases hcaller
    rw [hqueue]
    exact ⟨hscheduling, rfl⟩
  | _ => cases hcaller

/-!
### Runs
-/

-- Whatever `run_schedule` takes from the queue is ready, and a task that finishes itself is not on
-- its way to another runner.
def Kept (s : TaskScheduler) : Event → Prop
  | .caller _ => s.caller = .scheduling none → ∀ t ∈ s.queue.head?, (s.tasks t).state = .ready
  | .finishSelf i => ∀ t, s.Executing i t → ¬s.Waiting t
  | _ => True

structure Sound (s : TaskScheduler) : Prop where
  shutdown : s.Shutdown
  ready : ∀ t, s.Waiting t → (s.tasks t).state = .ready
  threw_ne : s.threw ≠ some "task not ready in execute"

theorem sound_start (cfg : Config) (tasks : Nat → Task) : (start cfg tasks).Sound := by
  refine ⟨trivial, ?_, fun h => nomatch h⟩
  rintro t (⟨r, hr, hmem⟩ | hcaller)
  . obtain ⟨i, -, rfl⟩ := List.mem_map.mp hr
    cases hmem
  . cases hcaller

theorem Sound.runnerStep (h : s.Sound) (hr : s.runners[i]? = some r)
    (hstep : RunnerStep s i r s') : s'.Sound := by
  refine ⟨h.shutdown.runnerStep hr hstep, ?_, ?_⟩
  . intro t hwaiting
    rw [(hstep.moved hr).state_eq]
    exact h.ready t (hstep.waiting hr hwaiting)
  . cases hstep with
    | @throws t _ msg hpc hexecute =>
      have hmem : t ∈ r.waiting := by
        unfold TaskRunner.waiting
        rw [hpc]
        exact List.mem_append_right _ (List.mem_singleton_self t)
      have hready := h.ready t (.inl ⟨r, List.mem_of_getElem? hr, hmem⟩)
      unfold Task.execute at hexecute
      rw [if_neg (not_not.mpr hready)] at hexecute
      split at hexecute
      . cases hexecute
        intro hmsg
        exact absurd (Option.some.inj hmsg) (by decide)
      . contradiction
    | _ => exact h.threw_ne

theorem ready_startTask {t' : Nat} (b : Bool) (h : (s.tasks t).state = .ready) :
    ((s.startTask b t').tasks t).state = .ready := by
  by_cases heq : t = t'
  . subst heq
    rw [state_startTask, h]
    simp
  . rw [startTask_of_ne b heq, h]

theorem not_waiting_of_gone (h : ∀ j < s.runners.length, s.Gone j) :
    ¬∃ r ∈ s.runners, t ∈ r.waiting := by
  rintro ⟨r, hr, hmem⟩
  obtain ⟨j, hj⟩ := List.mem_iff_getElem?.mp hr
  obtain ⟨r', hr', hended, hqueue⟩ := h j (List.getElem?_eq_some_iff.mp hj).1
  have heq : r' = r := Option.some.inj (hr'.symm.trans hj)
  unfold TaskRunner.waiting at hmem
  rw [← heq, hended, hqueue] at hmem
  cases hmem

theorem Sound.callerStep (h : s.Sound)
    (hkept : s.caller = .scheduling none → ∀ t ∈ s.queue.head?, (s.tasks t).state = .ready)
    (hstep : CallerStep onStart s s') : s'.Sound := by
  refine ⟨h.shutdown.callerStep hstep, ?_, ?_⟩
  . intro t hwaiting
    have hready : (s.tasks t).state = .ready := by
      obtain hwaiting | hcaller := hwaiting
      . exact h.ready t (hstep.waiting_of_runner hwaiting)
      . obtain ⟨hcaller, hmem⟩ := hstep.waiting_of_caller hcaller
        exact hkept hcaller t hmem
    cases hstep with
    | started => exact ready_startTask _ hready
    | refused => exact ready_startTask _ hready
    | finish hcaller =>
      -- No runner is left that could wait for a task.
      have hgone := h.shutdown
      unfold Shutdown at hgone
      rw [hcaller] at hgone
      obtain hwaiting | hnot := hwaiting
      . exact absurd hwaiting (not_waiting_of_gone hgone)
      . cases hnot
    | _ => exact hready
  . cases hstep with
    | started => exact threw_startTask s _ _ ▸ h.threw_ne
    | refused => exact threw_startTask s _ _ ▸ h.threw_ne
    | _ => exact h.threw_ne

theorem Sound.step {e : Event} (h : s.Sound) (hkept : s.Kept e) (hstep : Stepped onStart s e s') :
    s'.Sound := by
  have hshutdown := h.shutdown.step hstep
  cases hstep with
  | schedule =>
    refine ⟨hshutdown, ?_, h.threw_ne⟩
    exact fun t hwaiting => h.ready t (.inl (hwaiting.resolve_right fun hcaller => nomatch hcaller))
  | execute =>
    refine ⟨hshutdown, ?_, h.threw_ne⟩
    exact fun t hwaiting => h.ready t (.inl (hwaiting.resolve_right fun hcaller => nomatch hcaller))
  | finish =>
    refine ⟨hshutdown, ?_, h.threw_ne⟩
    exact fun t hwaiting => h.ready t (.inl (hwaiting.resolve_right fun hcaller => nomatch hcaller))
  | caller hstep => exact h.callerStep hkept hstep
  | runner hr hstep => exact h.runnerStep hr hstep
  | @finishSelf i t loopCount r hr hpc =>
    refine ⟨hshutdown, ?_, h.threw_ne⟩
    intro t' hwaiting
    have hne : t' ≠ t := fun heq => hkept t ⟨r, loopCount, hr, hpc⟩ (heq ▸ hwaiting)
    exact (congrArg Task.state (Function.update_of_ne hne _ _)).trans (h.ready t' hwaiting)
  | @setRunnerAffinity t =>
    refine ⟨hshutdown, ?_, h.threw_ne⟩
    intro t' hwaiting
    have hmoved : Moved s (s.setTask t { s.tasks t with affinity := true }) := moved_setTask rfl rfl
    exact (hmoved.state_eq t').trans (h.ready t' hwaiting)

/--
Every call of `execute` finds its task ready.
-/
theorem ready_of_run (onStart : Nat → Bool) (cfg : Config) (tasks : Nat → Task) (es : List Event)
    (s : TaskScheduler) (hrun : (machine onStart cfg tasks).run (start cfg tasks) es = some s)
    (hkept : (machine onStart cfg tasks).Along Kept (start cfg tasks) es) :
    (∀ (i : Nat) (r : TaskRunner) (t loopCount : Nat), s.runners[i]? = some r →
        r.pc = .execute t loopCount → (s.tasks t).state = .ready)
      ∧ s.threw ≠ some "task not ready in execute" := by
  have h : s.Sound := Machine.inv_of_along Sound
    (fun _ _ _ h hkept hstep => h.step hkept (stepped hstep).2) hrun hkept (sound_start cfg tasks)
  refine ⟨?_, h.threw_ne⟩
  intro i r t loopCount hr hpc
  apply h.ready t
  refine .inl ⟨r, List.mem_of_getElem? hr, ?_⟩
  unfold TaskRunner.waiting
  rw [hpc]
  exact List.mem_append_right _ (List.mem_singleton_self t)

-- The runner has passed on the task that has finished itself, and nobody has taken it again.
theorem ready_of_run_finishSelf :
    let es : List Event := [.schedule 7, .caller 0, .caller 0, .caller 0, .caller 1, .caller 0,
      .runner 1, .runner 1, .runner 1, .finishSelf 1, .runner 1, .runner 1]
    ∃ s, (machine (fun _ => true) smallConfig (newTasks fun _ => false)).run
        (start smallConfig (newTasks fun _ => false)) es = some s
      ∧ s.queue = [7] ∧ (s.tasks 7).state = .finished
      ∧ (∀ (i : Nat) (r : TaskRunner) (t loopCount : Nat), s.runners[i]? = some r →
          r.pc = .execute t loopCount → (s.tasks t).state = .ready)
      ∧ s.threw ≠ some "task not ready in execute" := by
  intro es
  refine ⟨_, rfl, rfl, rfl,
    ready_of_run (fun _ => true) smallConfig (newTasks fun _ => false) es _ rfl ?_⟩
  apply Machine.along_cons trivial rfl
  apply Machine.along_cons (fun h => by cases h) rfl
  apply Machine.along_cons (fun h => by cases h) rfl
  apply Machine.along_cons _ rfl
  . apply Machine.along_cons (fun h => by cases h) rfl
    apply Machine.along_cons (fun _ _ ht => by cases ht) rfl
    apply Machine.along_cons trivial rfl
    apply Machine.along_cons trivial rfl
    apply Machine.along_cons trivial rfl
    apply Machine.along_cons _ rfl
    . exact Machine.along_cons trivial rfl (Machine.along_cons trivial rfl trivial)
    . rintro t - (⟨r, hr, hmem⟩ | hcaller)
      . rcases List.mem_pair.mp hr with rfl | rfl <;> cases hmem
      . cases hcaller
  . intro _ t ht
    cases ht
    rfl

-- The task has finished itself, is passed back, scheduled once more and executed again.
theorem exists_threw :
    ∃ s, (machine (fun _ => true) smallConfig (newTasks fun _ => false)).run
        (start smallConfig (newTasks fun _ => false))
        [.schedule 7, .caller 0, .caller 0, .caller 0, .caller 1, .caller 0,
          .runner 1, .runner 1, .runner 1, .finishSelf 1, .runner 1, .runner 1,
          .execute, .caller 0, .caller 1, .runner 1, .runner 1] = some s
      ∧ s.threw = some "task not ready in execute" :=
  ⟨_, rfl, rfl⟩

end TaskScheduler
end Lax
