import Lax.Task.Impl.FineScheduler
import Lax.Task.Lemmas.Step

/-!
This module contains what the smaller steps of the task scheduler do, and that they can do whatever
its whole steps do.
-/

namespace Lax
namespace FineScheduler

open TaskScheduler (target getTargetRunnerId)

variable {s s' : FineScheduler} {i t : Nat} {r : TaskRunner} {onStart : Nat → Bool}

inductive Stepped (onStart : Nat → Bool) (s : FineScheduler) : Event → FineScheduler → Prop where
  | choose {t i random : Nat} {counts : List Nat}
    (hcaller : s.scheduler.caller = .scheduling (some t)) (hplace : s.place = none)
    (htarget : target (s.scheduler.tasks t) (getTargetRunnerId random counts) = some i) :
    Stepped onStart s (.choose random counts) { s with place := some i }
  | push {t i : Nat} {r : TaskRunner} (hcaller : s.scheduler.caller = .scheduling (some t))
    (hplace : s.place = some i) (hr : s.scheduler.runners[i]? = some r) :
    Stepped onStart s .push { s with
      scheduler := {
        s.scheduler.setRunner i { r with queue := r.queue ++ [t] } with
        caller := .scheduling none
      }
      place := none
    }
  | throws {i t loopCount : Nat} {r : TaskRunner} {msg : String}
    (hr : s.scheduler.runners[i]? = some r) (hpc : r.pc = .execute t loopCount)
    (hentered : s.entered i = false) (hexecute : (s.scheduler.tasks t).execute r.id = .error msg) :
    Stepped onStart s (.enter i) { s with scheduler := { s.scheduler with threw := some msg } }
  | enter {i t loopCount : Nat} {r : TaskRunner}
    (hr : s.scheduler.runners[i]? = some r) (hpc : r.pc = .execute t loopCount) :
    Stepped onStart s (.enter i) { s with
      entered := Function.update s.entered i true
      began := if (s.scheduler.tasks t).affinity then s.began ++ [(t, r.id)] else s.began
    }
  | noteRunner {i t loopCount : Nat} {r : TaskRunner}
    (hr : s.scheduler.runners[i]? = some r) (hpc : r.pc = .execute t loopCount)
    (hentered : s.entered i = true) :
    Stepped onStart s (.noteRunner i) { s with
      scheduler :=
        (s.scheduler.setTask t { s.scheduler.tasks t with lastRunnerId := r.id }).setRunner i
          { r with pc := .executing t loopCount }
      entered := Function.update s.entered i false
    }
  | whole {e : TaskScheduler.Event} {scheduler : TaskScheduler}
    (hsplits : splits s.scheduler e = false)
    (hstep : TaskScheduler.Stepped onStart s.scheduler e scheduler) :
    Stepped onStart s (.whole e) { s with scheduler := scheduler }

theorem stepped_choose {random : Nat} {counts : List Nat} (h : s.choose random counts = some s') :
    Stepped onStart s (.choose random counts) s' := by
  unfold choose at h
  split at h
  . next hcaller =>
    split at h
    . next hcond =>
      split at h
      . contradiction
      . next htarget => exact Option.some.inj h ▸ .choose hcaller hcond.1 htarget
    . contradiction
  . contradiction

theorem stepped_push (h : s.push = some s') : Stepped onStart s .push s' := by
  unfold push at h
  split at h
  . next hcaller =>
    split at h
    . contradiction
    . next hplace =>
      split at h
      . contradiction
      . next hr => exact Option.some.inj h ▸ .push hcaller hplace hr
  . contradiction

theorem stepped_enter (h : s.enter i = some s') : Stepped onStart s (.enter i) s' := by
  unfold enter at h
  split at h
  . contradiction
  . next hr =>
    split at h
    . next hpc =>
      split at h
      . contradiction
      . next hentered =>
        split at h
        . next hexecute =>
          exact Option.some.inj h ▸ .throws hr hpc (Bool.not_eq_true _ ▸ hentered) hexecute
        . exact Option.some.inj h ▸ .enter hr hpc
    . contradiction

theorem stepped_noteRunner (h : s.noteRunner i = some s') :
    Stepped onStart s (.noteRunner i) s' := by
  unfold noteRunner at h
  split at h
  . contradiction
  . next hr =>
    split at h
    . next hpc =>
      split at h
      . next hentered => exact Option.some.inj h ▸ .noteRunner hr hpc hentered
      . contradiction
    . contradiction

theorem stepped {e : Event} (h : step onStart s e = some s') : Stepped onStart s e s' := by
  unfold step at h
  split at h
  . contradiction
  . cases e with
    | choose random counts => exact stepped_choose h
    | push => exact stepped_push h
    | enter i => exact stepped_enter h
    | noteRunner i => exact stepped_noteRunner h
    | whole e =>
      dsimp only at h
      split at h
      . contradiction
      . next hsplits =>
        obtain ⟨scheduler, hstep, rfl⟩ := Option.map_eq_some_iff.mp h
        apply Stepped.whole (Bool.not_eq_true _ ▸ hsplits)
        exact (TaskScheduler.stepped hstep).2

/-!
### Whole steps
-/

-- Nobody is in the middle of a step.
structure Quiet (s : FineScheduler) : Prop where
  place_eq : s.place = none
  entered_eq : ∀ i, s.entered i = false

theorem eq_of_execute {task task' : Task} {id : Nat} (h : task.execute id = .ok task') :
    task' = { task with lastRunnerId := id } := by
  unfold Task.execute at h
  split at h
  . contradiction
  . split at h
    . contradiction
    . injection h with h
      exact h.symm

theorem splits_caller {id : Nat} (h : splits s.scheduler (.caller id) = true) :
    ∃ t, s.scheduler.caller = .scheduling (some t) := by
  unfold splits at h
  dsimp only at h
  split at h
  . next t hcaller => exact ⟨t, hcaller⟩
  . contradiction

theorem splits_runner (h : splits s.scheduler (.runner i) = true) :
    ∃ r t loopCount, s.scheduler.runners[i]? = some r ∧ r.pc = .execute t loopCount := by
  unfold splits at h
  dsimp only at h
  split at h
  . contradiction
  . next r hr =>
    split at h
    . next t loopCount hpc => exact ⟨r, t, loopCount, hr, hpc⟩
    . contradiction

section Whole

variable {cfg : TaskScheduler.Config} {tasks : Nat → Task} {scheduler : TaskScheduler}

theorem exists_run_of_push {random : Nat} {counts : List Nat} (hquiet : s.Quiet)
    (hthrew : s.scheduler.threw = none) (hcaller : s.scheduler.caller = .scheduling (some t))
    (hlength : counts.length = s.scheduler.runners.length)
    (hpush : s.scheduler.push t (getTargetRunnerId random counts) = some scheduler) :
    ∃ s', (machine onStart cfg tasks).run s [.choose random counts, .push] = some s'
      ∧ s'.scheduler = scheduler ∧ s'.Quiet := by
  unfold TaskScheduler.push at hpush
  cases htarget : target (s.scheduler.tasks t) (getTargetRunnerId random counts) with
  | none =>
    rw [htarget] at hpush
    contradiction
  | some i =>
    rw [htarget] at hpush
    dsimp only at hpush
    cases hr : s.scheduler.runners[i]? with
    | none =>
      rw [hr] at hpush
      contradiction
    | some r =>
      rw [hr] at hpush
      injection hpush with hpush
      subst hpush
      have hchoose : step onStart s (.choose random counts) = some { s with place := some i } := by
        simp [step, choose, hthrew, hcaller, hquiet.place_eq, hlength, htarget]
      refine ⟨{ s with scheduler := _, place := none }, ?_, rfl, rfl, hquiet.entered_eq⟩
      simp only [Machine.run, machine, hchoose, Option.bind_some]
      simp [step, push, hthrew, hcaller, hr]

theorem exists_run_of_execute {loopCount : Nat} (hquiet : s.Quiet)
    (hthrew : s.scheduler.threw = none) (hr : s.scheduler.runners[i]? = some r)
    (hpc : r.pc = .execute t loopCount) (hstep : s.scheduler.stepRunner i = some scheduler) :
    ∃ es s', (machine onStart cfg tasks).run s es = some s'
      ∧ s'.scheduler = scheduler ∧ s'.Quiet := by
  unfold TaskScheduler.stepRunner at hstep
  simp only [hr, hpc] at hstep
  have hfree := hquiet.entered_eq i
  cases hexecute : (s.scheduler.tasks t).execute r.id with
  | error msg =>
    simp only [hexecute] at hstep
    injection hstep with hstep
    let s' : FineScheduler := { s with scheduler := scheduler }
    have henter : step onStart s (.enter i) = some s' := by
      simp [step, enter, s', hthrew, hr, hpc, hfree, hexecute, hstep]
    refine ⟨[.enter i], s', ?_, rfl, hquiet.place_eq, hquiet.entered_eq⟩
    simp [Machine.run, machine, henter]
  | ok task =>
    simp only [hexecute] at hstep
    injection hstep with hstep
    rw [eq_of_execute hexecute] at hstep
    let mid : FineScheduler := { s with
      entered := Function.update s.entered i true
      began := if (s.scheduler.tasks t).affinity then s.began ++ [(t, r.id)] else s.began
    }
    let s' : FineScheduler := { mid with scheduler := scheduler, entered := s.entered }
    have henter : step onStart s (.enter i) = some mid := by
      simp [step, enter, hthrew, hr, hpc, hfree, hexecute, mid]
    have hnote : step onStart mid (.noteRunner i) = some s' := by
      have hback : Function.update mid.entered i false = s.entered := by
        rw [Function.update_idem, ← hfree, Function.update_eq_self]
      simp [step, noteRunner, mid, s', hthrew, hr, hpc, hstep, hback]
    refine ⟨[.enter i, .noteRunner i], s', ?_, rfl, hquiet.place_eq, hquiet.entered_eq⟩
    simp [Machine.run, machine, henter, hnote]

-- The id of a push is one that `get_target_runner_id` can return.
def Returned (s : TaskScheduler) : TaskScheduler.Event → Prop
  | .caller id => ∃ random counts, counts.length = s.runners.length
      ∧ getTargetRunnerId random counts = id
  | _ => True

theorem exists_run_of_step {e : TaskScheduler.Event} (hquiet : s.Quiet)
    (hreturned : Returned s.scheduler e)
    (hstep : TaskScheduler.step onStart s.scheduler e = some scheduler) :
    ∃ es s', (machine onStart cfg tasks).run s es = some s'
      ∧ s'.scheduler = scheduler ∧ s'.Quiet := by
  have hthrew := (TaskScheduler.stepped hstep).1
  have hstep' := hstep
  unfold TaskScheduler.step at hstep'
  rw [hthrew] at hstep'
  cases hsplits : splits s.scheduler e with
  | false =>
    let s' : FineScheduler := { s with scheduler := scheduler }
    have hwhole : step onStart s (.whole e) = some s' := by
      simp [step, s', hthrew, hsplits, hstep]
    refine ⟨[.whole e], s', ?_, rfl, hquiet.place_eq, hquiet.entered_eq⟩
    simp [Machine.run, machine, hwhole]
  | true =>
    cases e with
    | caller id =>
      obtain ⟨t, hcaller⟩ := splits_caller hsplits
      obtain ⟨random, counts, hlength, rfl⟩ := hreturned
      have hpush : s.scheduler.push t (getTargetRunnerId random counts) = some scheduler := by
        simpa [TaskScheduler.stepCaller, hcaller] using hstep'
      obtain ⟨s', hrun, hs'⟩ := exists_run_of_push hquiet hthrew hcaller hlength hpush
      exact ⟨_, s', hrun, hs'⟩
    | runner i =>
      obtain ⟨r, t, loopCount, hr, hpc⟩ := splits_runner hsplits
      exact exists_run_of_execute hquiet hthrew hr hpc hstep'
    | _ => contradiction

-- The smaller steps get to wherever the whole ones do.
theorem exists_run {es : List TaskScheduler.Event}
    (hrun : (TaskScheduler.machine onStart cfg tasks).run (TaskScheduler.start cfg tasks) es
      = some scheduler)
    (halong : (TaskScheduler.machine onStart cfg tasks).Along Returned
      (TaskScheduler.start cfg tasks) es) :
    ∃ s, (machine onStart cfg tasks).Reachable s ∧ s.scheduler = scheduler ∧ s.Quiet := by
  apply Machine.inv_of_along (fun scheduler =>
    ∃ s, (machine onStart cfg tasks).Reachable s ∧ s.scheduler = scheduler ∧ s.Quiet) _ hrun halong
  . exact ⟨start cfg tasks, ⟨[], rfl⟩, rfl, rfl, fun _ => rfl⟩
  . rintro _ e scheduler' ⟨s, ⟨es, hrun⟩, rfl, hquiet⟩ hreturned hstep
    obtain ⟨es', s', hrun', hs'⟩ := exists_run_of_step hquiet hreturned hstep
    refine ⟨s', ⟨es ++ es', ?_⟩, hs'⟩
    rw [Machine.run_append, hrun]
    exact hrun'

end Whole

end FineScheduler
end Lax
