import Lax.Task.Lemmas.FineScheduler
import Lax.Task.Lemmas.Finished
import Lax.Task.Lemmas.Placement

/-!
This module contains when a task stays with one runner after `set_runner_affinity`. What the task is
bound to is the runner that executed it last, whoever has it waiting already.
-/

namespace Lax

-- What decides about the runner of a task.
def Task.binding (task : Task) : Bool × Nat :=
  (task.affinity, task.lastRunnerId)

namespace TaskScheduler

variable {s s' : TaskScheduler} {i j t : Nat} {r r' : TaskRunner} {onStart : Nat → Bool}

-- The runner at `i` is about to execute the task or does the checks of `execute`.
def AtExecute (s : TaskScheduler) (i t : Nat) : Prop :=
  ∃ r loopCount, s.runners[i]? = some r ∧ r.pc = .execute t loopCount

theorem AtExecute.waitsIn (h : s.AtExecute i t) : s.WaitsIn i t := by
  obtain ⟨r, loopCount, hr, hpc⟩ := h
  refine ⟨r, hr, ?_⟩
  unfold TaskRunner.waiting
  rw [hpc]
  exact List.mem_append_right _ (List.mem_singleton_self t)

theorem AtExecute.set (h : s.AtExecute j t) (hr : s.runners[i]? = some r)
    (hrunners : s'.runners = s.runners.set i r')
    (hpc : j = i → ∀ loopCount, r.pc = .execute t loopCount → r'.pc = .execute t loopCount) :
    s'.AtExecute j t := by
  obtain ⟨r'', loopCount, hr'', hpc''⟩ := h
  unfold AtExecute
  rw [hrunners]
  by_cases heq : i = j
  . subst heq
    rw [hr] at hr''
    injection hr'' with hr''
    subst hr''
    have hlt := (List.getElem?_eq_some_iff.mp hr).1
    exact ⟨r', loopCount, List.getElem?_set_self hlt, hpc rfl loopCount hpc''⟩
  . exact ⟨r'', loopCount, (List.getElem?_set_ne heq).trans hr'', hpc''⟩

/-!
### Steps that leave the executions alone
-/

structure Passes (s s' : TaskScheduler) : Prop where
  waitsIn : ∀ i t, s'.WaitsIn i t → s.WaitsIn i t
  atExecute : ∀ i t, s.AtExecute i t → s'.AtExecute i t
  caller_eq : ∀ t, s.caller = .scheduling (some t) → s'.caller = .scheduling (some t)
  threw_eq : s'.threw = s.threw

theorem passes_of_runners (hrunners : s'.runners = s.runners)
    (hcaller : ∀ t, s.caller = .scheduling (some t) → s'.caller = .scheduling (some t))
    (hthrew : s'.threw = s.threw) : Passes s s' := by
  constructor
  . exact fun i t => (waitsIn_congr hrunners).mp
  . intro i t h
    unfold AtExecute
    rw [hrunners]
    exact h
  . exact hcaller
  . exact hthrew

theorem RunnerStep.passes (h : RunnerStep s i r s') (hr : s.runners[i]? = some r)
    (hpc : ∀ t loopCount, r.pc ≠ .execute t loopCount) : Passes s s' := by
  have hset : ∀ {s' : TaskScheduler} {r' : TaskRunner}, s'.runners = s.runners.set i r' →
      ∀ j t, s.AtExecute j t → s'.AtExecute j t :=
    fun hrunners j t hat => hat.set hr hrunners fun _ loopCount heq => absurd heq (hpc t loopCount)
  constructor
  . exact fun j t => h.waitsIn hr
  . cases h with
    | throws hpc' => exact absurd hpc' (hpc _ _)
    | _ => exact hset rfl
  . intro t hcaller
    exact h.caller_eq.trans hcaller
  . cases h with
    | throws hpc' => exact absurd hpc' (hpc _ _)
    | _ => rfl

theorem RunnerStep.binding_eq (h : RunnerStep s i r s')
    (hpc : ∀ t loopCount, r.pc ≠ .execute t loopCount) (t : Nat) :
    (s'.tasks t).binding = (s.tasks t).binding := by
  cases h with
  | execute hpc' => exact absurd hpc' (hpc _ _)
  | _ => rfl

theorem CallerStep.passes (h : CallerStep onStart s s')
    (hcaller : ∀ t, s.caller ≠ .scheduling (some t)) : Passes s s' := by
  constructor
  . intro j t hwaits
    exact (h.waitsIn hwaits).resolve_right (hcaller t)
  . intro j t hat
    cases h with
    | started | refused =>
      unfold AtExecute
      rw [runners_startTask]
      exact hat
    | place hcaller' => exact absurd hcaller' (hcaller _)
    | stop _ hr => exact hat.set hr rfl fun _ _ => id
    | drain _ hr => exact hat.set hr rfl fun _ _ => id
    | _ => exact hat
  . exact fun t hcaller' => absurd hcaller' (hcaller t)
  . cases h with
    | started | refused => apply threw_startTask
    | _ => rfl

theorem binding_startTask (b : Bool) (t' : Nat) :
    ((s.startTask b t').tasks t).binding = (s.tasks t).binding := by
  unfold startTask
  split
  . apply setTask_congr Task.binding
    unfold Task.start
    split <;> rfl
  . rfl

theorem CallerStep.binding_eq (h : CallerStep onStart s s') (t : Nat) :
    (s'.tasks t).binding = (s.tasks t).binding := by
  cases h with
  | started | refused => apply binding_startTask
  | finish =>
    apply setTask_congr Task.binding
    split <;> rfl
  | _ => rfl

end TaskScheduler

namespace FineScheduler

open TaskScheduler (target getTargetRunnerId Passes)

variable {s s' : FineScheduler} {i t : Nat} {r : TaskRunner} {onStart : Nat → Bool}

section Whole

variable {a b : TaskScheduler} {e : TaskScheduler.Event}

theorem caller_ne_of_splits {id : Nat} (h : splits a (.caller id) = false) (t : Nat) :
    a.caller ≠ .scheduling (some t) := by
  intro hcaller
  simp [splits, hcaller] at h

theorem pc_ne_of_splits (h : splits a (.runner i) = false) (hr : a.runners[i]? = some r)
    (t loopCount : Nat) : r.pc ≠ .execute t loopCount := by
  intro hpc
  simp [splits, hr, hpc] at h

theorem passes_of_splits (hsplits : splits a e = false)
    (hstep : TaskScheduler.Stepped onStart a e b) : Passes a b := by
  have hidle : ∀ {caller : TaskScheduler.Caller} (t : Nat), a.caller = .idle →
      a.caller = .scheduling (some t) → caller = .scheduling (some t) := by
    intro caller t hidle hcaller
    rw [hidle] at hcaller
    contradiction
  cases hstep with
  | schedule hcaller => exact TaskScheduler.passes_of_runners rfl (fun t => hidle t hcaller) rfl
  | execute hcaller => exact TaskScheduler.passes_of_runners rfl (fun t => hidle t hcaller) rfl
  | finish hcaller => exact TaskScheduler.passes_of_runners rfl (fun t => hidle t hcaller) rfl
  | caller hstep => exact hstep.passes (caller_ne_of_splits hsplits)
  | runner hr hstep => exact hstep.passes hr (pc_ne_of_splits hsplits hr)
  | finishSelf => exact TaskScheduler.passes_of_runners rfl (fun _ => id) rfl
  | setRunnerAffinity => exact TaskScheduler.passes_of_runners rfl (fun _ => id) rfl

-- Only `set_runner_affinity` changes what a task is bound to.
theorem binding_of_splits (hsplits : splits a e = false)
    (hstep : TaskScheduler.Stepped onStart a e b) (t : Nat) :
    (b.tasks t).binding = (a.tasks t).binding
      ∨ e = .setRunnerAffinity t ∧ (b.tasks t).binding = (true, (a.tasks t).lastRunnerId) := by
  cases hstep with
  | caller hstep => exact .inl (hstep.binding_eq t)
  | runner hr hstep => exact .inl (hstep.binding_eq (pc_ne_of_splits hsplits hr) t)
  | finishSelf =>
    left
    apply TaskScheduler.setTask_congr Task.binding
    rfl
  | @setRunnerAffinity t' =>
    by_cases heq : t = t'
    . subst heq
      refine .inr ⟨rfl, ?_⟩
      unfold TaskScheduler.setTask
      dsimp only
      rw [Function.update_self]
      rfl
    . exact .inl (congrArg Task.binding (Function.update_of_ne heq _ _))
  | _ => exact .inl rfl

end Whole

/-!
### Where a task is bound to
-/

-- The runner at `i` is going to execute the task, or is chosen for it.
def Due (s : FineScheduler) (i t : Nat) : Prop :=
  s.scheduler.WaitsIn i t ∨ s.scheduler.caller = .scheduling (some t) ∧ s.place = some i

-- The runner at `i` is past the checks for the task and not noted yet.
def Entering (s : FineScheduler) (i t : Nat) : Prop :=
  s.entered i = true ∧ s.scheduler.AtExecute i t

-- No more than one runner is going to execute the task, and that is the one that executed it last or
-- is about to note itself.
structure Settled (s : FineScheduler) (t : Nat) : Prop where
  unique : ∀ i j, s.Due i t → s.Due j t → i = j
  last : ∀ i, s.Due i t → (s.scheduler.tasks t).lastRunnerId = 0
    ∨ (s.scheduler.tasks t).lastRunnerId = i + 1 ∨ s.Entering i t

def Careful (s : FineScheduler) : Event → Prop
  | .whole (.setRunnerAffinity t) => s.Settled t
  | .choose random counts => ∀ t, s.scheduler.caller = .scheduling (some t) →
      (s.scheduler.tasks t).affinity = true → ∀ i, s.Due i t →
        target (s.scheduler.tasks t) (getTargetRunnerId random counts) = some i
  | _ => True

def Kept (s : FineScheduler) : Prop :=
  s.scheduler.threw ≠ some "invalid runner affinity"
    ∧ ∀ t id id', (t, id) ∈ s.began → (t, id') ∈ s.began → id = id'

structure Bound (s : FineScheduler) (t : Nat) : Prop extends Settled s t where
  due : ∀ i id, s.Due i t → (t, id) ∈ s.began → i + 1 = id
  began : ∀ id, (t, id) ∈ s.began → ∃ i, i + 1 = id
    ∧ ((s.scheduler.tasks t).lastRunnerId = id ∨ s.Entering i t)

theorem Entering.due (h : s.Entering i t) : s.Due i t :=
  Or.inl h.2.waitsIn

theorem Bound.eq_of_began (h : s.Bound t) {id id' : Nat} (hid : (t, id) ∈ s.began)
    (hid' : (t, id') ∈ s.began) : id = id' := by
  obtain ⟨i, heq, hlast⟩ := h.began id hid
  obtain ⟨i', heq', hlast'⟩ := h.began id' hid'
  cases hlast with
  | inr hentering => exact heq.symm.trans (h.due i id' hentering.due hid')
  | inl hlast =>
    cases hlast' with
    | inr hentering => exact (h.due i' id hentering.due hid).symm.trans heq'
    | inl hlast' => exact hlast.symm.trans hlast'

/-!
### Steps that add nothing
-/

structure Narrows (s s' : FineScheduler) (t : Nat) : Prop where
  due : ∀ i, s'.Due i t → s.Due i t
  entering : ∀ i, s.Entering i t → s'.Entering i t
  last_eq : (s'.scheduler.tasks t).lastRunnerId = (s.scheduler.tasks t).lastRunnerId

theorem Settled.narrows (h : s.Settled t) (hnarrows : Narrows s s' t) : s'.Settled t := by
  constructor
  . intro i j hi hj
    exact h.unique i j (hnarrows.due i hi) (hnarrows.due j hj)
  . intro i hi
    rw [hnarrows.last_eq]
    apply (h.last i (hnarrows.due i hi)).imp_right
    apply Or.imp_right
    exact hnarrows.entering i

theorem Bound.narrows (h : s.Bound t) (hnarrows : Narrows s s' t)
    (hbegan : ∀ id, (t, id) ∈ s'.began → (t, id) ∈ s.began) : s'.Bound t := by
  refine ⟨h.toSettled.narrows hnarrows, ?_, ?_⟩
  . intro i id hdue hid
    exact h.due i id (hnarrows.due i hdue) (hbegan id hid)
  . intro id hid
    obtain ⟨i, heq, hlast⟩ := h.began id (hbegan id hid)
    rw [← hnarrows.last_eq] at hlast
    exact ⟨i, heq, hlast.imp_right (hnarrows.entering i)⟩

/-!
### The invariant
-/

structure Inv (s : FineScheduler) : Prop where
  numbered : s.scheduler.Numbered
  caller : ∀ i, s.place = some i → ∃ t, s.scheduler.caller = .scheduling (some t)
  bound : ∀ t, (s.scheduler.tasks t).affinity = true → s.Bound t
  affinity : ∀ t id, (t, id) ∈ s.began → (s.scheduler.tasks t).affinity = true
  threw_ne : s.scheduler.threw ≠ some "invalid runner affinity"

theorem Inv.kept (h : s.Inv) : s.Kept := by
  constructor
  . exact h.threw_ne
  . intro t id id' hid hid'
    exact (h.bound t (h.affinity t id hid)).eq_of_began hid hid'

theorem not_waitsIn_start (cfg : TaskScheduler.Config) (tasks : Nat → Task) :
    ¬(TaskScheduler.start cfg tasks).WaitsIn i t := by
  rintro ⟨r, hr, hmem⟩
  obtain ⟨j, -, rfl⟩ := List.mem_map.mp (List.mem_of_getElem? hr)
  cases hmem

theorem not_due_start (cfg : TaskScheduler.Config) (tasks : Nat → Task) :
    ¬(start cfg tasks).Due i t := by
  rintro (hwaits | ⟨hcaller, -⟩)
  . exact not_waitsIn_start cfg tasks hwaits
  . cases hcaller

theorem inv_start (cfg : TaskScheduler.Config) (tasks : Nat → Task) : (start cfg tasks).Inv := by
  constructor
  . apply TaskScheduler.numbered_start
  . exact fun i hplace => nomatch hplace
  . intro t _
    refine ⟨⟨?_, ?_⟩, ?_, ?_⟩
    . exact fun i j hdue => absurd hdue (not_due_start cfg tasks)
    . exact fun i hdue => absurd hdue (not_due_start cfg tasks)
    . exact fun i id hdue => absurd hdue (not_due_start cfg tasks)
    . exact fun id hid => nomatch hid
  . exact fun t id hid => nomatch hid
  . exact fun hthrew => nomatch hthrew

theorem narrows_of_passes {scheduler : TaskScheduler} (hpasses : Passes s.scheduler scheduler)
    (hcaller : ∀ i, s.place = some i → ∃ t, s.scheduler.caller = .scheduling (some t))
    (hlast : (scheduler.tasks t).lastRunnerId = (s.scheduler.tasks t).lastRunnerId) :
    Narrows s { s with scheduler := scheduler } t := by
  constructor
  . rintro i (hwaits | ⟨hcaller', hplace⟩)
    . exact .inl (hpasses.waitsIn i t hwaits)
    . obtain ⟨t', ht'⟩ := hcaller i hplace
      have heq : TaskScheduler.Caller.scheduling (some t') = .scheduling (some t) :=
        (hpasses.caller_eq t' ht').symm.trans hcaller'
      exact .inr ⟨ht'.trans heq, hplace⟩
  . exact fun i hentering => ⟨hentering.1, hpasses.atExecute i t hentering.2⟩
  . exact hlast

theorem Inv.whole {e : TaskScheduler.Event} {scheduler : TaskScheduler} (h : s.Inv)
    (hcareful : s.Careful (.whole e)) (hsplits : splits s.scheduler e = false)
    (hstep : TaskScheduler.Stepped onStart s.scheduler e scheduler) :
    Inv { s with scheduler := scheduler } := by
  have hpasses := passes_of_splits hsplits hstep
  have hbinding := binding_of_splits hsplits hstep
  have hnarrows : ∀ t, Narrows s { s with scheduler := scheduler } t := by
    intro t
    apply narrows_of_passes hpasses h.caller
    obtain heq | ⟨-, heq⟩ := hbinding t
    . exact congrArg Prod.snd heq
    . exact congrArg Prod.snd heq
  constructor
  . exact hstep.numbered h.numbered
  . intro i hplace
    obtain ⟨t, hcaller⟩ := h.caller i hplace
    exact ⟨t, hpasses.caller_eq t hcaller⟩
  . intro t haffinity
    cases haffinity' : (s.scheduler.tasks t).affinity with
    | true => exact (h.bound t haffinity').narrows (hnarrows t) fun _ => id
    | false =>
      -- Nothing has been executed with affinity, so that it is enough where the task is.
      have hnone : ∀ id, (t, id) ∉ s.began := by
        intro id hid
        rw [h.affinity t id hid] at haffinity'
        contradiction
      obtain heq | ⟨rfl, -⟩ := hbinding t
      . have heq' := congrArg Prod.fst heq
        rw [Task.binding, Task.binding, haffinity', haffinity] at heq'
        contradiction
      . refine ⟨Settled.narrows hcareful (hnarrows t), ?_, ?_⟩
        . exact fun i id _ hid => absurd hid (hnone id)
        . exact fun id hid => absurd hid (hnone id)
  . intro t id hid
    have haffinity := h.affinity t id hid
    obtain heq | ⟨-, heq⟩ := hbinding t
    . exact (congrArg Prod.fst heq).trans haffinity
    . exact congrArg Prod.fst heq
  . rw [hpasses.threw_eq]
    exact h.threw_ne

theorem target_of_affinity {task : Task} {id : Nat} (haffinity : task.affinity = true)
    (h : target task id = some i) : task.lastRunnerId = 0 ∨ task.lastRunnerId = i + 1 := by
  unfold target at h
  rw [if_pos haffinity] at h
  by_cases hlast : task.lastRunnerId = 0
  . exact .inl hlast
  . right
    rw [if_neg hlast] at h
    dsimp only at h
    rw [if_neg hlast] at h
    injection h with h
    omega

theorem Inv.choose {random : Nat} {counts : List Nat} (h : s.Inv)
    (hcareful : s.Careful (.choose random counts))
    (hcaller : s.scheduler.caller = .scheduling (some t))
    (htarget : target (s.scheduler.tasks t) (getTargetRunnerId random counts) = some i) :
    Inv { s with place := some i } := by
  have hdue : ∀ {j t'}, Due { s with place := some i } j t' → s.Due j t' ∨ t' = t ∧ j = i := by
    rintro j t' (hwaits | ⟨hcaller', hplace'⟩)
    . exact .inl (.inl hwaits)
    . have heq := hcaller.symm.trans hcaller'
      injection heq with heq
      injection heq with heq
      injection hplace' with hplace'
      exact .inr ⟨heq.symm, hplace'.symm⟩
  refine ⟨h.numbered, fun _ _ => ⟨t, hcaller⟩, ?_, h.affinity, h.threw_ne⟩
  intro t' (haffinity : (s.scheduler.tasks t').affinity = true)
  have hbound := h.bound t' haffinity
  by_cases heq : t' = t
  . subst heq
    have hbefore : ∀ j, s.Due j t' → j = i := by
      intro j hj
      have htarget' := hcareful t' hcaller haffinity j hj
      rw [htarget] at htarget'
      injection htarget' with htarget'
      exact htarget'.symm
    have hchosen : ∀ j, Due { s with place := some i } j t' → j = i :=
      fun j hj => (hdue hj).elim (hbefore j) And.right
    have hlast := target_of_affinity haffinity htarget
    refine ⟨⟨?_, ?_⟩, ?_, hbound.began⟩
    . exact fun j j' hj hj' => (hchosen j hj).trans (hchosen j' hj').symm
    . intro j hj
      rw [hchosen j hj]
      exact hlast.imp_right Or.inl
    . intro j id hj hid
      rw [hchosen j hj]
      obtain ⟨k, hk, hlast' | hentering⟩ := hbound.began id hid
      . have hlast'' : (s.scheduler.tasks t').lastRunnerId = i + 1 := by omega
        exact hlast''.symm.trans hlast'
      . rw [← hbefore k hentering.due]
        exact hk
  . have hnarrows : Narrows s { s with place := some i } t' := by
      constructor
      . exact fun j hj => (hdue hj).resolve_right fun hnew => heq hnew.1
      . exact fun _ => id
      . rfl
    exact hbound.narrows hnarrows fun _ => id

theorem Inv.push (h : s.Inv) (hcaller : s.scheduler.caller = .scheduling (some t))
    (hplace : s.place = some i) (hr : s.scheduler.runners[i]? = some r) :
    Inv { s with
      scheduler := {
        s.scheduler.setRunner i { r with queue := r.queue ++ [t] } with
        caller := .scheduling none
      }
      place := none
    } := by
  refine ⟨h.numbered.set hr rfl rfl, ?_, ?_, h.affinity, h.threw_ne⟩
  . intro j hnone
    contradiction
  . intro t' haffinity
    refine (h.bound t' haffinity).narrows ?_ fun _ => id
    constructor
    . rintro j (hwaits | ⟨hcaller', -⟩)
      . apply (hwaits.of_push hr rfl).imp_right
        rintro ⟨rfl, rfl⟩
        exact ⟨hcaller, hplace⟩
      . cases hcaller'
    . exact fun j hentering => ⟨hentering.1, hentering.2.set hr rfl fun _ _ => id⟩
    . rfl

theorem invalid_of_execute {task : Task} {id : Nat}
    (h : task.execute id = .error "invalid runner affinity") :
    task.affinity = true ∧ task.lastRunnerId ≠ 0 ∧ task.lastRunnerId ≠ id := by
  unfold Task.execute at h
  split at h
  . injection h with h
    exact absurd h (by decide)
  . split at h
    . next hcond =>
      simp only [Task.hasRightAffinity, Bool.and_eq_true, Bool.not_eq_true', Bool.and_eq_false_iff,
        Bool.or_eq_false_iff, decide_eq_false_iff_not] at hcond
      obtain ⟨haffinity, hright⟩ := hcond
      rw [haffinity] at hright
      have hne := hright.resolve_left Bool.noConfusion
      exact ⟨haffinity, hne.2, hne.1⟩
    . contradiction

theorem narrows_enter (s : FineScheduler) (i t : Nat) (began : List (Nat × Nat)) :
    Narrows s { s with entered := Function.update s.entered i true, began := began } t := by
  refine ⟨fun _ => id, ?_, rfl⟩
  intro j hentering
  refine ⟨?_, hentering.2⟩
  dsimp only
  rw [Function.update_apply]
  split
  . rfl
  . exact hentering.1

theorem mem_began {t' id id' : Nat}
    (h : (t', id') ∈ if (s.scheduler.tasks t).affinity then s.began ++ [(t, id)] else s.began) :
    (t', id') ∈ s.began ∨ (s.scheduler.tasks t).affinity = true ∧ t' = t ∧ id' = id := by
  split at h
  . next haffinity =>
    apply (List.mem_append.mp h).imp_right
    intro hnew
    injection List.mem_singleton.mp hnew with ht hid
    exact ⟨haffinity, ht, hid⟩
  . exact .inl h

-- The runner has noted itself.
def noted (s : FineScheduler) (i t loopCount : Nat) (r : TaskRunner) : FineScheduler :=
  { s with
    scheduler :=
      (s.scheduler.setTask t { s.scheduler.tasks t with lastRunnerId := r.id }).setRunner i
        { r with pc := .executing t loopCount }
    entered := Function.update s.entered i false
  }

section Runner

variable {loopCount : Nat} (hr : s.scheduler.runners[i]? = some r)
  (hpc : r.pc = .execute t loopCount)

include hr hpc

theorem due_of_pc : s.Due i t := by
  left
  apply TaskScheduler.AtExecute.waitsIn
  exact ⟨r, loopCount, hr, hpc⟩

theorem Inv.throws {msg : String} (h : s.Inv) (hentered : s.entered i = false)
    (hexecute : (s.scheduler.tasks t).execute r.id = .error msg) :
    Inv { s with scheduler := { s.scheduler with threw := some msg } } := by
  refine ⟨h.numbered, h.caller, ?_, h.affinity, ?_⟩
  . intro t' haffinity
    refine (h.bound t' haffinity).narrows ?_ fun _ => id
    exact ⟨fun _ => id, fun _ => id, rfl⟩
  . intro hmsg
    injection hmsg with hmsg
    subst hmsg
    obtain ⟨haffinity, hne, hne'⟩ := invalid_of_execute hexecute
    rw [h.numbered i r hr] at hne'
    obtain hlast | hlast | hentering := (h.bound t haffinity).last i (due_of_pc hr hpc)
    . exact hne hlast
    . exact hne' hlast
    . rw [hentering.1] at hentered
      contradiction

theorem Inv.enter (h : s.Inv) {began : List (Nat × Nat)}
    (hbegan : ∀ t' id, (t', id) ∈ began →
      (t', id) ∈ s.began ∨ (s.scheduler.tasks t).affinity = true ∧ t' = t ∧ id = r.id) :
    Inv { s with entered := Function.update s.entered i true, began := began } := by
  have hid := h.numbered i r hr
  refine ⟨h.numbered, h.caller, ?_, ?_, h.threw_ne⟩
  . intro t' haffinity
    have hbound := h.bound t' haffinity
    have hnarrows := narrows_enter s i t' began
    refine ⟨hbound.toSettled.narrows hnarrows, ?_, ?_⟩
    . intro j id hdue hmem
      obtain hmem | ⟨-, rfl, rfl⟩ := hbegan t' id hmem
      . exact hbound.due j id hdue hmem
      . rw [hbound.unique j i hdue (due_of_pc hr hpc), hid]
    . intro id hmem
      obtain hmem | ⟨-, rfl, rfl⟩ := hbegan t' id hmem
      . obtain ⟨j, heq, hlast⟩ := hbound.began id hmem
        exact ⟨j, heq, hlast.imp_right (hnarrows.entering j)⟩
      . refine ⟨i, hid.symm, .inr ⟨?_, r, loopCount, hr, hpc⟩⟩
        exact Function.update_self i true s.entered
  . intro t' id hmem
    obtain hmem | ⟨haffinity, rfl, -⟩ := hbegan t' id hmem
    . exact h.affinity t' id hmem
    . exact haffinity

omit hpc in
theorem due_noted {j t' : Nat} (h : (s.noted i t loopCount r).Due j t') : s.Due j t' := by
  apply h.imp_left
  intro hwaits
  exact hwaits.of_execute hr rfl

theorem narrows_noted {t' : Nat} (hne : t' ≠ t) : Narrows s (s.noted i t loopCount r) t' := by
  refine ⟨fun j => due_noted hr, ?_, ?_⟩
  . rintro j ⟨hentered, hat⟩
    have hj : j ≠ i := by
      rintro rfl
      obtain ⟨r', loopCount', hr', hpc'⟩ := hat
      rw [hr] at hr'
      injection hr' with hr'
      rw [← hr', hpc] at hpc'
      injection hpc' with ht
      exact hne ht.symm
    refine ⟨(Function.update_of_ne hj _ _).trans hentered, ?_⟩
    exact hat.set hr rfl fun heq => absurd heq hj
  . exact congrArg Task.lastRunnerId (Function.update_of_ne hne _ _)

-- From here on the task has been executed last by the runner that has it.
theorem Bound.noted (h : s.Bound t) (hid : r.id = i + 1) : (s.noted i t loopCount r).Bound t := by
  have hhere := due_of_pc hr hpc
  have hlast : ((s.noted i t loopCount r).scheduler.tasks t).lastRunnerId = i + 1 :=
    (congrArg Task.lastRunnerId (Function.update_self t _ _)).trans hid
  refine ⟨⟨?_, ?_⟩, ?_, ?_⟩
  . exact fun j j' hj hj' => h.unique j j' (due_noted hr hj) (due_noted hr hj')
  . intro j hj
    rw [h.unique j i (due_noted hr hj) hhere]
    exact .inr (.inl hlast)
  . exact fun j id hj => h.due j id (due_noted hr hj)
  . intro id hmem
    have hid' := h.due i id hhere hmem
    exact ⟨i, hid', .inl (hlast.trans hid')⟩

theorem Inv.noteRunner (h : s.Inv) : (s.noted i t loopCount r).Inv := by
  have haffinity : ∀ t', ((s.noted i t loopCount r).scheduler.tasks t').affinity
      = (s.scheduler.tasks t').affinity :=
    TaskScheduler.setTask_congr Task.affinity rfl
  refine ⟨h.numbered.set hr rfl rfl, h.caller, ?_, ?_, h.threw_ne⟩
  . intro t' ht'
    rw [haffinity] at ht'
    by_cases heq : t' = t
    . subst heq
      exact (h.bound t' ht').noted hr hpc (h.numbered i r hr)
    . exact (h.bound t' ht').narrows (narrows_noted hr hpc heq) fun _ => id
  . exact fun t' id hmem => (haffinity t').trans (h.affinity t' id hmem)

end Runner

theorem Inv.step {e : Event} (h : s.Inv) (hcareful : s.Careful e) (hstep : Stepped onStart s e s') :
    s'.Inv := by
  cases hstep with
  | choose hcaller _ htarget => exact h.choose hcareful hcaller htarget
  | push hcaller hplace hr => exact h.push hcaller hplace hr
  | throws hr hpc hentered hexecute => exact h.throws hr hpc hentered hexecute
  | enter hr hpc => exact h.enter hr hpc fun _ _ => mem_began
  | noteRunner hr hpc => exact h.noteRunner hr hpc
  | whole hsplits hstep => exact h.whole hcareful hsplits hstep

/--
After `set_runner_affinity` all executions of a task are on one runner and none of them throws, if
the call comes when no runner but the last one has the task before it, and if the scheduler then
chooses no other runner than the one that has it.
-/
theorem kept_of_run (onStart : Nat → Bool) (cfg : TaskScheduler.Config) (tasks : Nat → Task)
    (es : List Event) (s : FineScheduler)
    (hrun : (machine onStart cfg tasks).run (start cfg tasks) es = some s)
    (hcareful : (machine onStart cfg tasks).Along Careful (start cfg tasks) es) : s.Kept := by
  apply Inv.kept
  apply Machine.inv_of_along Inv _ hrun hcareful (inv_start cfg tasks)
  exact fun _ _ _ h hcareful hstep => h.step hcareful (stepped hstep)

open TaskScheduler (runnersConfig)

def runnersMachine (n : Nat) : Machine FineScheduler Event :=
  machine (fun _ => true) (runnersConfig n) fun _ => Task.ctor

-- A call of `schedule` that has taken the task from the queue.
def scheduling (t : Nat) : List Event :=
  [.whole (.schedule t), .whole (.caller 0), .whole (.caller 0), .whole (.caller 0)]

-- The call comes before anything is scheduled.
theorem kept_of_run_setRunnerAffinity :
    let es : List Event := .whole (.setRunnerAffinity 7) :: scheduling 7 ++
      [.choose 0 [0, 0], .push, .whole (.runner 0), .whole (.runner 0), .enter 0, .noteRunner 0]
    ∃ s, (runnersMachine 2).run (runnersMachine 2).init es = some s
      ∧ s.began = [(7, 1)] ∧ s.Kept := by
  intro es
  refine ⟨_, rfl, rfl, ?_⟩
  apply kept_of_run (fun _ => true) (runnersConfig 2) (fun _ => Task.ctor) es _ rfl
  apply Machine.along_cons _ rfl
  . apply Machine.along_cons trivial rfl
    apply Machine.along_cons trivial rfl
    apply Machine.along_cons trivial rfl
    apply Machine.along_cons trivial rfl
    apply Machine.along_cons _ rfl
    . apply Machine.along_of_forall
      intro s e he
      simp only [List.mem_cons, List.not_mem_nil, or_false] at he
      obtain rfl | rfl | rfl | rfl | rfl := he <;> trivial
    . rintro t - - i (hwaits | ⟨-, hplace⟩)
      . exact absurd hwaits (not_waitsIn_start (runnersConfig 2) fun _ => Task.ctor)
      . cases hplace
  . constructor
    . exact fun i j hdue => absurd hdue (not_due_start _ _)
    . exact fun i hdue => absurd hdue (not_due_start _ _)

-- The task has been executed by the runner at 1 and waits at the one at 2 when the call comes.
theorem exists_not_kept :
    let first := scheduling 1 ++ [.choose 0 [0, 0, 0], .push, .whole (.caller 0),
      .whole (.runner 1), .whole (.runner 1), .enter 1, .noteRunner 1]
    let other := .whole (.setRunnerAffinity 2) :: scheduling 2 ++
      [.choose 0 [0, 0, 0], .push, .whole (.caller 0)]
    let second := [.whole (.runner 1), .whole (.runner 1),
      .whole .execute, .whole (.caller 0), .choose 0 [1, 0, 0], .push]
    let last := [.whole (.setRunnerAffinity 1),
      .whole (.runner 2), .whole (.runner 2), .enter 2]
    ∃ s, (runnersMachine 3).run (runnersMachine 3).init (first ++ other ++ second ++ last) = some s
      ∧ s.scheduler.threw = some "invalid runner affinity" ∧ ¬s.Kept :=
  ⟨_, rfl, rfl, fun h => h.1 rfl⟩

end FineScheduler
end Lax
