import Lax.Task.Lemmas.Step

/-!
This module contains what is left of the runners while the calling thread is in `finish`.
-/

namespace Lax
namespace TaskScheduler

variable {s s' : TaskScheduler} {i j : Nat} {r : TaskRunner} {onStart : Nat → Bool}

-- The thread has been joined and its queue is drained.
def Gone (s : TaskScheduler) (i : Nat) : Prop :=
  ∃ r, s.runners[i]? = some r ∧ r.pc = .ended ∧ r.queue = []

def Joined (s : TaskScheduler) (i : Nat) : Prop :=
  ∃ r, s.runners[i]? = some r ∧ r.pc = .ended

def Shutdown (s : TaskScheduler) : Prop :=
  match s.caller with
  | .stopping i => ∀ j < i, s.Gone j
  | .joining i => ∀ j < i, s.Gone j
  | .draining i _ => (∀ j < i, s.Gone j) ∧ s.Joined i
  | .finishing _ => ∀ j < s.runners.length, s.Gone j
  | .finished => (∀ j < s.runners.length, s.Gone j) ∧ s.queue = []
  | _ => True

theorem Gone.of_runners (h : s.Gone j) (hrunners : s'.runners[j]? = s.runners[j]?) : s'.Gone j := by
  obtain ⟨r, hr, hgone⟩ := h
  exact ⟨r, hrunners.trans hr, hgone⟩

theorem Joined.of_runners (h : s.Joined j) (hrunners : s'.runners[j]? = s.runners[j]?) :
    s'.Joined j := by
  obtain ⟨r, hr, hjoined⟩ := h
  exact ⟨r, hrunners.trans hr, hjoined⟩

theorem Gone.joined (h : s.Gone j) : s.Joined j := by
  obtain ⟨r, hr, hended, -⟩ := h
  exact ⟨r, hr, hended⟩

-- A runner that takes a step has not been joined.
theorem Joined.ne (h : s.Joined j) (hr : s.runners[i]? = some r) (hstep : RunnerStep s i r s') :
    j ≠ i := by
  intro heq
  subst heq
  obtain ⟨r', hr', hended⟩ := h
  have heq : r' = r := Option.some.inj (hr'.symm.trans hr)
  exact hstep.pc_ne_ended (heq ▸ hended)

theorem not_runnerStep_of_gone (h : ∀ j < s.runners.length, s.Gone j)
    (hr : s.runners[i]? = some r) : ¬RunnerStep s i r s' := by
  intro hstep
  have hlt := (List.getElem?_eq_some_iff.mp hr).1
  exact (h i hlt).joined.ne hr hstep rfl

theorem Shutdown.runnerStep (h : s.Shutdown) (hr : s.runners[i]? = some r)
    (hstep : RunnerStep s i r s') : s'.Shutdown := by
  have hgone : ∀ j, s.Gone j → s'.Gone j := fun j hj =>
    hj.of_runners (hstep.runners_eq.2 j (hj.joined.ne hr hstep))
  unfold Shutdown at h ⊢
  rw [hstep.caller_eq]
  split at h
  . exact fun j hj => hgone j (h j hj)
  . exact fun j hj => hgone j (h j hj)
  . exact ⟨fun j hj => hgone j (h.1 j hj),
      h.2.of_runners (hstep.runners_eq.2 _ (h.2.ne hr hstep))⟩
  . exact absurd hstep (not_runnerStep_of_gone h hr)
  . exact absurd hstep (not_runnerStep_of_gone h.1 hr)
  . trivial

theorem Shutdown.callerStep (h : s.Shutdown) (hstep : CallerStep onStart s s') : s'.Shutdown := by
  unfold Shutdown at h
  cases hstep with
  | started => trivial
  | refused _ _ hnext => obtain rfl | rfl := hnext <;> trivial
  | pushed _ hnext => obtain rfl | rfl := hnext <;> trivial
  | scheduled => trivial
  | take => trivial
  | place => trivial
  | stopped hcaller hr =>
    rw [hcaller] at h
    intro j hj
    exact h j (Nat.lt_of_lt_of_le hj (List.getElem?_eq_none_iff.mp hr))
  | stop hcaller hr =>
    rw [hcaller] at h
    intro j hj
    exact (h j hj).of_runners (List.getElem?_set_ne (Nat.ne_of_gt hj))
  | join hcaller hr hpc =>
    rw [hcaller] at h
    exact ⟨h, _, hr, hpc⟩
  | drained hcaller hr hqueue =>
    rw [hcaller] at h
    intro j hj
    obtain hj | rfl := Nat.lt_succ_iff_lt_or_eq.mp hj
    . exact h.1 j hj
    . obtain ⟨r, hr', hended⟩ := h.2
      have heq := Option.some.inj (hr'.symm.trans hr)
      exact ⟨r, hr', hended, heq ▸ hqueue⟩
  | drain hcaller hr hqueue =>
    rw [hcaller] at h
    refine ⟨fun j hj => (h.1 j hj).of_runners (List.getElem?_set_ne (Nat.ne_of_gt hj)), ?_⟩
    obtain ⟨r, hr', hended⟩ := h.2
    have heq := Option.some.inj (hr'.symm.trans hr)
    have hlt := (List.getElem?_eq_some_iff.mp hr).1
    exact ⟨_, List.getElem?_set_self hlt, heq ▸ hended⟩
  | passed hcaller =>
    rw [hcaller] at h
    exact h
  | finished hcaller hqueue =>
    rw [hcaller] at h
    exact ⟨h, hqueue⟩
  | takeLast hcaller =>
    rw [hcaller] at h
    exact h
  | finish hcaller =>
    rw [hcaller] at h
    exact h

theorem Shutdown.step {e : Event} (h : s.Shutdown) (hstep : Stepped onStart s e s') :
    s'.Shutdown := by
  cases hstep with
  | schedule => trivial
  | execute => trivial
  | finish => exact fun j hj => absurd hj (Nat.not_lt_zero j)
  | caller hstep => exact h.callerStep hstep
  | runner hr hstep => exact h.runnerStep hr hstep
  | finishSelf => exact h
  | setRunnerAffinity => exact h

-- Nothing is left when `finish` returns.
theorem held_eq_nil (h : s.Shutdown) (hcaller : s.caller = .finished) : s.held = [] := by
  unfold Shutdown at h
  rw [hcaller] at h
  obtain ⟨hgone, hqueue⟩ := h
  unfold held
  rw [hqueue, hcaller, List.nil_append, List.append_eq_nil_iff]
  refine ⟨?_, rfl⟩
  rw [List.flatMap_eq_nil_iff]
  intro r hmem
  obtain ⟨j, hr⟩ := List.mem_iff_getElem?.mp hmem
  obtain ⟨r', hr', hended, hqueue⟩ := hgone j (List.getElem?_eq_some_iff.mp hr).1
  have heq : r' = r := Option.some.inj (hr'.symm.trans hr)
  unfold TaskRunner.held
  rw [← heq, hended, hqueue]
  rfl

end TaskScheduler
end Lax
