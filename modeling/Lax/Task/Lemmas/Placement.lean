import Lax.Task.Impl.Placement
import Lax.Task.Lemmas.Step

/-!
This module contains when a task gets to the runner that it should get to. An id is off by one where
it is used as a position.
-/

namespace Lax
namespace TaskScheduler

variable {s s' : TaskScheduler} {t random i : Nat} {r : TaskRunner}

/-!
### The loop
-/

structure FirstMin (counts : List Nat) (j taskCount : Nat) : Prop where
  getElem?_eq : counts[j]? = some taskCount
  le : ∀ taskCount' ∈ counts, taskCount ≤ taskCount'
  lt : ∀ j' < j, ∀ taskCount', counts[j']? = some taskCount' → taskCount < taskCount'

theorem FirstMin.head {taskCount : Nat} {counts : List Nat} (h : ∀ c ∈ counts, taskCount ≤ c) :
    FirstMin (taskCount :: counts) 0 taskCount := by
  constructor
  . rfl
  . exact List.forall_mem_cons.mpr ⟨Nat.le_refl _, h⟩
  . exact fun j' hj' => absurd hj' (Nat.not_lt_zero j')

theorem FirstMin.cons {counts : List Nat} {j taskCount c : Nat} (h : FirstMin counts j taskCount)
    (hlt : taskCount < c) : FirstMin (c :: counts) (j + 1) taskCount := by
  constructor
  . exact h.getElem?_eq
  . exact List.forall_mem_cons.mpr ⟨Nat.le_of_lt hlt, h.le⟩
  . intro j' hj' taskCount' htaskCount'
    cases j' with
    | zero =>
      injection htaskCount' with heq
      exact heq ▸ hlt
    | succ j' =>
      apply h.lt j' (Nat.lt_of_succ_lt_succ hj')
      exact htaskCount'

-- Either nothing is below the bound, or the id is that of the first least number.
theorem pick_cases (counts : List Nat) (candId minTaskCount i : Nat) :
    (∀ c ∈ counts, minTaskCount ≤ c) ∧ pick candId minTaskCount i counts = candId
      ∨ ∃ j taskCount, taskCount < minTaskCount ∧ FirstMin counts j taskCount
        ∧ pick candId minTaskCount i counts = i + j + 1 := by
  induction counts generalizing candId minTaskCount i with
  | nil => exact Or.inl ⟨fun _ h => absurd h List.not_mem_nil, rfl⟩
  | cons c counts ih =>
    unfold pick
    split
    . next hlt =>
      right
      obtain ⟨hle, hpick⟩ | ⟨j, taskCount, hlt', hfirst, hpick⟩ := ih (i + 1) c (i + 1)
      . exact ⟨0, c, hlt, FirstMin.head hle, hpick⟩
      . refine ⟨j + 1, taskCount, Nat.lt_trans hlt' hlt, hfirst.cons hlt', ?_⟩
        rw [hpick]
        omega
    . next hge =>
      obtain ⟨hle, hpick⟩ | ⟨j, taskCount, hlt, hfirst, hpick⟩ := ih candId minTaskCount (i + 1)
      . left
        exact ⟨List.forall_mem_cons.mpr ⟨Nat.le_of_not_lt hge, hle⟩, hpick⟩
      . right
        refine ⟨j + 1, taskCount, hlt, hfirst.cons (by omega), ?_⟩
        rw [hpick]
        omega

/-!
### The chosen id
-/

theorem shortest_iff_of_firstMin {j taskCount : Nat} (h : FirstMin s.counts j taskCount) :
    s.Shortest i ↔ s.counts[i]? = some taskCount := by
  have hle : ∀ r ∈ s.runners, taskCount ≤ r.queue.length :=
    fun r hr => h.le _ (List.mem_map_of_mem hr)
  obtain ⟨r, hr, hlength⟩ := List.mem_map.mp (List.mem_of_getElem? h.getElem?_eq)
  unfold counts Shortest
  rw [List.getElem?_map, Option.map_eq_some_iff]
  apply exists_congr
  intro r'
  apply and_congr_right
  intro hr'
  constructor
  . intro hshortest
    have hle' := hle r' (List.mem_of_getElem? hr')
    have hge := hshortest r hr
    omega
  . intro heq
    rw [heq]
    exact hle

-- There are only two kinds of ids to be had.
inductive Chosen (s : TaskScheduler) (random : Nat) : Nat → Prop where
  | candidate (hoverlong : s.Overlong) : Chosen s random (random % s.runners.length)
  | least (j : Nat) (hoverlong : ¬s.Overlong) (hshortest : s.Shortest j)
    (hfirst : ∀ i < j, ¬s.Shortest i) : Chosen s random (j + 1)

theorem chosen (s : TaskScheduler) (random : Nat) :
    Chosen s random (getTargetRunnerId random s.counts) := by
  have hlength : s.counts.length = s.runners.length := by
    apply List.length_map
  unfold getTargetRunnerId
  rw [hlength]
  obtain ⟨hle, hpick⟩ | ⟨j, taskCount, hlt, hfirst, hpick⟩ :=
    pick_cases s.counts (random % s.runners.length) maxTaskCount 0
  . rw [hpick]
    apply Chosen.candidate
    exact fun r hr => hle _ (List.mem_map_of_mem hr)
  . rw [hpick, Nat.zero_add]
    apply Chosen.least
    . intro hoverlong
      obtain ⟨r, hr, hlength⟩ := List.mem_map.mp (List.mem_of_getElem? hfirst.getElem?_eq)
      have hle := hoverlong r hr
      omega
    . exact (shortest_iff_of_firstMin hfirst).mpr hfirst.getElem?_eq
    . intro i hi hshortest
      have hcount := (shortest_iff_of_firstMin hfirst).mp hshortest
      exact Nat.lt_irrefl _ (hfirst.lt i hi taskCount hcount)

/-!
### The runner at that position
-/

theorem place_eq (htarget : target (s.tasks t) (getTargetRunnerId random s.counts) = some i)
    (hr : s.runners[i]? = some r) :
    s.place t random
      = some { s.setRunner i { r with queue := r.queue ++ [t] } with
        caller := .scheduling none } := by
  unfold place push
  rw [htarget]
  dsimp only
  rw [hr]

theorem not_placed (htarget : target (s.tasks t) (getTargetRunnerId random s.counts) = none) :
    ¬s.Placed t random := by
  rintro ⟨i, r, -, htarget', -⟩
  rw [htarget] at htarget'
  contradiction

-- A task that is free to go anywhere.
theorem placed_iff_shortest
    (htarget : target (s.tasks t) (getTargetRunnerId random s.counts) = some i)
    (hfree : ¬((s.tasks t).affinity ∧ (s.tasks t).lastRunnerId ≠ 0)) :
    s.Placed t random ↔ s.Shortest i := by
  unfold Placed
  simp only [if_neg hfree]
  constructor
  . rintro ⟨i', r, -, htarget', -, hshortest⟩
    rw [htarget] at htarget'
    injection htarget' with heq
    exact heq ▸ hshortest
  . intro hshortest
    obtain ⟨r, hr, -⟩ := id hshortest
    exact ⟨i, r, hr, htarget, place_eq htarget hr, hshortest⟩

theorem placed_iff_bound (hids : ∀ i r, s.runners[i]? = some r → r.id = i + 1)
    (haffinity : (s.tasks t).affinity = true) (hlast : (s.tasks t).lastRunnerId ≠ 0) :
    s.Placed t random ↔ (s.tasks t).lastRunnerId ≤ s.runners.length := by
  have htarget : target (s.tasks t) (getTargetRunnerId random s.counts)
      = some ((s.tasks t).lastRunnerId - 1) := by
    unfold target
    rw [if_pos haffinity, if_neg hlast, if_neg hlast]
  unfold Placed
  simp only [if_pos (And.intro haffinity hlast)]
  constructor
  . rintro ⟨i, r, hr, -, -, hid⟩
    have hlt := (List.getElem?_eq_some_iff.mp hr).1
    rw [← hid, hids i r hr]
    exact hlt
  . intro hle
    have hlt : (s.tasks t).lastRunnerId - 1 < s.runners.length := by omega
    have hr := List.getElem?_eq_getElem hlt
    refine ⟨_, _, hr, htarget, place_eq htarget hr, ?_⟩
    rw [hids _ _ hr]
    omega

theorem nextAsShort_iff (hshortest : s.Shortest i) (hfirst : ∀ j < i, ¬s.Shortest j) :
    s.NextAsShort ↔ s.Shortest (i + 1) := by
  constructor
  . rintro ⟨i', hshortest', hfirst', hnext⟩
    have heq : i' = i := by
      apply Nat.le_antisymm
      . apply Nat.le_of_not_lt
        exact fun hlt => hfirst' i hlt hshortest
      . apply Nat.le_of_not_lt
        exact fun hlt => hfirst i' hlt hshortest'
    exact heq ▸ hnext
  . exact fun hnext => ⟨i, hshortest, hfirst, hnext⟩

theorem placed_iff_unbound (haffinity : (s.tasks t).affinity = true)
    (hlast : (s.tasks t).lastRunnerId = 0) :
    s.Placed t random
      ↔ (s.Overlong → random % s.runners.length ≠ 0
        ∧ s.Shortest (random % s.runners.length - 1)) := by
  have hfree : ¬((s.tasks t).affinity ∧ (s.tasks t).lastRunnerId ≠ 0) := fun h => h.2 hlast
  have htarget : ∀ id, target (s.tasks t) id = if id = 0 then none else some (id - 1) := by
    intro id
    unfold target
    rw [if_pos haffinity, if_pos hlast]
  have hchosen := chosen s random
  generalize hid : getTargetRunnerId random s.counts = id at hchosen
  cases hchosen with
  | candidate hoverlong =>
    rw [forall_prop_of_true hoverlong]
    by_cases hzero : random % s.runners.length = 0
    . apply iff_of_false
      . apply not_placed
        rw [hid, htarget, if_pos hzero]
      . exact fun h => h.1 hzero
    . rw [and_iff_right hzero]
      apply placed_iff_shortest _ hfree
      rw [hid, htarget, if_neg hzero]
  | least j hoverlong hshortest =>
    apply iff_of_true
    . apply (placed_iff_shortest _ hfree).mpr hshortest
      rw [hid, htarget, if_neg (Nat.succ_ne_zero j)]
      rfl
    . exact fun h => absurd h hoverlong

theorem placed_iff_free (haffinity : (s.tasks t).affinity = false) :
    s.Placed t random
      ↔ (s.Overlong → s.Shortest (random % s.runners.length)) ∧ (¬s.Overlong → s.NextAsShort) := by
  have hnot : ¬(s.tasks t).affinity = true := Bool.not_eq_true _ ▸ haffinity
  have hfree : ¬((s.tasks t).affinity ∧ (s.tasks t).lastRunnerId ≠ 0) := fun h => hnot h.1
  have htarget : ∀ id, target (s.tasks t) id = some id := by
    intro id
    unfold target
    rw [if_neg hnot]
  have hchosen := chosen s random
  generalize hid : getTargetRunnerId random s.counts = id at hchosen
  have hplaced := @placed_iff_shortest s t random id (by rw [hid, htarget]) hfree
  rw [hplaced]
  cases hchosen with
  | candidate hoverlong =>
    rw [forall_prop_of_true hoverlong, and_iff_left]
    exact fun h => absurd hoverlong h
  | least j hoverlong hshortest hfirst =>
    rw [forall_prop_of_true hoverlong, nextAsShort_iff hshortest hfirst, and_iff_right]
    exact fun h => absurd h hoverlong

/-!
### The ids that `start` gives
-/

def Numbered (s : TaskScheduler) : Prop :=
  ∀ i r, s.runners[i]? = some r → r.id = i + 1

theorem numbered_start (cfg : Config) (tasks : Nat → Task) : (start cfg tasks).Numbered := by
  intro i r hr
  have hr' : ((List.range cfg.runnerCount).map fun i =>
      ({ id := i + 1, queue := [], stop := false, pc := .check } : TaskRunner))[i]? = some r := hr
  rw [List.getElem?_map, Option.map_eq_some_iff] at hr'
  obtain ⟨j, hj, rfl⟩ := hr'
  have heq := (List.getElem?_eq_some_iff.mp hj).2
  rw [List.getElem_range] at heq
  rw [heq]

theorem Numbered.set (h : s.Numbered) (hr : s.runners[i]? = some r) {r' : TaskRunner}
    (hrunners : s'.runners = s.runners.set i r') (hid : r'.id = r.id) : s'.Numbered := by
  intro j r'' hr''
  obtain hr'' | ⟨rfl, rfl⟩ := runners_cases hr hrunners hr''
  . exact h j r'' hr''
  . rw [hid, h j r hr]

theorem RunnerStep.numbered (h : RunnerStep s i r s') (hr : s.runners[i]? = some r)
    (hnumbered : s.Numbered) : s'.Numbered := by
  cases h with
  | throws => exact hnumbered
  | _ => exact hnumbered.set hr rfl rfl

theorem CallerStep.numbered {onStart : Nat → Bool} (h : CallerStep onStart s s')
    (hnumbered : s.Numbered) : s'.Numbered := by
  cases h with
  | started | refused =>
    intro i r hr
    rw [runners_startTask] at hr
    exact hnumbered i r hr
  | place hcaller hr => exact hnumbered.set hr rfl rfl
  | stop hcaller hr => exact hnumbered.set hr rfl rfl
  | drain hcaller hr => exact hnumbered.set hr rfl rfl
  | _ => exact hnumbered

theorem Stepped.numbered {onStart : Nat → Bool} {e : Event} (h : Stepped onStart s e s')
    (hnumbered : s.Numbered) : s'.Numbered := by
  cases h with
  | caller hstep => exact hstep.numbered hnumbered
  | runner hr hstep => exact hstep.numbered hr hnumbered
  | _ => exact hnumbered

theorem numbered_of_reachable {onStart : Nat → Bool} {cfg : Config} {tasks : Nat → Task}
    (h : (machine onStart cfg tasks).Reachable s) : s.Numbered := by
  apply Machine.inv_of_reachable Numbered _ _ h
  . apply numbered_start
  . exact fun s e s' hnumbered hstep => (stepped hstep).2.numbered hnumbered

/--
A bound task gets to its runner if there is one with that id, and one that is not bound yet gets to
one with the least to do. A task without affinity gets to the runner after that one.
-/
theorem placed_iff (s : TaskScheduler) (hids : s.Numbered) (t random : Nat) :
    s.Placed t random ↔ s.Fits t random := by
  unfold Fits
  dsimp only
  cases haffinity : (s.tasks t).affinity with
  | true =>
    rw [if_pos rfl]
    by_cases hlast : (s.tasks t).lastRunnerId = 0
    . rw [if_neg (not_not_intro hlast)]
      apply placed_iff_unbound haffinity hlast
    . rw [if_pos hlast]
      apply placed_iff_bound hids haffinity hlast
  | false =>
    rw [if_neg Bool.false_ne_true]
    apply placed_iff_free haffinity

def runnersConfig (n : Nat) : Config where
  runnerCount := n
  singleLoopRunLimit := 0
  startTaskWhenScheduleCalled := true
  runScheduleWhenScheduleCalled := true

def runnersMachine (n : Nat) : Machine TaskScheduler Event :=
  machine (fun _ => true) (runnersConfig n) fun _ => Task.ctor

-- The task is in the hands of `run_schedule`.
def scheduling (t : Nat) : List Event :=
  [.schedule t, .caller 0, .caller 0, .caller 0]

theorem placed_iff_setRunnerAffinity :
    ∃ s, (runnersMachine 2).run (runnersMachine 2).init (.setRunnerAffinity 7 :: scheduling 7) = some s
      ∧ s.Placed 7 5 := by
  refine ⟨_, rfl, ?_⟩
  rw [placed_iff]
  . intro hoverlong
    have hle := hoverlong ⟨1, [], false, .check⟩ List.mem_cons_self
    contradiction
  . apply numbered_start (runnersConfig 2) fun _ => Task.ctor

-- There is no runner after the only one.
theorem exists_not_placed :
    ∃ s, (runnersMachine 1).run (runnersMachine 1).init (scheduling 7) = some s
      ∧ s.caller = .scheduling (some 7) ∧ (s.tasks 7).state = .ready ∧ ¬s.Placed 7 0 := by
  refine ⟨_, rfl, rfl, rfl, ?_⟩
  rintro ⟨i, r, hr, htarget, -⟩
  injection htarget with htarget
  subst htarget
  contradiction

end TaskScheduler
end Lax
