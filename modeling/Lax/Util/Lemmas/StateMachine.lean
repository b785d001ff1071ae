import Mathlib.Algebra.GroupWithZero.Nat
import Mathlib.Data.List.Chain
import Mathlib.Data.List.Induction
import Lax.Util.Impl.StateMachine

/-!
This module contains which states of a hierarchical state machine are active, and what a transition
and `execute` do with them.
-/

namespace Lax
namespace StateTree

variable {κ : Type} [LinearOrder κ] {t : StateTree κ} {i j c p : Nat} {target : κ}

/-!
### Searching the tree
-/

theorem has_iff_child :
    t.has i target = true
      ↔
    t.key i = target ∨ ∃ c, t.parent c = some i ∧ t.has c target = true := by
  conv =>
    lhs
    unfold has
  simp only [Bool.or_eq_true, decide_eq_true_eq, List.any_eq_true, List.mem_attach, true_and,
    Subtype.exists, t.mem_childs, exists_prop]

theorem has_iff : t.has i target = true ↔ ∃ j, i ∈ t.path j ∧ t.key j = target := by
  generalize hn : t.size - i = n
  induction n using Nat.strongRecOn generalizing i with
  | _ n ih =>
    subst hn
    have hchild : ∀ c, t.parent c = some i → (t.has c target = true
        ↔ ∃ j, c ∈ t.path j ∧ t.key j = target) := fun c hc =>
      ih _ (t.sub_lt_of_mem_childs ((t.mem_childs i c).mpr hc)) rfl
    rw [has_iff_child]
    constructor
    . rintro (hkey | ⟨c, hc, hhas⟩)
      . exact ⟨i, t.mem_path_self i, hkey⟩
      . obtain ⟨j, hj, hkey⟩ := (hchild c hc).mp hhas
        exact ⟨j, NumberedTree.mem_path_trans (NumberedTree.parent_mem_path hc) hj, hkey⟩
    . rintro ⟨j, hj, hkey⟩
      by_cases hne : i = j
      . exact .inl (hne ▸ hkey)
      . obtain ⟨c, hc, hmem⟩ := NumberedTree.exists_child_of_mem_path hj hne
        exact .inr ⟨c, hc, (hchild c hc).mpr ⟨j, hmem, hkey⟩⟩

theorem has_of_mem_path (h : i ∈ t.path j) (hhas : t.has j target = true) :
    t.has i target = true := by
  obtain ⟨k, hk, hkey⟩ := has_iff.mp hhas
  exact has_iff.mpr ⟨k, NumberedTree.mem_path_trans h hk, hkey⟩

theorem has_zero_iff : t.has 0 target = true ↔ ∃ j < t.size, t.key j = target := by
  rw [has_iff]
  constructor
  . rintro ⟨j, hj, hkey⟩
    exact ⟨j, NumberedTree.lt_size_of_mem_path hj t.size_pos, hkey⟩
  . rintro ⟨j, hj, hkey⟩
    exact ⟨j, NumberedTree.zero_mem_path hj, hkey⟩

/-!
### Transition paths
-/

-- The way down to the last of these states.
def entering : List Nat → List (Code × Nat)
  | [] => []
  | [i] => [(.target, i)]
  | i :: j :: rest => (.enter, i) :: entering (j :: rest)

theorem getTransitionPath_of_has (active : Nat → Bool) (hhas : t.has i target = true)
    (hactive : ∀ j, t.has j target = true → i ∈ t.path j → j ≠ i → active j = false) :
    ∃ j rest, t.key j = target ∧ t.path j = t.path i ++ rest
      ∧ t.getTransitionPath active i target
        = some (if active i then (.noop, i) :: entering rest else entering (i :: rest)) := by
  generalize hn : t.size - i = n
  induction n using Nat.strongRecOn generalizing i with
  | _ n ih =>
    subst hn
    unfold getTransitionPath
    rw [dif_pos hhas]
    by_cases hkey : t.key i = target
    . rw [if_pos hkey]
      refine ⟨i, [], hkey, (List.append_nil _).symm, ?_⟩
      cases active i <;> rfl
    . rw [if_neg hkey]
      split
      . next hfind =>
        obtain ⟨c, hc, hchild⟩ := (has_iff_child.mp hhas).resolve_left hkey
        have hnone := List.find?_eq_none.mp hfind c ((t.mem_childs i c).mpr hc)
        exact absurd hchild hnone
      . next c hfind =>
        have hmem := List.mem_of_find?_eq_some hfind
        have hchild := List.find?_some hfind
        have hparent := (t.mem_childs i c).mp hmem
        have hi : i ∈ t.path c := NumberedTree.parent_mem_path hparent
        have hlt := t.parent_lt c i hparent
        have hinactive : active c = false := hactive c hchild hi (Nat.ne_of_gt hlt)
        obtain ⟨j, rest, hj, hpath, hrest⟩ := ih _ (t.sub_lt_of_mem_childs hmem) hchild
          (fun j hj hmem hne => by
            have := NumberedTree.le_of_mem_path hmem
            exact hactive j hj (NumberedTree.mem_path_trans hi hmem) (by omega)) rfl
        refine ⟨j, c :: rest, hj, ?_, ?_⟩
        . rw [hpath, NumberedTree.path_of_some hparent, List.append_assoc, List.singleton_append]
        . rw [hrest, hinactive]
          cases active i <;> rfl

theorem getTransitionPath_of_parent (active : Nat → Bool) (hhas : t.has i target ≠ true)
    (hparent : t.parent i = some p) :
    t.getTransitionPath active i target
      =
    (t.getTransitionPath active p target).map fun path => (.exit, i) :: path := by
  conv =>
    lhs
    unfold getTransitionPath
  rw [dif_neg hhas]
  split
  . next hnone =>
    rw [hparent] at hnone
    contradiction
  . next p' hp' =>
    rw [hparent] at hp'
    injection hp' with hp'
    rw [hp']

-- One step up: the target is still not below any of the states that have been left.
theorem not_has_of_parent {current : Nat} (hi : i ∈ t.path current) (hparent : t.parent i = some p)
    (hhas : t.has i target ≠ true)
    (hbelow : ∀ j ∈ t.path current, i ∈ t.path j → j ≠ i → t.has j target = false) :
    ∀ j ∈ t.path current, p ∈ t.path j → j ≠ p → t.has j target = false := by
  intro j hj hmem hne
  obtain hij | hji := NumberedTree.mem_path_total hi hj
  . by_cases heq : j = i
    . exact heq ▸ Bool.eq_false_iff.mpr hhas
    . exact hbelow j hj hij heq
  . rw [NumberedTree.mem_path_iff hparent] at hji
    obtain hji | rfl := hji
    . have := NumberedTree.le_of_mem_path hji
      have := NumberedTree.le_of_mem_path hmem
      omega
    . exact Bool.eq_false_iff.mpr hhas

-- From below `i` nothing of the target is active: the way goes up to the first state that has the
-- target below it.
theorem getTransitionPath_of_mem {active : Nat → Bool} {current : Nat}
    (hhas : t.has 0 target = true) (hcurrent : current < t.size)
    (hactive : ∀ j, active j = true ↔ j ∈ t.path current) (hi : i ∈ t.path current)
    (hbelow : ∀ j ∈ t.path current, i ∈ t.path j → j ≠ i → t.has j target = false) :
    ∃ a j left entered, t.path i = t.path a ++ left ∧ t.path j = t.path a ++ entered
      ∧ t.key j = target ∧ (∀ k ∈ left, k ∉ t.path j)
      ∧ t.getTransitionPath active i target
        = some (left.reverse.map (fun k => (.exit, k)) ++ (.noop, a) :: entering entered) := by
  induction i using Nat.strongRecOn with
  | _ i ih =>
    by_cases hhere : t.has i target = true
    . have hinactive : ∀ j, t.has j target = true → i ∈ t.path j → j ≠ i → active j = false := by
        intro j hj hmem hne
        rw [Bool.eq_false_iff]
        intro hjactive
        rw [hbelow j ((hactive j).mp hjactive) hmem hne] at hj
        contradiction
      obtain ⟨j, rest, hkey, hpath, heq⟩ := getTransitionPath_of_has active hhere hinactive
      rw [(hactive i).mpr hi, if_pos rfl] at heq
      exact ⟨i, j, [], rest, (List.append_nil _).symm, hpath, hkey,
        fun _ hk => absurd hk List.not_mem_nil, heq⟩
    . obtain ⟨hnone, -⟩ | ⟨p, hparent, hlt, hpath⟩ := t.path_cases i
      . have hlt := Nat.lt_of_le_of_lt (NumberedTree.le_of_mem_path hi) hcurrent
        exact absurd (NumberedTree.eq_zero_of_parent hlt hnone ▸ hhas) hhere
      . have hp := NumberedTree.mem_path_trans (NumberedTree.parent_mem_path hparent) hi
        obtain ⟨a, j, left, entered, hleft, hentered, hkey, hnot, heq⟩ :=
          ih p hlt hp (not_has_of_parent hi hparent hhere hbelow)
        refine ⟨a, j, left ++ [i], entered, ?_, hentered, hkey, ?_, ?_⟩
        . rw [hpath, hleft, List.append_assoc]
        . intro k hk
          obtain hk | hk := List.mem_append.mp hk
          . exact hnot k hk
          . rw [List.mem_singleton] at hk
            exact fun hmem => hhere (has_iff.mpr ⟨j, hk ▸ hmem, hkey⟩)
        . rw [getTransitionPath_of_parent active hhere hparent, heq]
          simp

theorem getTransitionPath_of_not_has {active : Nat → Bool} (hi : i < t.size)
    (hroot : t.has 0 target ≠ true) : t.getTransitionPath active i target = none := by
  induction i using Nat.strongRecOn with
  | _ i ih =>
    have hnot : t.has i target ≠ true := fun hhas =>
      hroot (has_of_mem_path (NumberedTree.zero_mem_path hi) hhas)
    obtain ⟨hnone, -⟩ | ⟨p, hparent, hlt, -⟩ := t.path_cases i
    . unfold getTransitionPath
      rw [dif_neg hnot]
      split
      . rfl
      . next p hparent =>
        rw [hnone] at hparent
        contradiction
    . rw [getTransitionPath_of_parent active hnot hparent, ih p hlt (Nat.lt_trans hlt hi)]
      rfl

end StateTree

namespace StateMachine

variable {κ ω : Type} {hooks : ω → Call → ω × List κ} {s s' : StateMachine κ ω} {i j c p : Nat}

/-!
### Which states are active
-/

-- The active states are those from the root to `c`, each linked to the next one.
structure At (s : StateMachine κ ω) (c : Nat) : Prop where
  active_iff : ∀ i, s.active i = true ↔ i ∈ s.tree.path c
  activeChild_iff : ∀ i j, s.activeChild i = some j ↔ s.tree.parent j = some i ∧ j ∈ s.tree.path c

theorem enter_eq (hparent : s.tree.parent c = some p) :
    s.enter hooks c
      =
    call hooks {
      s with
      active := Function.update s.active c true
      activeChild := Function.update s.activeChild p (some c)
    } (.onEnter c) := by
  unfold enter
  dsimp only
  rw [hparent]
  rfl

theorem At.enter (h : s.At p) (hparent : s.tree.parent c = some p) :
    (s.enter hooks c).At c := by
  have hlt := s.tree.parent_lt c p hparent
  rw [enter_eq hparent]
  constructor
  . intro i
    change Function.update s.active c true i = true ↔ i ∈ s.tree.path c
    rw [NumberedTree.mem_path_iff hparent, Function.update_apply]
    split
    . next heq => simp [heq]
    . next hne => rw [h.active_iff, or_iff_left hne]
  . intro i j
    change Function.update s.activeChild p (some c) i = some j
      ↔ s.tree.parent j = some i ∧ j ∈ s.tree.path c
    rw [NumberedTree.mem_path_iff hparent, Function.update_apply]
    split
    . next heq =>
      subst heq
      constructor
      . intro hj
        injection hj with hj
        exact hj ▸ ⟨hparent, .inr rfl⟩
      . rintro ⟨hj, hmem | rfl⟩
        . have := NumberedTree.le_of_mem_path hmem
          have := s.tree.parent_lt j i hj
          omega
        . rfl
    . next hne =>
      rw [h.activeChild_iff]
      constructor
      . exact fun hj => ⟨hj.1, .inl hj.2⟩
      . rintro ⟨hj, hmem | rfl⟩
        . exact ⟨hj, hmem⟩
        . rw [hparent] at hj
          injection hj with hj
          exact absurd hj.symm hne

theorem exit_eq (h : s.At c) (hparent : s.tree.parent c = some p) :
    s.exit hooks c
      =
    call hooks {
      s with
      active := Function.update s.active c false
      activeChild := Function.update s.activeChild p none
    } (.onExit c) := by
  have hlink := (h.activeChild_iff p c).mpr ⟨hparent, s.tree.mem_path_self c⟩
  unfold exit
  dsimp only
  rw [hparent, Option.filter_some, if_pos (by simp [hlink])]
  rfl

theorem At.exit (h : s.At c) (hparent : s.tree.parent c = some p) : (s.exit hooks c).At p := by
  have hlt := s.tree.parent_lt c p hparent
  rw [exit_eq h hparent]
  constructor
  . intro i
    change Function.update s.active c false i = true ↔ i ∈ s.tree.path p
    rw [Function.update_apply]
    split
    . next heq =>
      apply iff_of_false Bool.false_ne_true
      intro hmem
      have := NumberedTree.le_of_mem_path hmem
      omega
    . next hne => rw [h.active_iff, NumberedTree.mem_path_iff hparent, or_iff_left hne]
  . intro i j
    change Function.update s.activeChild p none i = some j
      ↔ s.tree.parent j = some i ∧ j ∈ s.tree.path p
    rw [Function.update_apply]
    split
    . next heq =>
      subst heq
      apply iff_of_false (fun h => nomatch h)
      rintro ⟨hj, hmem⟩
      have := NumberedTree.le_of_mem_path hmem
      have := s.tree.parent_lt j i hj
      omega
    . next hne =>
      rw [h.activeChild_iff, NumberedTree.mem_path_iff hparent]
      constructor
      . rintro ⟨hj, hmem | rfl⟩
        . exact ⟨hj, hmem⟩
        . rw [hparent] at hj
          injection hj with hj
          exact absurd hj.symm hne
      . exact fun hj => ⟨hj.1, .inl hj.2⟩

/-!
### Replaying a path
-/

structure Performed (s s' : StateMachine κ ω) (calls : List Call) : Prop where
  tree_eq : s'.tree = s.tree
  executing_eq : s'.executing = s.executing
  calls_eq : s'.calls = s.calls ++ calls

theorem Performed.refl (s : StateMachine κ ω) : Performed s s [] :=
  ⟨rfl, rfl, (List.append_nil _).symm⟩

theorem Performed.trans {s'' : StateMachine κ ω} {calls calls' : List Call}
    (h : Performed s s' calls) (h' : Performed s' s'' calls') :
    Performed s s'' (calls ++ calls') where
  tree_eq := h'.tree_eq.trans h.tree_eq
  executing_eq := h'.executing_eq.trans h.executing_eq
  calls_eq := by rw [h'.calls_eq, h.calls_eq, List.append_assoc]

theorem performed_enter (s : StateMachine κ ω) (c : Nat) :
    Performed s (s.enter hooks c) [.onEnter c] := by
  unfold enter setActiveChild
  dsimp only
  split <;> exact ⟨rfl, rfl, rfl⟩

theorem performed_exit (s : StateMachine κ ω) (c : Nat) :
    Performed s (s.exit hooks c) [.onExit c] := by
  unfold exit setActiveChild
  dsimp only
  split <;> exact ⟨rfl, rfl, rfl⟩

theorem At.congr (h : s.At c) (htree : s'.tree = s.tree) (hactive : s'.active = s.active)
    (hactiveChild : s'.activeChild = s.activeChild) : s'.At c := by
  constructor
  . rw [htree, hactive]
    exact h.active_iff
  . rw [htree, hactiveChild]
    exact h.activeChild_iff

theorem replay_exits (hooks : ω → Call → ω × List κ) {a : Nat} {left : List Nat} (h : s.At c)
    (hpath : s.tree.path c = s.tree.path a ++ left) :
    ((left.reverse.map fun k => (StateTree.Code.exit, k)).foldl (replay hooks) s).At a
      ∧ Performed s ((left.reverse.map fun k => (StateTree.Code.exit, k)).foldl (replay hooks) s)
        (left.reverse.map .onExit) := by
  induction left using List.reverseRecOn generalizing c s with
  | nil =>
    rw [List.append_nil] at hpath
    exact ⟨NumberedTree.path_injective hpath ▸ h, .refl s⟩
  | append_singleton left k ih =>
    obtain ⟨hk, p, hparent, hrest⟩ := NumberedTree.parent_of_path_append hpath
    subst hk
    have hperformed : Performed s (s.exit hooks k) [.onExit k] := performed_exit s k
    have hrest' : (s.exit hooks k).tree.path p = (s.exit hooks k).tree.path a ++ left := by
      rw [hperformed.tree_eq, hrest]
    obtain ⟨hat, hrun⟩ := ih (h.exit hparent) hrest'
    rw [List.reverse_append, List.reverse_singleton, List.singleton_append, List.map_cons,
      List.map_cons]
    exact ⟨hat, hperformed.trans hrun⟩

theorem replay_entering (hooks : ω → Call → ω × List κ) {a : Nat} {entered : List Nat} (h : s.At a)
    (hpath : s.tree.path j = s.tree.path a ++ entered) (hcurrent : entered = [] → s.current = j) :
    ((StateTree.entering entered).foldl (replay hooks) s).At j
      ∧ ((StateTree.entering entered).foldl (replay hooks) s).current = j
      ∧ Performed s ((StateTree.entering entered).foldl (replay hooks) s)
        (entered.map .onEnter) := by
  induction entered generalizing a s with
  | nil =>
    rw [List.append_nil] at hpath
    exact ⟨NumberedTree.path_injective hpath ▸ h, hcurrent rfl, .refl s⟩
  | cons k rest ih =>
    obtain ⟨hparent, hrest⟩ := NumberedTree.parent_of_path hpath
    have hperformed : Performed s (s.enter hooks k) [.onEnter k] := performed_enter s k
    have hat : (s.enter hooks k).At k := h.enter hparent
    cases rest with
    | nil =>
      rw [List.append_nil] at hrest
      have hj := NumberedTree.path_injective hrest
      subst hj
      refine ⟨hat.congr rfl rfl rfl, rfl, ?_⟩
      exact ⟨hperformed.tree_eq, hperformed.executing_eq, hperformed.calls_eq⟩
    | cons k' rest =>
      have hrest' : (s.enter hooks k).tree.path j
          = (s.enter hooks k).tree.path k ++ k' :: rest := by
        rw [hperformed.tree_eq, hrest]
      obtain ⟨hat', hcurrent', hrun⟩ := ih hat hrest' (fun h => nomatch h)
      exact ⟨hat', hcurrent', hperformed.trans hrun⟩

-- Up to `a`, which is above both ends, and down from there.
theorem replay_path (hooks : ω → Call → ω × List κ) {a : Nat} {left entered : List Nat}
    (h : s.At c) (hleft : s.tree.path c = s.tree.path a ++ left)
    (hentered : s.tree.path j = s.tree.path a ++ entered) :
    let path := left.reverse.map (fun k => (StateTree.Code.exit, k))
      ++ (.noop, a) :: StateTree.entering entered
    (path.foldl (replay hooks) s).At j ∧ (path.foldl (replay hooks) s).current = j
      ∧ Performed s (path.foldl (replay hooks) s)
        (left.reverse.map .onExit ++ entered.map .onEnter) := by
  intro path
  obtain ⟨hexited, hexits⟩ := replay_exits hooks h hleft
  have hpath : path.foldl (replay hooks) s = (StateTree.entering entered).foldl (replay hooks)
      { (left.reverse.map fun k => (StateTree.Code.exit, k)).foldl (replay hooks) s with
        current := a } := by
    rw [List.foldl_append, List.foldl_cons]
    rfl
  rw [hpath]
  generalize (left.reverse.map fun k => (StateTree.Code.exit, k)).foldl (replay hooks) s = mid
    at hexited hexits
  have hnoop : ({ mid with current := a } : StateMachine κ ω).At a := hexited.congr rfl rfl rfl
  have hdown : mid.tree.path j = mid.tree.path a ++ entered := by
    rw [hexits.tree_eq, hentered]
  have hsame : entered = [] → a = j := by
    intro hnil
    rw [hnil, List.append_nil] at hentered
    exact (NumberedTree.path_injective hentered).symm
  obtain ⟨hat, hcurrent, henters⟩ := replay_entering hooks hnoop hdown hsame
  refine ⟨hat, hcurrent, hexits.trans ?_⟩
  exact ⟨henters.tree_eq, henters.executing_eq, henters.calls_eq⟩

/-!
### `execute`
-/

theorem executeState_of_none {fuel : Nat} (hactive : s.active i = true)
    (hlink : s.activeChild i = none) :
    executeState hooks (fuel + 1) s i = s.call hooks (.onExecute i) := by
  have hlink' : (s.call hooks (.onExecute i)).activeChild i = none := hlink
  unfold executeState
  rw [if_pos hactive]
  dsimp only
  rw [hlink']

theorem executeState_of_some {fuel : Nat} (hactive : s.active i = true)
    (hlink : s.activeChild i = some c) :
    executeState hooks (fuel + 1) s i = executeState hooks fuel (s.call hooks (.onExecute i)) c := by
  have hlink' : (s.call hooks (.onExecute i)).activeChild i = some c := hlink
  conv =>
    lhs
    unfold executeState
  rw [if_pos hactive]
  dsimp only
  rw [hlink']

theorem At.activeChild_self (h : s.At c) : s.activeChild c = none := by
  cases hlink : s.activeChild c with
  | none => rfl
  | some j =>
    obtain ⟨hparent, hmem⟩ := (h.activeChild_iff c j).mp hlink
    have := s.tree.parent_lt j c hparent
    have := NumberedTree.le_of_mem_path hmem
    omega

theorem execute_states (hooks : ω → Call → ω × List κ) {rest : List Nat} {fuel : Nat} (h : s.At c)
    (hpath : s.tree.path c = s.tree.path i ++ rest) (hfuel : rest.length < fuel) :
    (executeState hooks fuel s i).At c ∧ (executeState hooks fuel s i).current = s.current
      ∧ Performed s (executeState hooks fuel s i) ((i :: rest).map .onExecute) := by
  induction rest generalizing i s fuel with
  | nil =>
    obtain ⟨fuel, rfl⟩ := Nat.exists_eq_add_one_of_ne_zero (Nat.ne_zero_of_lt hfuel)
    rw [List.append_nil] at hpath
    have hi := NumberedTree.path_injective hpath
    subst hi
    have hactive := (h.active_iff c).mpr (s.tree.mem_path_self c)
    rw [executeState_of_none hactive h.activeChild_self]
    exact ⟨h.congr rfl rfl rfl, rfl, rfl, rfl, rfl⟩
  | cons k rest ih =>
    obtain ⟨fuel, rfl⟩ := Nat.exists_eq_add_one_of_ne_zero (Nat.ne_zero_of_lt hfuel)
    obtain ⟨hparent, hrest⟩ := NumberedTree.parent_of_path hpath
    have hi : i ∈ s.tree.path c := hpath ▸ List.mem_append_left _ (s.tree.mem_path_self i)
    have hk : k ∈ s.tree.path c := hrest ▸ List.mem_append_left _ (s.tree.mem_path_self k)
    have hlink := (h.activeChild_iff i k).mpr ⟨hparent, hk⟩
    rw [executeState_of_some ((h.active_iff i).mpr hi) hlink]
    have hcall : (s.call hooks (.onExecute i)).At c := h.congr rfl rfl rfl
    have hperformed : Performed s (s.call hooks (.onExecute i)) [.onExecute i] := ⟨rfl, rfl, rfl⟩
    obtain ⟨hat, hcurrent, hrun⟩ := ih hcall hrest (Nat.lt_of_succ_lt_succ hfuel)
    exact ⟨hat, hcurrent, hperformed.trans hrun⟩

/-!
### One transition
-/

-- `s'` is after a transition to `target`: from the old current state all states below the lowest
-- common ancestor are left, the innermost first, and all those down to the new one entered.
structure Transition (s s' : StateMachine κ ω) (target : κ) : Prop where
  tree_eq : s'.tree = s.tree
  key_eq : s.tree.key s'.current = target
  calls_eq : ∃ above left entered : List Nat,
    s.tree.path s.current = above ++ left ∧ s.tree.path s'.current = above ++ entered
      ∧ above ≠ [] ∧ (∀ i ∈ left, i ∉ entered)
      ∧ s'.calls = s.calls ++ (left.reverse.map .onExit ++ entered.map .onEnter)

/-!
### Between transitions
-/

structure Configured (s : StateMachine κ ω) : Prop where
  states : s.At s.current
  current_lt : s.current < s.tree.size

theorem configured_ctor [Zero κ] (world : ω) : (ctor hooks world).Configured := by
  refine ⟨⟨?_, ?_⟩, Nat.one_pos⟩
  . intro i
    change Function.update (fun _ => false) 0 true i = true ↔ i ∈ NumberedTree.root.path 0
    rw [NumberedTree.path_zero, List.mem_singleton, Function.update_apply]
    split
    . next heq => exact iff_of_true rfl heq
    . next hne => exact iff_of_false Bool.false_ne_true hne
  . intro i j
    exact iff_of_false (fun h => nomatch h) (fun h => nomatch h.1)

theorem Configured.congr (h : s.Configured) (hstates : s'.tree = s.tree ∧ s'.active = s.active
    ∧ s'.activeChild = s.activeChild ∧ s'.current = s.current) : s'.Configured := by
  obtain ⟨htree, hactive, hactiveChild, hcurrent⟩ := hstates
  constructor
  . rw [hcurrent]
    exact h.states.congr htree hactive hactiveChild
  . rw [hcurrent, htree]
    exact h.current_lt

theorem Configured.execute (h : s.Configured) :
    (executeState hooks s.tree.size s 0).Configured
      ∧ Performed s (executeState hooks s.tree.size s 0)
        ((s.tree.path s.current).map .onExecute) := by
  obtain ⟨rest, hrest⟩ := NumberedTree.path_eq_cons h.current_lt
  have hpath : s.tree.path s.current = s.tree.path 0 ++ rest := by
    rw [hrest, NumberedTree.path_zero, List.singleton_append]
  have hlength := s.tree.length_path_le s.current
  rw [hrest, List.length_cons] at hlength
  have hcurrent := h.current_lt
  have hfuel : rest.length < s.tree.size := by omega
  obtain ⟨hat, hsame, hperformed⟩ := execute_states hooks h.states hpath hfuel
  rw [hrest]
  refine ⟨⟨hsame.symm ▸ hat, ?_⟩, hperformed⟩
  rw [hsame, hperformed.tree_eq]
  exact hcurrent

-- The active states are those from the root to the current one, and the links of the active
-- children lead from each of them to the next one.
structure Configuration (s : StateMachine κ ω) : Prop where
  active_iff : ∀ i, s.active i = true ↔ i ∈ s.tree.path s.current
  head?_eq : (s.tree.path s.current).head? = some 0
  getLast?_eq : (s.tree.path s.current).getLast? = some s.current
  links : (s.tree.path s.current).IsChain fun i j => s.activeChild i = some j
  activeChild_current : s.activeChild s.current = none

theorem At.links (h : s.At c) (hi : i ∈ s.tree.path c) :
    (s.tree.path i).IsChain fun i j => s.activeChild i = some j := by
  induction i using Nat.strongRecOn with
  | _ i ih =>
    obtain ⟨-, hpath⟩ | ⟨p, hparent, hlt, hpath⟩ := s.tree.path_cases i
    . rw [hpath]
      exact List.IsChain.singleton i
    . have hp : p ∈ s.tree.path i := NumberedTree.parent_mem_path hparent
      rw [hpath, List.isChain_append]
      refine ⟨ih p hlt (NumberedTree.mem_path_trans hp hi), List.IsChain.singleton i, ?_⟩
      intro x hx y hy
      rw [NumberedTree.getLast?_path] at hx
      cases hx
      cases hy
      exact (h.activeChild_iff p i).mpr ⟨hparent, hi⟩

theorem Configured.configuration (h : s.Configured) : s.Configuration where
  active_iff := h.states.active_iff
  head?_eq := by
    obtain ⟨rest, hrest⟩ := NumberedTree.path_eq_cons h.current_lt
    rw [hrest, List.head?_cons]
  getLast?_eq := s.tree.getLast?_path s.current
  links := h.states.links (s.tree.mem_path_self s.current)
  activeChild_current := h.states.activeChild_self

section
variable [LinearOrder κ] {target : κ}

theorem Configured.tranTo (h : s.Configured) (htarget : s.tree.has 0 target = true) :
    (s.tranTo hooks target).Configured ∧ Transition s (s.tranTo hooks target) target
      ∧ (s.tranTo hooks target).executing = s.executing := by
  unfold StateMachine.tranTo
  by_cases hkey : s.tree.key s.current = target
  . rw [if_pos hkey]
    refine ⟨h, ⟨rfl, hkey, s.tree.path s.current, [], [], ?_⟩, rfl⟩
    refine ⟨(List.append_nil _).symm, (List.append_nil _).symm, ?_, ?_, ?_⟩
    . exact List.ne_nil_of_mem (s.tree.mem_path_self s.current)
    . exact fun _ hi => absurd hi List.not_mem_nil
    . exact (List.append_nil _).symm
  . rw [if_neg hkey]
    have hbelow : ∀ j ∈ s.tree.path s.current, s.current ∈ s.tree.path j → j ≠ s.current →
        s.tree.has j target = false := by
      intro j hj hmem hne
      have := NumberedTree.le_of_mem_path hj
      have := NumberedTree.le_of_mem_path hmem
      omega
    obtain ⟨a, j, left, entered, hleft, hentered, hj, hnot, hpath⟩ :=
      StateTree.getTransitionPath_of_mem htarget h.current_lt h.states.active_iff
        (s.tree.mem_path_self s.current) hbelow
    obtain ⟨hat, hcurrent, hperformed⟩ := replay_path hooks h.states hleft hentered
    rw [hpath]
    dsimp only
    refine ⟨⟨hcurrent.symm ▸ hat, ?_⟩, ⟨hperformed.tree_eq, hcurrent.symm ▸ hj, ?_⟩,
      hperformed.executing_eq⟩
    . rw [hcurrent, hperformed.tree_eq]
      have ha : a ∈ s.tree.path s.current := hleft ▸ List.mem_append_left _ (s.tree.mem_path_self a)
      have hj : a ∈ s.tree.path j := hentered ▸ List.mem_append_left _ (s.tree.mem_path_self a)
      have hlt := Nat.lt_of_le_of_lt (NumberedTree.le_of_mem_path ha) h.current_lt
      exact NumberedTree.lt_size_of_mem_path hj hlt
    . refine ⟨s.tree.path a, left, entered, hleft, hcurrent.symm ▸ hentered, ?_, ?_,
        hperformed.calls_eq⟩
      . exact List.ne_nil_of_mem (s.tree.mem_path_self a)
      . intro k hk hmem
        exact hnot k hk (hentered ▸ List.mem_append_right _ hmem)

theorem Configured.tranTo_of_not_has (h : s.Configured) (htarget : s.tree.has 0 target ≠ true) :
    s.tranTo hooks target = s := by
  unfold StateMachine.tranTo
  rw [StateTree.getTransitionPath_of_not_has h.current_lt htarget]
  split <;> rfl

/-!
### Runs
-/

theorem Configured.addTo (h : s.Configured) (i : Nat) (key : κ) : (s.addTo i key).Configured := by
  unfold StateMachine.addTo
  split
  . next hi =>
    split
    . exact h
    . have hparent : ∀ k < s.tree.size, (s.tree.add i key hi).parent k = s.tree.parent k :=
        fun k hk => Function.update_of_ne (Nat.ne_of_lt hk) _ _
      have hpath : (s.tree.add i key hi).path s.current = s.tree.path s.current :=
        NumberedTree.path_congr hparent h.current_lt
      refine ⟨⟨?_, ?_⟩, Nat.lt_succ_of_lt h.current_lt⟩
      . intro j
        dsimp only
        rw [hpath]
        exact h.states.active_iff j
      . intro j k
        dsimp only
        rw [hpath, h.states.activeChild_iff]
        apply and_congr_left
        intro hk
        rw [hparent k (Nat.lt_of_le_of_lt (NumberedTree.le_of_mem_path hk) h.current_lt)]
  . exact h

theorem Configured.tranTo' (h : s.Configured) (target : κ) :
    (s.tranTo hooks target).Configured := by
  by_cases htarget : s.tree.has 0 target = true
  . exact (h.tranTo htarget).1
  . rw [h.tranTo_of_not_has htarget]
    exact h

theorem Configured.step {e : Event κ} (h : s.Configured)
    (hstep : StateMachine.step hooks s e = some s') : s'.Configured := by
  unfold StateMachine.step at hstep
  split at hstep
  . injection hstep with hstep
    subst hstep
    unfold StateMachine.add
    split
    . exact h
    . exact h.addTo _ _
  . injection hstep with hstep
    exact hstep ▸ h.addTo _ _
  . next target opt _ =>
    injection hstep with hstep
    subst hstep
    unfold tran
    split
    . exact h.tranTo' target
    . exact h.congr ⟨rfl, rfl, rfl, rfl⟩
  . injection hstep with hstep
    exact hstep ▸ h.congr ⟨rfl, rfl, rfl, rfl⟩
  . injection hstep with hstep
    subst hstep
    unfold process
    split
    . exact h.execute.1.congr ⟨rfl, rfl, rfl, rfl⟩
    . next target _ _ => exact (h.tranTo' target).congr ⟨rfl, rfl, rfl, rfl⟩
  . contradiction

/--
The active states are the path to the current one, and a transition leaves and enters what is not on both
paths.
-/
theorem configuration_of_reachable [Zero κ] (hooks : ω → Call → ω × List κ) (world : ω)
    (s : StateMachine κ ω) (h : (machine hooks world).Reachable s) :
    s.Configuration
      ∧ (∀ target, (∃ i < s.tree.size, s.tree.key i = target) →
          Transition s (s.tranTo hooks target) target)
      ∧ (∀ target, (¬∃ i < s.tree.size, s.tree.key i = target) → s.tranTo hooks target = s)
      ∧ (executeState hooks s.tree.size s 0).calls
        = s.calls ++ (s.tree.path s.current).map .onExecute := by
  have hconfigured : s.Configured := Machine.inv_of_reachable Configured (configured_ctor world)
    (fun _ _ _ h hstep => h.step hstep) h
  refine ⟨hconfigured.configuration, ?_, ?_, hconfigured.execute.2.calls_eq⟩
  . intro target htarget
    exact (hconfigured.tranTo (StateTree.has_zero_iff.mpr htarget)).2.1
  . intro target htarget
    exact hconfigured.tranTo_of_not_has fun hhas => htarget (StateTree.has_zero_iff.mp hhas)

-- A state has been added under the root.
theorem configuration_of_reachable_addTo :
    let hooks : Unit → Call → Unit × List Nat := fun world _ => (world, [])
    let s := (ctor hooks ()).addTo 0 1
    s.Configuration
      ∧ (∀ target, (∃ i < s.tree.size, s.tree.key i = target) →
          Transition s (s.tranTo hooks target) target)
      ∧ (∀ target, (¬∃ i < s.tree.size, s.tree.key i = target) → s.tranTo hooks target = s)
      ∧ (executeState hooks s.tree.size s 0).calls
        = s.calls ++ (s.tree.path s.current).map .onExecute := by
  intro hooks s
  exact configuration_of_reachable hooks () s ⟨[.addTo 0 1], rfl⟩

end
end StateMachine
end Lax
