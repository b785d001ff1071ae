import Mathlib.Algebra.GroupWithZero.Nat
import Lax.Util.Lemmas.StateSearch

/-!
This module contains which calls of `add` keep the states below the root a tree with a key for each
state.
-/

namespace Lax
namespace StateGraph

variable {κ : Type} {g g' : StateGraph κ} {i j c root : Nat}

structure IsTree (g : StateGraph κ) (root : Nat) : Prop where
  path : Rooted.Tree g.Child root
  parent : ∀ i, g.Below root i → ∀ c ∈ g.childs i, g.parent c = some i
  key : ∀ i j, g.Below root i → g.Below root j → g.key i = g.key j → i = j

-- What is hung into the tree is a tree itself, with keys that are new. What is hung under a state
-- outside was not in the tree before, or is its root.
def Fits (g : StateGraph κ) (i c : Nat) : Prop :=
  (g.Below 0 i → g.IsTree c ∧ ∀ j k, g.Below c j → g.Below 0 k → g.key j ≠ g.key k)
    ∧ (¬g.Below 0 i → g.Below 0 c → c = 0)

theorem Below.trans {k : Nat} (h : g.Below i j) (h' : g.Below j k) : g.Below i k :=
  Relation.ReflTransGen.trans h h'

/-!
### Making a state
-/

theorem isTree_ctor [Zero κ] : (ctor : StateGraph κ).IsTree 0 where
  path := Rooted.tree_of_pred (fun _ _ h => absurd h List.not_mem_nil)
    (fun _ _ _ _ _ h => absurd h List.not_mem_nil)
  parent _ _ _ h := absurd h List.not_mem_nil
  key i j hi hj _ := by
    have hlt := below_lt hi Nat.one_pos
    have hlt' := below_lt hj Nat.one_pos
    exact (Nat.lt_one_iff.mp hlt).trans (Nat.lt_one_iff.mp hlt').symm

theorem isTree_create (h : g.IsTree 0) (key : κ) : (g.create key).IsTree 0 where
  path := h.path
  parent := h.parent
  key i j hi hj heq := by
    have hi' := below_lt (g := g) hi g.size_pos
    have hj' := below_lt (g := g) hj g.size_pos
    rw [key_create key hi', key_create key hj'] at heq
    exact h.key i j hi hj heq

/-!
### Adding a state
-/

variable [LinearOrder κ]

theorem child_link (g : StateGraph κ) (h : i < g.size ∧ c < g.size) :
    (g.link i c h).Child = Rooted.Hang g.Child i c := by
  funext a b
  apply propext
  show b ∈ Function.update g.childs i (StateTree.insertChild g.key c (g.childs i)) a ↔ _
  unfold Rooted.Hang
  rw [Function.update_apply, StateTree.insertChild]
  split
  . next heq =>
    rw [List.mem_orderedInsert, or_comm, heq]
    simp [Child]
  . next hne => simp [Child, hne]

theorem parent_link (g : StateGraph κ) (h : i < g.size ∧ c < g.size) (j : Nat) :
    (g.link i c h).parent j = if j = c then some i else g.parent j :=
  Function.update_apply _ _ _ _

theorem below_link_iff (h : i < g.size ∧ c < g.size) (hi : g.Below root i) :
    (g.link i c h).Below root j ↔ g.Below root j ∨ g.Below c j := by
  unfold Below
  rw [child_link]
  exact Rooted.reach_hang_iff hi

theorem below_link_iff_of_not (h : i < g.size ∧ c < g.size) (hi : ¬g.Below root i) :
    (g.link i c h).Below root j ↔ g.Below root j := by
  unfold Below
  rw [child_link]
  exact Rooted.reach_hang_iff_of_not hi

theorem below_link (h : i < g.size ∧ c < g.size) (hj : g.Below root j) :
    (g.link i c h).Below root j := by
  unfold Below
  rw [child_link]
  exact Rooted.reach_hang hj

theorem child_link_of_child (h : i < g.size ∧ c < g.size) {a b : Nat} (hchild : g.Child a b) :
    (g.link i c h).Child a b := by
  rw [child_link]
  exact .inl hchild

theorem fits_of_isTree {hlt : i < g.size ∧ c < g.size} (h : (g.link i c hlt).IsTree 0)
    (hnew : ¬g.Child i c) : g.Fits i c := by
  have hpath : Rooted.Tree (Rooted.Hang g.Child i c) 0 := child_link g hlt ▸ h.path
  constructor
  . intro hi
    obtain ⟨htree, hdisj⟩ := hpath.of_hang hi hnew
    have hbelow : ∀ {a}, g.Below c a → (g.link i c hlt).Below 0 a := by
      intro a ha
      exact (below_link_iff hlt hi).mpr (.inr ha)
    refine ⟨⟨htree, ?_, ?_⟩, ?_⟩
    . intro a ha d hd
      have hparent := h.parent a (hbelow ha) d (child_link_of_child hlt hd)
      rw [parent_link] at hparent
      split at hparent
      . cases hparent
        exact absurd hi (hdisj i ha)
      . exact hparent
    . intro a b ha hb heq
      exact h.key a b (hbelow ha) (hbelow hb) heq
    . intro a b ha hb heq
      have heq := h.key a b (hbelow ha) (below_link hlt hb) heq
      exact hdisj a ha (heq ▸ hb)
  . intro hi hc
    obtain rfl | ⟨b, hb, hchild⟩ := hc.cases_tail
    . rfl
    . have hparent := h.parent b (below_link hlt hb) c (child_link_of_child hlt hchild)
      rw [parent_link, if_pos rfl] at hparent
      cases hparent
      exact absurd hb hi

theorem IsTree.link_of_below (h : g.IsTree 0) (hlt : i < g.size ∧ c < g.size) (hi : g.Below 0 i)
    (htree : g.IsTree c) (hkeys : ∀ j k, g.Below c j → g.Below 0 k → g.key j ≠ g.key k) :
    (g.link i c hlt).IsTree 0 := by
  have hdisj : ∀ a, g.Below c a → ¬g.Below 0 a := fun a ha ha' => hkeys a a ha ha' rfl
  constructor
  . rw [child_link]
    exact h.path.hang htree.path hi hdisj
  . intro a ha d hd
    have hchild : Rooted.Hang g.Child i c a d := child_link g hlt ▸ hd
    rw [below_link_iff hlt hi] at ha
    rw [parent_link]
    obtain hchild | ⟨rfl, rfl⟩ := hchild
    . split
      . next heq =>
        subst heq
        obtain ha | ha := ha
        . exact absurd (ha.tail hchild) (hdisj d .refl)
        . exact absurd hchild (htree.path.not_root ha)
      . exact ha.elim (fun ha => h.parent a ha d hchild) (fun ha => htree.parent a ha d hchild)
    . exact if_pos rfl
  . intro a b ha hb heq
    rw [below_link_iff hlt hi] at ha hb
    obtain ha | ha := ha
    . obtain hb | hb := hb
      . exact h.key a b ha hb heq
      . exact absurd heq.symm (hkeys b a hb ha)
    . obtain hb | hb := hb
      . exact absurd heq (hkeys a b ha hb)
      . exact htree.key a b ha hb heq

theorem IsTree.link_of_not_below (h : g.IsTree 0) (hlt : i < g.size ∧ c < g.size)
    (hi : ¬g.Below 0 i) (hc : g.Below 0 c → c = 0) : (g.link i c hlt).IsTree 0 := by
  constructor
  . rw [child_link]
    exact h.path.hang_of_not hi
  . intro a ha d hd
    have hchild : Rooted.Hang g.Child i c a d := child_link g hlt ▸ hd
    rw [below_link_iff_of_not hlt hi] at ha
    obtain hchild | ⟨rfl, -⟩ := hchild
    . have hne : d ≠ c := by
        rintro rfl
        have heq := hc (ha.tail hchild)
        exact h.path.not_root ha (heq ▸ hchild)
      rw [parent_link, if_neg hne]
      exact h.parent a ha d hchild
    . exact absurd ha hi
  . intro a b ha hb heq
    rw [below_link_iff_of_not hlt hi] at ha hb
    exact h.key a b ha hb heq

theorem isTree_link_iff (h : g.IsTree 0) (hlt : i < g.size ∧ c < g.size) (hnew : ¬g.Child i c) :
    (g.link i c hlt).IsTree 0 ↔ g.Fits i c := by
  constructor
  . exact fun h' => fits_of_isTree h' hnew
  . intro hfits
    by_cases hi : g.Below 0 i
    . obtain ⟨htree, hkeys⟩ := hfits.1 hi
      exact h.link_of_below hlt hi htree hkeys
    . exact h.link_of_not_below hlt hi (hfits.2 hi)

/-!
### Calls
-/

-- The searches in the tree return, and find the one state with the key.
def Answers (g : StateGraph κ) : Prop :=
  ∀ i, g.Below 0 i → ∀ target, ∃ found, g.find i target = some found
    ∧ g.has i target = some found.isSome ∧ ∀ j, found = some j ↔ g.Below i j ∧ g.key j = target

theorem IsTree.answers (h : g.IsTree 0) : g.Answers := by
  intro i hi target
  obtain ⟨found, hfound⟩ := exists_find_of_tree h.path g.size_pos hi target
  refine ⟨found, hfound, by rw [has_eq, hfound]; rfl, ?_⟩
  intro j
  constructor
  . rintro rfl
    exact below_of_findWithin hfound
  . rintro ⟨hj, hkey⟩
    cases found with
    | none => exact absurd hkey (ne_of_findWithin hfound hj)
    | some j' =>
      obtain ⟨hj', hkey'⟩ := below_of_findWithin hfound
      exact congrArg some (h.key j' j (hi.trans hj') (hi.trans hj) (hkey'.trans hkey.symm))

-- `state::add` does not refuse the child.
def Accepts (g : StateGraph κ) (i : Nat) (child : Option Nat) (c : Nat) : Prop :=
  child = some c ∧ i < g.size ∧ c < g.size ∧ g.has i (g.key c) = some false

def CallFits (g : StateGraph κ) : Event κ → Prop
  | .create _ => True
  | .add parent child =>
    ∀ i c, g.find 0 parent = some (some i) → g.Accepts i child c → g.Fits i c
  | .addTo i child => ∀ c, g.Accepts i child c → g.Fits i c

-- What is true after a call with this result.
def Kept (g : StateGraph κ) (result : Option (StateGraph κ × Bool)) : Prop :=
  ∀ g' added, result = some (g', added) →
    g'.IsTree 0 ∧ g'.Answers ∧ (added = false → g' = g)

theorem kept_same (h : g.IsTree 0) (added : Bool) : g.Kept (some (g, added)) := by
  intro g' added' heq
  cases heq
  exact ⟨h, h.answers, fun _ => rfl⟩

theorem kept_added_iff : g.Kept (some (g', true)) ↔ g'.IsTree 0 := by
  constructor
  . exact fun h => (h g' true rfl).1
  . intro h g'' added heq
    cases heq
    exact ⟨h, h.answers, fun hadded => absurd hadded Bool.noConfusion⟩

theorem Accepts.not_child {child : Option Nat} (h : g.Accepts i child c) : ¬g.Child i c := by
  obtain ⟨-, -, -, hhas⟩ := h
  rw [has_eq] at hhas
  obtain ⟨found, hfound, hnone⟩ := Option.map_eq_some_iff.mp hhas
  rw [Option.isSome_eq_false_iff, Option.isNone_iff_eq_none] at hnone
  intro hchild
  exact ne_of_findWithin (hnone ▸ hfound) (.single hchild) rfl

theorem addTo_of_accepts {child : Option Nat} (h : g.Accepts i child c) :
    ∃ hlt, g.addTo i child = some (g.link i c hlt, true) := by
  obtain ⟨rfl, hi, hc, hhas⟩ := h
  refine ⟨⟨hi, hc⟩, ?_⟩
  simp [addTo, hi, hc, hhas]

theorem kept_addTo_of_not_accepts {child : Option Nat} (h : g.IsTree 0)
    (hnot : ∀ c, ¬g.Accepts i child c) : g.Kept (g.addTo i child) := by
  unfold addTo
  split
  . exact kept_same h false
  . next c =>
    split
    . next hlt =>
      cases hhas : g.has i (g.key c) with
      | none => exact fun _ _ heq => absurd heq (Option.some_ne_none _).symm
      | some found =>
        cases found with
        | true => exact kept_same h false
        | false => exact absurd ⟨rfl, hlt.1, hlt.2, hhas⟩ (hnot c)
    . exact fun _ _ heq => absurd heq (Option.some_ne_none _).symm

theorem kept_addTo_iff (h : g.IsTree 0) (i : Nat) (child : Option Nat) :
    g.Kept (g.addTo i child) ↔ ∀ c, g.Accepts i child c → g.Fits i c := by
  by_cases haccepts : ∃ c, g.Accepts i child c
  . obtain ⟨c, hc⟩ := haccepts
    obtain ⟨hlt, heq⟩ := addTo_of_accepts hc
    rw [heq, kept_added_iff, isTree_link_iff h hlt hc.not_child]
    constructor
    . intro hfits c' hc'
      cases Option.some.inj (hc.1.symm.trans hc'.1)
      exact hfits
    . exact fun hfits => hfits c hc
  . constructor
    . exact fun _ c hc => absurd ⟨c, hc⟩ haccepts
    . exact fun _ => kept_addTo_of_not_accepts h fun c hc => haccepts ⟨c, hc⟩

theorem kept_add_iff (h : g.IsTree 0) (parent : κ) (child : Option Nat) :
    g.Kept (g.add parent child)
      ↔ ∀ i c, g.find 0 parent = some (some i) → g.Accepts i child c → g.Fits i c := by
  obtain ⟨found, hfound⟩ := exists_find_of_tree h.path g.size_pos .refl parent
  unfold add
  rw [hfound]
  cases found with
  | none =>
    apply iff_of_true (kept_same h false)
    intro i c heq
    cases heq
  | some i =>
    show g.Kept (g.addTo i child) ↔ _
    rw [kept_addTo_iff h]
    constructor
    . intro hfits i' c heq
      cases heq
      exact hfits c
    . exact fun hfits c => hfits i c rfl

theorem kept_iff (h : g.IsTree 0) (e : Event κ) : g.Kept (g.call e) ↔ g.CallFits e := by
  cases e with
  | create key => exact iff_of_true (kept_added_iff.mpr (isTree_create h key)) trivial
  | add parent child => exact kept_add_iff h parent child
  | addTo i child => exact kept_addTo_iff h i child

/--
The states below the root are a tree after every call exactly when no accepted child breaks it:
only its own key is looked up, and only below the state it is added to.
-/
theorem kept_iff_callFits [Zero κ] (es : List (Event κ)) :
    machine.Along (fun g e => g.Kept (g.call e)) (ctor : StateGraph κ) es
      ↔ machine.Along CallFits (ctor : StateGraph κ) es := by
  apply Machine.along_congr_of (fun g => g.IsTree 0)
  . intro g e g' h hfits hstep
    obtain ⟨⟨g'', added⟩, hcall, rfl⟩ := Option.map_eq_some_iff.mp hstep
    exact ((kept_iff h e).mpr hfits g'' added hcall).1
  . exact fun g e h => kept_iff h e
  . exact isTree_ctor

-- Two branches get a state with the key 1.
theorem exists_duplicate_key :
    ∃ g g' : StateGraph Nat, machine.run ctor [
        .create 1,
        .create 2,
        .create 1,
        .add 0 (some 1),
        .add 0 (some 2)
      ] = some g
      ∧ g.call (.add 2 (some 3)) = some (g', true) ∧ ¬g.Kept (g.call (.add 2 (some 3))) := by
  refine ⟨_, _, rfl, rfl, ?_⟩
  intro hkept
  obtain ⟨htree, -⟩ := hkept _ _ rfl
  have hne := htree.key 1 3 (.single List.mem_cons_self)
    (.tail (.single (List.mem_cons_of_mem 1 List.mem_cons_self)) List.mem_cons_self) rfl
  cases hne

end StateGraph
end Lax
