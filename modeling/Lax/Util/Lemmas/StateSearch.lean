import Mathlib.Algebra.GroupWithZero.Nat
import Mathlib.Data.List.Perm.Subperm
import Lax.Foundation.Rooted
import Lax.Util.Impl.StateGraph

/-!
This module contains what the searches below a state return, and when they do.
-/

namespace Lax

/-!
### Searching a list
-/

section
variable {α β : Type} {f f' : α → Option (Option β)} {l : List α}

theorem findSomeM_cons {a : α} {r : Option β} (h : (a :: l).findSomeM? f = some r) :
    (∃ b, f a = some (some b) ∧ r = some b) ∨ (f a = some none ∧ l.findSomeM? f = some r) := by
  rw [List.findSomeM?_cons] at h
  obtain ⟨found, hfound, h⟩ := Option.bind_eq_some_iff.mp h
  cases found with
  | some b => exact .inl ⟨b, hfound, (Option.some.inj h).symm⟩
  | none => exact .inr ⟨hfound, h⟩

theorem findSomeM_cons_of_none {a : α} (h : f a = some none) :
    (a :: l).findSomeM? f = l.findSomeM? f := by
  rw [List.findSomeM?_cons, h]
  rfl

theorem findSomeM_cons_of_some {a : α} {b : β} (h : f a = some (some b)) :
    (a :: l).findSomeM? f = some (some b) := by
  rw [List.findSomeM?_cons, h]
  rfl

theorem findSomeM_mono {r : Option β} (hle : ∀ a ∈ l, ∀ r, f a = some r → f' a = some r)
    (h : l.findSomeM? f = some r) : l.findSomeM? f' = some r := by
  induction l with
  | nil => exact h
  | cons a l ih =>
    rw [List.forall_mem_cons] at hle
    obtain ⟨b, hb, rfl⟩ | ⟨hnone, h⟩ := findSomeM_cons h
    . exact findSomeM_cons_of_some (hle.1 _ hb)
    . rw [findSomeM_cons_of_none (hle.1 _ hnone)]
      exact ih hle.2 h

theorem exists_of_findSomeM_eq_none (h : l.findSomeM? f = none) : ∃ a ∈ l, f a = none := by
  induction l with
  | nil => cases h
  | cons a l ih =>
    cases hfound : f a with
    | none => exact ⟨a, List.mem_cons_self, hfound⟩
    | some found =>
      cases found with
      | some b =>
        rw [findSomeM_cons_of_some hfound] at h
        contradiction
      | none =>
        rw [findSomeM_cons_of_none hfound] at h
        obtain ⟨a', ha', hnone⟩ := ih h
        exact ⟨a', List.mem_cons_of_mem a ha', hnone⟩

theorem exists_of_findSomeM_eq_some {b : β} (h : l.findSomeM? f = some (some b)) :
    ∃ a ∈ l, f a = some (some b) := by
  induction l with
  | nil => cases h
  | cons a l ih =>
    obtain ⟨b', hb', heq⟩ | ⟨-, h⟩ := findSomeM_cons h
    . exact ⟨a, List.mem_cons_self, heq ▸ hb'⟩
    . obtain ⟨a', ha', hb⟩ := ih h
      exact ⟨a', List.mem_cons_of_mem a ha', hb⟩

theorem forall_of_findSomeM_eq_none (h : l.findSomeM? f = some none) :
    ∀ a ∈ l, f a = some none := by
  induction l with
  | nil => exact fun _ ha => absurd ha List.not_mem_nil
  | cons a l ih =>
    obtain ⟨b, -, heq⟩ | ⟨hnone, h⟩ := findSomeM_cons h
    . cases heq
    . exact List.forall_mem_cons.mpr ⟨hnone, ih h⟩

theorem anyM_eq (f : α → Option (Option β)) (l : List α) :
    (l.anyM fun a => (f a).map Option.isSome) = (l.findSomeM? f).map Option.isSome := by
  induction l with
  | nil => rfl
  | cons a l ih =>
    rw [List.anyM]
    cases hfound : f a with
    | none =>
      rw [List.findSomeM?_cons, hfound]
      rfl
    | some found =>
      cases found with
      | some b =>
        rw [findSomeM_cons_of_some hfound]
        rfl
      | none =>
        rw [findSomeM_cons_of_none hfound]
        exact ih

end

namespace StateGraph

variable {κ : Type} {g : StateGraph κ} {i j c root fuel : Nat}

def Child (g : StateGraph κ) (i c : Nat) : Prop :=
  c ∈ g.childs i

def Below (g : StateGraph κ) : Nat → Nat → Prop :=
  Rooted.Reach g.Child

theorem key_create (key : κ) (hi : i < g.size) : (g.create key).key i = g.key i := by
  show Function.update g.key g.size key i = g.key i
  exact Function.update_of_ne (Nat.ne_of_lt hi) key g.key

theorem below_lt (h : g.Below i j) (hi : i < g.size) : j < g.size := by
  induction h with
  | refl => exact hi
  | tail _ hchild _ => exact (g.childs_lt _ _ hchild).2

theorem walk_lt {path : List Nat} (h : Rooted.Walk g.Child i path j) : ∀ c ∈ path, c < g.size := by
  induction path generalizing i with
  | nil => exact fun _ hc => absurd hc List.not_mem_nil
  | cons c path ih => exact List.forall_mem_cons.mpr ⟨(g.childs_lt _ _ h.1).2, ih h.2⟩

theorem length_le_size {l : List Nat} (hnodup : l.Nodup) (hlt : ∀ j ∈ l, j < g.size) :
    l.length ≤ g.size := by
  have hsub : l ⊆ List.range g.size := fun j hj => List.mem_range.mpr (hlt j hj)
  have hle := (hnodup.subperm hsub).length_le
  rwa [List.length_range] at hle

/-!
### What a search returns
-/

variable [LinearOrder κ] {target : κ} {found : Option Nat}

theorem findWithin_of_eq (h : g.key i = target) :
    g.findWithin target (fuel + 1) i = some (some i) := by
  rw [findWithin, if_pos h]

theorem findWithin_of_ne (h : g.key i ≠ target) : g.findWithin target (fuel + 1) i
    = (g.childs i).findSomeM? fun c => g.findWithin target fuel c := by
  rw [findWithin, if_neg h]

theorem hasWithin_eq (g : StateGraph κ) (target : κ) (fuel i : Nat) :
    g.hasWithin target fuel i = (g.findWithin target fuel i).map Option.isSome := by
  induction fuel generalizing i with
  | zero => rfl
  | succ fuel ih =>
    by_cases heq : g.key i = target
    . rw [findWithin_of_eq heq, hasWithin, if_pos heq]
      rfl
    . rw [findWithin_of_ne heq, hasWithin, if_neg heq, ← anyM_eq]
      simp only [ih]

theorem has_eq (g : StateGraph κ) (i : Nat) (target : κ) :
    g.has i target = (g.find i target).map Option.isSome :=
  hasWithin_eq g target g.size i

theorem below_of_findWithin (h : g.findWithin target fuel i = some (some j)) :
    g.Below i j ∧ g.key j = target := by
  induction fuel generalizing i with
  | zero => cases h
  | succ fuel ih =>
    by_cases heq : g.key i = target
    . rw [findWithin_of_eq heq] at h
      cases h
      exact ⟨.refl, heq⟩
    . rw [findWithin_of_ne heq] at h
      obtain ⟨c, hc, hfound⟩ := exists_of_findSomeM_eq_some h
      obtain ⟨hbelow, hkey⟩ := ih hfound
      exact ⟨.head hc hbelow, hkey⟩

theorem ne_of_findWithin (h : g.findWithin target fuel i = some none) (hbelow : g.Below i j) :
    g.key j ≠ target := by
  induction fuel generalizing i with
  | zero => cases h
  | succ fuel ih =>
    by_cases heq : g.key i = target
    . rw [findWithin_of_eq heq] at h
      cases h
    . rw [findWithin_of_ne heq] at h
      obtain rfl | ⟨c, hc, hbelow⟩ := hbelow.cases_head
      . exact heq
      . exact ih (forall_of_findSomeM_eq_none h c hc) hbelow

/-!
### When a search returns
-/

theorem findWithin_succ (h : g.findWithin target fuel i = some found) :
    g.findWithin target (fuel + 1) i = some found := by
  induction fuel generalizing i found with
  | zero => cases h
  | succ fuel ih =>
    by_cases heq : g.key i = target
    . rw [findWithin_of_eq heq] at h ⊢
      exact h
    . rw [findWithin_of_ne heq] at h ⊢
      exact findSomeM_mono (fun c _ found hfound => ih hfound) h

theorem findWithin_mono {fuel' : Nat} (hle : fuel ≤ fuel')
    (h : g.findWithin target fuel i = some found) : g.findWithin target fuel' i = some found := by
  induction hle with
  | refl => exact h
  | step _ ih => exact findWithin_succ ih

-- On every level of a search that returns there is a state whose search takes that long, so these
-- are different states.
theorem exists_levels (hi : i < g.size) (hnone : g.findWithin target fuel i = none)
    (h : g.findWithin target (fuel + 1) i = some found) :
    ∃ l : List Nat, l.Nodup ∧ l.length = fuel + 1
      ∧ ∀ j ∈ l, j < g.size ∧ ∃ found, g.findWithin target (fuel + 1) j = some found := by
  induction fuel generalizing i found with
  | zero =>
    refine ⟨[i], List.nodup_singleton i, rfl, ?_⟩
    rw [List.forall_mem_singleton]
    exact ⟨hi, found, h⟩
  | succ fuel ih =>
    have hne : g.key i ≠ target := by
      intro heq
      rw [findWithin_of_eq heq] at hnone
      cases hnone
    rw [findWithin_of_ne hne] at h
    have hdeeper : ∃ c ∈ g.childs i, g.findWithin target fuel c = none
        ∧ ∃ found, g.findWithin target (fuel + 1) c = some found := by
      by_contra hall
      rw [findWithin_of_ne hne] at hnone
      have hback : ∀ c ∈ g.childs i, ∀ found, g.findWithin target (fuel + 1) c = some found →
          g.findWithin target fuel c = some found := by
        intro c hc found hfound
        cases hshort : g.findWithin target fuel c with
        | none => exact absurd ⟨c, hc, hshort, found, hfound⟩ hall
        | some found' => rw [← hfound, findWithin_succ hshort]
      rw [findSomeM_mono hback h] at hnone
      cases hnone
    obtain ⟨c, hc, hshort, found', hfound'⟩ := hdeeper
    obtain ⟨l, hnodup, hlength, hl⟩ := ih (g.childs_lt i c hc).2 hshort hfound'
    have hi' : i ∉ l := by
      intro hmem
      obtain ⟨-, found'', hfound''⟩ := hl i hmem
      rw [hnone] at hfound''
      cases hfound''
    refine ⟨i :: l, List.nodup_cons.mpr ⟨hi', hnodup⟩, congrArg Nat.succ hlength, ?_⟩
    rw [List.forall_mem_cons]
    refine ⟨⟨hi, found, by rw [findWithin_of_ne hne, h]⟩, ?_⟩
    intro j hj
    obtain ⟨hlt, found'', hfound''⟩ := hl j hj
    exact ⟨hlt, found'', findWithin_succ hfound''⟩

-- A search that returns at all has at most as many levels as there are states.
theorem find_eq_some_iff (hi : i < g.size) :
    g.find i target = some found ↔ ∃ fuel, g.findWithin target fuel i = some found := by
  constructor
  . exact fun h => ⟨g.size, h⟩
  . rintro ⟨fuel, h⟩
    induction fuel with
    | zero => cases h
    | succ fuel ih =>
      cases hshort : g.findWithin target fuel i with
      | some found' =>
        have heq := (findWithin_succ hshort).symm.trans h
        exact ih (heq ▸ hshort)
      | none =>
        obtain ⟨l, hnodup, hlength, hl⟩ := exists_levels hi hshort h
        have hle := length_le_size hnodup fun j hj => (hl j hj).1
        exact findWithin_mono (hlength ▸ hle) h

-- The root is added to its own child.
example : (machine.run (ctor : StateGraph Nat) [
      .create 1,
      .add 0 (some 1),
      .addTo 1 (some 0)
    ]).map (fun g => g.find 0 2) = some none :=
  rfl

theorem findWithin_create (key : κ) (hi : i < g.size)
    (h : g.findWithin target fuel i = some found) :
    (g.create key).findWithin target fuel i = some found := by
  induction fuel generalizing i found with
  | zero => cases h
  | succ fuel ih =>
    have hkey := key_create key hi
    by_cases heq : g.key i = target
    . rw [findWithin_of_eq heq] at h
      rw [findWithin_of_eq (hkey.trans heq), h]
    . rw [findWithin_of_ne heq] at h
      rw [findWithin_of_ne (hkey ▸ heq)]
      apply findSomeM_mono _ h
      exact fun c hc found hfound => ih (g.childs_lt i c hc).2 hfound

theorem find_create (key : κ) (hi : i < g.size) (h : g.find i target = some found) :
    (g.create key).find i target = some found :=
  findWithin_mono (Nat.le_succ g.size) (findWithin_create key hi h)

theorem exists_walk_of_findWithin (h : g.findWithin target fuel i = none) :
    ∃ path j, Rooted.Walk g.Child i path j ∧ path.length = fuel := by
  induction fuel generalizing i with
  | zero => exact ⟨[], i, Rooted.walk_nil.mpr rfl, rfl⟩
  | succ fuel ih =>
    by_cases heq : g.key i = target
    . rw [findWithin_of_eq heq] at h
      cases h
    . rw [findWithin_of_ne heq] at h
      obtain ⟨c, hc, hnone⟩ := exists_of_findSomeM_eq_none h
      obtain ⟨path, j, hpath, hlength⟩ := ih hnone
      exact ⟨c :: path, j, ⟨hc, hpath⟩, congrArg Nat.succ hlength⟩

theorem exists_find_of_tree (h : Rooted.Tree g.Child root) (hroot : root < g.size)
    (hi : g.Below root i) (target : κ) : ∃ found, g.find i target = some found := by
  cases hnone : g.find i target with
  | some found => exact ⟨found, rfl⟩
  | none =>
    obtain ⟨path, hpath⟩ := Rooted.exists_walk hi
    obtain ⟨path', j, hpath', hlength⟩ := exists_walk_of_findWithin hnone
    have hwalk := hpath.append hpath'
    have hlt : ∀ c ∈ root :: (path ++ path'), c < g.size :=
      List.forall_mem_cons.mpr ⟨hroot, walk_lt hwalk⟩
    have hle := length_le_size (h.nodup hwalk) hlt
    rw [List.length_cons, List.length_append, hlength] at hle
    omega

end StateGraph
end Lax
