import Mathlib.Data.List.Nodup
import Mathlib.Data.List.Count
import Lax.Actor.Impl.TypeObjectContainer

/-!
This module contains what an index by types finds: the same as looking at everything that has been added.
-/

namespace Lax
namespace TypeObjectContainer

variable {Obj Ty σ : Type} [DecidableEq Ty] {types : Obj → List Ty} {base type : Ty} {p : Obj}
  {c : TypeObjectContainer Obj Ty}

/-!
### Adding
-/

theorem isA_iff : isA types p type = true ↔ type ∈ types p := by
  simp [isA]

-- The entry of a type is the same whether it has been there before or not.
theorem map_addType (info : Ty) :
    (c.addType info p).map = Function.update c.map info (some (c.getTypes info ++ [p])) := by
  unfold addType getTypes
  cases c.map info with
  | none => rfl
  | some ptrs => rfl

theorem getTypes_addType (info : Ty) :
    (c.addType info p).getTypes type = c.getTypes type ++ if type = info then [p] else [] := by
  rw [getTypes.eq_1 (c.addType info p), map_addType]
  by_cases htype : type = info
  . rw [htype, Function.update_self, if_pos rfl]
  . rw [Function.update_of_ne htype, if_neg htype, List.append_nil]
    rfl

-- What is added once for each type in a list is found as often as the type is in it.
theorem getTypes_foldl (infos : List Ty) :
    (infos.foldl (fun c info => c.addType info p) c).getTypes type
      =
    c.getTypes type ++ List.replicate (infos.count type) p := by
  induction infos generalizing c with
  | nil => simp
  | cons info infos ih =>
    rw [List.foldl_cons, ih, getTypes_addType, List.append_assoc, List.count_cons]
    congr 1
    by_cases htype : type = info
    . subst htype
      simp [List.replicate_succ]
    . have hne : (info == type) = false := by
        simpa using fun heq => htype heq.symm
      simp [htype, hne]

-- An entry has been made for somebody.
def Filled (c : TypeObjectContainer Obj Ty) : Prop :=
  ∀ type ptrs, c.map type = some ptrs → ptrs ≠ []

theorem Filled.addType (h : c.Filled) (info : Ty) : (c.addType info p).Filled := by
  intro type ptrs
  rw [map_addType]
  by_cases htype : type = info
  . rw [htype, Function.update_self]
    intro heq
    injection heq with heq
    rw [← heq]
    simp
  . rw [Function.update_of_ne htype]
    exact h type ptrs

theorem Filled.foldl (h : c.Filled) (infos : List Ty) :
    (infos.foldl (fun c info => c.addType info p) c).Filled := by
  induction infos generalizing c with
  | nil => exact h
  | cons info infos ih => exact ih (h.addType info)

omit [DecidableEq Ty] in
theorem Filled.getType_eq (h : c.Filled) : c.getType type = (c.getTypes type).head? := by
  unfold getType getTypes
  cases hmap : c.map type with
  | none => rfl
  | some ptrs =>
    cases ptrs with
    | nil => exact absurd rfl (h type [] hmap)
    | cons p ptrs => rfl

/-!
### Applying
-/

-- Whatever one call leaves as it is, `apply` does.
omit [DecidableEq Ty] in
theorem inv_apply {P : σ → Prop} {func : σ → Obj → σ × Bool} (hfunc : ∀ s p, P s → P (func s p).1)
    {s : σ} (h : P s) : P (c.apply type func s).1 := by
  have hloop : ∀ ptrs count, P (applyLoop func ptrs s count).1 := by
    intro ptrs
    induction ptrs generalizing s with
    | nil => exact fun count => h
    | cons p ptrs ih => exact fun count => ih (hfunc s p h) _
  unfold apply
  split
  . exact h
  . apply hloop

-- The function also writes down what it has been called with and what it has returned.
def record (func : σ → Obj → σ × Bool) (s : σ × List (Obj × Bool)) (p : Obj) :
    (σ × List (Obj × Bool)) × Bool :=
  let (s', rc) := func s.1 p
  ((s', s.2 ++ [(p, rc)]), rc)

-- `apply` calls a function with these objects in this order and counts how often it has returned true.
def Visits (c : TypeObjectContainer Obj Ty) (type : Ty) (objs : List Obj) : Prop :=
  ∀ (σ : Type) (func : σ → Obj → σ × Bool) (s : σ), ∃ s' log, log.map (·.1) = objs
    ∧ c.apply type func s = (s', log.countP (·.2))
    ∧ c.apply type (record func) (s, []) = ((s', log), log.countP (·.2))

theorem applyLoop_record (func : σ → Obj → σ × Bool) (ptrs : List Obj) (s : σ)
    (log : List (Obj × Bool)) (count : Nat) :
    ∃ s' log', log'.map (·.1) = ptrs
      ∧ applyLoop func ptrs s count = (s', count + log'.countP (·.2))
      ∧ applyLoop (record func) ptrs (s, log) count = ((s', log ++ log'), count + log'.countP (·.2)) := by
  induction ptrs generalizing s log count with
  | nil => exact ⟨s, [], by simp [applyLoop]⟩
  | cons p ptrs ih =>
    unfold applyLoop
    rw [record]
    obtain ⟨s, rc⟩ := func s p
    obtain ⟨s', log', hmap, hresult, hrecorded⟩ :=
      ih s (log ++ [(p, rc)]) (if rc then count + 1 else count)
    have hcount : (if rc then count + 1 else count) + log'.countP (·.2)
        = count + ((p, rc) :: log').countP (·.2) := by
      rw [List.countP_cons]
      split
      . omega
      . rfl
    refine ⟨s', (p, rc) :: log', ?_, ?_, ?_⟩
    . rw [List.map_cons, hmap]
    . dsimp only
      rw [hresult, hcount]
    . dsimp only
      rw [hrecorded, hcount, List.append_assoc]
      rfl

omit [DecidableEq Ty] in
theorem visits_getTypes (c : TypeObjectContainer Obj Ty) (type : Ty) :
    c.Visits type (c.getTypes type) := by
  intro σ func s
  have happly : ∀ (τ : Type) (func : τ → Obj → τ × Bool) (s : τ),
      c.apply type func s = applyLoop func (c.getTypes type) s 0 := by
    intro τ func s
    unfold apply getTypes
    cases c.map type with
    | none => rfl
    | some ptrs => rfl
  obtain ⟨s', log, hmap, hresult, hrecorded⟩ := applyLoop_record func (c.getTypes type) s [] 0
  rw [Nat.zero_add] at hresult hrecorded
  exact ⟨s', log, hmap, (happly _ _ _).trans hresult, (happly _ _ _).trans hrecorded⟩

/-!
### Histories
-/

-- What is found is the same as in a look at everything that has been added.
structure Scan (types : Obj → List Ty) (base : Ty) (s : History Obj Ty) : Prop where
  getTypes : ∀ type, s.container.getTypes type = s.added.filter (isA types · type)
  -- The first of an entry is there.
  filled : s.container.Filled
  getType : ∀ type, s.container.getType type = (s.added.filter (isA types · type)).head?
  has : ∀ type, s.container.has type = s.added.any (isA types · type)
  size : ∀ type, s.container.size type = s.added.countP (isA types · type)
  visits : ∀ type, s.container.Visits type (s.added.filter (isA types · type))
  thrown : ∀ p, isA types p base = false → s.container.add types base (some p) = (none, s.container)

theorem scan_of_getTypes {s : History Obj Ty} (hfilled : s.container.Filled)
    (h : ∀ type, s.container.getTypes type = s.added.filter (isA types · type)) :
    Scan types base s := by
  constructor
  . exact h
  . exact hfilled
  . intro type
    rw [hfilled.getType_eq, h]
  . intro type
    unfold TypeObjectContainer.has
    rw [hfilled.getType_eq, h, List.head?_filter, Bool.eq_iff_iff, List.find?_isSome, List.any_eq_true]
  . intro type
    unfold TypeObjectContainer.size
    rw [h, List.countP_eq_length_filter]
  . intro type
    rw [← h]
    apply visits_getTypes
  . intro p hp
    apply if_neg
    rw [hp]
    exact Bool.false_ne_true

theorem filter_singleton : [p].filter (isA types · type) = if type ∈ types p then [p] else [] := by
  by_cases htype : type ∈ types p
  . rw [if_pos htype, List.filter_singleton, isA_iff.mpr htype]
    rfl
  . rw [if_neg htype, List.filter_singleton, Bool.eq_false_iff.mpr (isA_iff.not.mpr htype)]
    rfl

structure Indexed (types : Obj → List Ty) (s : History Obj Ty) : Prop where
  filled : s.container.Filled
  getTypes : ∀ type, s.container.getTypes type = s.added.filter (isA types · type)

theorem indexed_init : Indexed types (History.machine types base).init := by
  constructor
  . intro type ptrs h
    contradiction
  . exact fun type => rfl

theorem Indexed.step {s s' : History Obj Ty} {ptr : Option Obj} (h : Indexed types s)
    (hnodup : ∀ p, (types p).Nodup) (hstep : s.step types base ptr = some s') : Indexed types s' := by
  injection hstep with heq
  subst heq
  cases ptr with
  | none =>
    simp only [Option.toList_none, List.append_nil]
    exact h
  | some p =>
    dsimp only
    split
    . constructor
      . exact h.filled.foldl _
      . intro type
        rw [getTypes_foldl, h.getTypes, (hnodup p).count, List.filter_append]
        dsimp only [Option.toList_some]
        rw [filter_singleton]
        split
        . rfl
        . rfl
    . simp only [Option.toList_none, List.append_nil]
      exact h

/--
After any calls of `add` with objects that have each of their types once, the index finds the same as a
look at everything that has been added.
-/
theorem scan_of_reachable {s : History Obj Ty} (hnodup : ∀ p, (types p).Nodup)
    (h : (History.machine types base).Reachable s) : Scan types base s := by
  have hindexed : Indexed types s := by
    apply Machine.inv_of_reachable (Indexed types) indexed_init _ h
    exact fun s e s' h hstep => h.step hnodup hstep
  exact scan_of_getTypes hindexed.filled hindexed.getTypes

-- Types are numbers, an object has those up to itself, and the base class is 1.
theorem scan_added :
    ∃ s, (History.machine List.range 1).run (History.machine List.range 1).init [some 3, some 0, none]
        = some s
      ∧ Scan List.range 1 s :=
  ⟨_, rfl, scan_of_reachable (fun _ => List.nodup_range) ⟨[some 3, some 0, none], rfl⟩⟩

end TypeObjectContainer
end Lax
