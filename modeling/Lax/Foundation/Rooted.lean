import Mathlib.Data.List.Induction
import Mathlib.Logic.Relation
import Mathlib.Data.List.Nodup

/-!
This module contains when a relation is a tree below a node, and what becomes of the tree when
another one is hung under one of its nodes.
-/

namespace Rooted

variable {α : Type} {R S : α → α → Prop} {r a b c d i : α} {path path' : List α}

def Reach (R : α → α → Prop) : α → α → Prop :=
  Relation.ReflTransGen R

-- The nodes that come after the first one.
def Walk (R : α → α → Prop) : α → List α → α → Prop
  | r, [], a => r = a
  | r, c :: path, a => R r c ∧ Walk R c path a

-- There is exactly one way to every node.
def Tree (R : α → α → Prop) (r : α) : Prop :=
  ∀ a, Reach R r a → ∃! path, Walk R r path a

/-!
### Walks
-/

theorem walk_nil : Walk R r [] a ↔ r = a :=
  .rfl

theorem walk_cons : Walk R r (c :: path) a ↔ R r c ∧ Walk R c path a :=
  .rfl

theorem walk_append : Walk R r (path ++ path') a ↔ ∃ b, Walk R r path b ∧ Walk R b path' a := by
  induction path generalizing r with
  | nil =>
    constructor
    . exact fun h => ⟨r, rfl, h⟩
    . rintro ⟨b, hb, h⟩
      rw [walk_nil] at hb
      exact hb ▸ h
  | cons c path ih =>
    rw [List.cons_append, walk_cons, ih]
    constructor
    . rintro ⟨hc, b, hb, h⟩
      exact ⟨b, ⟨hc, hb⟩, h⟩
    . rintro ⟨b, ⟨hc, hb⟩, h⟩
      exact ⟨hc, b, hb, h⟩

theorem walk_concat : Walk R r (path ++ [b]) a ↔ ∃ c, Walk R r path c ∧ R c b ∧ b = a :=
  walk_append

theorem Walk.concat (h : Walk R r path a) (hR : R a b) : Walk R r (path ++ [b]) b :=
  walk_concat.mpr ⟨a, h, hR, rfl⟩

theorem Walk.append (h : Walk R r path a) (h' : Walk R a path' b) : Walk R r (path ++ path') b :=
  walk_append.mpr ⟨a, h, h'⟩

theorem Walk.mono (hRS : ∀ a b, R a b → S a b) (h : Walk R r path a) : Walk S r path a := by
  induction path generalizing r with
  | nil => exact h
  | cons c path ih => exact ⟨hRS r c h.1, ih h.2⟩

theorem Walk.reach (h : Walk R r path a) : Reach R r a := by
  induction path generalizing r with
  | nil =>
    cases h
    exact .refl
  | cons c path ih => exact .head h.1 (ih h.2)

theorem Walk.unique (h : Walk R r path a) (h' : Walk R r path b) : a = b := by
  induction path generalizing r with
  | nil => exact h.symm.trans h'
  | cons c path ih => exact ih h.2 h'.2

theorem exists_walk (h : Reach R r a) : ∃ path, Walk R r path a := by
  induction h with
  | refl => exact ⟨[], rfl⟩
  | tail hreach hR ih =>
    obtain ⟨path, hwalk⟩ := ih
    exact ⟨_, hwalk.concat hR⟩

-- A walk can be left at any of its nodes.
theorem Walk.exists_of_mem (h : Walk R r path a) (hb : b ∈ r :: path) :
    ∃ rest rest', path = rest ++ rest' ∧ Walk R r rest b := by
  rw [List.mem_cons] at hb
  obtain rfl | hb := hb
  . exact ⟨[], path, rfl, rfl⟩
  . obtain ⟨rest, rest', rfl⟩ := List.append_of_mem hb
    obtain ⟨c, hc, hb', -⟩ := walk_append.mp h
    refine ⟨rest ++ [b], rest', ?_, hc.concat hb'⟩
    rw [List.append_assoc, List.singleton_append]

/-!
### Trees
-/

theorem tree_of_pred (hroot : ∀ a, Reach R r a → ¬R a r)
    (hpred : ∀ a b c, Reach R r a → Reach R r b → R a c → R b c → a = b) : Tree R r := by
  intro a ha
  obtain ⟨path, hpath⟩ := exists_walk ha
  refine ⟨path, hpath, ?_⟩
  clear ha
  intro path' hpath'
  induction path using List.reverseRecOn generalizing a path' with
  | nil =>
    cases hpath
    obtain rfl | ⟨path', b, rfl⟩ := path'.eq_nil_or_concat'
    . rfl
    . rw [walk_concat] at hpath'
      obtain ⟨c, hc, hcb, rfl⟩ := hpath'
      exact absurd hcb (hroot c hc.reach)
  | append_singleton path b ih =>
    rw [walk_concat] at hpath
    obtain ⟨c, hc, hcb, rfl⟩ := hpath
    obtain rfl | ⟨path', b', rfl⟩ := path'.eq_nil_or_concat'
    . cases hpath'
      exact absurd hcb (hroot c hc.reach)
    . rw [walk_concat] at hpath'
      obtain ⟨c', hc', hcb', rfl⟩ := hpath'
      have heq := hpred c' c b' hc'.reach hc.reach hcb' hcb
      rw [ih c hc path' (heq ▸ hc')]

namespace Tree

theorem walk_unique (h : Tree R r) (hpath : Walk R r path a) (hpath' : Walk R r path' a) :
    path = path' :=
  (h a hpath.reach).unique hpath hpath'

theorem not_root (h : Tree R r) (ha : Reach R r a) : ¬R a r := by
  intro hR
  obtain ⟨path, hpath⟩ := exists_walk ha
  have heq := h.walk_unique (hpath.concat hR) (walk_nil.mpr rfl)
  exact List.append_ne_nil_of_right_ne_nil path (List.cons_ne_nil r []) heq

theorem pred_unique (h : Tree R r) (ha : Reach R r a) (hb : Reach R r b) (hac : R a c)
    (hbc : R b c) : a = b := by
  obtain ⟨path, hpath⟩ := exists_walk ha
  obtain ⟨path', hpath'⟩ := exists_walk hb
  have heq := h.walk_unique (hpath.concat hac) (hpath'.concat hbc)
  have hpaths := List.append_cancel_right heq
  exact Walk.unique hpath (hpaths ▸ hpath')

theorem nodup (h : Tree R r) (hpath : Walk R r path a) : (r :: path).Nodup := by
  induction path using List.reverseRecOn generalizing a with
  | nil => exact List.nodup_singleton r
  | append_singleton path b ih =>
    obtain ⟨c, hc, hcb, rfl⟩ := walk_concat.mp hpath
    rw [← List.cons_append]
    apply (ih hc).append (List.nodup_singleton b)
    rw [List.disjoint_singleton]
    intro hmem
    -- There would be a shorter way to `b`.
    obtain ⟨rest, rest', heq, hrest⟩ := hc.exists_of_mem hmem
    have hlength := congrArg List.length (h.walk_unique hrest hpath)
    rw [heq, List.length_append, List.length_append, List.length_singleton] at hlength
    omega

end Tree

/-!
### Hanging a tree under a node
-/

def Hang (R : α → α → Prop) (i c : α) (a b : α) : Prop :=
  R a b ∨ (a = i ∧ b = c)

theorem reach_hang (h : Reach R r a) : Reach (Hang R i c) r a := by
  induction h with
  | refl => exact .refl
  | tail _ hR ih => exact ih.tail (.inl hR)

theorem reach_hang_iff (hi : Reach R r i) :
    Reach (Hang R i c) r a ↔ Reach R r a ∨ Reach R c a := by
  constructor
  . intro h
    induction h with
    | refl => exact .inl .refl
    | tail _ hR ih =>
      obtain hR | ⟨-, rfl⟩ := hR
      . exact ih.imp (fun h => h.tail hR) (fun h => h.tail hR)
      . exact .inr .refl
  . intro h
    cases h with
    | inl h => exact reach_hang h
    | inr h => exact ((reach_hang hi).tail (.inr ⟨rfl, rfl⟩)).trans (reach_hang h)

theorem reach_hang_iff_of_not (hi : ¬Reach R r i) : Reach (Hang R i c) r a ↔ Reach R r a := by
  constructor
  . intro h
    induction h with
    | refl => exact .refl
    | tail _ hR ih =>
      obtain hR | ⟨rfl, -⟩ := hR
      . exact ih.tail hR
      . exact absurd ih hi
  . exact reach_hang

namespace Tree

theorem of_hang (h : Tree (Hang R i c) r) (hi : Reach R r i) (hnew : ¬R i c) :
    Tree R c ∧ ∀ a, Reach R c a → ¬Reach R r a := by
  obtain ⟨path, hpath⟩ := exists_walk hi
  have hleft : ∀ {r a path}, Walk R r path a → Walk (Hang R i c) r path a :=
    Walk.mono fun _ _ => Or.inl
  have hbelow : ∀ {a path'}, Walk R c path' a → Walk (Hang R i c) r (path ++ c :: path') a := by
    intro a path' hpath'
    exact (hleft hpath).append ⟨.inr ⟨rfl, rfl⟩, hleft hpath'⟩
  constructor
  . intro a ha
    obtain ⟨path', hpath'⟩ := exists_walk ha
    refine ⟨path', hpath', ?_⟩
    intro path'' hpath''
    have heq := h.walk_unique (hbelow hpath'') (hbelow hpath')
    exact (List.cons.inj (List.append_cancel_left heq)).2
  . intro a hc hr
    obtain ⟨path', hpath'⟩ := exists_walk hc
    obtain ⟨path'', hpath''⟩ := exists_walk hr
    -- The way through `i` and `c` uses the new edge, the other one does not.
    have heq := h.walk_unique (hleft hpath'') (hbelow hpath')
    rw [heq, walk_append] at hpath''
    obtain ⟨b, hb, hbc, -⟩ := hpath''
    exact hnew (Walk.unique hpath hb ▸ hbc)

theorem hang (h : Tree R r) (h' : Tree R c) (hi : Reach R r i)
    (hdisj : ∀ a, Reach R c a → ¬Reach R r a) : Tree (Hang R i c) r := by
  have hcases : ∀ {a}, Reach (Hang R i c) r a → Reach R r a ∨ Reach R c a :=
    (reach_hang_iff hi).mp
  apply tree_of_pred
  . intro a ha hR
    obtain hR | ⟨-, rfl⟩ := hR
    . obtain ha | ha := hcases ha
      . exact h.not_root ha hR
      . exact hdisj r (ha.tail hR) .refl
    . exact hdisj r .refl .refl
  . -- What comes before `c` in the old relation is in neither tree.
    have hnone : ∀ {a}, Reach (Hang R i c) r a → ¬R a c := by
      intro a ha hR
      obtain ha | ha := hcases ha
      . exact hdisj c .refl (ha.tail hR)
      . exact h'.not_root ha hR
    intro a b d ha hb had hbd
    obtain had | ⟨rfl, rfl⟩ := had
    . obtain hbd | ⟨-, rfl⟩ := hbd
      . obtain ha | ha := hcases ha
        . obtain hb | hb := hcases hb
          . exact h.pred_unique ha hb had hbd
          . exact absurd (ha.tail had) (hdisj d (hb.tail hbd))
        . obtain hb | hb := hcases hb
          . exact absurd (hb.tail hbd) (hdisj d (ha.tail had))
          . exact h'.pred_unique ha hb had hbd
      . exact absurd had (hnone ha)
    . obtain hbd | ⟨rfl, -⟩ := hbd
      . exact absurd hbd (hnone hb)
      . rfl

theorem hang_of_not (h : Tree R r) (hi : ¬Reach R r i) : Tree (Hang R i c) r := by
  have hold : ∀ {a b}, Reach R r a → Hang R i c a b → R a b := by
    intro a b ha hR
    obtain hR | ⟨rfl, -⟩ := hR
    . exact hR
    . exact absurd ha hi
  apply tree_of_pred
  . intro a ha hR
    rw [reach_hang_iff_of_not hi] at ha
    exact h.not_root ha (hold ha hR)
  . intro a b d ha hb had hbd
    rw [reach_hang_iff_of_not hi] at ha hb
    exact h.pred_unique ha hb (hold ha had) (hold hb hbd)

end Tree
end Rooted
