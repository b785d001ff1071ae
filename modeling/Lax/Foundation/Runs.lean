import Mathlib.Data.List.Basic
import Mathlib.Data.List.TakeWhile

/-!
This module contains the runs of a list: what is between the elements that separate.
-/

namespace Runs

variable {α : Type} (sep : α → Bool)

-- Where there is nothing between two elements that separate, there is no run.
def runs (s : List α) : List (List α) :=
  (s.splitOnP sep).filter (!·.isEmpty)

-- The first run, and what comes after it.
def word (s : List α) : List α :=
  (s.dropWhile sep).takeWhile (!sep ·)

def after (s : List α) : List α :=
  (s.dropWhile sep).dropWhile (!sep ·)

-- From the start of the run with this number to the end.
def fromRun : Nat → List α → List α
  | 0, s => s.dropWhile sep
  | k + 1, s => fromRun k (after sep s)

-- Only so many runs are split off. Without a limit all of them are.
def split (limit : Option Nat) (s : List α) : List (List α) :=
  match limit with
  | none => runs sep s
  | some k =>
    if (runs sep s).length ≤ k then runs sep s else (runs sep s).take k ++ [fromRun sep k s]

variable {sep} {s t : List α} {c : α}

theorem not_of_dropWhile {p : α → Bool} (h : s.dropWhile p = c :: t) : p c = false := by
  have hhead := List.head?_dropWhile_not p s
  rw [h] at hhead
  simpa using hhead

@[simp]
theorem dropWhile_dropWhile {p : α → Bool} (s : List α) :
    (s.dropWhile p).dropWhile p = s.dropWhile p := by
  cases hs : s.dropWhile p with
  | nil => rfl
  | cons c t =>
    apply List.dropWhile_cons_of_neg
    rw [not_of_dropWhile hs]
    exact Bool.false_ne_true

theorem word_append_after (s : List α) : word sep s ++ after sep s = s.dropWhile sep :=
  List.takeWhile_append_dropWhile

theorem not_sep_of_mem_word (hc : c ∈ word sep s) : sep c = false := by
  have hall := List.mem_takeWhile_imp hc
  simpa using hall

theorem word_ne_nil (h : s.dropWhile sep ≠ []) : word sep s ≠ [] := by
  unfold word
  cases hs : s.dropWhile sep with
  | nil => contradiction
  | cons c t => simp [not_of_dropWhile hs]

theorem sep_of_after (h : after sep s = c :: t) : sep c := by
  have hnot := not_of_dropWhile h
  simpa using hnot

/-!
### Splitting
-/

theorem runs_cons_of_sep (hc : sep c) (s : List α) : runs sep (c :: s) = runs sep s := by
  unfold runs
  rw [List.splitOnP_cons_eq_if_modifyHead, if_pos hc]
  rfl

@[simp]
theorem runs_dropWhile (s : List α) : runs sep (s.dropWhile sep) = runs sep s := by
  induction s with
  | nil => rfl
  | cons c s ih =>
    by_cases hc : sep c
    . rw [List.dropWhile_cons_of_pos hc, runs_cons_of_sep hc]
      exact ih
    . rw [List.dropWhile_cons_of_neg hc]

theorem runs_eq (h : s.dropWhile sep ≠ []) :
    runs sep s = word sep s :: runs sep (after sep s) := by
  have hcons : ∀ l, (word sep s :: l).filter (!·.isEmpty) = word sep s :: l.filter (!·.isEmpty) := by
    intro l
    apply List.filter_cons_of_pos
    simp [word_ne_nil h]
  have hnot : ∀ c ∈ word sep s, sep c = false := fun c hc => not_sep_of_mem_word hc
  rw [← runs_dropWhile, ← word_append_after]
  cases hafter : after sep s with
  | nil =>
    unfold runs
    rw [List.append_nil, List.splitOnP_eq_singleton hnot, hcons]
    rfl
  | cons c t =>
    have hc := sep_of_after hafter
    rw [runs_cons_of_sep hc]
    unfold runs
    rw [List.splitOnP_append_cons_of_forall_mem hnot c hc, hcons]

theorem runs_eq_nil (h : s.dropWhile sep = []) : runs sep s = [] := by
  rw [← runs_dropWhile, h]
  rfl

theorem fromRun_dropWhile (k : Nat) (s : List α) :
    fromRun sep k (s.dropWhile sep) = fromRun sep k s := by
  cases k with
  | zero => apply dropWhile_dropWhile
  | succ k =>
    unfold fromRun after
    rw [dropWhile_dropWhile]

@[simp]
theorem split_dropWhile (limit : Option Nat) (s : List α) :
    split sep limit (s.dropWhile sep) = split sep limit s := by
  unfold split
  simp only [runs_dropWhile, fromRun_dropWhile]

theorem split_cons_of_sep (limit : Option Nat) (hc : sep c) (s : List α) :
    split sep limit (c :: s) = split sep limit s := by
  rw [← split_dropWhile, List.dropWhile_cons_of_pos hc, split_dropWhile]

theorem split_eq_nil (limit : Option Nat) (h : s.dropWhile sep = []) : split sep limit s = [] := by
  unfold split
  rw [runs_eq_nil h]
  cases limit with
  | none => rfl
  | some k => rfl

theorem split_zero (h : s.dropWhile sep ≠ []) : split sep (some 0) s = [s.dropWhile sep] := by
  unfold split
  rw [runs_eq h]
  rfl

theorem split_eq {limit : Option Nat} (hlimit : limit ≠ some 0) (h : s.dropWhile sep ≠ []) :
    split sep limit s = word sep s :: split sep (limit.map (· - 1)) (after sep s) := by
  unfold split
  rw [runs_eq h]
  cases limit with
  | none => rfl
  | some k =>
    cases k with
    | zero => contradiction
    | succ k =>
      simp only [Option.map_some, Nat.add_sub_cancel, List.length_cons, Nat.add_le_add_iff_right]
      split
      . rfl
      . rfl

-- The last run is split off whatever the limit is.
theorem split_last (limit : Option Nat) (h : s.dropWhile sep ≠ []) (hafter : after sep s = []) :
    split sep limit s = [s.dropWhile sep] := by
  by_cases hlimit : limit = some 0
  . rw [hlimit, split_zero h]
  . rw [split_eq hlimit h, hafter, split_eq_nil _ rfl, ← word_append_after, hafter, List.append_nil]

/-!
### One more split
-/

-- Nothing that separates is behind the last run.
def Ends (sep : α → Bool) (s : List α) : Prop :=
  ∀ c ∈ s.getLast?, sep c = false

theorem getLast?_eq (s : List α) (h : word sep s ++ after sep s ≠ []) :
    s.getLast? = (word sep s ++ after sep s).getLast? := by
  rw [← List.getLast?_append_of_ne_nil (s.takeWhile sep) h, word_append_after,
    List.takeWhile_append_dropWhile]

theorem ends_after (h : after sep s ≠ []) : Ends sep (after sep s) ↔ Ends sep s := by
  unfold Ends
  rw [getLast?_eq s (List.append_ne_nil_of_right_ne_nil _ h), List.getLast?_append_of_ne_nil _ h]

theorem ends_of_after (h : s.dropWhile sep ≠ []) (hafter : after sep s = []) : Ends sep s := by
  have hword := word_ne_nil h
  unfold Ends
  rw [getLast?_eq s (List.append_ne_nil_of_left_ne_nil hword _), hafter, List.append_nil]
  exact fun c hc => not_sep_of_mem_word (List.mem_of_getLast? hc)

theorem not_ends (h : s ≠ []) (hdrop : s.dropWhile sep = []) : ¬Ends sep s := by
  rw [List.dropWhile_eq_nil_iff] at hdrop
  intro hends
  have hfalse := hends _ (List.getLast?_eq_some_getLast h)
  rw [hdrop _ (List.getLast_mem h)] at hfalse
  contradiction

theorem dropWhile_of_runs (h : runs sep s = []) : s.dropWhile sep = [] := by
  by_contra hdrop
  rw [runs_eq hdrop] at h
  contradiction

theorem dropWhile_of_length {k : Nat} (h : (runs sep s).length = k + 1) : s.dropWhile sep ≠ [] := by
  intro hdrop
  rw [runs_eq_nil hdrop] at h
  contradiction

-- With one split less than there are runs, the last run keeps what is behind it.
theorem split_pred_eq_iff {k : Nat} (h : (runs sep s).length = k + 1) :
    split sep (some k) s = runs sep s ↔ Ends sep s := by
  have hdrop := dropWhile_of_length h
  induction k generalizing s with
  | zero =>
    rw [runs_eq hdrop, List.length_cons, Nat.add_right_cancel_iff, List.length_eq_zero_iff] at h
    rw [split_zero hdrop, runs_eq hdrop, h, ← word_append_after, List.singleton_inj,
      List.append_right_eq_self]
    constructor
    . exact ends_of_after hdrop
    . intro hends
      by_contra hafter
      exact not_ends hafter (dropWhile_of_runs h) ((ends_after hafter).mpr hends)
  | succ k ih =>
    rw [runs_eq hdrop, List.length_cons, Nat.add_right_cancel_iff] at h
    have hdrop' := dropWhile_of_length h
    have hafter : after sep s ≠ [] := by
      intro hafter
      rw [hafter] at hdrop'
      exact hdrop' rfl
    have hlimit : some (k + 1) ≠ some 0 := by
      simp
    rw [split_eq hlimit hdrop, runs_eq hdrop, List.cons_inj_right, ← ends_after hafter]
    exact ih h hdrop'

theorem split_of_le {k : Nat} (h : (runs sep s).length ≤ k) : split sep (some k) s = runs sep s :=
  if_pos h

theorem length_split_of_lt {k : Nat} (h : k < (runs sep s).length) :
    (split sep (some k) s).length = k + 1 := by
  have heq : split sep (some k) s = (runs sep s).take k ++ [fromRun sep k s] :=
    if_neg (Nat.not_le.mpr h)
  rw [heq, List.length_append, List.length_take, Nat.min_eq_left (Nat.le_of_lt h)]
  rfl

-- One split less finds the same runs as long as there are not too many of them.
theorem split_succ_eq_iff (k : Nat) (s : List α) :
    split sep (some k) s = split sep (some (k + 1)) s
      ↔ (runs sep s).length < k + 1 ∨ (runs sep s).length = k + 1 ∧ Ends sep s := by
  obtain hlt | heq | hlt := Nat.lt_trichotomy (runs sep s).length (k + 1)
  . apply iff_of_true _ (Or.inl hlt)
    rw [split_of_le (Nat.le_of_lt_succ hlt), split_of_le (Nat.le_of_lt hlt)]
  . rw [split_of_le (Nat.le_of_eq heq), split_pred_eq_iff heq, heq]
    simp
  . apply iff_of_false
    . intro h
      have hlength := congrArg List.length h
      rw [length_split_of_lt (Nat.lt_of_succ_lt hlt), length_split_of_lt hlt] at hlength
      omega
    . omega

end Runs
