import Lax.Foundation.Runs
import Lax.Util.Impl.StringUtil

/-!
This module contains what `tokenize` returns: it splits off the runs of a string, but for a string that
begins with a delimiter it counts one split too many.
-/

namespace Lax
namespace StringUtil

open Runs (runs split)

variable {α : Type} [DecidableEq α] {str delims : List α} {maxSplits : Nat}

/-!
### Positions
-/

-- What satisfies `p` is passed over.
structure Found (p : α → Bool) (str : List α) (start pos : Nat) : Prop where
  le : start ≤ pos
  lt_length : pos < str.length
  drop : str.drop pos = (str.drop start).dropWhile p
  take : (str.drop start).take (pos - start) = (str.drop start).takeWhile p

omit [DecidableEq α] in
theorem findFirst_cases (p : α → Bool) (str : List α) (start : Nat) :
    findFirst p str (some start) = none ∧ (str.drop start).dropWhile (!p ·) = []
      ∨ ∃ pos, findFirst p str (some start) = some pos ∧ Found (!p ·) str start pos := by
  have htake := @List.takeWhile_eq_take_findIdx_not α (str.drop start) (!p ·)
  have hdrop := @List.dropWhile_eq_drop_findIdx_not α (str.drop start) (!p ·)
  simp only [Bool.not_not] at htake hdrop
  unfold findFirst
  dsimp only [Option.bind_some]
  cases hidx : (str.drop start).findIdx? p with
  | none =>
    rw [List.findIdx?_eq_none_iff_findIdx_eq] at hidx
    left
    rw [hdrop, hidx]
    exact ⟨rfl, List.drop_length⟩
  | some n =>
    rw [List.findIdx?_eq_some_iff_findIdx_eq] at hidx
    right
    refine ⟨start + n, rfl, ?_⟩
    have hlt := hidx.1
    rw [List.length_drop] at hlt
    constructor
    . omega
    . omega
    . rw [hdrop, hidx.2, List.drop_drop]
    . rw [htake, hidx.2]
      congr
      omega

theorem findFirstOf_cases (str set : List α) (start : Nat) :
    findFirstOf str set (some start) = none
        ∧ (str.drop start).dropWhile (fun c => !decide (c ∈ set)) = []
      ∨ ∃ pos, findFirstOf str set (some start) = some pos
        ∧ Found (fun c => !decide (c ∈ set)) str start pos :=
  findFirst_cases (· ∈ set) str start

theorem findFirstNotOf_cases (str set : List α) (start : Nat) :
    findFirstNotOf str set (some start) = none ∧ (str.drop start).dropWhile (· ∈ set) = []
      ∨ ∃ pos, findFirstNotOf str set (some start) = some pos ∧ Found (· ∈ set) str start pos := by
  have hcases := findFirst_cases (· ∉ set) str start
  simp only [← decide_not, not_not] at hcases
  exact hcases

theorem findFirstOf_none (str set : List α) : findFirstOf str set none = none :=
  rfl

omit [DecidableEq α] in
theorem substr_of_le {start : Nat} (h : start ≤ str.length) (stop : Option Nat) :
    substr str (some start) stop = some (match stop with
      | none => str.drop start
      | some stop => (str.drop start).take (stop - start)) := by
  unfold substr
  dsimp only
  rw [if_pos h]
  cases stop with
  | none => rfl
  | some stop => rfl

/-!
### The loop
-/

-- How many more tokens are split off after `numSplits`.
def limit (maxSplits numSplits : Nat) : Option Nat :=
  if maxSplits = 0 then none else some (maxSplits - numSplits)

theorem limit_succ {numSplits : Nat} :
    (limit maxSplits numSplits).map (· - 1) = limit maxSplits (numSplits + 1) := by
  unfold limit
  split
  . rfl
  . rfl

theorem limit_eq_zero_iff {numSplits : Nat} (hle : maxSplits = 0 ∨ numSplits ≤ maxSplits) :
    maxSplits > 0 ∧ numSplits = maxSplits ↔ limit maxSplits numSplits = some 0 := by
  unfold limit
  split
  . simp
    omega
  . rw [Option.some_inj]
    omega

-- What starts at a run and ends where it ends.
theorem Found.run {start first stop : Nat} (h : Found (· ∈ delims) str start first)
    (hstop : Found (fun c => !decide (c ∈ delims)) str first stop) :
    (str.drop first).take (stop - first) = Runs.word (· ∈ delims) (str.drop start)
      ∧ str.drop stop = Runs.after (· ∈ delims) (str.drop start) := by
  unfold Runs.word Runs.after
  rw [← h.drop, hstop.take, hstop.drop]
  exact ⟨rfl, rfl⟩

omit [DecidableEq α] in
theorem Found.dropWhile_ne_nil {p : α → Bool} {start pos : Nat} (h : Found p str start pos) :
    (str.drop start).dropWhile p ≠ [] := by
  rw [← h.drop]
  intro hnil
  rw [List.drop_eq_nil_iff] at hnil
  have hlt := h.lt_length
  omega

-- A delimiter that ends a run is not part of what is split then.
theorem Found.split_succ {first stop : Nat} (hstop : Found (fun c => !decide (c ∈ delims)) str first stop)
    (limit : Option Nat) :
    split (· ∈ delims) limit (str.drop (stop + 1)) = split (· ∈ delims) limit (str.drop stop) := by
  have hcons := List.drop_eq_getElem_cons hstop.lt_length
  have hnot := Runs.not_of_dropWhile (hstop.drop.symm.trans hcons)
  rw [hcons]
  apply (Runs.split_cons_of_sep _ _ _).symm
  simpa using hnot

theorem tokenizeLoop_eq {fuel start numSplits : Nat} {ret : List (List α)}
    (hfuel : str.length - start < fuel) (hle : maxSplits = 0 ∨ numSplits ≤ maxSplits) :
    tokenizeLoop str delims maxSplits fuel (findFirstNotOf str delims (some start)) numSplits ret
      =
    some (ret ++ split (· ∈ delims) (limit maxSplits numSplits) (str.drop start)) := by
  induction fuel generalizing start numSplits ret with
  | zero => omega
  | succ fuel ih =>
    unfold tokenizeLoop
    obtain ⟨hnone, hdrop⟩ | ⟨first, hfirst, hfound⟩ := findFirstNotOf_cases str delims start
    . rw [hnone, findFirstOf_none, Runs.split_eq_nil _ hdrop]
      simp
    . have hrun := hfound.dropWhile_ne_nil
      have hle_length := Nat.le_of_lt hfound.lt_length
      rw [hfirst]
      obtain ⟨hnone, hafter⟩ | ⟨stop, hstop, hfound'⟩ := findFirstOf_cases str delims first
      . -- The last run has no delimiter behind it.
        rw [hfound.drop] at hafter
        rw [hnone, if_neg (Option.some_ne_none first).symm, if_pos (Or.inl rfl), substr_of_le hle_length,
          Runs.split_last _ hrun hafter, hfound.drop]
        rfl
      . obtain ⟨hword, hafter⟩ := hfound.run hfound'
        have hne : some stop ≠ some first := by
          intro heq
          injection heq with heq
          rw [heq, Nat.sub_self, List.take_zero] at hword
          exact Runs.word_ne_nil hrun hword.symm
        rw [hstop, if_neg hne]
        by_cases hlimit : limit maxSplits numSplits = some 0
        . rw [if_pos (Or.inr ((limit_eq_zero_iff hle).mpr hlimit)), substr_of_le hle_length, hlimit,
            Runs.split_zero hrun, hfound.drop]
          rfl
        . have hsplits := (limit_eq_zero_iff hle).not.mpr hlimit
          have hlt := hfound'.lt_length
          have hle_stop := hfound'.le
          have hle_first := hfound.le
          rw [if_neg (not_or.mpr ⟨Option.some_ne_none stop, hsplits⟩), substr_of_le hle_length,
            Option.bind_some]
          dsimp only [succ]
          rw [if_pos (Option.some_ne_none stop), ih (by omega) (by omega), hfound'.split_succ, hword,
            hafter, Runs.split_eq hlimit hrun, limit_succ, List.append_assoc]
          rfl

/-!
### Strings
-/

theorem tokenize_nil : tokenize [] delims maxSplits = some [[]] := by
  rfl

theorem tokenize_of_not_mem {c : α} (hc : c ∉ delims) :
    tokenize (c :: str) delims maxSplits
      =
    some (split (· ∈ delims) (limit maxSplits 0) (c :: str)) := by
  have hstart : findFirstNotOf (c :: str) delims (some 0) = some 0 := by
    simp [findFirstNotOf, findFirst, List.findIdx?_cons, hc]
  unfold tokenize
  rw [← hstart, tokenizeLoop_eq]
  . rfl
  . simp
  . omega

-- The delimiter at the beginning is passed over and counted.
theorem tokenize_of_mem {c : α} (hc : c ∈ delims) :
    tokenize (c :: str) delims maxSplits
      =
    some (split (· ∈ delims) (limit maxSplits 1) (c :: str)) := by
  have hpos : findFirstOf (c :: str) delims (some 0) = some 0 := by
    simp [findFirstOf, findFirst, List.findIdx?_cons, hc]
  unfold tokenize tokenizeLoop
  rw [hpos]
  dsimp only [succ]
  rw [if_pos rfl, if_pos (Option.some_ne_none 0), tokenizeLoop_eq]
  . have hsplit := @Runs.split_cons_of_sep α (· ∈ delims) c (limit maxSplits 1) (decide_eq_true hc) str
    rw [hsplit]
    rfl
  . rw [List.length_cons]
    omega
  . omega

/--
`tokenize` splits the runs off, as many of them as it may, unless the string is empty, or begins with a
delimiter and has more runs than that. The same goes for as many runs when a delimiter is behind the last.
-/
theorem tokenize_eq_split_iff (str delims : List α) (maxSplits : Nat) :
    tokenize str delims maxSplits
        = some (split (· ∈ delims) (if maxSplits = 0 then none else some maxSplits) str)
      ↔ str ≠ [] ∧ (maxSplits = 0 ∨ (∀ c ∈ str.head?, c ∉ delims)
        ∨ (runs (· ∈ delims) str).length < maxSplits
        ∨ (runs (· ∈ delims) str).length = maxSplits ∧ ∀ c ∈ str.getLast?, c ∉ delims) := by
  cases str with
  | nil =>
    rw [tokenize_nil, Runs.split_eq_nil _ rfl]
    simp
  | cons c str =>
    rw [and_iff_right (List.cons_ne_nil c str)]
    by_cases hc : c ∈ delims
    . rw [tokenize_of_mem hc, Option.some_inj]
      cases maxSplits with
      | zero => exact iff_of_true rfl (Or.inl rfl)
      | succ k =>
        have hsplit := @Runs.split_succ_eq_iff α (· ∈ delims) k (c :: str)
        have hnot : ¬∀ c' ∈ (c :: str).head?, c' ∉ delims := by
          simpa using hc
        unfold Runs.Ends at hsplit
        simp only [decide_eq_false_iff_not] at hsplit
        rw [or_iff_right (Nat.succ_ne_zero k), or_iff_right hnot]
        exact hsplit
    . rw [tokenize_of_not_mem hc]
      apply iff_of_true
      . rfl
      . right
        left
        simpa using hc

-- One split is allowed, and the delimiter in front is taken for it.
theorem exists_tokenize_ne_split :
    tokenize " a b".toList " ".toList 1 ≠ some (split (· ∈ " ".toList) (some 1) " a b".toList) := by
  decide

end StringUtil
end Lax
