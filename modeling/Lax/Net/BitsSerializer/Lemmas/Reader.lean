import Lax.Net.BitsSerializer.Impl.Reader

/-!
This module contains that a reader runs on the bytes between its iterators and on nothing else.
-/

namespace Lax
namespace BitsSerializer

theorem ReaderError.ofCode_code (e : ReaderError) : ofCode e.code = e := by
  cases e with
  | readingError => rfl
  | dataOverflow => rfl
  | invalidData => rfl
  | invalidPointer => rfl

theorem ReaderError.code_pos (e : ReaderError) : 0 < e.code := by
  cases e with
  | readingError => decide
  | dataOverflow => decide
  | invalidData => decide
  | invalidPointer => decide

namespace Reader

variable {α : Type}

-- The bytes that are left, or the error.
def view (r : Reader) : Except ReaderError (List UInt8) :=
  match r.error with
  | some e => .error e
  | none => .ok (Slice.read r.buf r.posIt (r.endIt - r.posIt))

theorem error_eq_some_iff {r : Reader} {e : ReaderError} : r.error = some e ↔ r.view = .error e := by
  unfold view
  cases r.error with
  | none => simp
  | some e' => simp

theorem error_eq_none_iff {r : Reader} : r.error = none ↔ r.posIt ≤ r.endIt := by
  unfold error
  split
  . next h => simp [Nat.not_le.mpr h]
  . next h => simp [Nat.not_lt.mp h]

theorem view_of_le {r : Reader} (h : r.posIt ≤ r.endIt) :
    r.view = .ok (Slice.read r.buf r.posIt (r.endIt - r.posIt)) := by
  unfold view
  rw [error_eq_none_iff.mpr h]

theorem view_ctor (buf : List UInt8) (iter len : Nat) :
    (ctor buf iter len).view = .ok (Slice.read buf iter len) := by
  rw [view_of_le (Nat.le_add_right iter len)]
  unfold ctor
  rw [Nat.add_sub_cancel_left]

theorem setError_of_error {r : Reader} {e : ReaderError} (h : r.view = .error e) (e' : ReaderError) :
    r.setError e' = r := by
  unfold setError
  rw [error_eq_some_iff.mpr h, if_neg nofun]

theorem view_setError {r : Reader} (h : r.posIt ≤ r.endIt) (e : ReaderError) :
    (r.setError e).view = .error e := by
  apply error_eq_some_iff.mp
  unfold setError error
  rw [if_neg (Nat.not_lt.mpr h), if_pos rfl, if_pos (Nat.lt_add_of_pos_right e.code_pos),
    Nat.add_sub_cancel_left, ReaderError.ofCode_code]

theorem read_of_error {r : Reader} {e : ReaderError} (h : r.view = .error e) (n : Nat) :
    r.read n = (List.replicate n 0, r) := by
  have hlt : r.endIt < r.posIt := by
    apply Nat.not_le.mp
    intro hle
    rw [view_of_le hle] at h
    cases h
  unfold read
  rw [if_neg, setError_of_error h]
  omega

theorem endIt_setError_le (r : Reader) (e : ReaderError) (h : r.endIt ≤ r.buf.length) :
    (r.setError e).endIt ≤ (r.setError e).buf.length := by
  unfold setError
  split
  . next hnone => exact Nat.le_trans (error_eq_none_iff.mp hnone) h
  . exact h

theorem endIt_read_le (r : Reader) (n : Nat) (h : r.endIt ≤ r.buf.length) :
    (r.read n).2.endIt ≤ (r.read n).2.buf.length := by
  unfold read
  split
  . exact h
  . exact r.endIt_setError_le _ h

theorem view_eq_ok_iff {r : Reader} {s : List UInt8} :
    r.view = .ok s ↔ r.posIt ≤ r.endIt ∧ Slice.read r.buf r.posIt (r.endIt - r.posIt) = s := by
  by_cases h : r.posIt ≤ r.endIt
  . rw [view_of_le h]
    simp [h]
  . unfold view error
    rw [if_pos (Nat.lt_of_not_le h)]
    simp [h]

theorem length_of_view {r : Reader} {s : List UInt8} (hend : r.endIt ≤ r.buf.length)
    (h : r.view = .ok s) : r.posIt + s.length = r.endIt := by
  obtain ⟨hle, rfl⟩ := view_eq_ok_iff.mp h
  rw [Slice.length_read _ _ _ (by omega)]
  omega

theorem read_of_le {r : Reader} {s : List UInt8} (hend : r.endIt ≤ r.buf.length)
    (h : r.view = .ok s) {n : Nat} (hn : n ≤ s.length) :
    (r.read n).1 = s.take n ∧ (r.read n).2.view = .ok (s.drop n) := by
  have hlen := length_of_view hend h
  obtain ⟨hle, rfl⟩ := view_eq_ok_iff.mp h
  have hn' : r.posIt + n ≤ r.endIt := by omega
  unfold read
  rw [if_pos hn']
  refine ⟨?_, view_eq_ok_iff.mpr ⟨hn', ?_⟩⟩
  . unfold Slice.read
    rw [List.take_take, Nat.min_eq_left (by omega)]
  . unfold Slice.read
    rw [List.drop_take, List.drop_drop, Nat.sub_sub]

theorem read_of_lt {r : Reader} {s : List UInt8} (hend : r.endIt ≤ r.buf.length)
    (h : r.view = .ok s) {n : Nat} (hn : s.length < n) :
    r.read n = (List.replicate n 0, r.setError .dataOverflow) := by
  have hlen := length_of_view hend h
  unfold read
  rw [if_neg (by omega)]

theorem run_eq_exec (p : Input ReaderError α) {r : Reader} (hend : r.endIt ≤ r.buf.length) :
    (run p r).1 = (p.exec .dataOverflow r.view).1
      ∧ (run p r).2.view = (p.exec .dataOverflow r.view).2 := by
  induction p generalizing r with
  | ret a => exact ⟨rfl, rfl⟩
  | read n next ih =>
    have hread := ih (r.read n).1 (r.endIt_read_le n hend)
    change (run (next (r.read n).1) (r.read n).2).1 = _ ∧
      (run (next (r.read n).1) (r.read n).2).2.view = _
    rw [hread.1, hread.2]
    cases hview : r.view with
    | error e =>
      rw [read_of_error hview, hview]
      exact ⟨rfl, rfl⟩
    | ok s =>
      simp only [Input.exec]
      split
      . next hn =>
        obtain ⟨hbytes, hrest⟩ := read_of_le hend hview hn
        rw [hbytes, hrest]
        exact ⟨rfl, rfl⟩
      . next hn =>
        rw [read_of_lt hend hview (Nat.lt_of_not_le hn),
          view_setError (view_eq_ok_iff.mp hview).1]
        exact ⟨rfl, rfl⟩
  | fail e next ih =>
    have hfail := ih (r.endIt_setError_le e hend)
    change (run next (r.setError e)).1 = _ ∧ (run next (r.setError e)).2.view = _
    rw [hfail.1, hfail.2]
    cases hview : r.view with
    | error e' =>
      rw [setError_of_error hview, hview]
      exact ⟨rfl, rfl⟩
    | ok s =>
      rw [view_setError (view_eq_ok_iff.mp hview).1]
      exact ⟨rfl, rfl⟩
  | resize n next ih => exact ih hend

theorem resized_eq_demand (p : Input ReaderError α) {r : Reader} (hend : r.endIt ≤ r.buf.length) :
    resized p r = p.demand .dataOverflow r.view := by
  induction p generalizing r with
  | ret a => rfl
  | read n next ih =>
    have hread := ih (r.read n).1 (r.endIt_read_le n hend)
    change resized (next (r.read n).1) (r.read n).2 = _
    rw [hread]
    cases hview : r.view with
    | error e =>
      rw [read_of_error hview, hview]
      rfl
    | ok s =>
      simp only [Input.demand]
      split
      . next hn =>
        obtain ⟨hbytes, hrest⟩ := read_of_le hend hview hn
        rw [hbytes, hrest]
      . next hn =>
        rw [read_of_lt hend hview (Nat.lt_of_not_le hn),
          view_setError (view_eq_ok_iff.mp hview).1]
  | fail e next ih =>
    change resized next (r.setError e) = _
    rw [ih (r.endIt_setError_le e hend)]
    cases hview : r.view with
    | error e' =>
      rw [setError_of_error hview, hview]
      rfl
    | ok s =>
      rw [view_setError (view_eq_ok_iff.mp hview).1]
      rfl
  | resize n next ih =>
    change n + resized next r = n + _
    rw [ih hend]

theorem isCompletedSuccessfully_iff {r : Reader} (hend : r.endIt ≤ r.buf.length) :
    r.isCompletedSuccessfully = true ↔ r.view = .ok [] := by
  unfold isCompletedSuccessfully
  rw [beq_iff_eq]
  constructor
  . intro h
    refine view_eq_ok_iff.mpr ⟨Nat.le_of_eq h, ?_⟩
    rw [h, Nat.sub_self]
    exact List.take_zero
  . exact length_of_view hend

theorem endIt_run_le (p : Input ReaderError α) {r : Reader} (hend : r.endIt ≤ r.buf.length) :
    (run p r).2.endIt ≤ (run p r).2.buf.length := by
  induction p generalizing r with
  | ret a => exact hend
  | read n next ih => exact ih _ (r.endIt_read_le n hend)
  | fail e next ih => exact ih (r.endIt_setError_le e hend)
  | resize n next ih => exact ih hend

end Reader

end BitsSerializer
end Lax
