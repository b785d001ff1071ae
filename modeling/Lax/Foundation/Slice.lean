/-!
This module contains windows into a list: reading `len` elements at an offset and overwriting
elements in place. A list that is built as `pre ++ mid ++ post` is a buffer in which `mid` is the
part somebody works on.
-/

namespace Slice

variable {α : Type}

def read (xs : List α) (pos len : Nat) : List α :=
  (xs.drop pos).take len

def write (xs : List α) (pos : Nat) (ys : List α) : List α :=
  xs.take pos ++ ys ++ xs.drop (pos + ys.length)

theorem length_read (xs : List α) (pos len : Nat) (h : pos + len ≤ xs.length) :
    (read xs pos len).length = len := by
  simp only [read, List.length_take, List.length_drop]
  omega

theorem read_zero (xs : List α) (len : Nat) : read xs 0 len = xs.take len := by
  simp [read]

theorem length_write (xs ys : List α) (pos : Nat) (h : pos + ys.length ≤ xs.length) :
    (write xs pos ys).length = xs.length := by
  simp only [write, List.length_append, List.length_take, List.length_drop]
  omega

theorem write_zero (xs ys : List α) : write xs 0 ys = ys ++ xs.drop ys.length := by
  simp [write]

theorem drop_write (xs ys : List α) (pos : Nat) (h : pos ≤ xs.length) :
    (write xs pos ys).drop (pos + ys.length) = xs.drop (pos + ys.length) := by
  have hlen : (xs.take pos ++ ys).length = pos + ys.length := by
    simp only [List.length_append, List.length_take]
    omega
  unfold write
  rw [← hlen]
  exact List.drop_left

theorem read_write_self (xs ys : List α) (pos : Nat) (h : pos ≤ xs.length) :
    read (write xs pos ys) pos ys.length = ys := by
  have hlen : (xs.take pos).length = pos := by
    simp only [List.length_take]
    omega
  unfold read write
  rw [List.append_assoc, List.drop_append_of_le_length (by omega), List.drop_eq_nil_of_le (by omega)]
  simp

theorem read_add (xs : List α) (pos m n : Nat) :
    read xs pos (m + n) = read xs pos m ++ read xs (pos + m) n := by
  unfold read
  rw [List.take_add, List.drop_drop]

theorem write_write (xs ys zs : List α) (pos : Nat) (h : pos + ys.length ≤ xs.length) :
    write (write xs pos ys) (pos + ys.length) zs = write xs pos (ys ++ zs) := by
  have htake : (write xs pos ys).take (pos + ys.length) = xs.take pos ++ ys := by
    have hlen : (xs.take pos ++ ys).length = pos + ys.length := by
      simp only [List.length_append, List.length_take]
      omega
    unfold write
    exact List.take_left' hlen
  have hdrop : (write xs pos ys).drop (pos + ys.length + zs.length)
      = xs.drop (pos + (ys ++ zs).length) := by
    rw [← List.drop_drop, drop_write xs ys pos (by omega), List.drop_drop, List.length_append,
      Nat.add_assoc]
  rw [write, htake, hdrop, write]
  simp only [List.append_assoc]

theorem read_write_take (xs ys : List α) (pos n : Nat) (h : pos ≤ xs.length)
    (hn : n ≤ ys.length) : read (write xs pos ys) pos n = ys.take n := by
  have hread := read_write_self xs ys pos h
  have hmin : n = min n ys.length := by omega
  unfold read at hread ⊢
  rw [hmin, ← List.take_take, hread, Nat.min_eq_left hn]

theorem read_write_right (xs ys : List α) (pos n : Nat) (h : pos ≤ xs.length) :
    read (write xs pos ys) (pos + ys.length) n = read xs (pos + ys.length) n := by
  unfold read
  rw [drop_write xs ys pos h]

/-!
### Working inside `pre ++ mid ++ post`
-/

theorem read_middle (pre mid post : List α) (pos len : Nat) (h : pos + len ≤ mid.length) :
    read (pre ++ mid ++ post) (pre.length + pos) len = read mid pos len := by
  unfold read
  rw [List.append_assoc, List.drop_length_add_append]
  rw [List.drop_append_of_le_length (by omega)]
  rw [List.take_append_of_le_length]
  simp only [List.length_drop]
  omega

theorem read_start (pre mid post : List α) {len : Nat} (h : len ≤ mid.length) :
    read (pre ++ mid ++ post) pre.length len = mid.take len := by
  have hread := read_middle pre mid post 0 len (by omega)
  rwa [Nat.add_zero, read_zero] at hread

theorem write_middle (pre mid post ys : List α) (pos : Nat) (h : pos + ys.length ≤ mid.length) :
    write (pre ++ mid ++ post) (pre.length + pos) ys = pre ++ write mid pos ys ++ post := by
  unfold write
  have htake : (pre ++ (mid ++ post)).take (pre.length + pos) = pre ++ mid.take pos := by
    rw [List.take_length_add_append, List.take_append_of_le_length (by omega)]
  have hdrop : (pre ++ (mid ++ post)).drop (pre.length + (pos + ys.length)) =
      mid.drop (pos + ys.length) ++ post := by
    rw [List.drop_length_add_append, List.drop_append_of_le_length (by omega)]
  rw [List.append_assoc pre mid post, htake, Nat.add_assoc, hdrop]
  simp only [List.append_assoc]

theorem getElem?_middle (pre mid post : List α) (pos : Nat) (h : pos < mid.length) :
    (pre ++ mid ++ post)[pre.length + pos]? = mid[pos]? := by
  rw [List.append_assoc, List.getElem?_append_right (by omega), Nat.add_sub_cancel_left]
  exact List.getElem?_append_left h

theorem split (xs : List α) (pos len : Nat) :
    xs = xs.take pos ++ read xs pos len ++ xs.drop (pos + len) := by
  unfold read
  rw [List.append_assoc, ← List.drop_drop, List.take_append_drop, List.take_append_drop]

end Slice
