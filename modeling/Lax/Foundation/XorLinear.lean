import Mathlib.Logic.Function.Iterate

/-!
This module contains functions between bit vectors that are additive in exclusive or. Such a function
is determined by what it makes of the single bits.
-/

structure XorLinear {v w : Nat} (f : BitVec v → BitVec w) : Prop where
  xor : ∀ a b, f (a ^^^ b) = f a ^^^ f b

namespace XorLinear

variable {u v w : Nat} {f g : BitVec v → BitVec w}

theorem zero (hf : XorLinear f) : f 0#v = 0#w := by
  have h := hf.xor 0#v 0#v
  rwa [BitVec.xor_self, BitVec.xor_self] at h

protected theorem id : XorLinear fun a : BitVec v => a := ⟨fun _ _ => rfl⟩

theorem comp {h : BitVec u → BitVec v} (hf : XorLinear f) (hh : XorLinear h) :
    XorLinear fun a => f (h a) :=
  ⟨fun a b => by rw [hh.xor, hf.xor]⟩

theorem add (hf : XorLinear f) (hg : XorLinear g) : XorLinear fun a => f a ^^^ g a := by
  refine ⟨fun a b => ?_⟩
  rw [hf.xor, hg.xor]
  ac_rfl

theorem iterate {f : BitVec w → BitVec w} (hf : XorLinear f) (n : Nat) : XorLinear f^[n] := by
  induction n with
  | zero => exact XorLinear.id
  | succ n ih => exact ih.comp hf

protected theorem ushiftRight (n : Nat) : XorLinear fun a : BitVec v => a >>> n :=
  ⟨fun a b => BitVec.ushiftRight_xor_distrib a b n⟩

protected theorem shiftLeft (n : Nat) : XorLinear fun a : BitVec v => a <<< n :=
  ⟨fun a b => BitVec.shiftLeft_xor_distrib a b n⟩

protected theorem setWidth (w : Nat) : XorLinear fun a : BitVec v => a.setWidth w :=
  ⟨fun _ _ => BitVec.setWidth_xor⟩

-- A constant that is there whenever a bit is.
protected theorem bit (i : Nat) (c : BitVec w) :
    XorLinear fun a : BitVec v => if a.getLsbD i then c else 0#w := by
  refine ⟨fun a b => ?_⟩
  rw [BitVec.getLsbD_xor]
  cases a.getLsbD i <;> cases b.getLsbD i <;> simp

theorem ext (hf : XorLinear f) (hg : XorLinear g)
    (h : ∀ i < v, f (BitVec.twoPow v i) = g (BitVec.twoPow v i)) (a : BitVec v) : f a = g a := by
  -- The bits that are left to look at are the first `n`.
  have hlow : ∀ n, ∀ a : BitVec v, (∀ i, n ≤ i → a.getLsbD i = false) → f a = g a := by
    intro n
    induction n with
    | zero =>
      intro a ha
      have hzero : a = 0#v := BitVec.eq_of_getLsbD_eq fun i _ => by simp [ha i (Nat.zero_le i)]
      rw [hzero, hf.zero, hg.zero]
    | succ n ih =>
      intro a ha
      by_cases hbit : a.getLsbD n
      . have hn : n < v := BitVec.lt_of_getLsbD hbit
        have hrest : f (a ^^^ BitVec.twoPow v n) = g (a ^^^ BitVec.twoPow v n) := by
          apply ih
          intro i hi
          rw [BitVec.getLsbD_xor, BitVec.getLsbD_twoPow]
          obtain rfl | hlt := Nat.eq_or_lt_of_le hi
          . simp [hbit, hn]
          . simp [ha i hlt, Nat.ne_of_lt hlt]
        rw [hf.xor, hg.xor, h n hn] at hrest
        exact (BitVec.xor_left_inj _).mp hrest
      . apply ih
        intro i hi
        obtain rfl | hlt := Nat.eq_or_lt_of_le hi
        . simpa using hbit
        . exact ha i hlt
  exact hlow v a fun i hi => BitVec.getLsbD_of_ge a i hi

end XorLinear
