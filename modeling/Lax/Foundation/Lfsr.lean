import Lax.Foundation.XorLinear
import Mathlib.Dynamics.PeriodicPts.Defs
import Mathlib.Data.Nat.Prime.Basic
import Mathlib.Tactic.Common

/-!
This module contains linear feedback shift registers: a register that is shifted down and takes the
feedback polynomial whenever a bit leaves it. Everything it does is additive in exclusive or, so
that two inputs are told apart exactly if their difference does not clear an empty register.
-/

namespace Lfsr

variable {w : Nat} (poly : BitVec w)

def step (s : BitVec w) : BitVec w :=
  if s.getLsbD 0 then (s >>> 1) ^^^ poly else s >>> 1

def feed (s : BitVec w) (bit : Bool) : BitVec w :=
  step poly (s ^^^ (BitVec.ofBool bit).setWidth w)

def feedAll (s : BitVec w) (bits : List Bool) : BitVec w :=
  bits.foldl (feed poly) s

@[simp]
theorem feedAll_nil (s : BitVec w) : feedAll poly s [] = s := rfl

@[simp]
theorem feedAll_cons (s : BitVec w) (bit : Bool) (bits : List Bool) :
    feedAll poly s (bit :: bits) = feedAll poly (feed poly s bit) bits := rfl

theorem feedAll_append (s : BitVec w) (as bs : List Bool) :
    feedAll poly s (as ++ bs) = feedAll poly (feedAll poly s as) bs :=
  List.foldl_append

theorem linear_step : XorLinear (step poly) := by
  have heq : step poly = fun s : BitVec w => (s >>> 1) ^^^ (if s.getLsbD 0 then poly else 0#w) := by
    funext s
    unfold step
    split <;> simp
  rw [heq]
  exact (XorLinear.ushiftRight 1).add (XorLinear.bit 0 poly)

theorem step_xor (s t : BitVec w) : step poly (s ^^^ t) = step poly s ^^^ step poly t :=
  (linear_step poly).xor s t

@[simp]
theorem step_zero : step poly 0#w = 0#w :=
  (linear_step poly).zero

theorem ofBool_xor (a b : Bool) :
    (BitVec.ofBool (a ^^ b)).setWidth w
      =
    (BitVec.ofBool a).setWidth w ^^^ (BitVec.ofBool b).setWidth w := by
  rw [← BitVec.setWidth_xor, BitVec.ofBool_xor_ofBool]

theorem feed_xor (s t : BitVec w) (a b : Bool) :
    feed poly (s ^^^ t) (a ^^ b) = feed poly s a ^^^ feed poly t b := by
  unfold feed
  rw [← step_xor, ofBool_xor]
  congr 1
  ac_rfl

theorem feedAll_xor (s t : BitVec w) {as bs : List Bool} (h : as.length = bs.length) :
    feedAll poly (s ^^^ t) (List.zipWith xor as bs) = feedAll poly s as ^^^ feedAll poly t bs := by
  induction as generalizing s t bs with
  | nil =>
    rw [List.length_eq_zero_iff.mp h.symm]
    rfl
  | cons a as ih =>
    cases bs with
    | nil => contradiction
    | cons b bs =>
      rw [List.zipWith_cons_cons, feedAll_cons, feed_xor]
      exact ih _ _ (by simpa using h)

theorem zipWith_xor_self (bits : List Bool) :
    List.zipWith xor bits bits = List.replicate bits.length false := by
  induction bits with
  | nil => rfl
  | cons b bits ih => rw [List.zipWith_cons_cons, ih, Bool.xor_self]; rfl

theorem eq_of_zipWith_xor {as bs : List Bool} (hlen : as.length = bs.length)
    (h : ∀ b ∈ List.zipWith xor as bs, b = false) : as = bs := by
  induction as generalizing bs with
  | nil => exact (List.length_eq_zero_iff.mp hlen.symm).symm
  | cons a as ih =>
    cases bs with
    | nil => contradiction
    | cons b bs =>
      rw [List.zipWith_cons_cons, List.forall_mem_cons] at h
      rw [ih (by simpa using hlen) h.2]
      simpa using h.1

@[simp]
theorem feed_false (s : BitVec w) : feed poly s false = step poly s := by
  simp [feed]

theorem feedAll_replicate_false (s : BitVec w) (n : Nat) :
    feedAll poly s (List.replicate n false) = (step poly)^[n] s := by
  induction n generalizing s with
  | zero => rfl
  | succ n ih =>
    rw [List.replicate_succ, feedAll_cons, feed_false, ih]
    rfl

theorem iterate_xor (n : Nat) (a b : BitVec w) :
    (step poly)^[n] (a ^^^ b) = (step poly)^[n] a ^^^ (step poly)^[n] b :=
  ((linear_step poly).iterate n).xor a b

@[simp]
theorem iterate_zero (n : Nat) : (step poly)^[n] 0#w = 0#w :=
  ((linear_step poly).iterate n).zero

theorem iterate_eq_ushiftRight {n : Nat} {s : BitVec w} (h : ∀ i < n, s.getLsbD i = false) :
    (step poly)^[n] s = s >>> n := by
  induction n with
  | zero => simp
  | succ n ih =>
    have hbit : (s >>> n).getLsbD 0 = false := by
      rw [BitVec.getLsbD_ushiftRight]
      exact h n (Nat.lt_succ_self n)
    rw [Function.iterate_succ_apply', ih fun i hi => h i (by omega), step, hbit,
      if_neg Bool.false_ne_true, BitVec.shiftRight_add]

-- Several steps at once: what they shift out decides on the feedback, and may be looked up.
theorem iterate_eq_low (n : Nat) (s : BitVec w) :
    (step poly)^[n] s = (step poly)^[n] ((s.setWidth n).setWidth w) ^^^ (s >>> n) := by
  have hlow : ∀ i, ((s.setWidth n).setWidth w).getLsbD i = (decide (i < n) && s.getLsbD i) := by
    intro i
    rw [BitVec.getLsbD_setWidth, BitVec.getLsbD_setWidth]
    by_cases hi : i < w
    . simp [hi]
    . simp [hi, BitVec.getLsbD_of_ge s i (by omega)]
  have hhigh : ∀ i < n, ((s.setWidth n).setWidth w ^^^ s).getLsbD i = false := by
    intro i hi
    rw [BitVec.getLsbD_xor, hlow, decide_eq_true hi, Bool.true_and, Bool.xor_self]
  have hnone : ((s.setWidth n).setWidth w) >>> n = 0#w := by
    apply BitVec.eq_of_getLsbD_eq
    intro i _
    rw [BitVec.getLsbD_ushiftRight, hlow, decide_eq_false (by omega)]
    simp
  have hsplit := iterate_eq_ushiftRight poly hhigh
  rw [iterate_xor, BitVec.ushiftRight_xor_distrib, hnone, BitVec.zero_xor] at hsplit
  rw [← hsplit, ← BitVec.xor_assoc, BitVec.xor_self, BitVec.zero_xor]

-- As long as the register has room, its input may as well be put into it all at once.
def load (bits : List Bool) : BitVec w :=
  (BitVec.ofBoolListLE bits).setWidth w

theorem getLsbD_load (bits : List Bool) (i : Nat) :
    (load bits : BitVec w).getLsbD i = (decide (i < w) && bits.getD i false) := by
  rw [load, BitVec.getLsbD_setWidth, BitVec.getLsbD_ofBoolListLE]

theorem step_load {bit : Bool} {bits : List Bool} (h : bits.length < w) :
    step poly (load (bit :: bits) ^^^ (BitVec.ofBool bit).setWidth w) = load bits := by
  have hbit : (load (bit :: bits) ^^^ (BitVec.ofBool bit).setWidth w).getLsbD 0 = false := by
    have hw : 0 < w := Nat.zero_lt_of_lt h
    rw [BitVec.getLsbD_xor, getLsbD_load]
    simp [hw]
  rw [step, hbit, if_neg Bool.false_ne_true]
  apply BitVec.eq_of_getLsbD_eq
  intro i hi
  rw [BitVec.getLsbD_ushiftRight, BitVec.getLsbD_xor, getLsbD_load, getLsbD_load]
  by_cases hlast : i + 1 < w
  . simp [hi, hlast, Nat.add_comm 1 i]
  . have hnone : bits[i]? = none := List.getElem?_eq_none (by omega)
    simp [hlast, Nat.add_comm 1 i, hnone]

theorem feedAll_eq_iterate (s : BitVec w) {bits : List Bool} (h : bits.length ≤ w) :
    feedAll poly s bits = (step poly)^[bits.length] (s ^^^ load bits) := by
  induction bits generalizing s with
  | nil => simp [load, BitVec.ofBoolListLE]
  | cons bit bits ih =>
    have hlt : bits.length < w := h
    rw [feedAll_cons, ih _ (Nat.le_of_lt hlt), feed, ← @step_load _ poly bit bits hlt, ← step_xor]
    rw [List.length_cons, Function.iterate_succ_apply]
    congr 2
    rw [BitVec.xor_comm (load (bit :: bits)), ← BitVec.xor_assoc, BitVec.xor_assoc s,
      BitVec.xor_self, BitVec.xor_zero]

-- A register that is 1 at the top stands for the polynomial 1, and a step multiplies by `x`. So a
-- register is a polynomial in the step, applied to that one.
abbrev unit : BitVec w := BitVec.twoPow w (w - 1)

def mulFrom (a b : BitVec w) : Nat → BitVec w
  | 0 => 0#w
  | i + 1 => (if a.getLsbD i then b else 0#w) ^^^ step poly (mulFrom a b i)

def mul (a b : BitVec w) : BitVec w :=
  mulFrom poly a b w

-- `x ^ n`, by squaring. The first argument is at least the number of digits of `n`.
def power : Nat → Nat → BitVec w
  | 0, _ => unit
  | digits + 1, n =>
    let half := power digits (n / 2)
    let square := mul poly half half
    if n % 2 = 1 then step poly square else square

theorem getMsbD_step {s : BitVec w} (h : s.getLsbD 0 = false) (i : Nat) :
    (step poly s).getMsbD i = (decide (i < w) && (!decide (i < 1) && s.getMsbD (i - 1))) := by
  rw [step, h, if_neg Bool.false_ne_true, BitVec.getMsbD_ushiftRight]

theorem getMsbD_mulFrom (a : BitVec w) {i : Nat} (h : i ≤ w) (j : Nat) :
    (mulFrom poly a unit i).getMsbD j = (decide (j < i) && a.getLsbD (i - 1 - j)) := by
  induction i generalizing j with
  | zero => simp [mulFrom]
  | succ i ih =>
    -- The last bit of the register is still free.
    have hlast : (mulFrom poly a unit i).getLsbD 0 = false := by
      have hfree := ih (by omega) (w - 1)
      rw [BitVec.getMsbD_eq_getLsbD, Nat.sub_self, decide_eq_true (by omega),
        decide_eq_false (by omega)] at hfree
      simpa using hfree
    have hunit : (if a.getLsbD i then unit else 0#w).getMsbD j
        = (decide (j = 0) && a.getLsbD i) := by
      cases a.getLsbD i
      . simp
      . simp only [if_true, BitVec.getMsbD_twoPow, Bool.and_true]
        rw [decide_eq_true (show w - 1 < w by omega), Bool.true_and]
        congr 2
        omega
    rw [mulFrom, BitVec.getMsbD_xor, hunit, getMsbD_step poly hlast, ih (by omega)]
    cases j with
    | zero => simp
    | succ j =>
      have hpos : i - (j + 1) = i - 1 - j := by omega
      by_cases hj : j + 1 < w
      . simp [hj, hpos]
      . have hji : ¬j < i := by omega
        simp [hji]

theorem mul_unit (a : BitVec w) : mul poly a unit = a := by
  apply BitVec.eq_of_getMsbD_eq
  intro i hi
  rw [mul, getMsbD_mulFrom poly a (Nat.le_refl w), decide_eq_true hi, Bool.true_and,
    BitVec.getMsbD_eq_getLsbD, decide_eq_true hi, Bool.true_and]

theorem iterate_mulFrom (n : Nat) (a b : BitVec w) (i : Nat) :
    (step poly)^[n] (mulFrom poly a b i) = mulFrom poly a ((step poly)^[n] b) i := by
  induction i with
  | zero => exact iterate_zero poly n
  | succ i ih =>
    rw [mulFrom, iterate_xor, (Function.Commute.refl (step poly)).iterate_left n, ih, mulFrom]
    split
    . rfl
    . rw [iterate_zero]

theorem iterate_eq_mul (n : Nat) (a : BitVec w) :
    (step poly)^[n] a = mul poly a ((step poly)^[n] unit) := by
  rw [mul, ← iterate_mulFrom, ← mul, mul_unit]

theorem power_eq {digits n : Nat} (h : n < 2 ^ digits) :
    power poly digits n = (step poly)^[n] unit := by
  induction digits generalizing n with
  | zero =>
    rw [Nat.pow_zero, Nat.lt_one_iff] at h
    rw [h]
    rfl
  | succ digits ih =>
    have hhalf : n / 2 < 2 ^ digits := by
      rw [Nat.pow_succ] at h
      omega
    have hsquare : mul poly (power poly digits (n / 2)) (power poly digits (n / 2))
        = (step poly)^[n / 2 + n / 2] unit := by
      rw [ih hhalf, ← iterate_eq_mul, ← Function.iterate_add_apply]
    rw [power, hsquare]
    split
    . rw [← Function.iterate_succ_apply' (step poly)]
      congr 1
      omega
    . congr 1
      omega

-- Whether a number of steps is a period is seen without taking them.
theorem isPeriodicPt_iff {digits n : Nat} (h : n < 2 ^ digits) (s : BitVec w) :
    Function.IsPeriodicPt (step poly) n s ↔ mul poly s (power poly digits n) = s := by
  rw [power_eq poly h, ← iterate_eq_mul]
  rfl

theorem minimalPeriod_eq_of_prime {α : Type} {f : α → α} {x : α} {n : Nat}
    (hn : Function.IsPeriodicPt f n x)
    (hprime : ∀ p, p.Prime → p ∣ n → ¬Function.IsPeriodicPt f (n / p) x) :
    Function.minimalPeriod f x = n := by
  obtain ⟨k, hk⟩ := hn.minimalPeriod_dvd
  by_cases hone : k = 1
  . rw [hk, hone, Nat.mul_one]
  . exfalso
    obtain ⟨p, hp, m, rfl⟩ := Nat.exists_prime_and_dvd hone
    apply hprime p hp ⟨Function.minimalPeriod f x * m, by rw [hk]; ac_rfl⟩
    rw [Function.isPeriodicPt_iff_minimalPeriod_dvd]
    refine ⟨m, ?_⟩
    rw [hk, Nat.mul_left_comm, Nat.mul_div_cancel_left _ hp.pos]

-- The feedback sets the top bit, which the shift has cleared: it tells what was shifted out.
section
variable {poly : BitVec w} (hpoly : poly.msb = true)
include hpoly

theorem eq_zero_of_step {s : BitVec w} (h : step poly s = 0#w) : s = 0#w := by
  unfold step at h
  split at h
  . next hbit =>
    have hmsb : (s >>> 1).msb = false := by
      simp [BitVec.msb_ushiftRight]
    rw [BitVec.xor_eq_zero_iff] at h
    rw [h, hpoly] at hmsb
    contradiction
  . next hbit =>
    apply BitVec.eq_of_getLsbD_eq
    intro i _
    cases i with
    | zero => simpa using hbit
    | succ i =>
      have hshift : (s >>> 1).getLsbD i = (0#w).getLsbD i := by rw [h]
      rw [BitVec.getLsbD_ushiftRight, Nat.add_comm] at hshift
      simpa using hshift

theorem step_injective : Function.Injective (step poly) := by
  intro s t h
  rw [← BitVec.xor_eq_zero_iff]
  apply eq_zero_of_step hpoly
  rw [step_xor, h, BitVec.xor_self]

theorem feed_injective (bit : Bool) : Function.Injective (feed poly · bit) := by
  intro s t h
  exact (BitVec.xor_left_inj _).mp (step_injective hpoly h)

theorem feedAll_injective (bits : List Bool) : Function.Injective (feedAll poly · bits) := by
  induction bits with
  | nil => exact Function.injective_id
  | cons bit bits ih => exact ih.comp (feed_injective hpoly bit)

-- What comes before and after the difference of two inputs does not matter.
theorem feedAll_inj_middle (s : BitVec w) (pre post : List Bool) {as bs : List Bool}
    (hlen : as.length = bs.length) :
    feedAll poly s (pre ++ as ++ post) = feedAll poly s (pre ++ bs ++ post)
      ↔ feedAll poly 0#w (List.zipWith xor as bs) = 0#w := by
  rw [feedAll_append, feedAll_append, feedAll_append, feedAll_append]
  rw [(feedAll_injective hpoly post).eq_iff, ← BitVec.xor_eq_zero_iff, ← feedAll_xor _ _ _ hlen]
  rw [BitVec.xor_self]

theorem eq_false_of_feedAll {bits : List Bool} (hlen : bits.length ≤ w)
    (h : feedAll poly 0#w bits = 0#w) : ∀ b ∈ bits, b = false := by
  have hload : (load bits : BitVec w) = 0#w := by
    rw [feedAll_eq_iterate poly _ hlen, BitVec.zero_xor] at h
    apply (step_injective hpoly).iterate bits.length
    rw [h, iterate_zero]
  intro b hb
  obtain ⟨i, hi, rfl⟩ := List.getElem_of_mem hb
  have hbit : (load bits : BitVec w).getLsbD i = (0#w).getLsbD i := by rw [hload]
  rw [getLsbD_load] at hbit
  simpa [Nat.lt_of_lt_of_le hi hlen, hi] using hbit

-- No burst of errors that fits into the register is missed.
theorem feedAll_ne_of_burst (s : BitVec w) (pre post : List Bool) {as bs : List Bool}
    (hlen : as.length = bs.length) (hw : as.length ≤ w) (hne : as ≠ bs) :
    feedAll poly s (pre ++ as ++ post) ≠ feedAll poly s (pre ++ bs ++ post) := by
  intro h
  rw [feedAll_inj_middle hpoly _ _ _ hlen] at h
  apply hne
  apply eq_of_zipWith_xor hlen
  apply eq_false_of_feedAll hpoly _ h
  simpa [← hlen] using hw

-- Two errors are missed exactly if their distance is a multiple of the period.
theorem feedAll_two_errors_iff (s : BitVec w) (pre mid post : List Bool) (a b : Bool) :
    feedAll poly s (pre ++ (a :: mid ++ [b]) ++ post)
        = feedAll poly s (pre ++ ((!a) :: mid ++ [!b]) ++ post)
      ↔ Function.minimalPeriod (step poly) 1#w ∣ mid.length + 1 := by
  have hdiff : List.zipWith xor (a :: mid ++ [b]) ((!a) :: mid ++ [!b])
      = true :: (List.replicate mid.length false ++ [true]) := by
    rw [List.cons_append, List.cons_append, List.zipWith_cons_cons, List.zipWith_append rfl,
      zipWith_xor_self]
    simp
  rw [feedAll_inj_middle hpoly _ _ _ (by simp), hdiff, feedAll_cons, feedAll_append,
    feedAll_replicate_false, feedAll_cons, feedAll_nil, feed, feed, BitVec.zero_xor]
  have hone : (BitVec.ofBool true).setWidth w = 1#w := by
    apply BitVec.eq_of_toNat_eq
    simp
  rw [hone, ← Function.iterate_succ_apply, ← Function.isPeriodicPt_iff_minimalPeriod_dvd,
    Function.IsPeriodicPt, Function.IsFixedPt]
  constructor
  . intro h
    exact BitVec.xor_eq_zero_iff.mp (eq_zero_of_step hpoly h)
  . intro h
    rw [h, BitVec.xor_self, step_zero]

end

end Lfsr
