import Mathlib.Data.List.Chain
import Lax.Net.Buffer.Lemmas.Extent

/-!
This module contains where `pack` writes: which of the steps in which the buffer grows leave it shorter
than the serializer takes it to be.
-/

namespace Lax
namespace Extent

open BufferPool (capacityFor capacityFor_of_gt)

/-!
### The pieces of a message
-/

theorem writeAll_growTo (initialSize : Nat) (e : Extent) (outPos : Nat) (lens : List Nat) :
    (writeAll initialSize (e.growTo initialSize outPos) outPos lens).writtenBytesCount
        = outPos + lens.sum
      ∧ (writeAll initialSize (e.growTo initialSize outPos) outPos lens).extent
        = e.growTo initialSize (outPos + lens.sum)
      ∧ ∀ w, w ∈ (writeAll initialSize (e.growTo initialSize outPos) outPos lens).writes
        ↔ ∃ before len after, lens = before ++ len :: after
          ∧ w = ⟨outPos + before.sum, len,
            (e.growTo initialSize (outPos + before.sum + len)).capacity⟩ := by
  induction lens generalizing outPos with
  | nil =>
    refine ⟨rfl, rfl, ?_⟩
    simp [writeAll]
  | cons len lens ih =>
    obtain ⟨hcount, hextent, hwrites⟩ := ih (outPos + len)
    unfold writeAll
    dsimp only
    rw [growTo_growTo initialSize (Nat.le_add_right outPos len), List.sum_cons, ← Nat.add_assoc]
    refine ⟨hcount, hextent, ?_⟩
    intro w
    rw [List.mem_cons, hwrites]
    constructor
    . rintro (rfl | ⟨before, len', after, rfl, rfl⟩)
      . exact ⟨[], len, lens, rfl, rfl⟩
      . refine ⟨len :: before, len', after, rfl, ?_⟩
        simp [Nat.add_assoc]
    . rintro ⟨before, len', after, heq, rfl⟩
      cases before with
      | nil =>
        injection heq with hlen _
        subst hlen
        exact Or.inl rfl
      | cons len'' before =>
        injection heq with hlen hlens
        subst hlen
        right
        refine ⟨before, len', after, hlens, ?_⟩
        simp [Nat.add_assoc]

/-!
### The steps
-/

theorem growTo_iff {e e' : Extent} (h : e.increaseBufferSize initialSize = e') (P : Extent → Prop)
    (stop : Nat) :
    P (e.growTo initialSize stop)
      ↔ stop ≤ e.size ∧ P e ∨ e.size < stop ∧ P (e'.growTo initialSize stop) := by
  by_cases hle : stop ≤ e.size
  . rw [growTo_of_le initialSize hle]
    simp [hle, Nat.not_lt_of_le hle]
  . rw [growTo_of_lt initialSize (Nat.lt_of_not_le hle), h]
    simp [hle, Nat.lt_of_not_le hle]

-- The serializer gets to `stop` and the block has ended before.
def Overruns (e : Extent) (stop : Nat) : Prop :=
  (e.growTo initialSize stop).capacity < stop

theorem overruns_iff {e e' : Extent} (h : e.increaseBufferSize initialSize = e') (stop : Nat) :
    e.Overruns stop ↔ stop ≤ e.size ∧ e.capacity < stop ∨ e.size < stop ∧ e'.Overruns stop :=
  growTo_iff h (fun e => e.capacity < stop) stop

-- The serializer gets to `stop` and that is where the buffer takes itself to end.
def Fills (e : Extent) (stop : Nat) : Prop :=
  (e.growTo initialSize stop).size = stop

theorem fills_iff {e e' : Extent} (h : e.increaseBufferSize initialSize = e') (stop : Nat) :
    e.Fills stop ↔ stop = e.size ∨ e.size < stop ∧ e'.Fills stop := by
  unfold Fills
  rw [growTo_iff h (fun e => e.size = stop) stop]
  apply or_congr_left
  constructor <;> omega

theorem increaseBufferSize_of_lt {size capacity : Nat} (h : capacity < increasedSize size)
    (hgrow : 2 * capacity < size + increasedSize size)
    (hbig : 2 ^ 21 < size + (increasedSize size - capacity)) :
    (⟨size, some capacity⟩ : Extent).increaseBufferSize initialSize
      = ⟨increasedSize size, some (size + (increasedSize size - capacity))⟩ := by
  have hmax : max (increasedSize size) capacity = increasedSize size :=
    Nat.max_eq_left (Nat.le_of_lt h)
  have hlt : capacity < size + (increasedSize size - capacity) := by omega
  unfold increaseBufferSize resize reserve Extent.capacity
  simp [hmax, Nat.not_le_of_lt h, hlt, capacityFor_of_gt hbig]

theorem le_increasedSize (size : Nat) : size * 3 / 2 + 65 ≤ increasedSize size := by
  unfold increasedSize
  dsimp only
  omega

-- The size is so large that blocks come from the operating system, and `surplus` is small beside it.
structure Late (surplus size : Nat) : Prop where
  big : 2 ^ 21 + surplus < size * 3 / 2
  small : 4 * surplus ≤ size

variable {surplus size : Nat}

theorem Late.increased (h : Late surplus size) : Late surplus (increasedSize size) := by
  obtain ⟨hbig, hsmall⟩ := h
  have hle := le_increasedSize size
  constructor <;> omega

theorem Late.increase_even (h : Late surplus size) :
    (⟨size, some (size + surplus)⟩ : Extent).increaseBufferSize initialSize
      = ⟨increasedSize size, some (increasedSize size - surplus)⟩ := by
  obtain ⟨hbig, hsmall⟩ := h
  have hle := le_increasedSize size
  have hblock : size + (increasedSize size - (size + surplus)) = increasedSize size - surplus := by
    omega
  rw [increaseBufferSize_of_lt (by omega) (by omega) (by omega), hblock]

theorem Late.increase_odd (h : Late surplus size) :
    (⟨size, some (size - surplus)⟩ : Extent).increaseBufferSize initialSize
      = ⟨increasedSize size, some (increasedSize size + surplus)⟩ := by
  obtain ⟨hbig, hsmall⟩ := h
  have hle := le_increasedSize size
  have hblock : size + (increasedSize size - (size - surplus)) = increasedSize size + surplus := by
    omega
  rw [increaseBufferSize_of_lt (by omega) (by omega) (by omega), hblock]

theorem le_iterate_increasedSize (n size : Nat) : size ≤ increasedSize^[n] size := by
  induction n generalizing size with
  | zero => exact Nat.le_refl _
  | succ n ih =>
    rw [Function.iterate_succ_apply]
    have hlt := lt_increasedSize size
    have hle := ih (increasedSize size)
    omega

-- From here on every other step is one of those that leave the block too short.
theorem Late.overruns_iff {size : Nat} (h : Late surplus size) (stop : Nat) :
    (⟨size, some (size + surplus)⟩ : Extent).Overruns stop
      ↔ ∃ j, increasedSize^[2 * j + 1] size < stop + surplus
        ∧ stop ≤ increasedSize^[2 * j + 1] size := by
  have hsmall := h.small
  have hle := le_increasedSize size
  have hle' := le_increasedSize (increasedSize size)
  have hnext : ∀ j, increasedSize^[2 * (j + 1) + 1] size
      = increasedSize^[2 * j + 1] (increasedSize (increasedSize size)) := fun _ => rfl
  have hnext_le : ∀ j, increasedSize (increasedSize size) ≤ increasedSize^[2 * (j + 1) + 1] size := by
    intro j
    rw [hnext]
    exact le_iterate_increasedSize _ _
  rw [Extent.overruns_iff h.increase_even, Extent.overruns_iff h.increased.increase_odd]
  simp only [capacity, Option.getD_some]
  by_cases hstop : increasedSize size < stop
  . rw [h.increased.increased.overruns_iff stop]
    constructor
    . rintro (⟨_, _⟩ | ⟨_, ⟨_, _⟩ | ⟨_, j, hj⟩⟩)
      . omega
      . omega
      . exact ⟨j + 1, by rwa [hnext]⟩
    . rintro ⟨j, hj⟩
      cases j with
      | zero =>
        have hfirst : increasedSize^[2 * 0 + 1] size = increasedSize size := rfl
        omega
      | succ j =>
        rw [hnext] at hj
        exact Or.inr ⟨by omega, Or.inr ⟨hstop, j, hj⟩⟩
  . constructor
    . rintro (⟨_, _⟩ | ⟨_, ⟨_, _⟩ | ⟨_, _⟩⟩)
      . omega
      . refine ⟨0, ?_, ?_⟩
        . show increasedSize size < stop + surplus
          omega
        . assumption
      . omega
    . rintro ⟨j, hj, hj'⟩
      cases j with
      | zero =>
        have hfirst : increasedSize^[2 * 0 + 1] size = increasedSize size := rfl
        omega
      | succ j =>
        have := hnext_le j
        omega
termination_by stop - size
decreasing_by
  omega

theorem Late.fills_iff {size : Nat} (h : Late surplus size) (stop : Nat) :
    (⟨size, some (size + surplus)⟩ : Extent).Fills stop ↔ ∃ j, stop = increasedSize^[j] size := by
  have hlt := lt_increasedSize size
  have hlt' := lt_increasedSize (increasedSize size)
  rw [Extent.fills_iff h.increase_even, Extent.fills_iff h.increased.increase_odd]
  dsimp only
  by_cases hstop : increasedSize size < stop
  . rw [h.increased.increased.fills_iff stop]
    constructor
    . rintro (heq | ⟨-, heq | ⟨-, j, hj⟩⟩)
      . exact ⟨0, heq⟩
      . exact ⟨1, heq⟩
      . exact ⟨j + 2, hj⟩
    . rintro ⟨j, hj⟩
      match j, hj with
      | 0, hj => exact Or.inl hj
      | 1, hj => exact Or.inr ⟨by omega, Or.inl hj⟩
      | j + 2, hj => exact Or.inr ⟨by omega, Or.inr ⟨hstop, j, hj⟩⟩
  . constructor
    . rintro (heq | ⟨-, heq | ⟨hlate, -⟩⟩)
      . exact ⟨0, heq⟩
      . exact ⟨1, heq⟩
      . exact absurd hlate hstop
    . rintro ⟨j, hj⟩
      match j, hj with
      | 0, hj => exact Or.inl hj
      | 1, hj =>
        have hj : stop = increasedSize size := hj
        exact Or.inr ⟨by omega, Or.inl hj⟩
      | j + 2, hj =>
        have hle := le_iterate_increasedSize j (increasedSize (increasedSize size))
        have hj : stop = increasedSize^[j] (increasedSize (increasedSize size)) := hj
        omega
termination_by stop - size
decreasing_by
  omega

/-!
### A new buffer
-/

theorem late_surplus : Late 327104 1770048 := by
  constructor <;> decide

-- The ends of pieces for which `pack` writes behind the end of its block.
def Overrun (stop : Nat) : Prop :=
  16384 < stop ∧ stop ≤ 18752
    ∨ 131072 < stop ∧ stop ≤ 147776
    ∨ 1048576 < stop ∧ stop ≤ 1179968
    ∨ ∃ j, increasedSize^[2 * j + 1] 1770048 < stop + 327104
      ∧ stop ≤ increasedSize^[2 * j + 1] 1770048

-- The extents of a new buffer as long as its blocks come from a class.
def firstExtents : List Extent :=
  [
    ⟨128, some 8192⟩, ⟨8192, some 8192⟩, ⟨12416, some 16384⟩, ⟨18752, some 16384⟩,
    ⟨28224, some 32768⟩, ⟨42432, some 65536⟩, ⟨65536, some 65536⟩, ⟨98432, some 131072⟩,
    ⟨147776, some 131072⟩, ⟨221760, some 262144⟩, ⟨332736, some 524288⟩, ⟨524288, some 524288⟩,
    ⟨786560, some 1048576⟩, ⟨1179968, some 1048576⟩
  ]

def lateExtent : Extent :=
  ⟨1770048, some 2097152⟩

theorem isChain_firstExtents : (firstExtents ++ [lateExtent]).IsChain fun e e' =>
    e.increaseBufferSize initialSize = e' := by
  decide

def Among (P : Extent → Prop) (last : Prop) (stop : Nat) : List Extent → Prop
  | [] => last
  | e :: es => stop ≤ e.size ∧ P e ∨ e.size < stop ∧ Among P last stop es

theorem growTo_iff_among (P : Extent → Prop) {es : List Extent} {e last : Extent}
    (h : (es ++ [last]).IsChain fun e e' => e.increaseBufferSize initialSize = e')
    (he : (es ++ [last]).head? = some e) (stop : Nat) :
    P (e.growTo initialSize stop) ↔ Among P (P (last.growTo initialSize stop)) stop es := by
  induction es generalizing e with
  | nil =>
    injection he with he
    rw [he, Among]
  | cons e' es ih =>
    injection he with he
    subst he
    have hne : es ++ [last] ≠ [] := by simp
    obtain ⟨e'', tail, heq⟩ := List.exists_cons_of_ne_nil hne
    rw [List.cons_append, heq, List.isChain_cons_cons] at h
    rw [heq] at ih
    rw [growTo_iff h.1 P, ih h.2 rfl, Among]

theorem growTo_new_iff (P : Extent → Prop) (stop : Nat) :
    P ((({} : Extent).increaseBufferSize initialSize).growTo initialSize stop)
      ↔ Among P (P (lateExtent.growTo initialSize stop)) stop firstExtents := by
  have hfirst : ({} : Extent).increaseBufferSize initialSize = ⟨128, some 8192⟩ := by decide
  rw [hfirst]
  exact growTo_iff_among P isChain_firstExtents rfl stop

theorem lateExtent_eq : lateExtent = ⟨1770048, some (1770048 + 327104)⟩ := by
  decide

theorem overruns_new_iff (stop : Nat) :
    (({} : Extent).increaseBufferSize initialSize).Overruns stop ↔ Overrun stop := by
  have hgrow := growTo_new_iff (fun e => e.capacity < stop) stop
  have hlast := late_surplus.overruns_iff stop
  rw [← lateExtent_eq] at hlast
  unfold Overruns at hlast ⊢
  rw [hgrow, hlast]
  have hlate : (∃ j, increasedSize^[2 * j + 1] 1770048 < stop + 327104
      ∧ stop ≤ increasedSize^[2 * j + 1] 1770048) → 1770048 < stop := by
    rintro ⟨j, hj, -⟩
    have hle := le_iterate_increasedSize (2 * j) (increasedSize 1770048)
    rw [← Function.iterate_succ_apply] at hle
    have hlarge := le_increasedSize 1770048
    simp only [Nat.succ_eq_add_one] at hle
    omega
  unfold Overrun
  generalize (∃ j, increasedSize^[2 * j + 1] 1770048 < stop + 327104
      ∧ stop ≤ increasedSize^[2 * j + 1] 1770048) = late at hlate ⊢
  simp only [Among, firstExtents, capacity, Option.getD_some]
  by_cases hp : late
  . have hstop := hlate hp
    simp only [hp, and_true, or_true, iff_true]
    omega
  . simp only [hp, and_false, or_false]
    omega

-- The sizes that a new buffer takes on while it grows.
def GrowthSize (size : Nat) : Prop :=
  size ∈ [128, 8192, 12416, 18752, 28224, 42432, 65536, 98432, 147776, 221760, 332736, 524288, 786560,
      1179968]
    ∨ ∃ j, size = increasedSize^[j] 1770048

theorem fills_new_iff (stop : Nat) :
    (({} : Extent).increaseBufferSize initialSize).Fills stop ↔ GrowthSize stop := by
  have hgrow := growTo_new_iff (fun e => e.size = stop) stop
  have hlast := late_surplus.fills_iff stop
  rw [← lateExtent_eq] at hlast
  unfold Fills at hlast ⊢
  rw [hgrow, hlast]
  have hlate : (∃ j, stop = increasedSize^[j] 1770048) → 1770048 ≤ stop := by
    rintro ⟨j, rfl⟩
    exact le_iterate_increasedSize j 1770048
  unfold GrowthSize
  generalize (∃ j, stop = increasedSize^[j] 1770048) = late at hlate ⊢
  simp only [Among, firstExtents, List.mem_cons, List.not_mem_nil, or_false]
  by_cases hp : late
  . have hstop := hlate hp
    simp only [hp, and_true, or_true, iff_true]
    omega
  . simp only [hp, and_false, or_false]
    omega

-- No byte is written behind the end of the block.
def Write.InBlock (w : Write) : Prop :=
  ∀ i < w.len, w.offset + i < w.capacity

theorem Write.inBlock_iff (w : Write) : w.InBlock ↔ 0 < w.len → w.offset + w.len ≤ w.capacity := by
  unfold InBlock
  constructor
  . intro h hlen
    have := h (w.len - 1) (by omega)
    omega
  . intro h i hi
    have := h (by omega)
    omega

theorem pack_eq (lens : List Nat) :
    let e := ({} : Extent).increaseBufferSize initialSize
    (pack initialSize lens).writtenBytesCount = 8 + lens.sum
      ∧ (pack initialSize lens).extent = e.growTo initialSize (8 + lens.sum)
      ∧ ∀ w, w ∈ (pack initialSize lens).writes
        ↔ ∃ before len after, 4 :: 4 :: lens = before ++ len :: after
          ∧ w = ⟨before.sum, len, (e.growTo initialSize (before.sum + len)).capacity⟩ := by
  have hwrite := writeAll_growTo initialSize (({} : Extent).increaseBufferSize initialSize) 0
    (4 :: 4 :: lens)
  rw [growTo_of_le initialSize (Nat.zero_le _)] at hwrite
  simp only [List.sum_cons, Nat.zero_add, ← Nat.add_assoc] at hwrite
  exact hwrite

theorem pack_inBlock_iff (lens : List Nat) :
    (∀ w ∈ (pack initialSize lens).writes, w.InBlock)
      ↔ ∀ before len after, 4 :: 4 :: lens = before ++ len :: after → 0 < len →
        ¬Overrun (before.sum + len) := by
  obtain ⟨-, -, hwrites⟩ := pack_eq lens
  constructor
  . intro h before len after heq hlen hover
    have hin := h _ ((hwrites _).mpr ⟨before, len, after, heq, rfl⟩)
    rw [Write.inBlock_iff] at hin
    rw [← overruns_new_iff] at hover
    exact Nat.not_le_of_lt hover (hin hlen)
  . intro h w hw
    obtain ⟨before, len, after, heq, rfl⟩ := (hwrites w).mp hw
    rw [Write.inBlock_iff]
    intro hlen
    have hover := h before len after heq hlen
    rw [← overruns_new_iff] at hover
    exact Nat.le_of_not_lt hover

end Extent
end Lax
