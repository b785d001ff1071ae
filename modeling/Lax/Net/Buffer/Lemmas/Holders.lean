import Lax.Net.Buffer.Impl.Holders
import Lax.Net.Buffer.Lemmas.BufferPool
import Lax.Net.Buffer.Lemmas.Extent

/-!
This module contains what is true of the blocks of a pool and of its counters, whoever has taken blocks
and has given them back before.
-/

namespace Lax
namespace BufferPool

variable {pool : BufferPool} {held : List Nat}

namespace Holders

/-!
### Who has a block
-/

-- The smallest of the classes in which there is room for `n` bytes, or `n` itself if there is none.
def Fits (n capacity : Nat) : Prop :=
  n ≤ capacity
    ∧ ((∃ k, startPowerOf2 ≤ k ∧ k < startPowerOf2 + steps ∧ capacity = 2 ^ k
          ∧ ∀ j, startPowerOf2 ≤ j → j < startPowerOf2 + steps → n ≤ 2 ^ j → k ≤ j)
      ∨ capacity = n ∧ ∀ j, startPowerOf2 ≤ j → j < startPowerOf2 + steps → 2 ^ j < n)

-- Either somebody has the block, or it is in the queue of the class pool that has made it, and it is there
-- only once.
def Once (s : Holders) (addr : Nat) : Prop :=
  ∃ i fixed, (s.pool.block addr).pool = some i ∧ s.pool.pools[i]? = some fixed
    ∧ (s.held.count addr = 1 ∧ fixed.blocks.count addr = 0
      ∨ s.held.count addr = 0 ∧ fixed.blocks.count addr = 1)
    ∧ ∀ j fixed', j ≠ i → s.pool.pools[j]? = some fixed' → addr ∉ fixed'.blocks

structure Kept (s : Holders) : Prop where
  sound : Sound s.pool s.held
  known : ∀ addr < s.pool.allocated, (s.pool.block addr).isAllocatedFromOs = false →
    addr ∈ s.held ++ s.pool.queued
  fromOs : ∀ addr ∈ s.held, (s.pool.block addr).isAllocatedFromOs = true →
    (s.pool.block addr).pool = none

theorem mem_classes (length : Nat) :
    length ∈ classes ↔ ∃ k, startPowerOf2 ≤ k ∧ k < startPowerOf2 + steps ∧ length = 2 ^ k := by
  have hclasses : classes = (List.range' startPowerOf2 steps).map fun k => 2 ^ k := by decide
  rw [hclasses, List.mem_map]
  apply exists_congr
  intro k
  rw [List.mem_range'_1, and_assoc, eq_comm]

theorem fits_capacityFor (n : Nat) : Fits n (capacityFor n) := by
  refine ⟨le_capacityFor n, ?_⟩
  rcases capacityFor_cases n with hmem | ⟨heq, hlong⟩
  . left
    obtain ⟨k, hstart, hstop, heq⟩ := (mem_classes _).mp hmem
    refine ⟨k, hstart, hstop, heq, ?_⟩
    intro j hstart' hstop' hle
    have hmem' : 2 ^ j ∈ classes := (mem_classes _).mpr ⟨j, hstart', hstop', rfl⟩
    have hleast := capacityFor_le_of_mem hmem' hle
    rw [heq] at hleast
    exact (Nat.pow_le_pow_iff_right (by decide)).mp hleast
  . right
    refine ⟨heq, ?_⟩
    intro j hstart hstop
    apply hlong
    exact (mem_classes _).mpr ⟨j, hstart, hstop, rfl⟩

theorem Kept.perm {held' : List Nat} (h : Kept ⟨pool, held⟩) (hperm : held.Perm held') :
    Kept ⟨pool, held'⟩ := by
  constructor
  . exact h.sound.perm hperm
  . intro addr hlt hpooled
    have hmem := h.known addr hlt hpooled
    exact (hperm.append_right _).mem_iff.mp hmem
  . exact fun addr haddr => h.fromOs addr (hperm.mem_iff.mpr haddr)

theorem kept_init : Kept machine.init := by
  constructor
  . exact sound_init
  . intro addr hlt
    exact absurd hlt (Nat.not_lt_zero _)
  . intro addr haddr
    cases haddr

-- Whoever gets a new block has it.
theorem mem_newBlock (h : ∀ addr < pool.allocated, (pool.block addr).isAllocatedFromOs = false →
      addr ∈ held ++ pool.queued) (block : Block) {addr : Nat}
    (hlt : addr < (pool.newBlock block).2.allocated)
    (hpooled : ((pool.newBlock block).2.block addr).isAllocatedFromOs = false) :
    addr ∈ (pool.newBlock block).1 :: (held ++ (pool.newBlock block).2.queued) := by
  by_cases heq : addr = pool.allocated
  . subst heq
    exact List.mem_cons_self
  . have hlt' : addr < pool.allocated := Nat.lt_of_le_of_ne (Nat.le_of_lt_succ hlt) heq
    simp only [newBlock, Function.update_of_ne heq] at hpooled
    apply List.mem_cons_of_mem
    exact h addr hlt' hpooled

theorem Kept.alloc {s : Holders} (h : Kept s) (n : Nat) :
    Kept ⟨(s.pool.alloc n).2, (s.pool.alloc n).1 :: s.held⟩ := by
  constructor
  . exact (h.sound.alloc n).sound
  . have hknown := h.known
    have htaken := taken_alloc s.pool n
    generalize s.pool.alloc n = result at htaken ⊢
    cases htaken with
    | reused i fixed addr blocks hi hle hblocks =>
      intro addr' hlt hpooled
      have hperm := perm_set s.held (addr :: s.held) hi
        { fixed with
          blocks, allocCount := fixed.allocCount + 1, totalAllocCount := fixed.totalAllocCount + 1 }
        (by intro; simp only [hblocks, List.count_cons]; omega)
      exact hperm.mem_iff.mp (hknown addr' hlt hpooled)
    | made i fixed hi hle hblocks =>
      have hperm := perm_set s.held s.held hi
        { fixed with
          allocCount := fixed.allocCount + 1, totalAllocCount := fixed.totalAllocCount + 1 }
        (fun _ => rfl)
      intro addr' hlt hpooled
      apply mem_newBlock _ _ hlt hpooled
      exact fun addr hlt hpooled => hperm.mem_iff.mp (hknown addr hlt hpooled)
    | fromOs hlong =>
      intro addr' hlt hpooled
      apply mem_newBlock _ _ hlt hpooled
      exact hknown
  . have hframe := (h.sound.alloc n).frame
    have htaken := taken_alloc s.pool n
    intro addr haddr
    rcases List.mem_cons.mp haddr with rfl | haddr
    . generalize s.pool.alloc n = result at htaken ⊢
      intro hos
      cases htaken with
      | reused i fixed addr blocks hi hle hblocks =>
        have hclass := h.sound.queued i fixed hi addr (hblocks ▸ List.mem_cons_self)
        exact absurd (hclass.pooled.symm.trans hos) Bool.false_ne_true
      | made i fixed hi hle hblocks => simp [newBlock] at hos
      | fromOs hlong => simp [newBlock]
    . dsimp only
      rw [hframe addr haddr]
      exact h.fromOs addr haddr

theorem Kept.release {s : Holders} (h : Kept s) {addr : Nat} (haddr : addr ∈ s.held) :
    Kept ⟨s.pool.release addr, s.held.erase addr⟩ := by
  have hperm := List.perm_cons_erase haddr
  have hsound := h.sound.perm hperm
  constructor
  . exact hsound.release.1
  . have hknown := h.known
    have hreturned := returned_release hsound
    generalize s.pool.release addr = pool at hreturned ⊢
    intro addr' hlt hpooled
    cases hreturned with
    | toOs hos =>
      have hmem := (hperm.append_right s.pool.queued).mem_iff.mp (hknown addr' hlt hpooled)
      rcases List.mem_cons.mp hmem with rfl | hmem
      . rw [hos] at hpooled
        cases hpooled
      . exact hmem
    | toClass i fixed hclass hi =>
      have hperm' := perm_set (addr :: s.held.erase addr) (s.held.erase addr) hi
        { fixed with
          allocCount := fixed.allocCount - 1, totalReleaseCount := fixed.totalReleaseCount + 1
          blocks := fixed.blocks ++ [addr] }
        (by
          intro
          simp only [List.count_cons, List.count_append, List.count_nil]
          omega)
      have hall := (hperm.append_right s.pool.queued).trans hperm'
      exact hall.mem_iff.mp (hknown addr' hlt hpooled)
  . intro addr' haddr'
    dsimp only
    rw [hsound.release.2]
    exact h.fromOs addr' (List.mem_of_mem_erase haddr')

theorem Kept.step {s s' : Holders} {e : Event} (h : Kept s) (hstep : s.step e = some s') :
    Kept s' := by
  cases e with
  | alloc n =>
    obtain ⟨-, heq⟩ := Option.ite_none_right_eq_some.mp hstep
    injection heq with heq
    exact heq ▸ h.alloc n
  | release addr =>
    obtain ⟨haddr, heq⟩ := Option.ite_none_right_eq_some.mp hstep
    injection heq with heq
    exact heq ▸ h.release haddr

theorem kept_of_reachable {s : Holders} (h : machine.Reachable s) : Kept s :=
  Machine.inv_of_reachable Kept kept_init (fun _ _ _ hkept hstep => hkept.step hstep) h

theorem Kept.once {s : Holders} (h : Kept s) {addr : Nat} (hlt : addr < s.pool.allocated)
    (hpooled : (s.pool.block addr).isAllocatedFromOs = false) : Once s addr := by
  have hnodup := h.sound.apart.nodup
  have hother : ∀ i, OfClass (s.pool.block addr) i → ∀ j fixed', j ≠ i →
      s.pool.pools[j]? = some fixed' → addr ∉ fixed'.blocks := by
    intro i hclass j fixed' hne hj hmem
    have hclass' := (h.sound.queued j fixed' hj addr hmem).pool
    rw [hclass.pool] at hclass'
    injection hclass' with hclass'
    exact hne hclass'.symm
  rcases List.mem_append.mp (h.known addr hlt hpooled) with hmem | hmem
  . obtain hos | ⟨i, hclass⟩ := h.sound.held addr hmem
    . rw [hpooled] at hos
      cases hos
    . have hi := hclass.capacity
      rw [← h.sound.classes, List.getElem?_map, Option.map_eq_some_iff] at hi
      obtain ⟨fixed, hi, -⟩ := hi
      refine ⟨i, fixed, hclass.pool, hi, Or.inl ⟨?_, ?_⟩, hother i hclass⟩
      . apply List.count_eq_one_of_mem
        . exact (List.nodup_append.mp hnodup).1
        . exact hmem
      . rw [List.count_eq_zero]
        intro hqueued
        have hmem' : addr ∈ s.pool.queued :=
          List.mem_flatMap.mpr ⟨fixed, List.mem_of_getElem? hi, hqueued⟩
        exact h.sound.apart.not_mem_of_append hmem' hmem
  . obtain ⟨fixed, hfixed, hqueued⟩ := List.mem_flatMap.mp hmem
    obtain ⟨i, hi⟩ := List.mem_iff_getElem?.mp hfixed
    have hclass := h.sound.queued i fixed hi addr hqueued
    refine ⟨i, fixed, hclass.pool, hi, Or.inr ⟨?_, ?_⟩, hother i hclass⟩
    . rw [List.count_eq_zero]
      exact h.sound.apart.not_mem_of_append hmem
    . apply List.count_eq_one_of_mem
      . exact (List.nodup_flatMap.mp (List.nodup_append.mp hnodup).2.1).1 fixed hfixed
      . exact hqueued

/--
Whoever takes a block gets one that is long enough and that nobody has, of the smallest class in which
there is room, and none of the blocks of the pool is ever in two places.
-/
theorem exclusive_of_reachable {s : Holders} (h : machine.Reachable s) :
    (∀ n > 0, (s.pool.alloc n).1 ∉ s.held
      ∧ Fits n ((s.pool.alloc n).2.block (s.pool.alloc n).1).capacity)
      ∧ ∀ addr < s.pool.allocated, (s.pool.block addr).isAllocatedFromOs = false → Once s addr := by
  have hkept := kept_of_reachable h
  constructor
  . intro n _
    have hallocated := hkept.sound.alloc n
    constructor
    . have hnodup := (List.nodup_append.mp hallocated.sound.apart.nodup).1
      exact (List.nodup_cons.mp hnodup).1
    . rw [hallocated.capacity]
      exact fits_capacityFor n
  . exact fun addr hlt hpooled => hkept.once hlt hpooled

theorem exclusive_of_reachable_release :
    ∃ s, machine.run machine.init [.alloc 100, .alloc 120, .release 0] = some s ∧ s.held = [1]
      ∧ (s.pool.alloc 65).1 ∉ s.held ∧ Once s 0 ∧ Once s 1 := by
  refine ⟨_, rfl, rfl, ?_⟩
  have hexclusive := exclusive_of_reachable ⟨[.alloc 100, .alloc 120, .release 0], rfl⟩
  exact ⟨(hexclusive.1 65 (by decide)).1, hexclusive.2 0 (by decide +kernel) (by decide +kernel),
    hexclusive.2 1 (by decide +kernel) (by decide +kernel)⟩

/-!
### Counters
-/

-- All of the counters are modulo `2 ^ 32`.
structure Counted (s : Holders) : Prop where
  osAllocCount : s.pool.osAllocCount = s.osHeld.length.toUInt32
  osAllocBytes : s.pool.osAllocBytes = s.osBytes.toUInt32
  allocCount : ∀ (i : Nat) (fixed : FixedSizeBufferPool), s.pool.pools[i]? = some fixed →
    fixed.allocCount = (s.heldOf i).length.toUInt32
  totals : ∀ (i : Nat) (fixed : FixedSizeBufferPool), s.pool.pools[i]? = some fixed →
    fixed.allocCount = fixed.totalAllocCount - fixed.totalReleaseCount

structure Balanced (s : Holders) : Prop extends Counted s where
  osTotals : s.pool.osAllocBytes = s.pool.totalOsAllocBytes - s.pool.totalOsReleaseBytes

section

variable {pool' : BufferPool} {addr : Nat} (hframe : ∀ addr' ∈ held, pool'.block addr' = pool.block addr')

include hframe

theorem osHeld_cons :
    osHeld ⟨pool', addr :: held⟩
      = if (pool'.block addr).isAllocatedFromOs then addr :: osHeld ⟨pool, held⟩
        else osHeld ⟨pool, held⟩ := by
  unfold osHeld
  rw [List.filter_cons]
  have hrest : held.filter (fun addr => (pool'.block addr).isAllocatedFromOs)
      = held.filter fun addr => (pool.block addr).isAllocatedFromOs := by
    apply List.filter_congr
    intro addr' haddr'
    rw [hframe addr' haddr']
  rw [hrest]

theorem heldOf_cons (i : Nat) :
    heldOf ⟨pool', addr :: held⟩ i
      = if (pool'.block addr).pool = some i then addr :: heldOf ⟨pool, held⟩ i
        else heldOf ⟨pool, held⟩ i := by
  unfold heldOf
  rw [List.filter_cons]
  have hrest : held.filter (fun addr => decide ((pool'.block addr).pool = some i))
      = held.filter fun addr => decide ((pool.block addr).pool = some i) := by
    apply List.filter_congr
    intro addr' haddr'
    rw [hframe addr' haddr']
  simp only [hrest, decide_eq_true_eq]

theorem osBytes_cons :
    osBytes ⟨pool', addr :: held⟩
      = (if (pool'.block addr).isAllocatedFromOs then (pool'.block addr).capacity else 0)
        + osBytes ⟨pool, held⟩ := by
  have hrest : (osHeld ⟨pool, held⟩).map (fun addr => (pool'.block addr).capacity)
      = (osHeld ⟨pool, held⟩).map fun addr => (pool.block addr).capacity := by
    apply List.map_congr_left
    intro addr' haddr'
    rw [hframe addr' (List.mem_of_mem_filter haddr')]
  unfold osBytes
  rw [osHeld_cons hframe]
  split
  . rw [List.map_cons, List.sum_cons, hrest]
  . rw [hrest, Nat.zero_add]

end

theorem getElem?_set_cases {pools : List FixedSizeBufferPool} {i j : Nat}
    {fixed fixed' fixed'' : FixedSizeBufferPool} (hi : pools[i]? = some fixed)
    (hj : (pools.set i fixed')[j]? = some fixed'') :
    j = i ∧ fixed'' = fixed' ∨ j ≠ i ∧ pools[j]? = some fixed'' := by
  by_cases heq : j = i
  . subst heq
    rw [List.getElem?_set_self', hi] at hj
    injection hj with hj
    exact Or.inl ⟨rfl, hj.symm⟩
  . rw [List.getElem?_set_ne (Ne.symm heq)] at hj
    exact Or.inr ⟨heq, hj⟩

-- Somebody takes a block of the class pool `i`.
theorem Counted.take {i addr : Nat} {fixed : FixedSizeBufferPool} {block : Nat → Block}
    (h : Counted ⟨pool, held⟩) (hframe : ∀ addr' ∈ held, block addr' = pool.block addr')
    (hi : pool.pools[i]? = some fixed) (hpool : (block addr).pool = some i)
    (hpooled : (block addr).isAllocatedFromOs = false) (allocated : Nat) (blocks : List Nat) :
    Counted
      ⟨{ pool with
          block, allocated
          pools := pool.pools.set i
            { fixed with
              blocks
              allocCount := fixed.allocCount + 1
              totalAllocCount := fixed.totalAllocCount + 1 } }, addr :: held⟩ := by
  constructor
  . rw [osHeld_cons hframe, hpooled]
    exact h.osAllocCount
  . rw [osBytes_cons hframe, hpooled, if_neg Bool.false_ne_true, Nat.zero_add]
    exact h.osAllocBytes
  . intro j fixed' hj
    rw [heldOf_cons hframe, hpool]
    rcases getElem?_set_cases hi hj with ⟨rfl, rfl⟩ | ⟨hne, hj⟩
    . rw [if_pos rfl, List.length_cons, Nat.toUInt32_eq, UInt32.ofNat_add]
      have hcount := h.allocCount j fixed hi
      exact congrArg (· + 1) hcount
    . rw [if_neg fun heq => hne (Option.some.inj heq).symm]
      exact h.allocCount j fixed' hj
  . intro j fixed' hj
    rcases getElem?_set_cases hi hj with ⟨rfl, rfl⟩ | ⟨hne, hj⟩
    . have htotals := h.totals j fixed hi
      dsimp only
      grind
    . exact h.totals j fixed' hj

theorem osHeld_perm {held' : List Nat} (hperm : held.Perm held') :
    (osHeld ⟨pool, held⟩).Perm (osHeld ⟨pool, held'⟩) :=
  hperm.filter _

-- It does not matter in which order the blocks have been taken.
theorem Counted.perm {held' : List Nat} (h : Counted ⟨pool, held⟩) (hperm : held.Perm held') :
    Counted ⟨pool, held'⟩ := by
  constructor
  . rw [← (osHeld_perm hperm).length_eq]
    exact h.osAllocCount
  . have hbytes : osBytes ⟨pool, held⟩ = osBytes ⟨pool, held'⟩ := by
      apply List.Perm.sum_nat
      exact (osHeld_perm hperm).map _
    rw [← hbytes]
    exact h.osAllocBytes
  . intro i fixed hi
    have hlength : (heldOf ⟨pool, held⟩ i).length = (heldOf ⟨pool, held'⟩ i).length := by
      apply List.Perm.length_eq
      exact hperm.filter _
    rw [← hlength]
    exact h.allocCount i fixed hi
  . exact h.totals

theorem counted_alloc {s : Holders} (h : Counted s) (hsound : Sound s.pool s.held) (n : Nat) :
    Counted ⟨(s.pool.alloc n).2, (s.pool.alloc n).1 :: s.held⟩ := by
  have hframe := (hsound.alloc n).frame
  have htaken := taken_alloc s.pool n
  generalize s.pool.alloc n = result at htaken hframe ⊢
  cases htaken with
  | reused i fixed addr blocks hi hle hblocks =>
    have hclass := hsound.queued i fixed hi addr (hblocks ▸ List.mem_cons_self)
    exact h.take hframe hi hclass.pool hclass.pooled _ blocks
  | made i fixed hi hle hblocks =>
    rw [hblocks] at hframe ⊢
    apply h.take hframe hi
    . simp [newBlock]
    . simp [newBlock]
  | fromOs hlong =>
    constructor
    . rw [osHeld_cons hframe]
      have hcount := h.osAllocCount
      simp [newBlock, hcount]
    . rw [osBytes_cons hframe]
      have hbytes := h.osAllocBytes
      simp [newBlock, hbytes, Block.capacity, UInt32.add_comm]
    . intro i fixed hi
      rw [heldOf_cons hframe, if_neg]
      . exact h.allocCount i fixed hi
      . simp [newBlock]
    . exact h.totals

theorem counted_release {addr : Nat} (h : Counted ⟨pool, addr :: held⟩)
    (hkept : Kept ⟨pool, addr :: held⟩) : Counted ⟨pool.release addr, held⟩ := by
  have hreturned := returned_release hkept.sound
  generalize pool.release addr = pool' at hreturned ⊢
  have hframe : ∀ addr' ∈ held, pool.block addr' = pool.block addr' := fun _ _ => rfl
  cases hreturned with
  | toOs hos =>
    have hpool : (pool.block addr).pool = none := hkept.fromOs addr List.mem_cons_self hos
    constructor
    . have hcount := h.osAllocCount
      rw [osHeld_cons hframe, if_pos hos, List.length_cons, Nat.toUInt32_eq, UInt32.ofNat_add] at hcount
      dsimp only at hcount ⊢
      rw [hcount]
      apply UInt32.add_sub_cancel
    . have hbytes := h.osAllocBytes
      rw [osBytes_cons hframe, if_pos hos, Nat.toUInt32_eq, UInt32.ofNat_add, UInt32.add_comm] at hbytes
      dsimp only at hbytes ⊢
      rw [hbytes]
      apply UInt32.add_sub_cancel
    . intro i fixed hi
      have hcount := h.allocCount i fixed hi
      rw [heldOf_cons hframe, hpool, if_neg (Option.some_ne_none i).symm] at hcount
      exact hcount
    . exact h.totals
  | toClass i fixed hclass hi =>
    constructor
    . have hcount := h.osAllocCount
      rw [osHeld_cons hframe, hclass.pooled] at hcount
      exact hcount
    . have hbytes := h.osAllocBytes
      rw [osBytes_cons hframe, hclass.pooled, if_neg Bool.false_ne_true, Nat.zero_add] at hbytes
      exact hbytes
    . intro j fixed' hj
      rcases getElem?_set_cases hi hj with ⟨rfl, rfl⟩ | ⟨hne, hj⟩
      . have hcount := h.allocCount j fixed hi
        rw [heldOf_cons hframe, if_pos hclass.pool, List.length_cons, Nat.toUInt32_eq,
          UInt32.ofNat_add] at hcount
        dsimp only
        rw [hcount]
        apply UInt32.add_sub_cancel
      . have hcount := h.allocCount j fixed' hj
        rw [heldOf_cons hframe, hclass.pool,
          if_neg fun heq => hne (Option.some.inj heq).symm] at hcount
        exact hcount
    . intro j fixed' hj
      rcases getElem?_set_cases hi hj with ⟨rfl, rfl⟩ | ⟨hne, hj⟩
      . have htotals := h.totals j fixed hi
        dsimp only
        grind
      . exact h.totals j fixed' hj

/-!
### The bytes in all
-/

-- What is added to `total_os_alloc_bytes` are the bytes that are out after the step. They are those of the
-- new block as long as the ones that have been out before are none, modulo `2 ^ 32`.
def AddsItsOwn (s : Holders) : Event → Prop
  | .alloc requiredSize => 2 ^ 21 < requiredSize → 2 ^ 32 ∣ s.osBytes
  | .release _ => True

theorem osTotals_alloc {s : Holders} (h : Balanced s) (hsound : Sound s.pool s.held) {n : Nat} :
    (s.pool.alloc n).2.osAllocBytes
        = (s.pool.alloc n).2.totalOsAllocBytes - (s.pool.alloc n).2.totalOsReleaseBytes
      ↔ s.AddsItsOwn (.alloc n) := by
  have hsmall : ∀ length ∈ classes, length ≤ 2 ^ 21 := by decide
  have hlongest : 2 ^ 21 ∈ classes := by decide
  have hlength : ∀ {i : Nat} {fixed : FixedSizeBufferPool}, s.pool.pools[i]? = some fixed →
      fixed.length ≤ 2 ^ 21 := by
    intro i fixed hi
    apply hsmall
    rw [← hsound.classes]
    exact List.mem_map_of_mem (List.mem_of_getElem? hi)
  have htotals := h.osTotals
  have htaken := taken_alloc s.pool n
  generalize s.pool.alloc n = result at htaken ⊢
  cases htaken with
  | reused i fixed addr blocks hi hle hblocks =>
    have hlt : ¬2 ^ 21 < n := Nat.not_lt_of_le (Nat.le_trans hle (hlength hi))
    exact iff_of_true htotals fun hlong => absurd hlong hlt
  | made i fixed hi hle hblocks =>
    have hlt : ¬2 ^ 21 < n := Nat.not_lt_of_le (Nat.le_trans hle (hlength hi))
    exact iff_of_true htotals fun hlong => absurd hlong hlt
  | fromOs hlong =>
    rw [← hsound.classes] at hlongest
    obtain ⟨fixed, hfixed, heq⟩ := List.mem_map.mp hlongest
    have hlt : 2 ^ 21 < n := heq ▸ hlong fixed hfixed
    have hbytes := h.osAllocBytes
    have hzero : s.pool.osAllocBytes = 0 ↔ 2 ^ 32 ∣ s.osBytes := by
      rw [hbytes, Nat.toUInt32_eq, ← UInt32.toNat_inj, UInt32.toNat_ofNat', Nat.dvd_iff_mod_eq_zero]
      rfl
    dsimp only [newBlock, AddsItsOwn]
    rw [← hzero]
    grind

theorem osTotals_release {addr : Nat} (h : Balanced ⟨pool, addr :: held⟩)
    (hsound : Sound pool (addr :: held)) :
    (pool.release addr).osAllocBytes
      = (pool.release addr).totalOsAllocBytes - (pool.release addr).totalOsReleaseBytes := by
  have htotals := h.osTotals
  have hreturned := returned_release hsound
  generalize pool.release addr = pool' at hreturned ⊢
  cases hreturned with
  | toOs hos =>
    dsimp only at htotals ⊢
    grind
  | toClass i fixed hclass hi => exact htotals

theorem Balanced.step {s s' : Holders} {e : Event} (h : Balanced s) (hkept : Kept s)
    (hstep : s.step e = some s') : Balanced s' ↔ s.AddsItsOwn e := by
  cases e with
  | alloc n =>
    obtain ⟨-, heq⟩ := Option.ite_none_right_eq_some.mp hstep
    injection heq with heq
    subst heq
    rw [← osTotals_alloc h hkept.sound]
    constructor
    . exact fun hbalanced => hbalanced.osTotals
    . exact fun htotals => ⟨counted_alloc h.toCounted hkept.sound n, htotals⟩
  | release addr =>
    obtain ⟨haddr, heq⟩ := Option.ite_none_right_eq_some.mp hstep
    injection heq with heq
    subst heq
    have hperm := List.perm_cons_erase haddr
    have hsound := hkept.sound.perm hperm
    have hcounted := h.toCounted.perm hperm
    have hkept' : Kept ⟨s.pool, addr :: s.held.erase addr⟩ := hkept.perm hperm
    apply iff_of_true _ trivial
    constructor
    . exact counted_release hcounted hkept'
    . exact osTotals_release ⟨hcounted, h.osTotals⟩ hsound

theorem balanced_init : Balanced machine.init := by
  have hpools : ∀ (size n i : Nat) (fixed : FixedSizeBufferPool),
      (initPools size n)[i]? = some fixed → fixed = { length := fixed.length } := by
    intro size n
    induction n generalizing size with
    | zero =>
      intro i fixed hi
      cases hi
    | succ n ih =>
      intro i fixed hi
      cases i with
      | zero =>
        injection hi with hi
        subst hi
        rfl
      | succ i => exact ih (2 * size) i fixed hi
  constructor
  . constructor
    . rfl
    . rfl
    . intro i fixed hi
      rw [hpools _ _ i fixed hi]
      rfl
    . intro i fixed hi
      rw [hpools _ _ i fixed hi]
      exact (UInt32.sub_self 0).symm
  . rfl

/--
All of the counters are right after every step, if and only if a block is allocated from the operating
system only while no bytes of it are out, modulo `2 ^ 32`.
-/
theorem balanced_iff (es : List Event) :
    machine.Along (fun s e => ∀ s', machine.step s e = some s' → Balanced s') machine.init es
      ↔ machine.Along AddsItsOwn machine.init es := by
  apply Machine.along_congr_of fun s => Kept s ∧ Balanced s
  . intro s e s' ⟨hkept, hbalanced⟩ hadds hstep
    exact ⟨hkept.step hstep, (hbalanced.step hkept hstep).mpr hadds⟩
  . intro s e ⟨hkept, hbalanced⟩
    cases hstep : machine.step s e with
    | some s' =>
      have hiff := hbalanced.step hkept hstep
      simp [hiff]
    | none =>
      apply iff_of_true
      . intro s' heq
        cases heq
      . cases e with
        | alloc n =>
          intro hlong
          have hpos : n > 0 := Nat.lt_of_le_of_lt (Nat.zero_le _) hlong
          simp [machine, step, hpos] at hstep
        | release addr => trivial
  . exact ⟨kept_init, balanced_init⟩

-- Two long blocks, and the bytes of the first one are counted once more.
theorem exists_not_balanced :
    ∃ s, machine.Reachable s ∧ s.pool.osAllocBytes = 6000000 ∧ s.pool.totalOsAllocBytes = 9000000
      ∧ s.pool.totalOsReleaseBytes = 0 ∧ ¬Balanced s := by
  refine ⟨_, ⟨[.alloc 3000000, .alloc 3000000], rfl⟩, rfl, rfl, rfl, ?_⟩
  intro hbalanced
  exact absurd hbalanced.osTotals (by decide)

end Holders
end BufferPool
end Lax
