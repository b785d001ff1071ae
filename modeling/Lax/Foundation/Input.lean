import Mathlib.Init

/-!
This module contains programs that read bytes. What such a program does is an operation at a time:
it asks for some bytes, reports that what it has read is malformed or makes room for what it is going
to read. On a list of bytes it either gets to its result and leaves the bytes that it has not asked
for, or fails at the first operation that cannot be done.
-/

inductive Input (ε α : Type) where
  | ret (a : α)
  | read (n : Nat) (next : List UInt8 → Input ε α)
  -- The program goes on behind a failure, but what it does then is not a result.
  | fail (e : ε) (next : Input ε α)
  | resize (n : Nat) (next : Input ε α)

namespace Input

variable {ε α β : Type}

def andThen : Input ε α → (α → Input ε β) → Input ε β
  | ret a, f => f a
  | read n next, f => read n fun bytes => andThen (next bytes) f
  | fail e next, f => fail e (andThen next f)
  | resize n next, f => resize n (andThen next f)

instance : Monad (Input ε) where
  pure := ret
  bind := andThen

def times (p : Input ε α) : (n : Nat) → Input ε { xs : List α // xs.length = n }
  | 0 => return ⟨[], rfl⟩
  | n + 1 => do
    let x ← p
    let xs ← times p n
    return ⟨x :: xs.val, congrArg Nat.succ xs.property⟩

-- The failure is `none` if there are not enough bytes.
def parse : Input ε α → List UInt8 → Except (Option ε) (α × List UInt8)
  | ret a, s => .ok (a, s)
  | read n next, s => if n ≤ s.length then parse (next (s.take n)) (s.drop n) else .error none
  | fail e _, _ => .error (some e)
  | resize _ next, s => parse next s

@[simp]
theorem parse_pure (a : α) (s : List UInt8) : parse (pure a : Input ε α) s = .ok (a, s) :=
  rfl

@[simp]
theorem parse_ret (a : α) (s : List UInt8) : parse (ret a : Input ε α) s = .ok (a, s) :=
  rfl

theorem parse_read (n : Nat) (next : List UInt8 → Input ε α) (s : List UInt8) :
    parse (read n next) s =
      if n ≤ s.length then parse (next (s.take n)) (s.drop n) else .error none :=
  rfl

@[simp]
theorem parse_fail (e : ε) (next : Input ε α) (s : List UInt8) :
    parse (fail e next) s = .error (some e) :=
  rfl

@[simp]
theorem parse_resize (n : Nat) (next : Input ε α) (s : List UInt8) :
    parse (resize n next) s = parse next s :=
  rfl

theorem parse_bind (p : Input ε α) (f : α → Input ε β) (s : List UInt8) :
    parse (p >>= f) s = (parse p s).bind fun x => parse (f x.1) x.2 := by
  change parse (p.andThen f) s = _
  induction p generalizing s with
  | ret a => rfl
  | read n next ih =>
    rw [andThen, parse_read, parse_read]
    split
    . exact ih _ _
    . rfl
  | fail e next ih => rfl
  | resize n next ih => exact ih s

theorem parse_bind_of_ok {p : Input ε α} {s s' : List UInt8} {a : α} (h : parse p s = .ok (a, s'))
    (f : α → Input ε β) : parse (p >>= f) s = parse (f a) s' := by
  rw [parse_bind, h]
  rfl

theorem parse_bind_ok {p : Input ε α} {f : α → Input ε β} {s rest : List UInt8} {b : β}
    (h : parse (p >>= f) s = .ok (b, rest)) :
    ∃ a s', parse p s = .ok (a, s') ∧ parse (f a) s' = .ok (b, rest) := by
  rw [parse_bind] at h
  cases hp : parse p s with
  | error e =>
    rw [hp] at h
    cases h
  | ok x =>
    rw [hp] at h
    exact ⟨x.1, x.2, rfl, h⟩

-- A program that gets to its result depends on nothing but the bytes that it has asked for.
theorem parse_used {p : Input ε α} {s rest : List UInt8} {a : α} (h : parse p s = .ok (a, rest)) :
    ∃ used, s = used ++ rest ∧ ∀ more, parse p (used ++ more) = .ok (a, more) := by
  induction p generalizing s with
  | ret a' =>
    injection h with h
    injection h with ha hs
    subst ha hs
    exact ⟨[], rfl, fun _ => rfl⟩
  | read n next ih =>
    rw [parse_read] at h
    split at h
    . next hn =>
      obtain ⟨used, hdrop, hused⟩ := ih _ h
      refine ⟨s.take n ++ used, ?_, ?_⟩
      . rw [List.append_assoc, ← hdrop, List.take_append_drop]
      . intro more
        have hlen : (s.take n).length = n := List.length_take_of_le hn
        rw [parse_read, List.append_assoc, List.take_left' hlen, List.drop_left' hlen, hused, if_pos]
        rw [List.length_append, hlen]
        exact Nat.le_add_right n _
    . cases h
  | fail e next ih => cases h
  | resize n next ih =>
    obtain ⟨used, hs, hused⟩ := ih h
    exact ⟨used, hs, hused⟩

theorem parse_append {p : Input ε α} {s rest : List UInt8} {a : α} (h : parse p s = .ok (a, rest))
    (more : List UInt8) : parse p (s ++ more) = .ok (a, rest ++ more) := by
  obtain ⟨used, rfl, hused⟩ := parse_used h
  rw [List.append_assoc]
  exact hused _

theorem parse_fail_append {p : Input ε α} {s : List UInt8} {e : ε}
    (h : parse p s = .error (some e)) (more : List UInt8) :
    parse p (s ++ more) = .error (some e) := by
  induction p generalizing s with
  | ret a => cases h
  | read n next ih =>
    rw [parse_read] at h ⊢
    split at h
    . next hn =>
      rw [if_pos (List.length_append ▸ Nat.le_add_right_of_le hn), List.take_append_of_le_length hn,
        List.drop_append_of_le_length hn]
      exact ih _ h
    . cases h
  | fail e' next ih => exact h
  | resize n next ih => exact ih h

theorem forall_mem_of_parse_times {p : Input ε α} {P : α → Prop}
    (hp : ∀ {s a rest}, parse p s = .ok (a, rest) → P a) {n : Nat} {s rest : List UInt8}
    {xs : { xs : List α // xs.length = n }} (h : parse (times p n) s = .ok (xs, rest)) :
    ∀ x ∈ xs.val, P x := by
  induction n generalizing s with
  | zero =>
    injection h with h
    injection h with hxs
    subst hxs
    exact fun x hx => absurd hx List.not_mem_nil
  | succ n ih =>
    obtain ⟨x, s', hx, h⟩ := parse_bind_ok h
    obtain ⟨xs', s'', hxs', h⟩ := parse_bind_ok h
    injection h with h
    injection h with hxs hrest
    subst hxs hrest
    exact List.forall_mem_cons.mpr ⟨hp hx, ih hxs'⟩

/-!
### What is read is what has been written
-/

-- The bytes are one way to write `a`.
def Encodes (p : Input ε α) (bytes : List UInt8) (a : α) : Prop :=
  ∀ rest, parse p (bytes ++ rest) = .ok (a, rest)

theorem encodes_pure (a : α) : Encodes (pure a : Input ε α) [] a :=
  fun _ => rfl

theorem encodes_read {bytes : List UInt8} {n : Nat} {next : List UInt8 → Input ε α} {a : α}
    (hlen : bytes.length = n) (h : Encodes (next bytes) [] a) : Encodes (read n next) bytes a := by
  intro rest
  rw [parse_read, List.take_left' hlen, List.drop_left' hlen, if_pos]
  . exact h rest
  . rw [List.length_append, hlen]
    exact Nat.le_add_right n _

theorem Encodes.resize {p : Input ε α} {bytes : List UInt8} {a : α} (h : Encodes p bytes a)
    (n : Nat) : Encodes (resize n p) bytes a :=
  h

theorem Encodes.bind {p : Input ε α} {f : α → Input ε β} {bytes bytes' : List UInt8} {a : α} {b : β}
    (h : Encodes p bytes a) (h' : Encodes (f a) bytes' b) :
    Encodes (p >>= f) (bytes ++ bytes') b := by
  intro rest
  rw [List.append_assoc, parse_bind_of_ok (h _)]
  exact h' rest

theorem Encodes.map {p : Input ε α} {bytes : List UInt8} {a : α} (h : Encodes p bytes a)
    (f : α → β) : Encodes (p >>= fun a => pure (f a)) bytes (f a) := by
  have hmap := h.bind (f := fun a => pure (f a)) (encodes_pure (f a))
  rwa [List.append_nil] at hmap

theorem encodes_times {p : Input ε α} {enc : α → List UInt8} {n : Nat}
    (xs : { xs : List α // xs.length = n }) (h : ∀ x ∈ xs.val, Encodes p (enc x) x) :
    Encodes (times p n) (xs.val.flatMap enc) xs := by
  obtain ⟨xs, rfl⟩ := xs
  induction xs with
  | nil => exact encodes_pure _
  | cons x xs ih =>
    rw [List.forall_mem_cons] at h
    exact h.1.bind ((ih h.2).map _)

-- What has been cut short is never malformed, there is something missing.
theorem Encodes.parse_take {p : Input ε α} {bytes : List UInt8} {a : α} (h : Encodes p bytes a)
    {n : Nat} (hn : n < bytes.length) : parse p (bytes.take n) = .error none := by
  have hall : parse p bytes = .ok (a, []) := by
    have := h []
    rwa [List.append_nil] at this
  cases hparse : parse p (bytes.take n) with
  | ok x =>
    have happend := parse_append (show parse p (bytes.take n) = .ok (x.1, x.2) from hparse) (bytes.drop n)
    rw [List.take_append_drop, hall] at happend
    injection happend with happend
    have hlen := congrArg List.length (congrArg Prod.snd happend)
    rw [List.length_append, List.length_drop, List.length_nil] at hlen
    omega
  | error e =>
    cases e with
    | none => rfl
    | some e =>
      have happend := parse_fail_append hparse (bytes.drop n)
      rw [List.take_append_drop, hall] at happend
      cases happend

-- Nothing is an encoding of two values, nor the start of one of another value.
theorem Encodes.unique {p : Input ε α} {bytes bytes' rest rest' : List UInt8} {a a' : α}
    (h : Encodes p bytes a) (h' : Encodes p bytes' a') (heq : bytes ++ rest = bytes' ++ rest') :
    a = a' ∧ rest = rest' := by
  have hparse := h rest
  rw [heq, h' rest'] at hparse
  injection hparse with hparse
  injection hparse with ha hrest
  exact ⟨ha.symm, hrest.symm⟩

/-!
### Going on behind a failure
-/

-- The first failure stays. From there on zeros are read. Asking for too many bytes fails with `short`.
def exec (short : ε) : Input ε α → Except ε (List UInt8) → α × Except ε (List UInt8)
  | ret a, st => (a, st)
  | read n next, .ok s =>
    if n ≤ s.length then
      exec short (next (s.take n)) (.ok (s.drop n))
    else
      exec short (next (List.replicate n 0)) (.error short)
  | read n next, .error e => exec short (next (List.replicate n 0)) (.error e)
  | fail e next, .ok _ => exec short next (.error e)
  | fail _ next, .error e => exec short next (.error e)
  | resize _ next, st => exec short next st

-- For how many elements room is made on the way.
def demand (short : ε) : Input ε α → Except ε (List UInt8) → Nat
  | ret _, _ => 0
  | read n next, .ok s =>
    if n ≤ s.length then
      demand short (next (s.take n)) (.ok (s.drop n))
    else
      demand short (next (List.replicate n 0)) (.error short)
  | read n next, .error e => demand short (next (List.replicate n 0)) (.error e)
  | fail e next, .ok _ => demand short next (.error e)
  | fail _ next, .error e => demand short next (.error e)
  | resize n next, st => n + demand short next st

variable {short : ε}

theorem exec_resize (n : Nat) (next : Input ε α) (st : Except ε (List UInt8)) :
    exec short (resize n next) st = exec short next st := by
  cases st with
  | error e => rfl
  | ok s => rfl

theorem demand_resize (n : Nat) (next : Input ε α) (st : Except ε (List UInt8)) :
    demand short (resize n next) st = n + demand short next st := by
  cases st with
  | error e => rfl
  | ok s => rfl

theorem exec_error (p : Input ε α) (e : ε) : (exec short p (.error e)).2 = .error e := by
  induction p with
  | ret a => rfl
  | read n next ih => exact ih _
  | fail e' next ih => exact ih
  | resize n next ih => exact ih

theorem exec_bind (p : Input ε α) (f : α → Input ε β) (st : Except ε (List UInt8)) :
    exec short (p >>= f) st = exec short (f (exec short p st).1) (exec short p st).2 := by
  change exec short (p.andThen f) st = _
  induction p generalizing st with
  | ret a => rfl
  | read n next ih =>
    cases st with
    | error e => exact ih _ _
    | ok s =>
      simp only [andThen, exec]
      split
      . exact ih _ _
      . exact ih _ _
  | fail e next ih =>
    cases st with
    | error e => exact ih _
    | ok s => exact ih _
  | resize n next ih => exact ih st

-- What the program gets to, also behind a failure.
def Yields (short : ε) (P : α → Prop) (p : Input ε α) : Prop :=
  ∀ st, P (exec short p st).1

theorem yields_pure {P : α → Prop} {a : α} (h : P a) : Yields short P (pure a : Input ε α) :=
  fun _ => h

theorem yields_bind {p : Input ε α} {f : α → Input ε β} {P : β → Prop}
    (h : ∀ a, Yields short P (f a)) : Yields short P (p >>= f) := by
  intro st
  rw [exec_bind]
  exact h _ _

theorem demand_bind (p : Input ε α) (f : α → Input ε β) (st : Except ε (List UInt8)) :
    demand short (p >>= f) st
      = demand short p st + demand short (f (exec short p st).1) (exec short p st).2 := by
  change demand short (p.andThen f) st = _
  induction p generalizing st with
  | ret a => exact (Nat.zero_add _).symm
  | read n next ih =>
    cases st with
    | error e => exact ih _ _
    | ok s =>
      simp only [andThen, exec, demand]
      split
      . exact ih _ _
      . exact ih _ _
  | fail e next ih =>
    cases st with
    | error e => exact ih _
    | ok s => exact ih _
  | resize n next ih =>
    simp only [andThen, exec, demand]
    rw [ih st, Nat.add_assoc]

-- The run gets to the result of the parser and the bytes that are left, or fails as the parser does.
theorem parse_eq_exec (short : ε) (p : Input ε α) (s : List UInt8) :
    (∃ a rest, parse p s = .ok (a, rest) ∧ exec short p (.ok s) = (a, .ok rest))
      ∨ ∃ e, parse p s = .error e ∧ (exec short p (.ok s)).2 = .error (e.getD short) := by
  induction p generalizing s with
  | ret a => exact Or.inl ⟨a, s, rfl, rfl⟩
  | read n next ih =>
    simp only [parse, exec]
    split
    . exact ih _ _
    . exact Or.inr ⟨none, rfl, exec_error _ short⟩
  | fail e next ih => exact Or.inr ⟨some e, rfl, exec_error _ e⟩
  | resize n next ih => exact ih s

theorem exec_ok_iff {p : Input ε α} {s rest : List UInt8} {a : α} :
    exec short p (.ok s) = (a, .ok rest) ↔ parse p s = .ok (a, rest) := by
  obtain ⟨a', rest', hparse, hexec⟩ | ⟨e, hparse, hexec⟩ := parse_eq_exec short p s
  . rw [hparse, hexec]
    simp
  . rw [hparse]
    refine ⟨?_, nofun⟩
    intro h
    rw [h] at hexec
    cases hexec

/-!
### How much room a program makes
-/

-- Room is made for no more elements than there are bytes read, `c` bytes being for something else,
-- and for `k` more if the bytes do not last. None is made from a failure on.
structure Metered (short : ε) (p : Input ε α) (k c : Nat) : Prop where
  error : ∀ e, demand short p (.error e) = 0
  ok : ∀ s rest, (exec short p (.ok s)).2 = .ok rest →
    demand short p (.ok s) + rest.length + c ≤ s.length
  fails : ∀ s e, (exec short p (.ok s)).2 = .error e → demand short p (.ok s) ≤ s.length + k

theorem metered_pure (short : ε) (a : α) : Metered short (pure a : Input ε α) 0 0 where
  error := fun _ => rfl
  ok := by
    intro s rest h
    injection h with h
    exact Nat.le_of_eq ((Nat.zero_add _).trans (congrArg List.length h.symm))
  fails := nofun

theorem metered_read {n : Nat} {f : List UInt8 → α} :
    Metered short (read n fun bytes => pure (f bytes) : Input ε α) 0 n where
  error := fun _ => rfl
  ok := by
    intro s rest h
    simp only [exec] at h
    simp only [demand]
    split at h
    . next hn =>
      injection h with h
      rw [if_pos hn, ← h, List.length_drop]
      change 0 + _ + n ≤ _
      omega
    . cases h
  fails := by
    intro s e h
    simp only [demand]
    split
    . exact Nat.zero_le _
    . exact Nat.zero_le _

theorem metered_fail {p : Input ε α} {e : ε} {k c : Nat} (h : Metered short p k c) (c' : Nat) :
    Metered short (fail e p) 0 c' where
  error := h.error
  ok := by
    intro s rest hrest
    change (exec short p (.error e)).2 = .ok rest at hrest
    rw [exec_error] at hrest
    cases hrest
  fails := by
    intro s e' _
    change demand short p (.error e) ≤ _
    rw [h.error]
    exact Nat.zero_le _

theorem Metered.demand_le {p : Input ε α} {k c : Nat} (h : Metered short p k c) (s : List UInt8) :
    demand short p (.ok s) ≤ s.length + k := by
  cases hst : (exec short p (.ok s)).2 with
  | error e => exact h.fails s e hst
  | ok rest =>
    have hle := h.ok s rest hst
    omega

theorem Metered.mono {p : Input ε α} {k k' c c' : Nat} (h : Metered short p k c) (hk : k ≤ k')
    (hc : c' ≤ c) : Metered short p k' c' where
  error := h.error
  ok := fun s rest hrest => Nat.le_trans (Nat.add_le_add_left hc _) (h.ok s rest hrest)
  fails := fun s e he => Nat.le_trans (h.fails s e he) (Nat.add_le_add_left hk _)

theorem Metered.bind {p : Input ε α} {f : α → Input ε β} {k k' c c' : Nat}
    (h : Metered short p k c) (h' : ∀ a, Metered short (f a) k' c') :
    Metered short (p >>= f) (max k k') (c + c') where
  error := by
    intro e
    rw [demand_bind, h.error, exec_error, (h' _).error]
  ok := by
    intro s rest hrest
    rw [exec_bind] at hrest
    rw [demand_bind]
    cases hst : (exec short p (.ok s)).2 with
    | error e =>
      rw [hst, exec_error] at hrest
      cases hrest
    | ok s' =>
      rw [hst] at hrest
      have hp := h.ok s s' hst
      have hf := (h' _).ok s' rest hrest
      omega
  fails := by
    intro s e he
    rw [exec_bind] at he
    rw [demand_bind]
    cases hst : (exec short p (.ok s)).2 with
    | error e' =>
      rw [(h' _).error]
      have hp := h.fails s e' hst
      omega
    | ok s' =>
      rw [hst] at he
      have hp := h.ok s s' hst
      have hf := (h' _).fails s' e he
      omega

theorem Metered.bind_zero {p : Input ε α} {f : α → Input ε β} {c : Nat}
    (h : Metered short p 0 c) (h' : ∀ a, Metered short (f a) 0 0) : Metered short (p >>= f) 0 c :=
  h.bind h'

theorem metered_times {p : Input ε α} {k c : Nat} (h : Metered short p k c) (n : Nat) :
    Metered short (times p n) k (n * c) := by
  induction n with
  | zero => exact (metered_pure short _).mono (Nat.zero_le k) (Nat.le_of_eq (Nat.zero_mul c))
  | succ n ih =>
    have hcons := h.bind fun x => ih.bind fun xs =>
      metered_pure short (⟨x :: xs.val, congrArg Nat.succ xs.property⟩ : { xs : List α // xs.length = n + 1 })
    apply hcons.mono
    . exact Nat.max_le.mpr ⟨Nat.le_refl k, Nat.max_le.mpr ⟨Nat.le_refl k, Nat.zero_le k⟩⟩
    . exact Nat.le_of_eq ((Nat.succ_mul n c).trans (Nat.add_comm _ _))

-- `p` makes room for the elements that it reads, as many as the size `q` that it has read before.
-- A size is a byte at least, and nothing if there was a failure before it.
theorem metered_sized {q : Input ε Nat} {p : (n : Nat) → Input ε β} {max k : Nat}
    (hq : Metered short q 0 1) (hmax : Yields short (· ≤ max) q)
    (hzero : ∀ e, (exec short q (.error e)).1 = 0) (hp : ∀ n, Metered short (p n) k n) :
    Metered short (q >>= fun n => resize n (p n)) (max + k) 1 where
  error := by
    intro e
    rw [demand_bind, hq.error, hzero, exec_error, demand_resize, (hp 0).error]
  ok := by
    intro s rest hrest
    rw [exec_bind, exec_resize] at hrest
    rw [demand_bind, demand_resize]
    cases hst : (exec short q (.ok s)).2 with
    | error e =>
      rw [hst, exec_error] at hrest
      cases hrest
    | ok s' =>
      rw [hst] at hrest
      have hsize := hq.ok s s' hst
      have helems := (hp _).ok s' rest hrest
      omega
  fails := by
    intro s e he
    rw [exec_bind, exec_resize] at he
    rw [demand_bind, demand_resize]
    have hle := hmax (.ok s)
    cases hst : (exec short q (.ok s)).2 with
    | error e' =>
      have hsize := hq.fails s e' hst
      rw [(hp _).error]
      omega
    | ok s' =>
      rw [hst] at he
      have hsize := hq.ok s s' hst
      have helems := (hp _).fails s' e he
      omega

end Input
