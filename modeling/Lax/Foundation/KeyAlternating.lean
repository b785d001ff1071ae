/-!
This module contains block ciphers that alternate between adding a key and rounds without one. A
round substitutes and then mixes, but the last one does not mix. As the mixing goes along with adding
a key, such a cipher can be undone by one of the same form.
-/

structure KeyAlternating (α : Type) where
  add : α → α → α
  sub : α → α
  mix : α → α

namespace KeyAlternating

variable {α β : Type}

def round (c : KeyAlternating α) (x k : α) : α :=
  c.add (c.mix (c.sub x)) k

def encrypt (c : KeyAlternating α) (first : α) (inner : List α) (last x : α) : α :=
  c.add (c.sub (inner.foldl c.round (c.add x first))) last

-- `d` is made of what undoes the parts of `c`.
structure Undoes (d c : KeyAlternating α) : Prop where
  add_add : ∀ x k, d.add (c.add x k) k = x
  sub_sub : ∀ x, d.sub (c.sub x) = x
  mix_mix : ∀ x, d.mix (c.mix x) = x
  mix_add : ∀ x k, d.mix (c.add x k) = c.add (d.mix x) (d.mix k)

variable {c d : KeyAlternating α}

-- With its key mixed, a round of `d` takes back the mixing of a round of `c` and the substitution of
-- the one before.
theorem Undoes.round_round (h : Undoes d c) (x k : α) :
    d.round (c.sub (c.round x k)) (d.mix k) = c.sub x := by
  unfold round
  rw [h.sub_sub, h.mix_add, h.mix_mix, h.add_add]

theorem Undoes.foldl_foldl (h : Undoes d c) (inner : List α) (x : α) :
    (inner.reverse.map d.mix).foldl d.round (c.sub (inner.foldl c.round x)) = c.sub x := by
  induction inner generalizing x with
  | nil => rfl
  | cons k inner ih =>
    rw [List.foldl_cons, List.reverse_cons, List.map_append, List.foldl_append, ih]
    exact h.round_round x k

theorem Undoes.encrypt_encrypt (h : Undoes d c) (first : α) (inner : List α) (last x : α) :
    d.encrypt last (inner.reverse.map d.mix) first (c.encrypt first inner last x) = x := by
  unfold encrypt
  rw [h.add_add, h.foldl_foldl, h.sub_sub, h.add_add]

/-!
### One cipher in terms of another
-/

-- `f` takes what `c` works on to what `e` works on.
structure Maps (f : α → β) (c : KeyAlternating α) (e : KeyAlternating β) : Prop where
  add : ∀ x k, f (c.add x k) = e.add (f x) (f k)
  sub : ∀ x, f (c.sub x) = e.sub (f x)
  mix : ∀ x, f (c.mix x) = e.mix (f x)

variable {f : α → β} {e : KeyAlternating β}

theorem Maps.round (h : Maps f c e) (x k : α) : f (c.round x k) = e.round (f x) (f k) := by
  unfold KeyAlternating.round
  rw [h.add, h.mix, h.sub]

theorem Maps.foldl_round (h : Maps f c e) (inner : List α) (x : α) :
    f (inner.foldl c.round x) = (inner.map f).foldl e.round (f x) := by
  induction inner generalizing x with
  | nil => rfl
  | cons k inner ih => rw [List.foldl_cons, ih, h.round, List.map_cons, List.foldl_cons]

theorem Maps.encrypt (h : Maps f c e) (first : α) (inner : List α) (last x : α) :
    f (c.encrypt first inner last x) = e.encrypt (f first) (inner.map f) (f last) (f x) := by
  unfold KeyAlternating.encrypt
  rw [h.add, h.sub, h.foldl_round, h.add]

end KeyAlternating
