import Lax.Net.Modifier.Impl.Basic

/-!
This module contains what does not depend on a particular modifier: the length field, and working on
a frame that lies somewhere inside of a buffer.
-/

namespace Lax

@[simp]
theorem length_lengthField (newLen : Nat) : (lengthField newLen).length = 4 := by
  rfl

theorem updateLengthField_zero (buf : List UInt8) (newLen : Nat) :
    updateLengthField buf 0 newLen = lengthField newLen ++ buf.drop 4 := by
  simp [updateLengthField, Slice.write_zero]

-- The start of what comes after the header.
theorem read_body {hdr : List UInt8} (hhdr : hdr.length = headerLength) (body rest : List UInt8)
    {len : Nat} (h : len ≤ body.length) :
    Slice.read (hdr ++ body ++ rest) headerLength len = body.take len := by
  rw [← hhdr]
  exact Slice.read_start hdr body rest h

theorem read_all_body {hdr : List UInt8} (hhdr : hdr.length = headerLength) (body : List UInt8) :
    Slice.read (hdr ++ body) headerLength body.length = body := by
  have hread := read_body hhdr body [] (Nat.le_refl _)
  rwa [List.append_nil, List.take_length] at hread

namespace Event

def shift (offset : Nat) : Event → Event
  | .access pos len => .access (offset + pos) len
  | .subtract a b => .subtract a b

-- The access is inside of `[msgPos, msgPos + msgLen)`, the computed size is not negative.
def Ok (msgPos msgLen : Nat) : Event → Prop
  | .access pos len => msgPos ≤ pos ∧ pos + len ≤ msgPos + msgLen
  | .subtract a b => b ≤ a

theorem ok_shift (offset msgLen : Nat) (e : Event) :
    (e.shift offset).Ok offset msgLen ↔ e.Ok 0 msgLen := by
  cases e with
  | access pos len =>
    simp only [shift, Ok]
    omega
  | subtract a b => rfl

theorem Ok.mono {msgLen msgLen' : Nat} {e : Event} (h : e.Ok 0 msgLen) (hle : msgLen ≤ msgLen') :
    e.Ok 0 msgLen' := by
  cases e with
  | access pos len =>
    unfold Ok at *
    omega
  | subtract a b => exact h

end Event

namespace Received

variable {σ τ : Type}

-- The same call on a frame that lies between `pre` and `post`.
def embed (pre post : List UInt8) (r : Received σ) : Received σ :=
  ⟨r.rc, pre ++ r.buf ++ post, r.state, r.trace.map (Event.shift pre.length)⟩

@[simp]
theorem rc_embed (pre post : List UInt8) (r : Received σ) : (r.embed pre post).rc = r.rc := rfl

@[simp]
theorem buf_embed (pre post : List UInt8) (r : Received σ) :
    (r.embed pre post).buf = pre ++ r.buf ++ post := rfl

@[simp]
theorem state_embed (pre post : List UInt8) (r : Received σ) :
    (r.embed pre post).state = r.state := rfl

@[simp]
theorem rc_map (f : σ → τ) (r : Received σ) : (r.map f).rc = r.rc := rfl

@[simp]
theorem buf_map (f : σ → τ) (r : Received σ) : (r.map f).buf = r.buf := rfl

theorem start_embed (pre mid post : List UInt8) (state : σ) (msgLen : Nat) :
    start (pre ++ mid ++ post) state msgLen = (start mid state msgLen).embed pre post := rfl

theorem andThen_error {r : Received σ} {e : Failure} (h : r.rc = .error e) (enabled : Bool)
    (next : List UInt8 → σ → Nat → Received σ) : r.andThen enabled next = r := by
  simp [andThen, h]

theorem andThen_false (r : Received σ) (next : List UInt8 → σ → Nat → Received σ) :
    r.andThen false next = r := by
  unfold andThen
  split <;> simp

theorem andThen_true {r : Received σ} {msgLen : Nat} (h : r.rc = .ok msgLen)
    (next : List UInt8 → σ → Nat → Received σ) :
    r.andThen true next =
      { next r.buf r.state msgLen with trace := r.trace ++ (next r.buf r.state msgLen).trace } := by
  simp [andThen, h]

theorem andThen_eq_ok {r : Received σ} {enabled : Bool} {msgLen : Nat}
    {next : List UInt8 → σ → Nat → Received σ} (h : (r.andThen enabled next).rc = .ok msgLen) :
    ∃ msgLen', r.rc = .ok msgLen' := by
  cases hrc : r.rc with
  | error e =>
    rw [andThen_error hrc, hrc] at h
    contradiction
  | ok msgLen' => exact ⟨msgLen', rfl⟩

theorem forall_mem_trace_andThen {P : Event → Prop} {r : Received σ} {enabled : Bool}
    {next : List UInt8 → σ → Nat → Received σ} (h : ∀ e ∈ r.trace, P e)
    (hnext : ∀ msgLen, enabled = true → r.rc = .ok msgLen →
      ∀ e ∈ (next r.buf r.state msgLen).trace, P e) :
    ∀ e ∈ (r.andThen enabled next).trace, P e := by
  cases hrc : r.rc with
  | error e =>
    rw [andThen_error hrc]
    exact h
  | ok msgLen =>
    cases enabled with
    | false =>
      rw [andThen_false]
      exact h
    | true =>
      rw [andThen_true hrc]
      exact List.forall_mem_append.mpr ⟨h, hnext msgLen rfl hrc⟩

theorem andThen_embed (pre post : List UInt8) (r : Received σ) (enabled : Bool)
    (next next' : List UInt8 → σ → Nat → Received σ)
    (h : ∀ msgLen, enabled = true → r.rc = .ok msgLen →
      next (pre ++ r.buf ++ post) r.state msgLen = (next' r.buf r.state msgLen).embed pre post) :
    (r.embed pre post).andThen enabled next = (r.andThen enabled next').embed pre post := by
  cases enabled with
  | false => rw [andThen_false, andThen_false]
  | true =>
    cases hrc : r.rc with
    | error e =>
      have hrc' : (r.embed pre post).rc = .error e := hrc
      rw [andThen_error hrc, andThen_error hrc']
    | ok msgLen =>
      have hrc' : (r.embed pre post).rc = .ok msgLen := hrc
      rw [andThen_true hrc, andThen_true hrc']
      rw [buf_embed, state_embed, h msgLen rfl hrc]
      simp [embed]

end Received

end Lax
