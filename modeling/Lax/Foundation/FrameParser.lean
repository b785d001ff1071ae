/-!
This module contains parsers that get their input in chunks. A parser has a state, and looks at the
input that has arrived so far: it waits for more, takes a frame off the front or rejects the input
for good. Cutting the input differently does not change what such a parser does.
-/

inductive FrameParser.Step (σ κ μ ε : Type) where
  | wait
  | stop (key : κ) (e : ε) (state : σ)
  | frame (key : κ) (size : Nat) (msg : μ) (state : σ)

-- A decision is final: more input does not change it.
structure FrameParser (α σ κ μ ε : Type) where
  next : σ → List α → FrameParser.Step σ κ μ ε
  size_of_frame : ∀ {s xs key size msg s'}, next s xs = .frame key size msg s' →
    0 < size ∧ size ≤ xs.length
  next_append : ∀ {s xs} (ys), next s xs ≠ .wait → next s (xs ++ ys) = next s xs

namespace FrameParser

variable {α σ κ μ ε : Type}

structure Run (α σ κ μ ε : Type) where
  rc : Except ε Unit
  msgs : List μ
  keys : List κ
  state : σ
  rest : List α

namespace Run

def prepend (msgs : List μ) (keys : List κ) (r : Run α σ κ μ ε) : Run α σ κ μ ε :=
  { r with msgs := msgs ++ r.msgs, keys := keys ++ r.keys }

def andThen (r : Run α σ κ μ ε) (next : σ → List α → Run α σ κ μ ε) : Run α σ κ μ ε :=
  match r.rc with
  | .error _ => r
  | .ok () => (next r.state r.rest).prepend r.msgs r.keys

theorem prepend_prepend (msgs msgs' : List μ) (keys keys' : List κ) (r : Run α σ κ μ ε) :
    (r.prepend msgs' keys').prepend msgs keys = r.prepend (msgs ++ msgs') (keys ++ keys') := by
  unfold prepend
  simp only [List.append_assoc]

theorem prepend_andThen (msgs : List μ) (keys : List κ) (r : Run α σ κ μ ε)
    (next : σ → List α → Run α σ κ μ ε) :
    (r.prepend msgs keys).andThen next = (r.andThen next).prepend msgs keys := by
  unfold andThen
  cases hrc : r.rc with
  | error e =>
    simp only [prepend, hrc]
  | ok u =>
    simp only [prepend_prepend]
    simp only [prepend, hrc]

-- Two runs differ in nothing but the input that a rejected one has not looked at.
structure Agree (r r' : Run α σ κ μ ε) : Prop where
  rc : r.rc = r'.rc
  msgs : r.msgs = r'.msgs
  keys : r.keys = r'.keys
  state : r.state = r'.state
  rest : r.rc = .ok () → r.rest = r'.rest

theorem andThen_error {r : Run α σ κ μ ε} {e : ε} (h : r.rc = .error e)
    (next : σ → List α → Run α σ κ μ ε) : r.andThen next = r := by
  unfold andThen
  rw [h]

theorem andThen_ok {r : Run α σ κ μ ε} (h : r.rc = .ok ()) (next : σ → List α → Run α σ κ μ ε) :
    r.andThen next = (next r.state r.rest).prepend r.msgs r.keys := by
  unfold andThen
  rw [h]

theorem Agree.refl (r : Run α σ κ μ ε) : Agree r r :=
  ⟨rfl, rfl, rfl, rfl, fun _ => rfl⟩

theorem Agree.symm {r r' : Run α σ κ μ ε} (h : Agree r r') : Agree r' r :=
  ⟨h.rc.symm, h.msgs.symm, h.keys.symm, h.state.symm, fun hrc => (h.rest (h.rc.trans hrc)).symm⟩

theorem Agree.trans {r r' r'' : Run α σ κ μ ε} (h : Agree r r') (h' : Agree r' r'') :
    Agree r r'' :=
  ⟨h.rc.trans h'.rc, h.msgs.trans h'.msgs, h.keys.trans h'.keys, h.state.trans h'.state,
    fun hrc => (h.rest hrc).trans (h'.rest (h.rc.symm.trans hrc))⟩

theorem Agree.prepend {r r' : Run α σ κ μ ε} (h : Agree r r') (msgs : List μ) (keys : List κ) :
    Agree (r.prepend msgs keys) (r'.prepend msgs keys) :=
  ⟨h.rc, congrArg (msgs ++ ·) h.msgs, congrArg (keys ++ ·) h.keys, h.state, h.rest⟩

theorem andThen_congr {r r' : Run α σ κ μ ε} {next next' : σ → List α → Run α σ κ μ ε}
    (h : Agree r r') (hnext : ∀ s xs, Agree (next s xs) (next' s xs)) :
    Agree (r.andThen next) (r'.andThen next') := by
  have hrc := h.rc
  unfold andThen
  cases hr : r.rc with
  | error e =>
    rw [hr] at hrc
    rw [← hrc]
    exact h
  | ok u =>
    rw [hr] at hrc
    rw [← hrc, h.state, h.rest hr, h.msgs, h.keys]
    exact (hnext r'.state r'.rest).prepend r'.msgs r'.keys

end Run

variable (p : FrameParser α σ κ μ ε)

def run (s : σ) (xs : List α) : Run α σ κ μ ε :=
  match _hnext : p.next s xs with
  | .wait => ⟨.ok (), [], [], s, xs⟩
  | .stop key e s' => ⟨.error e, [], [key], s', xs⟩
  | .frame key size msg s' => (run s' (xs.drop size)).prepend [msg] [key]
termination_by xs.length
decreasing_by
  have hsize := p.size_of_frame _hnext
  simp only [List.length_drop]
  omega

variable {p}

theorem run_wait {s : σ} {xs : List α} (h : p.next s xs = .wait) :
    p.run s xs = ⟨.ok (), [], [], s, xs⟩ := by
  unfold run
  split <;> simp_all

theorem run_stop {s s' : σ} {xs : List α} {key : κ} {e : ε} (h : p.next s xs = .stop key e s') :
    p.run s xs = ⟨.error e, [], [key], s', xs⟩ := by
  unfold run
  split <;> simp_all

theorem run_frame {s s' : σ} {xs : List α} {key : κ} {size : Nat} {msg : μ}
    (h : p.next s xs = .frame key size msg s') :
    p.run s xs = (p.run s' (xs.drop size)).prepend [msg] [key] := by
  rw [run]
  split <;> simp_all

-- A parser does not stop before it has to wait.
theorem next_of_run {s : σ} {xs : List α} (h : (p.run s xs).rc = .ok ()) :
    p.next (p.run s xs).state (p.run s xs).rest = .wait := by
  induction hn : xs.length using Nat.strongRecOn generalizing s xs with
  | _ n ih =>
    cases hnext : p.next s xs with
    | wait =>
      rw [run_wait hnext]
      exact hnext
    | stop key e s' =>
      rw [run_stop hnext] at h
      contradiction
    | frame key size msg s' =>
      have hsize := p.size_of_frame hnext
      rw [run_frame hnext] at h ⊢
      exact ih (xs.drop size).length (by rw [List.length_drop]; omega) h rfl

theorem run_append (s : σ) (xs ys : List α) :
    Run.Agree (p.run s (xs ++ ys)) ((p.run s xs).andThen fun s rest => p.run s (rest ++ ys)) := by
  induction hn : xs.length using Nat.strongRecOn generalizing s xs with
  | _ n ih =>
    cases hnext : p.next s xs with
    | wait =>
      rw [run_wait hnext]
      exact Run.Agree.refl _
    | stop key e s' =>
      have hnext' := (p.next_append ys (by simp [hnext])).trans hnext
      rw [run_stop hnext, run_stop hnext']
      exact ⟨rfl, rfl, rfl, rfl, fun h => nomatch h⟩
    | frame key size msg s' =>
      have hnext' := (p.next_append ys (by simp [hnext])).trans hnext
      obtain ⟨hpos, hle⟩ := p.size_of_frame hnext
      have hrec := ih (xs.drop size).length (by rw [List.length_drop]; omega) s' (xs.drop size) rfl
      rw [run_frame hnext, run_frame hnext', List.drop_append_of_le_length hle,
        Run.prepend_andThen]
      exact hrec.prepend [msg] [key]

/-!
### Chunks
-/

variable (p) in
def feed (s : σ) (rest : List α) : List (List α) → Run α σ κ μ ε
  | [] => ⟨.ok (), [], [], s, rest⟩
  | chunk :: chunks => (p.run s (rest ++ chunk)).andThen fun s rest => feed s rest chunks

theorem feed_cons (s : σ) (rest chunk : List α) (chunks : List (List α)) :
    Run.Agree (p.feed s rest (chunk :: chunks)) (p.run s (rest ++ (chunk :: chunks).flatten)) := by
  induction chunks generalizing s rest chunk with
  | nil =>
    rw [List.flatten_cons, List.flatten_nil, List.append_nil, feed]
    unfold Run.andThen feed
    split
    . exact Run.Agree.refl _
    . next hrc => exact ⟨hrc.symm, List.append_nil _, List.append_nil _, rfl, fun _ => rfl⟩
  | cons chunk' chunks ih =>
    rw [List.flatten_cons, ← List.append_assoc, feed]
    refine Run.Agree.trans ?_ (run_append s (rest ++ chunk) (chunk' :: chunks).flatten).symm
    apply Run.andThen_congr (Run.Agree.refl _)
    intro s rest
    exact ih s rest chunk'

end FrameParser
