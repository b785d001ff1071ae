import Lax.Channel.Impl.SharedTimer

/-!
This module contains what there is to see of a timer from the outside: what its requests have been made
for, and which of them have been run when.
-/

namespace Lax
namespace SharedTimer

open Timer (Req)

variable {ω : Type} (pq : KeyedQueue Nat ℚ)

-- A request as its constructor has left it, which does not keep the duration here.
structure Made (ω : Type) where
  req : Req (TimerAction ω)
  duration : ℚ

-- A timer, what its objects have been made for, and which of them have been run when.
structure History (ω : Type) where
  timer : SharedTimer ω
  made : Nat → Option (Made ω)
  runs : List (Nat × ℚ)

namespace History

def set (s : History ω) (interval duration : ℚ) (repeats : Bool) (after tick tick' : ℚ) : History ω :=
  match s.timer.set pq interval duration repeats after tick tick' with
  | (none, t) => { s with timer := t }
  | (some id, t) =>
    let req := Req.ctor id interval duration after repeats tick tick'
    { s with timer := t, made := Function.update s.made s.timer.fresh (some ⟨req, duration⟩) }

def update (s : History ω) (now : ℚ) : History ω where
  timer := s.timer.update pq now
  made := s.made
  runs := s.runs ++ (s.timer.visits pq now).map fun v => (v.p, now)

def step (s : History ω) : Event ω → Option (History ω)
  | .set interval duration repeats after tick tick' =>
    some (s.set pq interval duration repeats after tick tick')
  | .add id act => some { s with timer := (s.timer.add id act).2 }
  | .cancel id => some { s with timer := (s.timer.cancel id).2 }
  | .update now => some (s.update pq now)
  | .outside w => some { s with timer := { s.timer with world := w } }

def machine (w : ω) : Machine (History ω) (Event ω) where
  init := ⟨ctor w, fun _ => none, []⟩
  step := step pq

end History

end SharedTimer
end Lax
