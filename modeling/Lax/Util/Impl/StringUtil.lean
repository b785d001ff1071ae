/-!
This module contains the two ways of splitting a string into tokens. Positions are numbers, and `none`
is `npos`: the successor of that one is `0`.
-/

namespace Lax
namespace StringUtil

-- `α` is the type of characters, narrow or wide.
variable {α : Type} [DecidableEq α]

def findFirst (p : α → Bool) (str : List α) (start : Option Nat) : Option Nat :=
  start.bind fun start => ((str.drop start).findIdx? p).map (start + ·)

def findFirstOf (str set : List α) (start : Option Nat) : Option Nat :=
  findFirst (· ∈ set) str start

def findFirstNotOf (str set : List α) (start : Option Nat) : Option Nat :=
  findFirst (· ∉ set) str start

def succ : Option Nat → Nat
  | none => 0
  | some pos => pos + 1

-- The characters from `start` on and before `stop`. `none` is the exception.
def substr (str : List α) (start stop : Option Nat) : Option (List α) :=
  match start with
  | none => none
  | some start =>
    if start ≤ str.length then
      match stop with
      | none => some (str.drop start)
      | some stop => some ((str.drop start).take (stop - start))
    else
      none

-- Without fuel there is no result, and after an exception there is none either. The number of splits
-- does not wrap: it stops at `max_splits`, and without a limit nobody looks at it.
def tokenizeLoop (str delims : List α) (maxSplits : Nat) :
    Nat → Option Nat → Nat → List (List α) → Option (List (List α))
  | 0, _, _, _ => none
  | fuel + 1, start, numSplits, ret =>
    let pos := findFirstOf str delims start
    -- Every way to the end of the body continues at the same place.
    let next (ret : List (List α)) :=
      let start := findFirstNotOf str delims (some (succ pos))
      if pos ≠ none then tokenizeLoop str delims maxSplits fuel start (numSplits + 1) ret else some ret
    if pos = start then
      next ret
    else if pos = none ∨ maxSplits > 0 ∧ numSplits = maxSplits then
      (substr str start none).map fun token => ret ++ [token]
    else
      (substr str start pos).bind fun token => next (ret ++ [token])

def tokenize (str delims : List α) (maxSplits : Nat) : Option (List (List α)) :=
  tokenizeLoop str delims maxSplits (str.length + 2) (some 0) 0 []

def tokenizeWideLoop (msg delimiter : List α) :
    Nat → Option Nat → Option Nat → List (List α) → Option (List (List α))
  | 0, _, _, _ => none
  | fuel + 1, lastPos, pos, tokens =>
    if pos ≠ none ∨ lastPos ≠ none then
      (substr msg lastPos pos).bind fun var =>
        let tokens := tokens ++ [var]
        let lastPos := lastPos.map (· + (var.length + delimiter.length))
        if lastPos.any (· > msg.length) then
          some tokens
        else
          tokenizeWideLoop msg delimiter fuel lastPos (findFirstOf msg delimiter lastPos) tokens
    else
      some tokens

-- How long it takes is not bounded: that is what there is to show.
def tokenizeWide (fuel : Nat) (msg : List α) (tokens : List (List α)) (delimiter : List α) :
    Option (List (List α)) :=
  let lastPos := findFirstNotOf msg delimiter (some 0)
  let pos := findFirstOf msg delimiter lastPos
  tokenizeWideLoop msg delimiter fuel lastPos pos tokens

end StringUtil
end Lax
