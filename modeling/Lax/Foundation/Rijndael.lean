import Lax.Foundation.KeyAlternating
import Mathlib.Logic.Function.Iterate
import Mathlib.Tactic.Common

/-!
This module contains the Rijndael cipher with blocks of four columns. A byte is a polynomial over the
field of two elements, modulo `x ^ 8 + x ^ 4 + x ^ 3 + x + 1`; a block is filled column by column.
-/

namespace Rijndael

/-!
### Bytes
-/

def timesX (a : BitVec 8) : BitVec 8 :=
  (a <<< 1) ^^^ (if a.getLsbD 7 then 0x1B else 0)

-- The bits of the second factor, from the highest one
def times (a b : BitVec 8) : BitVec 8 :=
  [7, 6, 5, 4, 3, 2, 1, 0].foldl (fun s i => timesX s ^^^ (if b.getLsbD i then a else 0)) 0

def square (a : BitVec 8) : BitVec 8 :=
  times a a

-- The power of 254: all powers of 255 but that of zero are 1.
def inverse (a : BitVec 8) : BitVec 8 :=
  let next := fun (p : BitVec 8 × BitVec 8) => (times p.1 (square p.2), square p.2)
  (next^[7] (1, a)).1

def affine (a : BitVec 8) : BitVec 8 :=
  a ^^^ a.rotateLeft 1 ^^^ a.rotateLeft 2 ^^^ a.rotateLeft 3 ^^^ a.rotateLeft 4 ^^^ 0x63

def subByte (a : BitVec 8) : BitVec 8 :=
  affine (inverse a)

/-!
### Rounds
-/

-- By row and column
abbrev State := Fin 4 → Fin 4 → BitVec 8

def subBytes (s : State) : State :=
  fun r c => subByte (s r c)

def shiftRows (s : State) : State :=
  fun r c => s r (c + r)

def mixColumns (s : State) : State :=
  fun r c => times (s r c) 2 ^^^ times (s (r + 1) c) 3 ^^^ s (r + 2) c ^^^ s (r + 3) c

def addRoundKey (s k : State) : State :=
  fun r c => s r c ^^^ k r c

def rounds : KeyAlternating State where
  add := addRoundKey
  sub := fun s => shiftRows (subBytes s)
  mix := mixColumns

/-!
### Keys
-/

abbrev Column := Fin 4 → BitVec 8

def rotWord (w : Column) : Column :=
  fun r => w (r + 1)

def subWord (w : Column) : Column :=
  fun r => subByte (w r)

def rcon (i : Nat) : Column :=
  fun r => if r = 0 then timesX^[i - 1] 1 else 0

def keyWord (key : List UInt8) (nk i : Nat) : Column :=
  if i < nk ∨ nk = 0 then
    fun r => (key.getD (4 * i + r) 0).toBitVec
  else
    let temp := keyWord key nk (i - 1)
    let temp :=
      if i % nk = 0 then
        fun r => subWord (rotWord temp) r ^^^ rcon (i / nk) r
      else if 6 < nk ∧ i % nk = 4 then
        subWord temp
      else
        temp
    let past := keyWord key nk (i - nk)
    fun r => past r ^^^ temp r

def roundKey (key : List UInt8) (nk round : Nat) : State :=
  fun r c => keyWord key nk (4 * round + c) r

/-!
### Blocks
-/

def load (block : List UInt8) : State :=
  fun r c => (block.getD (4 * c + r) 0).toBitVec

def store (s : State) : List UInt8 :=
  (List.finRange 4).flatMap fun c => (List.finRange 4).map fun r => UInt8.ofBitVec (s r c)

def encrypt (key block : List UInt8) : List UInt8 :=
  let nk := key.length / 4
  let nr := nk + 6
  let key := roundKey key nk
  store (rounds.encrypt (key 0) ((List.range' 1 (nr - 1)).map key) (key nr) (load block))

end Rijndael
