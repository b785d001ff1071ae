import Lax.Util.Botan.Impl.MdxHash
import Lax.Util.Botan.Impl.Word

/-!
This module contains the SHA-160 of the crypto library, without the code for special instructions.
-/

namespace Lax
namespace Sha1

open Word

def params : MdxParams where
  blockLen := 64
  bigByteEndian := true
  bigBitEndian := true
  countSize := 8
  outputLength := 20
  le_countSize := by decide
  countSize_lt_outputLength := by decide
  countSize_lt_blockLen := by decide

structure Digest where
  a : Word
  b : Word
  c : Word
  d : Word
  e : Word
  deriving DecidableEq, Repr

def init : Digest := ⟨0x67452301, 0xEFCDAB89, 0x98BADCFE, 0x10325476, 0xC3D2E1F0⟩

-- The new values of `E` and `B`
def f1 (a b c d e msg : Word) : Word × Word :=
  (e + ((d ^^^ (b &&& (c ^^^ d))) + msg + 0x5A827999 + rotl 5 a), rotl 30 b)

def f2 (a b c d e msg : Word) : Word × Word :=
  (e + ((b ^^^ c ^^^ d) + msg + 0x6ED9EBA1 + rotl 5 a), rotl 30 b)

def f3 (a b c d e msg : Word) : Word × Word :=
  (e + (((b &&& c) ||| ((b ||| c) &&& d)) + msg + 0x8F1BBCDC + rotl 5 a), rotl 30 b)

def f4 (a b c d e msg : Word) : Word × Word :=
  (e + ((b ^^^ c ^^^ d) + msg + 0xCA62C1D6 + rotl 5 a), rotl 30 b)

-- Five calls, after which every variable has the place it had before. The calls for a block are
-- sixteen times these.
def quintet (f : Word → Word → Word → Word → Word → Word → Word × Word) (w : List Word)
    (s : Digest) (j : Nat) : Digest :=
  let ⟨a, b, c, d, e⟩ := s
  let (e, b) := f a b c d e (w.getD j 0)
  let (d, a) := f e a b c d (w.getD (j + 1) 0)
  let (c, e) := f d e a b c (w.getD (j + 2) 0)
  let (b, d) := f c d e a b (w.getD (j + 3) 0)
  let (a, c) := f b c d e a (w.getD (j + 4) 0)
  ⟨a, b, c, d, e⟩

-- The words after the first 16. The loop, which writes eight of them at a time, writes them from
-- the front to the back, so what is there of them is a list that grows.
def expand (w : List Word) (j : Nat) : List Word :=
  w ++ [rotl 1 (w.getD (j - 3) 0 ^^^ w.getD (j - 8) 0 ^^^ w.getD (j - 14) 0 ^^^ w.getD (j - 16) 0)]

-- The body of the loop of `compress_n`
def compress (s : Digest) (input : List UInt8) : Digest :=
  let w := (List.range 16).map (loadBe input)
  let w := (List.range' 16 64).foldl expand w
  let s' := [0, 5, 10, 15].foldl (quintet f1 w) s
  let s' := [20, 25, 30, 35].foldl (quintet f2 w) s'
  let s' := [40, 45, 50, 55].foldl (quintet f3 w) s'
  let s' := [60, 65, 70, 75].foldl (quintet f4 w) s'
  ⟨s.a + s'.a, s.b + s'.b, s.c + s'.c, s.d + s'.d, s.e + s'.e⟩

def copyOut (s : Digest) : List UInt8 :=
  [s.a, s.b, s.c, s.d, s.e].flatMap storeBe

-- Any number of calls of `update`, then `final`
def hash (pieces : List (List UInt8)) : List UInt8 :=
  copyOut ((pieces.foldl (MdxHash.addData params compress)
    (MdxHash.clear params init)).finalResult params compress)

end Sha1
end Lax
