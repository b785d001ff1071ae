import Lax.Util.Botan.Impl.Word

/-!
This module contains the AES of the crypto library: the portable code, which looks up a substituted
and mixed byte in a table of words. The amalgamation is built without the code for special
instructions.
-/

namespace Lax
namespace Aes

open Word

def se : List Byte :=
  [
    0x63, 0x7C, 0x77, 0x7B, 0xF2, 0x6B, 0x6F, 0xC5, 0x30, 0x01, 0x67, 0x2B,
    0xFE, 0xD7, 0xAB, 0x76, 0xCA, 0x82, 0xC9, 0x7D, 0xFA, 0x59, 0x47, 0xF0,
    0xAD, 0xD4, 0xA2, 0xAF, 0x9C, 0xA4, 0x72, 0xC0, 0xB7, 0xFD, 0x93, 0x26,
    0x36, 0x3F, 0xF7, 0xCC, 0x34, 0xA5, 0xE5, 0xF1, 0x71, 0xD8, 0x31, 0x15,
    0x04, 0xC7, 0x23, 0xC3, 0x18, 0x96, 0x05, 0x9A, 0x07, 0x12, 0x80, 0xE2,
    0xEB, 0x27, 0xB2, 0x75, 0x09, 0x83, 0x2C, 0x1A, 0x1B, 0x6E, 0x5A, 0xA0,
    0x52, 0x3B, 0xD6, 0xB3, 0x29, 0xE3, 0x2F, 0x84, 0x53, 0xD1, 0x00, 0xED,
    0x20, 0xFC, 0xB1, 0x5B, 0x6A, 0xCB, 0xBE, 0x39, 0x4A, 0x4C, 0x58, 0xCF,
    0xD0, 0xEF, 0xAA, 0xFB, 0x43, 0x4D, 0x33, 0x85, 0x45, 0xF9, 0x02, 0x7F,
    0x50, 0x3C, 0x9F, 0xA8, 0x51, 0xA3, 0x40, 0x8F, 0x92, 0x9D, 0x38, 0xF5,
    0xBC, 0xB6, 0xDA, 0x21, 0x10, 0xFF, 0xF3, 0xD2, 0xCD, 0x0C, 0x13, 0xEC,
    0x5F, 0x97, 0x44, 0x17, 0xC4, 0xA7, 0x7E, 0x3D, 0x64, 0x5D, 0x19, 0x73,
    0x60, 0x81, 0x4F, 0xDC, 0x22, 0x2A, 0x90, 0x88, 0x46, 0xEE, 0xB8, 0x14,
    0xDE, 0x5E, 0x0B, 0xDB, 0xE0, 0x32, 0x3A, 0x0A, 0x49, 0x06, 0x24, 0x5C,
    0xC2, 0xD3, 0xAC, 0x62, 0x91, 0x95, 0xE4, 0x79, 0xE7, 0xC8, 0x37, 0x6D,
    0x8D, 0xD5, 0x4E, 0xA9, 0x6C, 0x56, 0xF4, 0xEA, 0x65, 0x7A, 0xAE, 0x08,
    0xBA, 0x78, 0x25, 0x2E, 0x1C, 0xA6, 0xB4, 0xC6, 0xE8, 0xDD, 0x74, 0x1F,
    0x4B, 0xBD, 0x8B, 0x8A, 0x70, 0x3E, 0xB5, 0x66, 0x48, 0x03, 0xF6, 0x0E,
    0x61, 0x35, 0x57, 0xB9, 0x86, 0xC1, 0x1D, 0x9E, 0xE1, 0xF8, 0x98, 0x11,
    0x69, 0xD9, 0x8E, 0x94, 0x9B, 0x1E, 0x87, 0xE9, 0xCE, 0x55, 0x28, 0xDF,
    0x8C, 0xA1, 0x89, 0x0D, 0xBF, 0xE6, 0x42, 0x68, 0x41, 0x99, 0x2D, 0x0F,
    0xB0, 0x54, 0xBB, 0x16
  ]

def sd : List Byte :=
  [
    0x52, 0x09, 0x6A, 0xD5, 0x30, 0x36, 0xA5, 0x38, 0xBF, 0x40, 0xA3, 0x9E,
    0x81, 0xF3, 0xD7, 0xFB, 0x7C, 0xE3, 0x39, 0x82, 0x9B, 0x2F, 0xFF, 0x87,
    0x34, 0x8E, 0x43, 0x44, 0xC4, 0xDE, 0xE9, 0xCB, 0x54, 0x7B, 0x94, 0x32,
    0xA6, 0xC2, 0x23, 0x3D, 0xEE, 0x4C, 0x95, 0x0B, 0x42, 0xFA, 0xC3, 0x4E,
    0x08, 0x2E, 0xA1, 0x66, 0x28, 0xD9, 0x24, 0xB2, 0x76, 0x5B, 0xA2, 0x49,
    0x6D, 0x8B, 0xD1, 0x25, 0x72, 0xF8, 0xF6, 0x64, 0x86, 0x68, 0x98, 0x16,
    0xD4, 0xA4, 0x5C, 0xCC, 0x5D, 0x65, 0xB6, 0x92, 0x6C, 0x70, 0x48, 0x50,
    0xFD, 0xED, 0xB9, 0xDA, 0x5E, 0x15, 0x46, 0x57, 0xA7, 0x8D, 0x9D, 0x84,
    0x90, 0xD8, 0xAB, 0x00, 0x8C, 0xBC, 0xD3, 0x0A, 0xF7, 0xE4, 0x58, 0x05,
    0xB8, 0xB3, 0x45, 0x06, 0xD0, 0x2C, 0x1E, 0x8F, 0xCA, 0x3F, 0x0F, 0x02,
    0xC1, 0xAF, 0xBD, 0x03, 0x01, 0x13, 0x8A, 0x6B, 0x3A, 0x91, 0x11, 0x41,
    0x4F, 0x67, 0xDC, 0xEA, 0x97, 0xF2, 0xCF, 0xCE, 0xF0, 0xB4, 0xE6, 0x73,
    0x96, 0xAC, 0x74, 0x22, 0xE7, 0xAD, 0x35, 0x85, 0xE2, 0xF9, 0x37, 0xE8,
    0x1C, 0x75, 0xDF, 0x6E, 0x47, 0xF1, 0x1A, 0x71, 0x1D, 0x29, 0xC5, 0x89,
    0x6F, 0xB7, 0x62, 0x0E, 0xAA, 0x18, 0xBE, 0x1B, 0xFC, 0x56, 0x3E, 0x4B,
    0xC6, 0xD2, 0x79, 0x20, 0x9A, 0xDB, 0xC0, 0xFE, 0x78, 0xCD, 0x5A, 0xF4,
    0x1F, 0xDD, 0xA8, 0x33, 0x88, 0x07, 0xC7, 0x31, 0xB1, 0x12, 0x10, 0x59,
    0x27, 0x80, 0xEC, 0x5F, 0x60, 0x51, 0x7F, 0xA9, 0x19, 0xB5, 0x4A, 0x0D,
    0x2D, 0xE5, 0x7A, 0x9F, 0x93, 0xC9, 0x9C, 0xEF, 0xA0, 0xE0, 0x3B, 0x4D,
    0xAE, 0x2A, 0xF5, 0xB0, 0xC8, 0xEB, 0xBB, 0x3C, 0x83, 0x53, 0x99, 0x61,
    0x17, 0x2B, 0x04, 0x7E, 0xBA, 0x77, 0xD6, 0x26, 0xE1, 0x69, 0x14, 0x63,
    0x55, 0x21, 0x0C, 0x7D
  ]

def xtime (s : Byte) : Byte := (s <<< 1) ^^^ ((s >>> 7) * 0x1B)
def xtime4 (s : Byte) : Byte := xtime (xtime s)
def xtime8 (s : Byte) : Byte := xtime (xtime (xtime s))

def xtime3 (s : Byte) : Byte := xtime s ^^^ s
def xtime9 (s : Byte) : Byte := xtime8 s ^^^ s
def xtime11 (s : Byte) : Byte := xtime8 s ^^^ xtime s ^^^ s
def xtime13 (s : Byte) : Byte := xtime8 s ^^^ xtime4 s ^^^ s
def xtime14 (s : Byte) : Byte := xtime8 s ^^^ xtime4 s ^^^ xtime s

def entry {w : Nat} (table : List (BitVec w)) (i : Byte) : BitVec w :=
  table.getD i.toNat 0

def seWord (x : Word) : Word :=
  makeUint32 (entry se (getByte 0 x)) (entry se (getByte 1 x)) (entry se (getByte 2 x)) (entry se (getByte 3 x))

def te : List Word :=
  se.map fun s => makeUint32 (xtime s) s s (xtime3 s)

def td : List Word :=
  sd.map fun s => makeUint32 (xtime14 s) (xtime9 s) (xtime13 s) (xtime11 s)

def aesT (table : List Word) (k v0 v1 v2 v3 : Word) : Word :=
  k ^^^ entry table (getByte 0 v0)
    ^^^ rotr 8 (entry table (getByte 1 v1))
    ^^^ rotr 16 (entry table (getByte 2 v2))
    ^^^ rotr 24 (entry table (getByte 3 v3))

-- `T0` to `T3`, or `B0` to `B3`
structure Columns where
  c0 : Word
  c1 : Word
  c2 : Word
  c3 : Word
  deriving DecidableEq, Repr

namespace Columns

def xor (x k : Columns) : Columns :=
  ⟨x.c0 ^^^ k.c0, x.c1 ^^^ k.c1, x.c2 ^^^ k.c2, x.c3 ^^^ k.c3⟩

def load (input : List UInt8) : Columns :=
  ⟨loadBe input 0, loadBe input 1, loadBe input 2, loadBe input 3⟩

-- Four words of a key.
def ofKey (key : List Word) (i : Nat) : Columns :=
  ⟨key.getD i 0, key.getD (i + 1) 0, key.getD (i + 2) 0, key.getD (i + 3) 0⟩

end Columns

-- With less than the four bytes of an entry the loop of `prefetch` would stay at the first one.
structure CacheLineSize where
  bytes : Nat
  four_le : 4 ≤ bytes

instance (n : Nat) : OfNat CacheLineSize (n + 4) := ⟨⟨n + 4, Nat.le_add_left 4 n⟩⟩

-- Hits every cache line of the table. The entry at the end is zero.
def prefetch (table : List Word) (cacheLineSize : CacheLineSize) (zeroEntry : Nat) : Word :=
  let step := cacheLineSize.bytes / 4
  ((List.range 256).filter fun i => i % step = 0).foldl (fun z i => z ||| table.getD i 0) 0
    &&& table.getD zeroEntry 0

def encryptRound (t k : Columns) : Columns where
  c0 := aesT te k.c0 t.c0 t.c1 t.c2 t.c3
  c1 := aesT te k.c1 t.c1 t.c2 t.c3 t.c0
  c2 := aesT te k.c2 t.c2 t.c3 t.c0 t.c1
  c3 := aesT te k.c3 t.c3 t.c0 t.c1 t.c2

def encryptLast (b : Columns) (me : List UInt8) : List UInt8 :=
  let s n w : UInt8 := .ofBitVec ((entry te (getByte n w) >>> 8).setWidth 8)
  List.zipWith (· ^^^ ·)
    [
      s 0 b.c0, s 1 b.c1, s 2 b.c2, s 3 b.c3,
      s 0 b.c1, s 1 b.c2, s 2 b.c3, s 3 b.c0,
      s 0 b.c2, s 1 b.c3, s 2 b.c0, s 3 b.c1,
      s 0 b.c3, s 1 b.c0, s 2 b.c1, s 3 b.c2
    ]
    me

-- `for(size_t r = 2*4; r < size; r += 2*4)`
def loopOffsets (size : Nat) : List Nat :=
  List.range' 8 ((size - 8 + 7) / 8) 8

def encryptBlock (cacheLineSize : CacheLineSize) (ek : List Word) (me input : List UInt8) : List UInt8 :=
  let z := prefetch te cacheLineSize 82
  let t := (Columns.load input).xor (.ofKey ek 0)
  let t := { t with c0 := t.c0 ^^^ z }
  let b := encryptRound t (.ofKey ek 4)
  let b := (loopOffsets ek.length).foldl
    (fun b r => encryptRound (encryptRound b (.ofKey ek r)) (.ofKey ek (r + 4))) b
  encryptLast b me

def encryptN (cacheLineSize : CacheLineSize) (ek : List Word) (me : List UInt8) :
    Nat → List UInt8 → List UInt8
  | 0, _ => []
  | blocks + 1, input =>
    encryptBlock cacheLineSize ek me (input.take 16)
      ++ encryptN cacheLineSize ek me blocks (input.drop 16)

def decryptRound (t k : Columns) : Columns where
  c0 := aesT td k.c0 t.c0 t.c3 t.c2 t.c1
  c1 := aesT td k.c1 t.c1 t.c0 t.c3 t.c2
  c2 := aesT td k.c2 t.c2 t.c1 t.c0 t.c3
  c3 := aesT td k.c3 t.c3 t.c2 t.c1 t.c0

def decryptLast (b : Columns) (md : List UInt8) : List UInt8 :=
  let s n w : UInt8 := .ofBitVec (entry sd (getByte n w))
  List.zipWith (· ^^^ ·)
    [
      s 0 b.c0, s 1 b.c3, s 2 b.c2, s 3 b.c1,
      s 0 b.c1, s 1 b.c0, s 2 b.c3, s 3 b.c2,
      s 0 b.c2, s 1 b.c1, s 2 b.c0, s 3 b.c3,
      s 0 b.c3, s 1 b.c2, s 2 b.c1, s 3 b.c0
    ]
    md

def decryptBlock (cacheLineSize : CacheLineSize) (dk : List Word) (md input : List UInt8) : List UInt8 :=
  let z := prefetch td cacheLineSize 99
  let t := (Columns.load input).xor (.ofKey dk 0)
  let t := { t with c0 := t.c0 ^^^ z }
  let b := decryptRound t (.ofKey dk 4)
  let b := (loopOffsets dk.length).foldl
    (fun b r => decryptRound (decryptRound b (.ofKey dk r)) (.ofKey dk (r + 4))) b
  decryptLast b md

def decryptN (cacheLineSize : CacheLineSize) (dk : List Word) (md : List UInt8) :
    Nat → List UInt8 → List UInt8
  | 0, _ => []
  | blocks + 1, input =>
    decryptBlock cacheLineSize dk md (input.take 16)
      ++ decryptN cacheLineSize dk md blocks (input.drop 16)

/-!
### The key schedule
-/

def rc : List Word :=
  [
    0x01000000, 0x02000000, 0x04000000, 0x08000000, 0x10000000,
    0x20000000, 0x40000000, 0x80000000, 0x1B000000, 0x36000000
  ]

-- The keys are written from the front to the back, so what is there of them is a list that grows.
def expandWord (x : Nat) (xek : List Word) (j : Nat) : List Word :=
  let last := xek.getD (xek.length - 1) 0
  xek ++ [xek.getD (xek.length - x) 0 ^^^ (if x = 8 ∧ j = 4 then seWord last else last)]

def expandRound (x : Nat) (xek : List Word) (i : Nat) : List Word :=
  let first := xek.getD (i - x) 0 ^^^ rc.getD ((i - x) / x) 0 ^^^ seWord (rotl 8 (xek.getD (i - 1) 0))
  (List.range' 1 (x - 1)).foldl (expandWord x) (xek ++ [first])

structure KeySchedule where
  ek : List Word
  dk : List Word
  me : List UInt8
  md : List UInt8
  deriving DecidableEq, Repr

def expandKey (key : List UInt8) (x rounds : Nat) : List Word :=
  (List.range' x ((4 * (rounds + 1) - x + (x - 1)) / x) x).foldl (expandRound x)
    ((List.range x).map (loadBe key))

-- The keys of decryption are those of encryption in reverse, four words at a time,
def reverseKey (xek : List Word) (rounds : Nat) : List Word :=
  (List.range' 0 (rounds + 1) 4).flatMap fun i =>
    (List.range 4).map fun c => xek.getD (4 * rounds - i + c) 0

-- and all but the first four and the last four are mixed the other way.
def unmixKey (xdk : List Word) (size : Nat) : List Word :=
  xdk.mapIdx fun i w =>
    if 4 ≤ i ∧ i < size then
      let w := seWord w
      aesT td 0 w w w w
    else
      w

def keySchedule (key : List UInt8) : Except Unit KeySchedule :=
  let length := key.length
  let rounds := length / 4 + 6
  let x := length / 4
  if x ≠ 4 ∧ x ≠ 6 ∧ x ≠ 8 then
    -- "Invalid AES key size"
    .error ()
  else
    let xek := expandKey key x rounds
    let xdk := unmixKey (reverseKey xek rounds) (length + 24)
    .ok
      {
        ek := xek.take (length + 24)
        dk := xdk.take (length + 24)
        me := (List.range 4).flatMap fun i => storeBe (xek.getD (i + 4 * rounds) 0)
        md := (List.range 4).flatMap fun i => storeBe (xek.getD i 0)
      }

end Aes
end Lax
