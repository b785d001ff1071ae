import Lax.Util.Botan.Impl.Sha1
import Lax.Util.Botan.Lemmas.MdxHash

/-!
This module contains that the SHA-160 of a message, hashed in any pieces, is the one of the standard.
The standard has one kind of round, which moves every variable on by one place; the code calls its
rounds with the variables in another order instead.
-/

namespace Lax
namespace Sha1

open Word

/-!
### The standard
-/

def ch (b c d : Word) : Word := (b &&& c) ^^^ (~~~b &&& d)

def parity (b c d : Word) : Word := b ^^^ c ^^^ d

def maj (b c d : Word) : Word := (b &&& c) ^^^ (b &&& d) ^^^ (c &&& d)

def mixer (t : Nat) : (Word → Word → Word → Word) × Word :=
  if t < 20 then (ch, 0x5A827999)
  else if t < 40 then (parity, 0x6ED9EBA1)
  else if t < 60 then (maj, 0x8F1BBCDC)
  else (parity, 0xCA62C1D6)

def scheduled (block : List UInt8) (t : Nat) : Word :=
  if t < 16 then
    loadBe block t
  else
    rotl 1 (scheduled block (t - 3) ^^^ scheduled block (t - 8) ^^^ scheduled block (t - 14)
      ^^^ scheduled block (t - 16))

def round (w : Nat → Word) (s : Digest) (t : Nat) : Digest where
  a := rotl 5 s.a + (mixer t).1 s.b s.c s.d + s.e + (mixer t).2 + w t
  b := s.a
  c := rotl 30 s.b
  d := s.c
  e := s.d

def standardBlock (s : Digest) (block : List UInt8) : Digest :=
  let s' := (List.range 80).foldl (round (scheduled block)) s
  ⟨s.a + s'.a, s.b + s'.b, s.c + s'.c, s.d + s'.d, s.e + s'.e⟩

def standard (msg : List UInt8) : List UInt8 :=
  let bitCount := UInt64.ofNat msg.length * 8
  let zeros := List.replicate ((119 - msg.length % 64) % 64) 0
  copyOut (Absorb.whole 64 standardBlock init (msg ++ 0x80 :: (zeros ++ MdxHash.storeBe bitCount)))

/-!
### The code
-/

theorem foldl_expand {block : List UInt8} {w : List Word} (hlow : 16 ≤ w.length)
    (hw : ∀ t < w.length, w.getD t 0 = scheduled block t) (n : Nat) :
    ∀ t < w.length + n,
      ((List.range' w.length n).foldl expand w).getD t 0 = scheduled block t := by
  induction n generalizing w with
  | zero => exact hw
  | succ n ih =>
    have hlen : (expand w w.length).length = w.length + 1 := List.length_append
    rw [List.range'_succ, List.foldl_cons, ← hlen, Nat.add_succ, ← Nat.succ_add]
    have hnext := @ih (expand w w.length) (by omega) ?_
    . rwa [hlen] at hnext ⊢
    . intro t ht
      rw [hlen] at ht
      unfold expand
      rw [List.getD_eq_getElem?_getD]
      obtain hlt | rfl : t < w.length ∨ t = w.length := by omega
      . rw [List.getElem?_append_left hlt, ← List.getD_eq_getElem?_getD, hw t hlt]
      . rw [List.getElem?_concat_length, scheduled, if_neg (by omega)]
        rw [hw _ (by omega), hw _ (by omega), hw _ (by omega), hw _ (by omega)]
        rfl

theorem quintet_eq {f : Word → Word → Word → Word → Word → Word → Word × Word}
    {g : Word → Word → Word → Word} {k : Word}
    (hf : ∀ a b c d e msg, f a b c d e msg = (rotl 5 a + g b c d + e + k + msg, rotl 30 b))
    {block : List UInt8} {w : List Word} {j : Nat}
    (hw : ∀ t < 5, w.getD (j + t) 0 = scheduled block (j + t)) (hmixer : ∀ t < 5, mixer (j + t) = (g, k))
    (s : Digest) :
    quintet f w s j
      = ((List.range 5).map (j + ·)).foldl (round (scheduled block)) s := by
  have h0 := hw 0 (by decide)
  have hm0 := hmixer 0 (by decide)
  rw [Nat.add_zero] at h0 hm0
  simp only [quintet, hf, h0, hw 1 (by decide), hw 2 (by decide), hw 3 (by decide),
    hw 4 (by decide), List.range_succ, List.range_zero, List.nil_append, List.map_append, List.map_cons,
    List.map_nil, List.foldl_append, List.foldl_cons, List.foldl_nil, round, Nat.add_zero, hm0,
    hmixer 1 (by decide), hmixer 2 (by decide), hmixer 3 (by decide), hmixer 4 (by decide)]

-- The terms of a sum, in the order of the standard.
theorem add_terms (a e f k msg : Word) : e + (f + msg + k + a) = a + f + e + k + msg := by
  ac_rfl

theorem f1_eq (a b c d e msg : Word) :
    f1 a b c d e msg = (rotl 5 a + ch b c d + e + 0x5A827999 + msg, rotl 30 b) := by
  have hch : d ^^^ (b &&& (c ^^^ d)) = ch b c d := by
    apply BitVec.eq_of_getLsbD_eq
    intro i hi
    simp only [ch, BitVec.getLsbD_xor, BitVec.getLsbD_and, BitVec.getLsbD_not, hi, decide_true,
      Bool.true_and]
    cases b.getLsbD i <;> cases c.getLsbD i <;> cases d.getLsbD i <;> rfl
  rw [f1, hch, add_terms]

theorem f2_eq (a b c d e msg : Word) :
    f2 a b c d e msg = (rotl 5 a + parity b c d + e + 0x6ED9EBA1 + msg, rotl 30 b) := by
  rw [f2, add_terms]
  rfl

theorem f3_eq (a b c d e msg : Word) :
    f3 a b c d e msg = (rotl 5 a + maj b c d + e + 0x8F1BBCDC + msg, rotl 30 b) := by
  have hmaj : (b &&& c) ||| ((b ||| c) &&& d) = maj b c d := by
    apply BitVec.eq_of_getLsbD_eq
    intro i _
    simp only [maj, BitVec.getLsbD_xor, BitVec.getLsbD_and, BitVec.getLsbD_or]
    cases b.getLsbD i <;> cases c.getLsbD i <;> cases d.getLsbD i <;> rfl
  rw [f3, hmaj, add_terms]

theorem f4_eq (a b c d e msg : Word) :
    f4 a b c d e msg = (rotl 5 a + parity b c d + e + 0xCA62C1D6 + msg, rotl 30 b) := by
  rw [f4, add_terms]
  rfl

theorem foldl_quintet {f : Word → Word → Word → Word → Word → Word → Word × Word}
    {block : List UInt8} {w : List Word} (js : List Nat)
    (hquintet : ∀ j ∈ js, ∀ s, quintet f w s j
      = ((List.range 5).map (j + ·)).foldl (round (scheduled block)) s) (s : Digest) :
    js.foldl (quintet f w) s
      = (js.flatMap fun j => (List.range 5).map (j + ·)).foldl (round (scheduled block)) s := by
  induction js generalizing s with
  | nil => rfl
  | cons j js ih =>
    rw [List.forall_mem_cons] at hquintet
    rw [List.foldl_cons, hquintet.1, ih hquintet.2, List.flatMap_cons, List.foldl_append]

theorem compress_eq (s : Digest) (input : List UInt8) : compress s input = standardBlock s input := by
  have hlow : ((List.range 16).map (loadBe input)).length = 16 := rfl
  have hw := @foldl_expand input ((List.range 16).map (loadBe input)) (Nat.le_refl 16) (by
    intro t ht
    rw [hlow] at ht
    rw [scheduled, if_pos ht, List.getD_eq_getElem?_getD, List.getElem?_map, List.getElem?_range ht]
    rfl) 64
  rw [hlow] at hw
  have hquintet : ∀ {f g k} (lo hi : Nat), (∀ a b c d e msg,
      f a b c d e msg = (rotl 5 a + g b c d + e + k + msg, rotl 30 b)) → hi ≤ 80 →
      (∀ t, lo ≤ t → t < hi → mixer t = (g, k)) → ∀ js : List Nat,
      (∀ j ∈ js, lo ≤ j ∧ j + 5 ≤ hi) → ∀ s,
      js.foldl (quintet f ((List.range' 16 64).foldl expand ((List.range 16).map (loadBe input)))) s
        = (js.flatMap fun j => (List.range 5).map (j + ·)).foldl (round (scheduled input)) s := by
    intro f g k lo hi hf hhi hmixer js hjs s
    apply foldl_quintet
    intro j hj
    obtain ⟨hlo, hle⟩ := hjs j hj
    exact quintet_eq hf (fun t ht => hw (j + t) (by omega))
      fun t ht => hmixer (j + t) (by omega) (by omega)
  have h1 := hquintet 0 20 f1_eq (by decide)
    (fun t _ h => if_pos h) [0, 5, 10, 15] (by decide)
  have h2 := hquintet 20 40 f2_eq (by decide)
    (fun t h h' => (if_neg (by omega)).trans (if_pos h')) [20, 25, 30, 35] (by decide)
  have h3 := hquintet 40 60 f3_eq (by decide)
    (fun t h h' => (if_neg (by omega)).trans ((if_neg (by omega)).trans (if_pos h')))
    [40, 45, 50, 55] (by decide)
  have h4 := hquintet 60 80 f4_eq (by decide)
    (fun t h _ => (if_neg (by omega)).trans ((if_neg (by omega)).trans (if_neg (by omega))))
    [60, 65, 70, 75] (by decide)
  unfold compress standardBlock
  dsimp only
  rw [h1, h2, h3, h4, ← List.foldl_append, ← List.foldl_append, ← List.foldl_append]
  rfl

theorem hash_eq (pieces : List (List UInt8)) :
    hash pieces
      =
    copyOut (Absorb.whole 64 compress init (MdxHash.padded params pieces.flatten)) := by
  have hfed := (@MdxHash.fed_clear _ params compress init).foldl pieces
  rw [List.nil_append] at hfed
  unfold hash
  rw [hfed.finalResult]
  rfl

theorem hash_flatten (pieces : List (List UInt8)) : hash [pieces.flatten] = hash pieces := by
  rw [hash_eq, hash_eq, List.flatten_singleton]

theorem length_hash (pieces : List (List UInt8)) : (hash pieces).length = 20 := rfl

/--
Whatever the pieces, the result is the one of the standard for all of the input.
-/
theorem hash_eq_standard (pieces : List (List UInt8)) : hash pieces = standard pieces.flatten := by
  have hcompress : compress = standardBlock := funext fun s => funext (compress_eq s)
  have hzeros : MdxHash.zerosLen params pieces.flatten.length
      = (119 - pieces.flatten.length % 64) % 64 := Nat.zero_add _
  unfold standard
  dsimp only
  rw [hash_eq, hcompress, MdxHash.padded, hzeros]
  rfl

end Sha1
end Lax
