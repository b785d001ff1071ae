import Lax.Foundation.KeyAlternating
import Lax.Util.Botan.Impl.Aes
import Lax.Util.Botan.Lemmas.Word

/-!
This module contains that decryption undoes encryption. A round of either looks up bytes that are
substituted and mixed at once; here the two are taken apart.
-/

namespace Lax
namespace Aes

open Word

/-!
### Bytes
-/

theorem xtime_eq (s : Byte) : xtime s = (s <<< 1) ^^^ (if s.getLsbD 7 then 0x1B else 0) := by
  revert s
  decide +kernel

theorem linear_xtime : XorLinear xtime := by
  rw [show xtime = _ from funext xtime_eq]
  exact (XorLinear.shiftLeft 1).add (XorLinear.bit 7 0x1B)

theorem linear_xtime4 : XorLinear xtime4 := linear_xtime.comp linear_xtime

theorem linear_xtime8 : XorLinear xtime8 := linear_xtime.comp linear_xtime4

theorem se_sd (s : Byte) : entry sd (entry se s) = s := by
  revert s
  decide +kernel

def mixByte (s : Byte) : Word :=
  makeUint32 (xtime s) s s (xtime3 s)

def unmixByte (s : Byte) : Word :=
  makeUint32 (xtime14 s) (xtime9 s) (xtime13 s) (xtime11 s)

theorem linear_mixByte : XorLinear mixByte :=
  linear_makeUint32 linear_xtime XorLinear.id XorLinear.id (linear_xtime.add XorLinear.id)

theorem linear_unmixByte : XorLinear unmixByte :=
  linear_makeUint32 ((linear_xtime8.add linear_xtime4).add linear_xtime)
    (linear_xtime8.add XorLinear.id) ((linear_xtime8.add linear_xtime4).add XorLinear.id)
    ((linear_xtime8.add linear_xtime).add XorLinear.id)

-- What the bytes of a column contribute to the mixed column.
def spread (f : Byte → Word) (w : Word) : Word :=
  f (getByte 0 w) ^^^ rotr 8 (f (getByte 1 w)) ^^^ rotr 16 (f (getByte 2 w))
    ^^^ rotr 24 (f (getByte 3 w))

theorem linear_spread {f : Byte → Word} (hf : XorLinear f) : XorLinear (spread f) := by
  have hbyte := fun n => hf.comp (linear_getByte n)
  exact (((hbyte 0).add ((linear_rotr (by decide)).comp (hbyte 1))).add
    ((linear_rotr (by decide)).comp (hbyte 2))).add ((linear_rotr (by decide)).comp (hbyte 3))

theorem unmix_mix (w : Word) : spread unmixByte (spread mixByte w) = w := by
  refine XorLinear.ext ((linear_spread linear_unmixByte).comp (linear_spread linear_mixByte))
    XorLinear.id ?_ w
  decide +kernel

theorem entry_map {w : Nat} {table : List Byte} (h : table.length = 256) (f : Byte → BitVec w)
    (i : Byte) : entry (table.map f) i = f (entry table i) := by
  have hlt : i.toNat < table.length := by
    rw [h]
    exact i.isLt
  unfold entry
  rw [List.getD_eq_getElem?_getD, List.getD_eq_getElem?_getD, List.getElem?_map,
    List.getElem?_eq_getElem hlt]
  rfl

theorem entry_te (i : Byte) : entry te i = mixByte (entry se i) :=
  entry_map (by decide +kernel) mixByte i

theorem entry_td (i : Byte) : entry td i = unmixByte (entry sd i) :=
  entry_map (by decide +kernel) unmixByte i

/-!
### Rounds
-/

-- A column of substituted bytes from four different columns.
def pick (table : List Byte) (v0 v1 v2 v3 : Word) : Word :=
  makeUint32 (entry table (getByte 0 v0)) (entry table (getByte 1 v1)) (entry table (getByte 2 v2))
    (entry table (getByte 3 v3))

theorem aesT_te (k v0 v1 v2 v3 : Word) :
    aesT te k v0 v1 v2 v3 = spread mixByte (pick se v0 v1 v2 v3) ^^^ k := by
  simp only [aesT, entry_te, spread, pick, getByte_makeUint32]
  ac_rfl

theorem aesT_td (k v0 v1 v2 v3 : Word) :
    aesT td k v0 v1 v2 v3 = spread unmixByte (pick sd v0 v1 v2 v3) ^^^ k := by
  simp only [aesT, entry_td, spread, pick, getByte_makeUint32]
  ac_rfl

namespace Columns

def map (f : Word → Word) (x : Columns) : Columns :=
  ⟨f x.c0, f x.c1, f x.c2, f x.c3⟩

def store (x : Columns) : List UInt8 :=
  storeBe x.c0 ++ storeBe x.c1 ++ storeBe x.c2 ++ storeBe x.c3

@[simp]
theorem length_store (x : Columns) : x.store.length = 16 := rfl

theorem load_store (x : Columns) (rest : List UInt8) : load (x.store ++ rest) = x := by
  have h0 := loadBe_append [] (storeBe x.c1 ++ (storeBe x.c2 ++ (storeBe x.c3 ++ rest))) x.c0
    0 rfl
  have h1 := loadBe_append (storeBe x.c0) (storeBe x.c2 ++ (storeBe x.c3 ++ rest)) x.c1
    1 rfl
  have h2 := loadBe_append (storeBe x.c0 ++ storeBe x.c1) (storeBe x.c3 ++ rest) x.c2
    2 rfl
  have h3 := loadBe_append (storeBe x.c0 ++ storeBe x.c1 ++ storeBe x.c2) rest x.c3
    3 rfl
  simp only [List.nil_append, List.append_assoc] at h0 h1 h2 h3
  simp only [load, store, List.append_assoc, h0, h1, h2, h3]

theorem xor_xor (x k : Columns) : (x.xor k).xor k = x := by
  simp only [xor, BitVec.xor_assoc, BitVec.xor_self, BitVec.xor_zero]

end Columns

def substitute (t : Columns) : Columns :=
  ⟨pick se t.c0 t.c1 t.c2 t.c3, pick se t.c1 t.c2 t.c3 t.c0, pick se t.c2 t.c3 t.c0 t.c1,
    pick se t.c3 t.c0 t.c1 t.c2⟩

def unsubstitute (t : Columns) : Columns :=
  ⟨pick sd t.c0 t.c3 t.c2 t.c1, pick sd t.c1 t.c0 t.c3 t.c2, pick sd t.c2 t.c1 t.c0 t.c3,
    pick sd t.c3 t.c2 t.c1 t.c0⟩

def forward : KeyAlternating Columns where
  add := Columns.xor
  sub := substitute
  mix := Columns.map (spread mixByte)

def backward : KeyAlternating Columns where
  add := Columns.xor
  sub := unsubstitute
  mix := Columns.map (spread unmixByte)

theorem unsubstitute_substitute (t : Columns) : unsubstitute (substitute t) = t := by
  simp only [unsubstitute, substitute, pick, getByte_makeUint32, se_sd, makeUint32_getByte]

theorem backward_undoes_forward : KeyAlternating.Undoes backward forward where
  add_add := Columns.xor_xor
  sub_sub := unsubstitute_substitute
  mix_mix := fun x => by simp only [backward, forward, Columns.map, unmix_mix]
  mix_add := fun x k => by
    simp only [backward, forward, Columns.map, Columns.xor, (linear_spread linear_unmixByte).xor]

theorem encryptRound_eq (t k : Columns) : encryptRound t k = forward.round t k := by
  simp only [encryptRound, aesT_te]
  rfl

theorem decryptRound_eq (t k : Columns) : decryptRound t k = backward.round t k := by
  simp only [decryptRound, aesT_td]
  rfl

/-!
### Blocks
-/

theorem prefetch_eq_zero {table : List Word} {cacheLineSize : CacheLineSize} {zeroEntry : Nat}
    (h : table.getD zeroEntry 0 = 0) : prefetch table cacheLineSize zeroEntry = 0#32 := by
  unfold prefetch
  rw [h]
  exact BitVec.and_zero

theorem ofBitVec_xor (a b : Byte) :
    UInt8.ofBitVec a ^^^ UInt8.ofBitVec b = UInt8.ofBitVec (a ^^^ b) := rfl

theorem encryptLast_eq (b k : Columns) :
    encryptLast b k.store = ((substitute b).xor k).store := by
  have hbyte : ∀ i, (mixByte i >>> 8).setWidth 8 = i := fun i =>
    getByte_makeUint32 2 (xtime i) i i (xtime3 i)
  simp only [encryptLast, entry_te, hbyte, Columns.store, storeBe, Columns.xor, substitute, pick,
    List.map_cons, List.map_nil, List.cons_append, List.nil_append, List.zipWith_cons_cons,
    List.zipWith_nil_left, ofBitVec_xor, (linear_getByte _).xor, getByte_makeUint32]

theorem decryptLast_eq (b k : Columns) :
    decryptLast b k.store = ((unsubstitute b).xor k).store := by
  simp only [decryptLast, Columns.store, storeBe, Columns.xor, unsubstitute, pick,
    List.map_cons, List.map_nil, List.cons_append, List.nil_append, List.zipWith_cons_cons,
    List.zipWith_nil_left, ofBitVec_xor, (linear_getByte _).xor, getByte_makeUint32]

-- The keys of the rounds that mix.
def innerKeys (rounds : Nat) (key : List Word) : List Columns :=
  (List.range' 4 (rounds - 1) 4).map (Columns.ofKey key)

theorem foldl_pairs (f : Columns → Columns → Columns) (key : List Word) (n s : Nat) (b : Columns) :
    (List.range' s n 8).foldl (fun b r => f (f b (.ofKey key r)) (.ofKey key (r + 4))) b
      =
    ((List.range' s (2 * n) 4).map (Columns.ofKey key)).foldl f b := by
  induction n generalizing s b with
  | zero => rfl
  | succ n ih =>
    rw [Nat.mul_succ, List.range'_succ, List.range'_succ, List.range'_succ, List.foldl_cons, ih]
    rfl

-- Two rounds at a time, after the first one.
theorem foldl_loopOffsets (f : Columns → Columns → Columns) (key : List Word) {rounds : Nat}
    (hlen : key.length = 4 * rounds) (heven : rounds % 2 = 0) (hpos : 0 < rounds) (t : Columns) :
    (loopOffsets key.length).foldl
        (fun b r => f (f b (.ofKey key r)) (.ofKey key (r + 4))) (f t (.ofKey key 4))
      =
    (innerKeys rounds key).foldl f t := by
  have hcount : (key.length - 8 + 7) / 8 = rounds / 2 - 1 := by omega
  have hinner : rounds - 1 = 2 * (rounds / 2 - 1) + 1 := by omega
  rw [loopOffsets, hcount, foldl_pairs, innerKeys, hinner, List.range'_succ, List.map_cons,
    List.foldl_cons]

section
variable (cacheLineSize : CacheLineSize) {key : List Word} {rounds : Nat} (hlen : key.length = 4 * rounds)
  (heven : rounds % 2 = 0) (hpos : 0 < rounds) (last : Columns) (input : List UInt8)
include hlen heven hpos

theorem encryptBlock_eq :
    encryptBlock cacheLineSize key last.store input
      =
    (forward.encrypt (.ofKey key 0) (innerKeys rounds key) last (.load input)).store := by
  have hround : encryptRound = forward.round := funext fun t => funext (encryptRound_eq t)
  unfold encryptBlock
  dsimp only
  rw [prefetch_eq_zero (by decide +kernel), BitVec.xor_zero, hround,
    foldl_loopOffsets _ key hlen heven hpos, encryptLast_eq]
  rfl

theorem decryptBlock_eq :
    decryptBlock cacheLineSize key last.store input
      =
    (backward.encrypt (.ofKey key 0) (innerKeys rounds key) last (.load input)).store := by
  have hround : decryptRound = backward.round := funext fun t => funext (decryptRound_eq t)
  unfold decryptBlock
  dsimp only
  rw [prefetch_eq_zero (by decide +kernel), BitVec.xor_zero, hround,
    foldl_loopOffsets _ key hlen heven hpos, decryptLast_eq]
  rfl

end

/-!
### Keys
-/

theorem length_foldl_expandWord (x : Nat) (js : List Nat) (xek : List Word) :
    (js.foldl (expandWord x) xek).length = xek.length + js.length := by
  induction js generalizing xek with
  | nil => rfl
  | cons j js ih =>
    rw [List.foldl_cons, ih, expandWord, List.length_append, List.length_cons]
    simp only [List.length_cons, List.length_nil]
    omega

theorem length_expandRound {x : Nat} (hx : 0 < x) (xek : List Word) (i : Nat) :
    (expandRound x xek i).length = xek.length + x := by
  rw [expandRound, length_foldl_expandWord, List.length_range', List.length_append]
  simp only [List.length_cons, List.length_nil]
  omega

theorem length_expandKey {x : Nat} (hx : 0 < x) (key : List UInt8) (rounds : Nat) :
    (expandKey key x rounds).length = x + (4 * (rounds + 1) - x + (x - 1)) / x * x := by
  have hfold : ∀ (is : List Nat) (xek : List Word),
      (is.foldl (expandRound x) xek).length = xek.length + is.length * x := by
    intro is
    induction is with
    | nil => simp
    | cons i is ih =>
      intro xek
      rw [List.foldl_cons, ih, length_expandRound hx, List.length_cons, Nat.succ_mul]
      omega
  rw [expandKey, hfold, List.length_map, List.length_range, List.length_range']

theorem getD_take {n i : Nat} (h : i < n) (key : List Word) : (key.take n).getD i 0 = key.getD i 0 := by
  rw [List.getD_eq_getElem?_getD, List.getD_eq_getElem?_getD, List.getElem?_take_of_lt h]

theorem ofKey_take {n i : Nat} (h : i + 3 < n) (key : List Word) :
    Columns.ofKey (key.take n) i = Columns.ofKey key i := by
  simp only [Columns.ofKey]
  rw [getD_take (by omega), getD_take (by omega), getD_take (by omega), getD_take (by omega)]

theorem innerKeys_take (rounds : Nat) (key : List Word) :
    innerKeys rounds (key.take (4 * rounds)) = innerKeys rounds key := by
  apply List.map_congr_left
  intro i hi
  obtain ⟨j, hj, rfl⟩ := List.mem_range'.mp hi
  exact ofKey_take (by omega) key

-- Words that are written four at a time.
theorem getD_flatMap_four (f : Nat → Nat → Word) (s : Nat) {n g c : Nat} (hg : g < n) (hc : c < 4) :
    ((List.range' s n 4).flatMap fun i => (List.range 4).map (f i)).getD (4 * g + c) 0
      = f (s + 4 * g) c := by
  induction n generalizing s g with
  | zero => contradiction
  | succ n ih =>
    rw [List.range'_succ, List.flatMap_cons, List.getD_eq_getElem?_getD]
    cases g with
    | zero =>
      rw [List.getElem?_append_left (by simpa using hc), Nat.mul_zero, Nat.zero_add,
        List.getElem?_map, List.getElem?_range hc]
      rfl
    | succ g =>
      rw [List.getElem?_append_right (by simp; omega), ← List.getD_eq_getElem?_getD]
      have hpos : 4 * (g + 1) + c - ((List.range 4).map (f s)).length = 4 * g + c := by
        rw [List.length_map, List.length_range]
        omega
      rw [hpos, ih (s + 4) (by omega)]
      congr 1
      omega

theorem aesT_seWord (w : Word) :
    aesT td 0 (seWord w) (seWord w) (seWord w) (seWord w) = spread unmixByte w := by
  rw [aesT_td, pick, seWord]
  simp only [getByte_makeUint32, se_sd, makeUint32_getByte]
  exact BitVec.xor_zero

theorem length_reverseKey (xek : List Word) (rounds : Nat) :
    (reverseKey xek rounds).length = 4 * (rounds + 1) := by
  simp only [reverseKey, List.length_flatMap, List.length_map, List.length_range,
    List.map_const', List.length_range', List.sum_replicate_nat]
  omega

theorem getD_unmixKey (xek : List Word) {rounds g c : Nat} (hg : g < rounds) (hc : c < 4) :
    (unmixKey (reverseKey xek rounds) (4 * rounds)).getD (4 * g + c) 0
      =
    if g = 0 then
      xek.getD (4 * rounds + c) 0
    else
      spread unmixByte (xek.getD (4 * (rounds - g) + c) 0) := by
  have hword : (reverseKey xek rounds).getD (4 * g + c) 0 = xek.getD (4 * (rounds - g) + c) 0 := by
    rw [reverseKey, getD_flatMap_four (fun i c => xek.getD (4 * rounds - i + c) 0) 0 (by omega) hc]
    congr 2
    omega
  have hlen : 4 * g + c < (reverseKey xek rounds).length := by
    rw [length_reverseKey]
    omega
  rw [List.getD_eq_getElem?_getD, List.getElem?_eq_getElem hlen, Option.getD_some] at hword
  rw [unmixKey, List.getD_eq_getElem?_getD, List.getElem?_mapIdx, List.getElem?_eq_getElem hlen]
  simp only [Option.map_some, Option.getD_some, hword, aesT_seWord]
  by_cases hfirst : g = 0
  . rw [if_neg (by omega), if_pos hfirst, hfirst, Nat.sub_zero]
  . rw [if_pos (by omega), if_neg hfirst]

theorem ofKey_unmixKey_zero (xek : List Word) {rounds : Nat} (hpos : 0 < rounds) :
    Columns.ofKey (unmixKey (reverseKey xek rounds) (4 * rounds)) 0
      = Columns.ofKey xek (4 * rounds) := by
  have hword := fun c (hc : c < 4) => getD_unmixKey xek hpos hc
  simp only [Nat.mul_zero, Nat.zero_add, if_true] at hword
  simp only [Columns.ofKey, Nat.zero_add, hword 0 (by decide), hword 1 (by decide),
    hword 2 (by decide), hword 3 (by decide), Nat.add_zero]

theorem innerKeys_unmixKey (xek : List Word) (rounds : Nat) :
    innerKeys rounds (unmixKey (reverseKey xek rounds) (4 * rounds))
      =
    (innerKeys rounds xek).reverse.map backward.mix := by
  apply List.ext_getElem
  . simp [innerKeys]
  . intro i hi hi'
    have hlt : i < rounds - 1 := by simpa [innerKeys] using hi
    have hword := fun c (hc : c < 4) =>
      getD_unmixKey xek (show i + 1 < rounds by omega) hc
    have hstart : 4 + 4 * i = 4 * (i + 1) := by omega
    have hback : 4 + 4 * (rounds - 1 - 1 - i) = 4 * (rounds - (i + 1)) := by omega
    have hfirst := hword 0 (by decide)
    simp only [Nat.succ_ne_zero, if_false, Nat.add_zero] at hword hfirst
    simp only [innerKeys, List.getElem_map, List.getElem_reverse, List.getElem_range',
      List.length_map, List.length_range', Columns.ofKey, backward, Columns.map, hstart, hback,
      hfirst, hword 1 (by decide), hword 2 (by decide), hword 3 (by decide)]

-- What decryption relies on in a key schedule.
structure KeySchedule.Ok (ks : KeySchedule) (xek : List Word) (rounds : Nat) : Prop where
  even : rounds % 2 = 0
  pos : 0 < rounds
  length_ek : ks.ek.length = 4 * rounds
  length_dk : ks.dk.length = 4 * rounds
  first_ek : Columns.ofKey ks.ek 0 = Columns.ofKey xek 0
  first_dk : Columns.ofKey ks.dk 0 = Columns.ofKey xek (4 * rounds)
  inner_ek : innerKeys rounds ks.ek = innerKeys rounds xek
  inner_dk : innerKeys rounds ks.dk = (innerKeys rounds xek).reverse.map backward.mix
  me : ks.me = (Columns.ofKey xek (4 * rounds)).store
  md : ks.md = (Columns.ofKey xek 0).store

theorem keySchedule_ok {key : List UInt8}
    (h : key.length = 16 ∨ key.length = 24 ∨ key.length = 32) :
    ∃ ks, keySchedule key = .ok ks
      ∧ ks.Ok (expandKey key (key.length / 4) (key.length / 4 + 6)) (key.length / 4 + 6) := by
  have hx : key.length / 4 = 4 ∨ key.length / 4 = 6 ∨ key.length / 4 = 8 := by omega
  have hsize : key.length + 24 = 4 * (key.length / 4 + 6) := by omega
  have hlen := @length_expandKey (key.length / 4) (by omega) key (key.length / 4 + 6)
  have hle : 4 * (key.length / 4 + 6) ≤
      (expandKey key (key.length / 4) (key.length / 4 + 6)).length := by
    rw [hlen]
    obtain h | h | h := hx <;> rw [h] <;> decide
  unfold keySchedule
  dsimp only
  rw [if_neg (by omega), hsize]
  generalize hrounds : key.length / 4 + 6 = rounds at *
  generalize expandKey key (key.length / 4) rounds = xek at *
  refine ⟨_, rfl, ?_⟩
  constructor
  . omega
  . omega
  . rw [List.length_take]
    omega
  . rw [List.length_take, unmixKey, List.length_mapIdx, length_reverseKey]
    omega
  . exact ofKey_take (by omega) xek
  . dsimp only
    rw [ofKey_take (by omega)]
    exact ofKey_unmixKey_zero xek (by omega)
  . exact innerKeys_take rounds xek
  . dsimp only
    rw [innerKeys_take]
    exact innerKeys_unmixKey xek rounds
  . simp only [Columns.store, Columns.ofKey, Nat.add_comm _ (4 * rounds)]
    rfl
  . rfl

theorem load_length {input : List UInt8} (h : input.length = 16) :
    (Columns.load input).store = input := by
  have hbyte : ∀ b : UInt8, UInt8.ofBitVec b.toBitVec = b := fun _ => rfl
  match input, h with
  | [_, _, _, _, _, _, _, _, _, _, _, _, _, _, _, _], _ =>
    simp [Columns.store, Columns.load, storeBe, loadBe, hbyte]

theorem KeySchedule.Ok.decrypt_encrypt {ks : KeySchedule} {xek : List Word} {rounds : Nat}
    (h : ks.Ok xek rounds) (cacheLineSize cacheLineSize' : CacheLineSize) {input : List UInt8}
    (hlen : input.length = 16) :
    decryptBlock cacheLineSize' ks.dk ks.md (encryptBlock cacheLineSize ks.ek ks.me input)
      = input := by
  rw [h.me, encryptBlock_eq cacheLineSize h.length_ek h.even h.pos, h.md,
    decryptBlock_eq cacheLineSize' h.length_dk h.even h.pos]
  have hload := fun x => Columns.load_store x []
  simp only [List.append_nil] at hload
  rw [hload, h.first_ek, h.first_dk, h.inner_ek, h.inner_dk,
    backward_undoes_forward.encrypt_encrypt, load_length hlen]

theorem length_encryptBlock {ks : KeySchedule} {xek : List Word} {rounds : Nat}
    (h : ks.Ok xek rounds) (cacheLineSize : CacheLineSize) (input : List UInt8) :
    (encryptBlock cacheLineSize ks.ek ks.me input).length = 16 := by
  rw [h.me, encryptBlock_eq cacheLineSize h.length_ek h.even h.pos, Columns.length_store]

theorem length_decryptBlock {ks : KeySchedule} {xek : List Word} {rounds : Nat}
    (h : ks.Ok xek rounds) (cacheLineSize : CacheLineSize) (input : List UInt8) :
    (decryptBlock cacheLineSize ks.dk ks.md input).length = 16 := by
  rw [h.md, decryptBlock_eq cacheLineSize h.length_dk h.even h.pos, Columns.length_store]

/--
The code for several blocks, which need not have been encrypted on the same machine.
-/
theorem decryptN_encryptN {key : List UInt8}
    (hkey : key.length = 16 ∨ key.length = 24 ∨ key.length = 32)
    (cacheLineSize cacheLineSize' : CacheLineSize) :
    ∃ ks, keySchedule key = .ok ks ∧ ∀ blocks input, input.length = 16 * blocks →
      decryptN cacheLineSize' ks.dk ks.md blocks (encryptN cacheLineSize ks.ek ks.me blocks input)
        = input := by
  obtain ⟨ks, hks, hok⟩ := keySchedule_ok hkey
  refine ⟨ks, hks, ?_⟩
  intro blocks
  induction blocks with
  | zero =>
    intro input hlen
    exact (List.length_eq_zero_iff.mp hlen).symm
  | succ blocks ih =>
    intro input hlen
    have htake : (input.take 16).length = 16 := by
      rw [List.length_take]
      omega
    have hdrop : (input.drop 16).length = 16 * blocks := by
      rw [List.length_drop]
      omega
    have hblock := length_encryptBlock hok cacheLineSize (input.take 16)
    rw [encryptN, decryptN, List.take_left' hblock, List.drop_left' hblock,
      hok.decrypt_encrypt _ _ htake, ih _ hdrop, List.take_append_drop]

theorem decryptN_encryptN_zeros :
    ∃ ks, keySchedule (List.replicate 16 0) = .ok ks ∧ ∀ blocks input, input.length = 16 * blocks →
      decryptN 32 ks.dk ks.md blocks (encryptN 64 ks.ek ks.me blocks input) = input :=
  decryptN_encryptN (Or.inl rfl) 64 32

end Aes
end Lax
