/-!
This module contains CBC mode and PKCS#7 padding over an arbitrary block cipher. A message is
processed a number of whole blocks at a time, with the last ciphertext block carried over as chaining
state, so that it may be processed in several calls. The last call pads or unpads its block.
-/

namespace BlockMode

structure BlockCipher (bs : Nat) where
  encrypt : List UInt8 → List UInt8 → List UInt8
  decrypt : List UInt8 → List UInt8 → List UInt8
  length_encrypt : ∀ key block, block.length = bs → (encrypt key block).length = bs
  length_decrypt : ∀ key block, block.length = bs → (decrypt key block).length = bs
  decrypt_encrypt : ∀ key block, block.length = bs → decrypt key (encrypt key block) = block

def xorBuf : List UInt8 → List UInt8 → List UInt8
  | [], _ => []
  | a :: as, [] => a :: as
  | a :: as, b :: bs => (a ^^^ b) :: xorBuf as bs

@[simp]
theorem length_xorBuf (buf other : List UInt8) : (xorBuf buf other).length = buf.length := by
  fun_induction xorBuf buf other with
  | case1 => rfl
  | case2 => rfl
  | case3 _ _ _ _ ih => simp [ih]

@[simp]
theorem xorBuf_xorBuf (buf other : List UInt8) : xorBuf (xorBuf buf other) other = buf := by
  fun_induction xorBuf buf other with
  | case1 => rfl
  | case2 => rfl
  | case3 _ _ _ _ ih => rw [xorBuf, ih, UInt8.xor_assoc, UInt8.xor_self, UInt8.xor_zero]

variable {bs : Nat} (c : BlockCipher bs) (key : List UInt8)

def encryptProcess : Nat → List UInt8 → List UInt8 → List UInt8 × List UInt8
  | 0, state, _ => ([], state)
  | blocks + 1, state, buf =>
    let out := c.encrypt key (xorBuf (buf.take bs) state)
    let rest := encryptProcess blocks out (buf.drop bs)
    (out ++ rest.1, rest.2)

def decryptProcess : Nat → List UInt8 → List UInt8 → List UInt8 × List UInt8
  | 0, state, _ => ([], state)
  | blocks + 1, state, buf =>
    let block := buf.take bs
    let rest := decryptProcess blocks block (buf.drop bs)
    (xorBuf (c.decrypt key block) state ++ rest.1, rest.2)

-- A buffer with more than a number of blocks starts with one, and the others come after it.
section
variable {blocks : Nat} {buf : List UInt8}

theorem bs_le_length (h : (blocks + 1) * bs ≤ buf.length) : bs ≤ buf.length :=
  Nat.le_trans (Nat.le_mul_of_pos_left bs (Nat.zero_lt_succ blocks)) h

theorem length_take_bs (h : (blocks + 1) * bs ≤ buf.length) : (buf.take bs).length = bs :=
  List.length_take_of_le (bs_le_length h)

theorem le_length_drop_bs (h : (blocks + 1) * bs ≤ buf.length) :
    blocks * bs ≤ (buf.drop bs).length := by
  rw [Nat.succ_mul] at h
  rw [List.length_drop]
  exact Nat.le_sub_of_add_le h

theorem drop_drop_bs (blocks : Nat) (buf : List UInt8) :
    (buf.drop bs).drop (blocks * bs) = buf.drop ((blocks + 1) * bs) := by
  rw [List.drop_drop, Nat.succ_mul, Nat.add_comm]

end

theorem length_encryptProcess (blocks : Nat) (state buf : List UInt8)
    (h : blocks * bs ≤ buf.length) :
    (encryptProcess c key blocks state buf).1.length = blocks * bs := by
  induction blocks generalizing state buf with
  | zero => simp [encryptProcess]
  | succ blocks ih =>
    have hblock : (xorBuf (buf.take bs) state).length = bs :=
      (length_xorBuf _ state).trans (length_take_bs h)
    simp only [encryptProcess, List.length_append]
    rw [c.length_encrypt _ _ hblock, ih _ _ (le_length_drop_bs h), Nat.succ_mul, Nat.add_comm]

theorem length_decryptProcess (blocks : Nat) (state buf : List UInt8)
    (h : blocks * bs ≤ buf.length) :
    (decryptProcess c key blocks state buf).1.length = blocks * bs := by
  induction blocks generalizing state buf with
  | zero => simp [decryptProcess]
  | succ blocks ih =>
    simp only [decryptProcess, List.length_append, length_xorBuf]
    rw [c.length_decrypt _ _ (length_take_bs h), ih _ _ (le_length_drop_bs h), Nat.succ_mul,
      Nat.add_comm]

/-!
### Processing a message in several calls
-/

theorem encryptProcess_add (m n : Nat) (state buf : List UInt8) :
    encryptProcess c key (m + n) state buf
      =
    ((encryptProcess c key m state buf).1 ++
        (encryptProcess c key n (encryptProcess c key m state buf).2 (buf.drop (m * bs))).1,
      (encryptProcess c key n (encryptProcess c key m state buf).2 (buf.drop (m * bs))).2) := by
  induction m generalizing state buf with
  | zero => simp [encryptProcess]
  | succ m ih =>
    have hcount : m + 1 + n = (m + n) + 1 := by omega
    rw [hcount]
    simp only [encryptProcess]
    rw [ih, drop_drop_bs]
    simp

theorem decryptProcess_add (m n : Nat) (state buf : List UInt8) :
    decryptProcess c key (m + n) state buf
      =
    ((decryptProcess c key m state buf).1 ++
        (decryptProcess c key n (decryptProcess c key m state buf).2 (buf.drop (m * bs))).1,
      (decryptProcess c key n (decryptProcess c key m state buf).2 (buf.drop (m * bs))).2) := by
  induction m generalizing state buf with
  | zero => simp [decryptProcess]
  | succ m ih =>
    have hcount : m + 1 + n = (m + n) + 1 := by omega
    rw [hcount]
    simp only [decryptProcess]
    rw [ih, drop_drop_bs]
    simp

theorem encryptProcess_append (blocks : Nat) (state buf rest : List UInt8)
    (h : blocks * bs ≤ buf.length) :
    encryptProcess c key blocks state (buf ++ rest) = encryptProcess c key blocks state buf := by
  induction blocks generalizing state buf with
  | zero => simp [encryptProcess]
  | succ blocks ih =>
    have hle := bs_le_length h
    simp only [encryptProcess]
    rw [List.take_append_of_le_length hle, List.drop_append_of_le_length hle,
      ih _ _ (le_length_drop_bs h)]

theorem encryptProcess_take {blocks : Nat} {buf : List UInt8} (state : List UInt8)
    (h : blocks * bs ≤ buf.length) :
    encryptProcess c key blocks state (buf.take (blocks * bs))
      =
    encryptProcess c key blocks state buf := by
  have hlen : blocks * bs ≤ (buf.take (blocks * bs)).length := by
    rw [List.length_take]
    omega
  have happend := encryptProcess_append c key blocks state _ (buf.drop (blocks * bs)) hlen
  rw [List.take_append_drop] at happend
  exact happend.symm

theorem decryptProcess_append (blocks : Nat) (state buf rest : List UInt8)
    (h : blocks * bs ≤ buf.length) :
    decryptProcess c key blocks state (buf ++ rest) = decryptProcess c key blocks state buf := by
  induction blocks generalizing state buf with
  | zero => simp [decryptProcess]
  | succ blocks ih =>
    have hle := bs_le_length h
    simp only [decryptProcess]
    rw [List.take_append_of_le_length hle, List.drop_append_of_le_length hle,
      ih _ _ (le_length_drop_bs h)]

theorem decryptProcess_encryptProcess (blocks : Nat) (state buf : List UInt8)
    (h : blocks * bs ≤ buf.length) :
    decryptProcess c key blocks state (encryptProcess c key blocks state buf).1
      =
    (buf.take (blocks * bs), (encryptProcess c key blocks state buf).2) := by
  induction blocks generalizing state buf with
  | zero => simp [encryptProcess, decryptProcess]
  | succ blocks ih =>
    have hblock : (xorBuf (buf.take bs) state).length = bs :=
      (length_xorBuf _ state).trans (length_take_bs h)
    have hout := c.length_encrypt key _ hblock
    have htake : buf.take ((blocks + 1) * bs) = buf.take bs ++ (buf.drop bs).take (blocks * bs) := by
      rw [Nat.succ_mul, Nat.add_comm, List.take_add]
    simp only [encryptProcess, decryptProcess]
    rw [List.take_left' hout, List.drop_left' hout, ih _ _ (le_length_drop_bs h), c.decrypt_encrypt _ _ hblock,
      xorBuf_xorBuf, htake]

/-!
### Several blocks at once
-/

theorem xorBuf_append {buf other : List UInt8} (h : buf.length = other.length)
    (buf' other' : List UInt8) :
    xorBuf (buf ++ buf') (other ++ other') = xorBuf buf other ++ xorBuf buf' other' := by
  induction buf generalizing other with
  | nil =>
    have hnil := List.eq_nil_of_length_eq_zero h.symm
    subst hnil
    rfl
  | cons a buf ih =>
    obtain ⟨b, other, rfl⟩ := List.exists_cons_of_length_eq_add_one h.symm
    rw [List.cons_append, List.cons_append, xorBuf, xorBuf, ih (Nat.succ.inj h), List.cons_append]

theorem take_succ_mul (bs blocks : Nat) (buf : List UInt8) :
    buf.take ((blocks + 1) * bs) = buf.take bs ++ (buf.drop bs).take (blocks * bs) := by
  rw [Nat.succ_mul, Nat.add_comm, List.take_add]

-- What a cipher does to several blocks.
def blockwise (bs : Nat) (f : List UInt8 → List UInt8) : Nat → List UInt8 → List UInt8
  | 0, _ => []
  | blocks + 1, input => f (input.take bs) ++ blockwise bs f blocks (input.drop bs)

theorem blockwise_take {blocks : Nat} {buf : List UInt8} (f : List UInt8 → List UInt8)
    (h : (blocks + 1) * bs ≤ buf.length) :
    blockwise bs f (blocks + 1) (buf.take ((blocks + 1) * bs))
      =
    f (buf.take bs) ++ blockwise bs f blocks ((buf.drop bs).take (blocks * bs)) := by
  have htake := length_take_bs h
  rw [take_succ_mul, blockwise, List.take_left' htake, List.drop_left' htake]

theorem blockwise_one {input : List UInt8} (f : List UInt8 → List UInt8)
    (h : input.length = bs) : blockwise bs f 1 input = f input := by
  rw [blockwise, blockwise, List.append_nil, List.take_of_length_le (Nat.le_of_eq h)]

theorem encryptProcess_snd (blocks : Nat) (state buf : List UInt8)
    (h : (blocks + 1) * bs ≤ buf.length) :
    (encryptProcess c key (blocks + 1) state buf).2
      =
    ((encryptProcess c key (blocks + 1) state buf).1.drop (bs * blocks)).take bs := by
  induction blocks generalizing state buf with
  | zero =>
    have hout : (c.encrypt key (xorBuf (buf.take bs) state)).length = bs :=
      c.length_encrypt _ _ ((length_xorBuf _ state).trans (length_take_bs h))
    simp only [encryptProcess, Nat.mul_zero, List.drop_zero, List.append_nil]
    exact (List.take_of_length_le (Nat.le_of_eq hout)).symm
  | succ blocks ih =>
    have hout : (c.encrypt key (xorBuf (buf.take bs) state)).length = bs :=
      c.length_encrypt _ _ ((length_xorBuf _ state).trans (length_take_bs h))
    have hmul : bs * (blocks + 1) = bs + bs * blocks := by rw [Nat.mul_succ, Nat.add_comm]
    rw [encryptProcess]
    dsimp only
    rw [ih _ _ (le_length_drop_bs h), hmul, ← List.drop_drop, List.drop_left' hout]

-- All blocks decrypted first, and then xored with the ciphertext that is one block behind.
theorem decryptProcess_eq_xorBuf (blocks : Nat) (state buf : List UInt8)
    (hstate : state.length = bs) (h : blocks * bs ≤ buf.length) :
    (decryptProcess c key blocks state buf).1
      =
    xorBuf (blockwise bs (c.decrypt key) blocks (buf.take (blocks * bs))) ((state ++ buf).take (blocks * bs)) := by
  induction blocks generalizing state buf with
  | zero => rfl
  | succ blocks ih =>
    have htake := length_take_bs h
    have hdec : (c.decrypt key (buf.take bs)).length = state.length := by
      rw [c.length_decrypt _ _ htake, hstate]
    have hbuf : buf.take bs ++ buf.drop bs = buf := List.take_append_drop bs buf
    rw [blockwise_take _ h, take_succ_mul, List.take_left' hstate, List.drop_left' hstate,
      xorBuf_append hdec, decryptProcess]
    dsimp only
    rw [ih _ _ htake (le_length_drop_bs h), hbuf]

theorem decryptProcess_snd (blocks : Nat) (state buf : List UInt8) :
    (decryptProcess c key (blocks + 1) state buf).2 = (buf.drop (blocks * bs)).take bs := by
  induction blocks generalizing state buf with
  | zero => simp [decryptProcess]
  | succ blocks ih =>
    rw [decryptProcess]
    dsimp only
    rw [ih, drop_drop_bs]

/-!
### PKCS#7
-/

def padding (bs last : Nat) : List UInt8 :=
  let value := UInt8.ofNat (bs - last)
  List.replicate value.toNat value

def unpad (block : List UInt8) : Nat :=
  -- The number of message bytes, or the size of the block if its padding is malformed. The scan for
  -- bytes that differ from the last one never gets to the first byte.
  let size := block.length
  let last := block.getD (size - 1) 0
  let bad := (List.range (size - 2)).any fun j =>
    decide (size - last.toNat ≤ j + 1) && block.getD (j + 1) 0 != last
  if size < last.toNat || bad then size else size - last.toNat

theorem unpad_le (block : List UInt8) : unpad block ≤ block.length := by
  unfold unpad
  dsimp only
  split <;> omega

-- What the scan lets through
def Padded (block : List UInt8) : Prop :=
  let size := block.length
  let last := block.getD (size - 1) 0
  0 < last.toNat ∧ last.toNat ≤ size
    ∧ ∀ i, i < size → 0 < i → size - last.toNat ≤ i → block.getD i 0 = last

instance (block : List UInt8) : Decidable (Padded block) :=
  inferInstanceAs (Decidable (_ ∧ _ ∧ ∀ i, i < _ → _ → _ → _))

example : Padded (0 :: List.replicate 15 16) := by decide

theorem unpad_ne_length_iff {block : List UInt8} (h : 0 < block.length) :
    unpad block ≠ block.length ↔ Padded block := by
  unfold unpad Padded
  dsimp only
  generalize hlast : block.getD (block.length - 1) 0 = last
  by_cases hbig : block.length < last.toNat
  . simp only [hbig, decide_true, Bool.true_or, if_true, ne_eq, not_true_eq_false, false_iff]
    omega
  . simp only [hbig, decide_false, Bool.false_or]
    cases hbad : (List.range (block.length - 2)).any fun j =>
        decide (block.length - last.toNat ≤ j + 1) && block.getD (j + 1) 0 != last
    . rw [if_neg Bool.false_ne_true]
      simp only [List.any_eq_false, List.mem_range, Bool.and_eq_true, decide_eq_true_eq,
        bne_iff_ne, ne_eq, not_and, Decidable.not_not] at hbad
      constructor
      . intro hne
        refine ⟨by omega, by omega, ?_⟩
        intro i hlt hpos hle
        by_cases hend : i = block.length - 1
        . rw [hend, hlast]
        . obtain ⟨j, rfl⟩ := Nat.exists_eq_add_of_le' hpos
          exact hbad j (by omega) hle
      . rintro ⟨hpos, hle, -⟩
        omega
    . rw [if_pos rfl]
      simp only [List.any_eq_true, List.mem_range, Bool.and_eq_true, decide_eq_true_eq,
        bne_iff_ne, ne_eq] at hbad
      obtain ⟨j, hj, hle, hne⟩ := hbad
      simp only [ne_eq, not_true_eq_false, false_iff]
      rintro ⟨-, -, hall⟩
      exact hne (hall (j + 1) (by omega) (by omega) hle)

theorem length_padding (last : Nat) (hbs : bs < 256) :
    (padding bs last).length = bs - last := by
  simp only [padding, List.length_replicate, UInt8.toNat_ofNat']
  omega

theorem unpad_append_padding (msg : List UInt8) (h : msg.length < bs) (hbs : bs < 256) :
    unpad (msg ++ padding bs msg.length) = msg.length := by
  have hpad := length_padding msg.length hbs
  have hvalue : (UInt8.ofNat (bs - msg.length)).toNat = bs - msg.length := by
    simp only [UInt8.toNat_ofNat']
    omega
  have hget : ∀ i, msg.length ≤ i → i < bs →
      (msg ++ padding bs msg.length).getD i 0 = UInt8.ofNat (bs - msg.length) := by
    intro i hi hlt
    simp only [padding, hvalue]
    simp only [List.getD_eq_getElem?_getD]
    rw [List.getElem?_append_right hi, List.getElem?_replicate_of_lt (by omega)]
    rfl
  have hsize : (msg ++ padding bs msg.length).length = bs := by
    simp only [List.length_append, hpad]
    omega
  unfold unpad
  simp only [hsize]
  rw [hget (bs - 1) (by omega) (by omega), hvalue, if_neg]
  . omega
  . simp only [Bool.or_eq_true, decide_eq_true_eq, List.any_eq_true, List.mem_range,
      Bool.and_eq_true, bne_iff_ne, not_or, not_exists, not_and, ne_eq, Decidable.not_not]
    refine ⟨by omega, ?_⟩
    intro j hj hle
    exact hget (j + 1) (by omega) (by omega)

def encryptFinish (state last : List UInt8) : List UInt8 :=
  (encryptProcess c key 1 state (last ++ padding bs last.length)).1

def decryptFinish (state block : List UInt8) : Option (List UInt8) :=
  let plain := (decryptProcess c key 1 state block).1
  if unpad plain = bs then none else some (plain.take (unpad plain))

theorem length_encryptFinish (state last : List UInt8) (h : last.length < bs) (hbs : bs < 256) :
    (encryptFinish c key state last).length = bs := by
  have hpad : (last ++ padding bs last.length).length = bs := by
    rw [List.length_append, length_padding _ hbs]
    omega
  unfold encryptFinish
  rw [length_encryptProcess c key 1 _ _ (by omega), Nat.one_mul]

theorem length_decryptFinish {state block plain : List UInt8} (hblock : block.length = bs)
    (h : decryptFinish c key state block = some plain) : plain.length < bs := by
  have hlen := length_decryptProcess c key 1 state block (by omega)
  have hle := unpad_le (decryptProcess c key 1 state block).1
  unfold decryptFinish at h
  dsimp only at h
  split at h
  . contradiction
  . next hne =>
    injection h with h
    subst h
    simp only [List.length_take]
    omega

theorem decryptFinish_encryptFinish (state last : List UInt8) (h : last.length < bs)
    (hbs : bs < 256) :
    decryptFinish c key state (encryptFinish c key state last) = some last := by
  have hpad : (last ++ padding bs last.length).length = bs := by
    rw [List.length_append, length_padding _ hbs]
    omega
  have hplain : (decryptProcess c key 1 state (encryptFinish c key state last)).1 =
      last ++ padding bs last.length := by
    unfold encryptFinish
    rw [decryptProcess_encryptProcess c key 1 _ _ (by omega)]
    rw [Nat.one_mul, List.take_of_length_le (by omega)]
  unfold decryptFinish
  dsimp only
  rw [hplain, unpad_append_padding last h hbs, if_neg (by omega)]
  simp

/-!
### Whole messages
-/

def encryptMessage (iv msg : List UInt8) : List UInt8 :=
  let blocks := msg.length / bs
  let (out, state) := encryptProcess c key blocks iv msg
  out ++ encryptFinish c key state (msg.drop (blocks * bs))

def decryptMessage (iv buf : List UInt8) : Option (List UInt8) :=
  let blocks := buf.length / bs - 1
  let (plain, state) := decryptProcess c key blocks iv buf
  (decryptFinish c key state (buf.drop (blocks * bs))).map (plain ++ ·)

-- The last block is xored with the one before it, which may be the state at the start.
def lastPlain (iv buf : List UInt8) : List UInt8 :=
  xorBuf (c.decrypt key (buf.drop (buf.length - bs)))
    (((iv ++ buf).drop (buf.length - bs)).take bs)

theorem length_drop_blocks (msg : List UInt8) :
    (msg.drop (msg.length / bs * bs)).length = msg.length % bs := by
  have hmod := Nat.div_add_mod' msg.length bs
  simp only [List.length_drop]
  omega

theorem encryptMessage_eq (iv msg : List UInt8) :
    encryptMessage c key iv msg
      =
    (encryptProcess c key (msg.length / bs + 1) iv (msg ++ padding bs (msg.length % bs))).1 := by
  have hle : msg.length / bs * bs ≤ msg.length := Nat.div_mul_le_self _ _
  unfold encryptMessage encryptFinish
  dsimp only
  rw [encryptProcess_add, encryptProcess_append c key _ _ _ _ hle, length_drop_blocks,
    List.drop_append_of_le_length hle]

section

variable (hpos : 0 < bs) (hbs : bs < 256)

include hpos

theorem length_div_sub_one {buf : List UInt8} {blocks : Nat} (h : buf.length = (blocks + 1) * bs) :
    buf.length / bs - 1 = blocks := by
  rw [h, Nat.mul_div_cancel _ hpos]
  omega

include hbs

theorem length_padded (msg : List UInt8) :
    (msg ++ padding bs (msg.length % bs)).length = (msg.length / bs + 1) * bs := by
  have hmod := Nat.div_add_mod' msg.length bs
  have hlt := Nat.mod_lt msg.length hpos
  have hsucc : (msg.length / bs + 1) * bs = msg.length / bs * bs + bs := Nat.succ_mul _ _
  rw [List.length_append, length_padding _ hbs]
  omega

theorem length_encryptMessage (iv msg : List UInt8) :
    (encryptMessage c key iv msg).length = (msg.length / bs + 1) * bs := by
  rw [encryptMessage_eq c key]
  apply length_encryptProcess
  exact Nat.le_of_eq (length_padded hpos hbs msg).symm

theorem decryptMessage_encryptMessage (iv msg : List UInt8) :
    decryptMessage c key iv (encryptMessage c key iv msg) = some msg := by
  have hle : msg.length / bs * bs ≤ msg.length := Nat.div_mul_le_self _ _
  have hout := length_encryptProcess c key (msg.length / bs) iv msg hle
  have hlast : (msg.drop (msg.length / bs * bs)).length < bs := by
    rw [length_drop_blocks]
    exact Nat.mod_lt _ hpos
  have hblocks := length_div_sub_one hpos (length_encryptMessage c key hpos hbs iv msg)
  unfold decryptMessage
  rw [hblocks]
  unfold encryptMessage
  dsimp only
  rw [decryptProcess_append c key _ _ _ _ (Nat.le_of_eq hout.symm),
    decryptProcess_encryptProcess c key _ _ _ hle, List.drop_left' hout,
    decryptFinish_encryptFinish c key _ _ hlast hbs]
  simp

omit hbs

theorem isSome_decryptMessage_iff {iv buf : List UInt8} {blocks : Nat} (hiv : iv.length = bs)
    (hlen : buf.length = (blocks + 1) * bs) :
    (decryptMessage c key iv buf).isSome ↔ Padded (lastPlain c key iv buf) := by
  have hsucc : (blocks + 1) * bs = blocks * bs + bs := Nat.succ_mul _ _
  have hsub : buf.length - bs = blocks * bs := by omega
  have hlast : (buf.drop (blocks * bs)).length = bs := by
    rw [List.length_drop]
    omega
  have hstate : (decryptProcess c key blocks iv buf).2
      = ((iv ++ buf).drop (blocks * bs)).take bs := by
    cases blocks with
    | zero =>
      rw [Nat.zero_mul, List.drop_zero, List.take_left' hiv]
      rfl
    | succ blocks =>
      rw [decryptProcess_snd, Nat.succ_mul, Nat.add_comm, ← List.drop_drop, List.drop_left' hiv]
  have hplain : (decryptProcess c key 1 (decryptProcess c key blocks iv buf).2
      (buf.drop (blocks * bs))).1 = lastPlain c key iv buf := by
    rw [lastPlain, hsub, hstate, decryptProcess, decryptProcess]
    dsimp only
    rw [List.append_nil, List.take_of_length_le (Nat.le_of_eq hlast)]
  have hsize : (lastPlain c key iv buf).length = bs := by
    rw [lastPlain, length_xorBuf, hsub, c.length_decrypt _ _ hlast]
  have hne : unpad (lastPlain c key iv buf) ≠ (lastPlain c key iv buf).length
      ↔ Padded (lastPlain c key iv buf) := unpad_ne_length_iff (by omega)
  rw [hsize] at hne
  unfold decryptMessage decryptFinish
  rw [length_div_sub_one hpos hlen]
  dsimp only
  rw [Option.isSome_map, hplain, ← hne]
  split
  . next hbad => simp [hbad]
  . next hgood => simp [hgood]

-- Whatever the padding says, the message is a part of what the blocks decrypt to.
theorem decryptMessage_eq_take {iv buf plain : List UInt8} {blocks : Nat}
    (hlen : buf.length = (blocks + 1) * bs) (h : decryptMessage c key iv buf = some plain) :
    plain = (decryptProcess c key (blocks + 1) iv buf).1.take plain.length
      ∧ blocks * bs ≤ plain.length ∧ plain.length < (blocks + 1) * bs := by
  have hsucc : (blocks + 1) * bs = blocks * bs + bs := Nat.succ_mul _ _
  have hle : blocks * bs ≤ buf.length := by omega
  have hfst := length_decryptProcess c key blocks iv buf hle
  have hblock : (buf.drop (blocks * bs)).length = bs := by
    simp only [List.length_drop]
    omega
  unfold decryptMessage at h
  rw [length_div_sub_one hpos hlen] at h
  dsimp only at h
  obtain ⟨last, hlast, rfl⟩ := Option.map_eq_some_iff.mp h
  have hlt := length_decryptFinish c key hblock hlast
  have hval : last = ((decryptProcess c key 1 (decryptProcess c key blocks iv buf).2
      (buf.drop (blocks * bs))).1).take last.length := by
    unfold decryptFinish at hlast
    dsimp only at hlast
    split at hlast
    . contradiction
    . injection hlast with hlast
      rw [← hlast, List.length_take, Nat.min_eq_left (unpad_le _)]
  refine ⟨?_, ?_, ?_⟩
  . rw [decryptProcess_add]
    dsimp only
    rw [List.length_append, List.take_length_add_append, ← hval]
  . rw [List.length_append, hfst]
    omega
  . rw [List.length_append, hfst]
    omega

include hbs

-- A prefix of the ciphertext: its blocks are blocks of the message.
theorem decryptProcess_of_lt {iv msg rest : List UInt8} {blocks : Nat}
    (hlt : blocks < msg.length / bs) :
    (decryptProcess c key (blocks + 1) iv
        ((encryptMessage c key iv msg ++ rest).take ((blocks + 1) * bs))).1
      =
    msg.take ((blocks + 1) * bs) := by
  have hmul : (blocks + 1) * bs ≤ msg.length / bs * bs := Nat.mul_le_mul_right _ hlt
  have hmod := Nat.div_add_mod' msg.length bs
  have hpadded := length_padded hpos hbs msg
  have hsucc : (msg.length / bs + 1) * bs = msg.length / bs * bs + bs := Nat.succ_mul _ _
  have hsplit : msg.length / bs + 1 = (blocks + 1) + (msg.length / bs - blocks) := by omega
  have hfst := length_encryptProcess c key (blocks + 1) iv
    (msg ++ padding bs (msg.length % bs)) (by omega)
  have hpre : (encryptMessage c key iv msg ++ rest).take ((blocks + 1) * bs)
      = (encryptProcess c key (blocks + 1) iv (msg ++ padding bs (msg.length % bs))).1 := by
    rw [encryptMessage_eq c key, hsplit, encryptProcess_add, List.append_assoc]
    exact List.take_left' hfst
  rw [hpre, decryptProcess_encryptProcess c key _ _ _ (by omega)]
  dsimp only
  rw [List.take_append_of_le_length (by omega)]

-- The whole ciphertext and more: its first blocks are the padded message.
theorem decryptProcess_of_gt {iv msg rest : List UInt8} {blocks : Nat}
    (hgt : msg.length / bs < blocks) :
    ∃ more, (decryptProcess c key (blocks + 1) iv
        ((encryptMessage c key iv msg ++ rest).take ((blocks + 1) * bs))).1
      = msg ++ padding bs (msg.length % bs) ++ more := by
  have hmul : (msg.length / bs + 1) * bs ≤ blocks * bs := Nat.mul_le_mul_right _ hgt
  have hsucc : (blocks + 1) * bs = blocks * bs + bs := Nat.succ_mul _ _
  have henc := length_encryptMessage c key hpos hbs iv msg
  have hpadded := length_padded hpos hbs msg
  have hsplit : blocks + 1 = (msg.length / bs + 1) + (blocks - msg.length / bs) := by omega
  have hpre : (encryptMessage c key iv msg ++ rest).take ((blocks + 1) * bs)
      = encryptMessage c key iv msg
        ++ rest.take ((blocks + 1) * bs - (encryptMessage c key iv msg).length) := by
    rw [List.take_append, List.take_of_length_le (by omega)]
  rw [hpre, hsplit, decryptProcess_add, decryptProcess_append c key _ _ _ _ (by omega),
    encryptMessage_eq c key, decryptProcess_encryptProcess c key _ _ _ (by omega)]
  dsimp only
  rw [List.take_of_length_le (by omega)]
  exact ⟨_, rfl⟩

-- What a ciphertext of the wrong length decrypts to agrees with the message but is never the message.
theorem decryptMessage_of_ne {iv msg rest plain : List UInt8} {blocks : Nat}
    (hne : blocks ≠ msg.length / bs)
    (hlen : (blocks + 1) * bs ≤ (encryptMessage c key iv msg ++ rest).length)
    (h : decryptMessage c key iv ((encryptMessage c key iv msg ++ rest).take ((blocks + 1) * bs))
      = some plain) :
    plain.length < msg.length ∧ plain = msg.take plain.length
      ∨ msg.length < plain.length ∧ plain.take msg.length = msg := by
  have hmod := Nat.div_add_mod' msg.length bs
  have hmodlt := Nat.mod_lt msg.length hpos
  have htake : ((encryptMessage c key iv msg ++ rest).take ((blocks + 1) * bs)).length
      = (blocks + 1) * bs := by
    rw [List.length_take]
    omega
  obtain ⟨hplain, hlow, hhigh⟩ := decryptMessage_eq_take c key hpos htake h
  rcases Nat.lt_or_gt_of_ne hne with hlt | hgt
  . have hmul : (blocks + 1) * bs ≤ msg.length / bs * bs := Nat.mul_le_mul_right _ hlt
    left
    refine ⟨by omega, ?_⟩
    rw [decryptProcess_of_lt c key hpos hbs hlt, List.take_take] at hplain
    rw [hplain, List.length_take]
    congr 1
    omega
  . have hmul : (msg.length / bs + 1) * bs ≤ blocks * bs := Nat.mul_le_mul_right _ hgt
    have hsucc : (msg.length / bs + 1) * bs = msg.length / bs * bs + bs := Nat.succ_mul _ _
    obtain ⟨more, hmore⟩ := decryptProcess_of_gt c key hpos hbs hgt
    right
    refine ⟨by omega, ?_⟩
    rw [hmore] at hplain
    rw [hplain, List.take_take, Nat.min_eq_left (by omega), List.append_assoc, List.take_left' rfl]

end

end BlockMode
