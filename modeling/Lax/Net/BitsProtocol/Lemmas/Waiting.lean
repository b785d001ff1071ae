import Lax.Net.BitsProtocol.Lemmas.Packetization

/-!
This module contains which frames wait in the buffer although all of their bytes have arrived. The
guard of the loop in `on_recv` asks for more than a header.
-/

namespace Lax
namespace BitsProtocol

open BitsMessage

variable {Body : UInt32 → Type} {env : Env Body}

/-!
### Cutting a stream
-/

-- `rest` is what is left of a stream once frames are cut off that the loop would get to.
inductive Cut : List UInt8 → List UInt8 → Prop where
  | nil (xs : List UInt8) : Cut xs xs
  | frame {xs rest : List UInt8} : headerLength < xs.length → headerLength ≤ getLength xs 0 →
    getLength xs 0 ≤ xs.length → Cut (xs.drop (getLength xs 0)) rest → Cut xs rest

def NoneWaiting (rest : List UInt8) : Prop :=
  rest.length < headerLength ∨ rest.length < getLength rest 0

-- Behind the last frame that is longer than its header there is a header that needs no more bytes.
def EndsInHeader (xs : List UInt8) : Prop :=
  ∃ rest, Cut xs rest ∧ rest.length = headerLength ∧ getLength rest 0 ≤ headerLength

theorem getLength_append {xs : List UInt8} (ys : List UInt8) (h : headerLength < xs.length) :
    getLength (xs ++ ys) 0 = getLength xs 0 := by
  have hheader : headerLength = 8 := rfl
  apply congrArg UInt32.toNat
  apply getValue4b_append
  omega

theorem Cut.append {xs rest : List UInt8} (h : Cut xs rest) (ys : List UInt8) :
    Cut (xs ++ ys) (rest ++ ys) := by
  induction h with
  | nil xs => apply Cut.nil
  | @frame xs rest hheader hlen hle _ ih =>
    have hlength := getLength_append ys hheader
    apply Cut.frame
    . rw [List.length_append]
      omega
    . rw [hlength]
      exact hlen
    . rw [hlength, List.length_append]
      omega
    . rw [hlength, List.drop_append_of_le_length hle]
      exact ih

theorem Cut.trans {xs ys zs : List UInt8} (h : Cut xs ys) (h' : Cut ys zs) : Cut xs zs := by
  induction h with
  | nil => exact h'
  | frame hheader hlen hle _ ih => exact .frame hheader hlen hle (ih h')

theorem nextCall_eq_none_iff {mods : Modifiers} {xs : List UInt8} :
    nextCall mods xs 0 = none ↔ (headerLength < xs.length → xs.length < getLength xs 0) := by
  unfold nextCall
  dsimp only
  rw [Nat.sub_zero]
  split
  . next hheader =>
    split
    . next hlt => simp [hlt]
    . next hnot => simp [hheader, hnot]
  . next hheader => simp [hheader]

-- There is one way to cut all frames off.
theorem Cut.unique {xs rest rest' : List UInt8} (h : Cut xs rest) (h' : Cut xs rest')
    (hend : headerLength < rest.length → rest.length < getLength rest 0)
    (hend' : headerLength < rest'.length → rest'.length < getLength rest' 0) : rest = rest' := by
  induction h with
  | nil xs =>
    cases h' with
    | nil => rfl
    | frame hheader _ hle _ => exact absurd (hend hheader) (Nat.not_lt.mpr hle)
  | frame hheader _ hle _ ih =>
    cases h' with
    | nil => exact absurd (hend' hheader) (Nat.not_lt.mpr hle)
    | frame _ _ _ hcut => exact ih hcut hend

theorem noneWaiting_iff_of_cut {xs rest : List UInt8} (h : Cut xs rest)
    (hend : headerLength < rest.length → rest.length < getLength rest 0) :
    NoneWaiting rest ↔ ¬EndsInHeader xs := by
  unfold NoneWaiting EndsInHeader
  constructor
  . rintro hnone ⟨rest', hcut, hlength, hle⟩
    have heq := h.unique hcut hend (by omega)
    subst heq
    omega
  . intro hnot
    apply Decidable.byContradiction
    intro hwaiting
    have hlength : rest.length = headerLength := by omega
    exact hnot ⟨rest, h, hlength, by omega⟩

/-!
### Reads
-/

theorem cut_of_run {mods : Modifiers} {xs : List UInt8}
    (h : ((frames env).run mods xs).rc = .ok ()) : Cut xs ((frames env).run mods xs).rest := by
  induction hn : xs.length using Nat.strongRecOn generalizing mods xs with
  | _ n ih =>
    cases hnext : (frames env).next mods xs with
    | wait =>
      rw [FrameParser.run_wait hnext]
      apply Cut.nil
    | stop key e mods' =>
      rw [FrameParser.run_stop hnext] at h
      contradiction
    | frame key size m mods' =>
      have hsize := (frames env).size_of_frame hnext
      rw [FrameParser.run_frame hnext] at h ⊢
      have hrest := ih (xs.drop size).length (by rw [List.length_drop]; omega) h rfl
      change nextFrame env mods xs = _ at hnext
      unfold nextFrame at hnext
      split at hnext
      . contradiction
      . next call hcall =>
        obtain ⟨rfl, hpos, hin⟩ := nextCall_eq_some hcall
        dsimp only at hnext
        split at hnext
        . contradiction
        . next m' hrc =>
          injection hnext with _ hlength
          subst hlength
          rw [Nat.zero_add] at hpos
          have hheader := headerLength_le_of_handle env (Call.inRange_own hin) hrc
          exact .frame hpos hheader hsize.2 hrest

-- A read that succeeds has handled frames only that have a header.
theorem allOwn_of_ok {p : BitsProtocol} {bytes : List UInt8}
    (h : (onRecv env p bytes).rc = .ok ()) : AllOwn env ((onRecv env p bytes).calls.map Call.key) := by
  have hloop : ∀ mods buf pos, (loop env mods buf pos).rc = .ok () →
      ∀ call ∈ (loop env mods buf pos).calls, headerLength ≤ call.len := by
    intro mods buf pos
    fun_induction loop env mods buf pos with
    | case1 => simp
    | case2 => simp
    | case3 mods buf pos call hcall handled m hrc rest ih =>
      intro hok
      dsimp only at hok ⊢
      rw [List.forall_mem_cons]
      exact ⟨headerLength_le_of_handle env (nextCall_eq_some hcall).2.2 hrc, ih hok⟩
  intro key hkey
  obtain ⟨call, hcall, rfl⟩ := List.mem_map.mp hkey
  have hlen : headerLength ≤ call.len := by
    unfold onRecv at h hcall
    split at h
    . contradiction
    . next hbytes =>
      rw [if_neg hbytes] at hcall
      dsimp only at h hcall
      split at h
      . contradiction
      . next hok =>
        rw [hok] at hcall
        exact hloop _ _ _ hok call hcall
  apply dependsOnOwnBytes_of_sequence
  intro _ _ _
  exact Nat.lt_of_lt_of_le (by decide) hlen

theorem cut_of_onRecv {p : BitsProtocol} {bytes : List UInt8}
    (h : (onRecv env p bytes).rc = .ok ()) :
    let rest := (onRecv env p bytes).protocol.recvBuf
    Cut (p.recvBuf ++ bytes) rest ∧ (headerLength < rest.length → rest.length < getLength rest 0) := by
  have hbytes : bytes ≠ [] := by
    rintro rfl
    contradiction
  have hown := allOwn_of_ok h
  obtain ⟨hcalls, hsim⟩ := @onRecv_simulates _ env p _ hbytes
  rw [hcalls] at hown
  obtain ⟨hrc, -, hprotocol⟩ := hsim hown
  have hrun := hrc.symm.trans h
  have hwait := FrameParser.next_of_run hrun
  rw [hprotocol h]
  refine ⟨cut_of_run hrun, ?_⟩
  change nextFrame env _ _ = _ at hwait
  unfold nextFrame at hwait
  split at hwait
  . next hcall => exact nextCall_eq_none_iff.mp hcall
  . dsimp only at hwait
    split at hwait <;> contradiction

theorem cut_of_onRecvAll {p : BitsProtocol} {chunks : List (List UInt8)}
    (h : (onRecvAll env p chunks).rc = .ok ())
    (hend : headerLength < p.recvBuf.length → p.recvBuf.length < getLength p.recvBuf 0) :
    let rest := (onRecvAll env p chunks).protocol.recvBuf
    Cut (p.recvBuf ++ chunks.flatten) rest
      ∧ (headerLength < rest.length → rest.length < getLength rest 0) := by
  induction chunks generalizing p with
  | nil =>
    rw [List.flatten_nil, List.append_nil]
    exact ⟨.nil _, hend⟩
  | cons bytes chunks ih =>
    unfold onRecvAll at h ⊢
    dsimp only at h ⊢
    split at h
    . next hrc =>
      rw [hrc] at h
      contradiction
    . next hrc =>
      obtain ⟨hcut, hend'⟩ := cut_of_onRecv hrc
      obtain ⟨hcut', hend''⟩ := ih h hend'
      rw [List.flatten_cons, ← List.append_assoc]
      exact ⟨(hcut.append chunks.flatten).trans hcut', hend''⟩

/--
`chunks` are all reads up to any one of them.
-/
theorem noneWaiting_iff (env : Env Body) (chunks : List (List UInt8))
    (h : (onRecvAll env onBind chunks).rc = .ok ()) :
    NoneWaiting (onRecvAll env onBind chunks).protocol.recvBuf ↔ ¬EndsInHeader chunks.flatten := by
  obtain ⟨hcut, hend⟩ := cut_of_onRecvAll h (p := onBind) (by decide)
  exact noneWaiting_iff_of_cut hcut hend

theorem onRecvAll_of_none {p : BitsProtocol} {bytes : List UInt8} (hbytes : bytes ≠ [])
    (h : nextCall p.mods (p.recvBuf ++ bytes) 0 = none) :
    onRecvAll env p [bytes] = ⟨.ok (), [], [], ⟨p.recvBuf ++ bytes, p.mods⟩⟩ := by
  have hloop := @loop_none _ env _ _ _ h
  unfold onRecvAll onRecv
  rw [if_neg hbytes, hloop]
  rfl

theorem noneWaiting_iff_partial :
    let env := Env.single 1 {}
    let bytes := [9, 0, 0, 0, 1, 0, 0, 0]
    NoneWaiting (onRecvAll env onBind [bytes]).protocol.recvBuf ↔ ¬EndsInHeader [bytes].flatten := by
  apply noneWaiting_iff
  rw [onRecvAll_of_none (by decide) rfl]

-- A message without members: all of its frame has arrived, and it is not posted.
theorem exists_waiting :
    let env := Env.single 0 {}
    let m : BitsMessage fun _ => { xs : List UInt8 // xs.length = 0 } := ⟨1, {}, 0, 0, [], rfl⟩
    ∃ bytes, send env onBind.mods m = .ok (bytes, onBind.mods)
      ∧ (onRecvAll env onBind [bytes]).rc = .ok ()
      ∧ (onRecvAll env onBind [bytes]).posted = []
      ∧ ¬NoneWaiting (onRecvAll env onBind [bytes]).protocol.recvBuf := by
  refine ⟨[8, 0, 0, 0, 1, 0, 0, 0], rfl, ?_⟩
  rw [onRecvAll_of_none (by decide) rfl]
  refine ⟨rfl, rfl, ?_⟩
  unfold NoneWaiting
  decide

end BitsProtocol
end Lax
