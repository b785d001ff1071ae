import Lax.Util.Lemmas.Tokenize

/-!
This module contains when the wide `tokenize` ends and loses nothing: it looks for the characters of its
delimiter and passes over as many as the delimiter has.
-/

namespace Lax
namespace StringUtil

variable {α : Type} {msg delimiter word : List α} {tokens : List (List α)} {c : α}

/-!
### Delimiters
-/

-- The characters of a delimiter occur only together.
inductive Whole (delimiter : List α) : List α → Prop where
  | nil : Whole delimiter []
  | char {c : α} {msg : List α} : c ∉ delimiter → Whole delimiter msg → Whole delimiter (c :: msg)
  | delimiter {msg : List α} : Whole delimiter msg → Whole delimiter (delimiter ++ msg)

theorem whole_cons_iff (hne : delimiter ≠ []) (hc : c ∉ delimiter) :
    Whole delimiter (c :: msg) ↔ Whole delimiter msg := by
  constructor
  . generalize hwhole : c :: msg = whole
    intro h
    cases h with
    | nil => contradiction
    | char _ h =>
      injection hwhole with _ heq
      exact heq ▸ h
    | delimiter h =>
      obtain ⟨d, ds, rfl⟩ := List.exists_cons_of_ne_nil hne
      injection hwhole with heq
      exact absurd (heq ▸ List.mem_cons_self) hc
  . exact .char hc

theorem whole_append_iff (hne : delimiter ≠ []) (hword : ∀ c ∈ word, c ∉ delimiter) :
    Whole delimiter (word ++ msg) ↔ Whole delimiter msg := by
  induction word with
  | nil => rfl
  | cons c word ih =>
    rw [List.forall_mem_cons] at hword
    rw [List.cons_append, whole_cons_iff hne hword.1]
    exact ih hword.2

-- Where there is one of its characters, there is the delimiter.
theorem whole_of_mem (hc : c ∈ delimiter) (hhead : c ∈ msg.head?) :
    Whole delimiter msg ↔ ∃ rest, msg = delimiter ++ rest ∧ Whole delimiter rest := by
  constructor
  . intro h
    cases h with
    | nil => contradiction
    | char hnot _ =>
      injection hhead with heq
      exact absurd (heq ▸ hc) hnot
    | delimiter h => exact ⟨_, rfl, h⟩
  . rintro ⟨rest, rfl, h⟩
    exact .delimiter h

variable [DecidableEq α]

-- The message without the occurrences of the delimiter that it begins with.
def strip (delimiter msg : List α) : List α :=
  if _h : delimiter ≠ [] ∧ delimiter <+: msg then
    strip delimiter (msg.drop delimiter.length)
  else
    msg
termination_by msg.length
decreasing_by
  have hle := _h.2.length_le
  have hpos := List.length_pos_iff.mpr _h.1
  rw [List.length_drop]
  omega

theorem strip_append (h : delimiter ≠ []) (msg : List α) :
    strip delimiter (delimiter ++ msg) = strip delimiter msg := by
  rw [strip, dif_pos ⟨h, List.prefix_append _ _⟩, List.drop_left]

theorem strip_of_not_mem (hc : c ∉ delimiter) (msg : List α) :
    strip delimiter (c :: msg) = c :: msg := by
  rw [strip, dif_neg]
  rintro ⟨hne, hoccurs⟩
  obtain ⟨d, ds, rfl⟩ := List.exists_cons_of_ne_nil hne
  rw [List.cons_prefix_cons] at hoccurs
  exact hc (hoccurs.1 ▸ List.mem_cons_self)

theorem strip_nil : strip delimiter [] = [] := by
  rw [strip]
  split
  . next h => exact absurd (List.prefix_nil.mp h.2) h.1
  . rfl

-- What is taken away are delimiters.
theorem strip_spec (delimiter msg : List α) :
    (strip delimiter msg).dropWhile (· ∈ delimiter) = msg.dropWhile (· ∈ delimiter)
      ∧ (Whole delimiter (strip delimiter msg) → Whole delimiter msg) := by
  fun_induction strip delimiter msg with
  | case1 msg h ih =>
    obtain ⟨rest, rfl⟩ := h.2
    rw [List.drop_left] at ih ⊢
    constructor
    . rw [ih.1, List.dropWhile_append_of_pos]
      exact fun c hc => decide_eq_true hc
    . exact fun hwhole => .delimiter (ih.2 hwhole)
  | case2 msg h => exact ⟨rfl, id⟩

theorem Whole.strip_eq (hne : delimiter ≠ []) (h : Whole delimiter msg) :
    strip delimiter msg = msg.dropWhile (· ∈ delimiter)
      ∧ Whole delimiter (msg.dropWhile (· ∈ delimiter)) := by
  induction h with
  | nil => exact ⟨strip_nil, .nil⟩
  | char hc h =>
    rw [List.dropWhile_cons_of_neg (by simpa using hc)]
    exact ⟨strip_of_not_mem hc _, .char hc h⟩
  | delimiter h ih =>
    rw [strip_append hne, List.dropWhile_append_of_pos fun c hc => decide_eq_true hc]
    exact ih

-- Where the delimiters have been passed over, `msg` has lost nothing as long as `joined` has not.
theorem eq_strip_iff {joined : List α} (hne : delimiter ≠ [])
    (hjoined : joined.dropWhile (· ∈ delimiter) = joined)
    (hiff : joined = msg.dropWhile (· ∈ delimiter) ↔ Whole delimiter (msg.dropWhile (· ∈ delimiter))) :
    joined = strip delimiter msg ↔ Whole delimiter msg := by
  have hspec := strip_spec delimiter msg
  constructor
  . intro heq
    rw [← heq, hjoined] at hspec
    apply hspec.2
    rw [hspec.1]
    exact hiff.mp hspec.1
  . intro hwhole
    obtain ⟨hstrip, hwhole⟩ := hwhole.strip_eq hne
    rw [hstrip]
    exact hiff.mpr hwhole

/-!
### The loop
-/

-- What the loop has appended when it has started with `rest`.
structure Appended (msg delimiter rest : List α) (appended : List (List α)) : Prop where
  ne_nil : appended ≠ []
  isInfix : ∀ token ∈ appended, token <:+: msg
  head : ∃ more, delimiter.intercalate appended
    = rest.takeWhile (fun c => !decide (c ∈ delimiter)) ++ more
  iff_whole : delimiter.intercalate appended = rest ↔ Whole delimiter rest

theorem not_mem_of_takeWhile :
    ∀ c ∈ msg.takeWhile (fun c => !decide (c ∈ delimiter)), c ∉ delimiter := by
  intro c hc
  have hnot := List.mem_takeWhile_imp hc
  simpa using hnot

theorem appended_last {start : Nat} (hne : delimiter ≠ [])
    (hdrop : (msg.drop start).dropWhile (fun c => !decide (c ∈ delimiter)) = []) :
    Appended msg delimiter (msg.drop start) [msg.drop start] := by
  have htake : (msg.drop start).takeWhile (fun c => !decide (c ∈ delimiter)) = msg.drop start := by
    have heq := List.takeWhile_append_dropWhile (p := fun c => !decide (c ∈ delimiter)) (l := msg.drop start)
    rw [hdrop, List.append_nil] at heq
    exact heq
  have hnot : ∀ c ∈ msg.drop start, c ∉ delimiter := by
    intro c hc
    rw [← htake] at hc
    exact not_mem_of_takeWhile c hc
  have hwhole : Whole delimiter (msg.drop start ++ []) := (whole_append_iff hne hnot).mpr .nil
  rw [List.append_nil] at hwhole
  constructor
  . simp
  . rw [List.forall_mem_singleton]
    exact (List.drop_suffix start msg).isInfix
  . refine ⟨[], ?_⟩
    rw [htake, List.append_nil]
    exact List.intercalate_singleton
  . exact iff_of_true List.intercalate_singleton hwhole

omit [DecidableEq α] in
theorem takeWhile_isInfix (p : α → Bool) (start : Nat) : (msg.drop start).takeWhile p <:+: msg :=
  (List.takeWhile_prefix p).isInfix.trans (List.drop_suffix start msg).isInfix

theorem Found.whole_iff {start stop : Nat} (hne : delimiter ≠ [])
    (h : Found (fun c => !decide (c ∈ delimiter)) msg start stop) :
    Whole delimiter (msg.drop start)
      ↔ ∃ rest, msg.drop stop = delimiter ++ rest ∧ Whole delimiter rest := by
  have hcons := List.drop_eq_getElem_cons h.lt_length
  have hmem := Runs.not_of_dropWhile (h.drop.symm.trans hcons)
  rw [← List.takeWhile_append_dropWhile (p := fun c => !decide (c ∈ delimiter)) (l := msg.drop start),
    whole_append_iff hne not_mem_of_takeWhile, ← h.drop]
  apply whole_of_mem (c := msg.get ⟨stop, h.lt_length⟩)
  . simpa using hmem
  . rw [hcons]
    rfl

theorem appended_short {start stop : Nat} (hne : delimiter ≠ [])
    (h : Found (fun c => !decide (c ∈ delimiter)) msg start stop)
    (hshort : msg.length < stop + delimiter.length) :
    Appended msg delimiter (msg.drop start)
      [(msg.drop start).takeWhile (fun c => !decide (c ∈ delimiter))] := by
  constructor
  . simp
  . rw [List.forall_mem_singleton]
    apply takeWhile_isInfix
  . refine ⟨[], ?_⟩
    rw [List.append_nil]
    exact List.intercalate_singleton
  . have hlt := h.lt_length
    have hle := h.le
    apply iff_of_false
    . rw [List.intercalate_singleton, ← h.take]
      intro heq
      have hlength := congrArg List.length heq
      rw [List.length_take, List.length_drop] at hlength
      omega
    . rw [h.whole_iff hne]
      rintro ⟨rest, heq, -⟩
      have hlength := congrArg List.length heq
      rw [List.length_append, List.length_drop] at hlength
      omega

theorem appended_cons {start stop : Nat} {appended : List (List α)} (hne : delimiter ≠ [])
    (h : Found (fun c => !decide (c ∈ delimiter)) msg start stop)
    (happended : Appended msg delimiter (msg.drop (stop + delimiter.length)) appended) :
    Appended msg delimiter (msg.drop start)
      ((msg.drop start).takeWhile (fun c => !decide (c ∈ delimiter)) :: appended) := by
  have hjoin : ∀ word, delimiter.intercalate (word :: appended)
      = word ++ delimiter ++ delimiter.intercalate appended :=
    fun word => List.intercalate_cons_of_ne_nil happended.ne_nil
  have hrest : ∀ rest, msg.drop stop = delimiter ++ rest →
      msg.drop (stop + delimiter.length) = rest := by
    intro rest heq
    rw [← List.drop_drop, heq, List.drop_left]
  constructor
  . simp
  . rw [List.forall_mem_cons]
    exact ⟨takeWhile_isInfix _ _, happended.isInfix⟩
  . exact ⟨_, (hjoin _).trans (List.append_assoc _ _ _)⟩
  . rw [h.whole_iff hne, hjoin, List.append_assoc]
    have hsplit := @List.takeWhile_append_dropWhile α (fun c => !decide (c ∈ delimiter)) (msg.drop start)
    rw [← h.drop] at hsplit
    constructor
    . intro heq
      have hstop := List.append_cancel_left (heq.trans hsplit.symm)
      refine ⟨_, hstop.symm, ?_⟩
      have hdrop := hrest _ hstop.symm
      rw [← hdrop]
      exact happended.iff_whole.mp hdrop.symm
    . rintro ⟨rest, heq, hwhole⟩
      have hdrop := hrest rest heq
      rw [← hdrop] at hwhole
      rw [happended.iff_whole.mpr hwhole, hdrop, ← heq]
      exact hsplit

theorem tokenizeWideLoop_spec {fuel start : Nat} (hne : delimiter ≠ []) (hle : start ≤ msg.length)
    (hfuel : msg.length - start < fuel) :
    ∃ appended, tokenizeWideLoop msg delimiter fuel (some start)
        (findFirstOf msg delimiter (some start)) tokens = some (tokens ++ appended)
      ∧ Appended msg delimiter (msg.drop start) appended := by
  have hpos := List.length_pos_iff.mpr hne
  induction fuel generalizing start tokens with
  | zero => omega
  | succ fuel ih =>
    unfold tokenizeWideLoop
    rw [if_pos (Or.inr (Option.some_ne_none start)), substr_of_le hle]
    dsimp only [Option.bind_some, Option.map_some, Option.any_some]
    obtain ⟨hnone, hdrop⟩ | ⟨stop, hstop, hfound⟩ := findFirstOf_cases msg delimiter start
    . -- The last token has no delimiter behind it.
      rw [hnone]
      dsimp only
      rw [if_pos (by simp; omega)]
      exact ⟨_, rfl, appended_last hne hdrop⟩
    . have hlt := hfound.lt_length
      have hstart := hfound.le
      have hnext : start + (((msg.drop start).take (stop - start)).length + delimiter.length)
          = stop + delimiter.length := by
        rw [List.length_take, List.length_drop]
        omega
      rw [hstop]
      dsimp only
      rw [hnext, hfound.take]
      split
      . next hshort =>
        rw [decide_eq_true_iff] at hshort
        exact ⟨_, rfl, appended_short hne hfound hshort⟩
      . next hlong =>
        rw [decide_eq_true_iff, gt_iff_lt, Nat.not_lt] at hlong
        obtain ⟨appended, heq, happended⟩ := ih hlong (by omega)
        rw [heq, List.append_assoc]
        exact ⟨_, rfl, appended_cons hne hfound happended⟩

/-!
### Messages
-/

-- The loop ends, and nothing that is appended is made up or lost.
def Lossless (msg delimiter : List α) (tokens : List (List α)) : Prop :=
  ∃ fuel appended, tokenizeWide fuel msg tokens delimiter = some (tokens ++ appended)
    ∧ (∀ token ∈ appended, token <:+: msg)
    ∧ delimiter.intercalate appended = strip delimiter msg

theorem findFirstOf_nil (msg : List α) (start : Option Nat) : findFirstOf msg [] start = none := by
  cases start with
  | none => rfl
  | some start => simp [findFirstOf, findFirst]

-- Without a delimiter the loop appends an empty token again and again.
theorem tokenizeWideLoop_nil {fuel start : Nat} (hle : start ≤ msg.length) :
    tokenizeWideLoop msg [] fuel (some start) none tokens = none := by
  induction fuel generalizing start tokens with
  | zero => rfl
  | succ fuel ih =>
    have hnext : start + ((msg.drop start).length + ([] : List α).length) = msg.length := by
      rw [List.length_drop, List.length_nil]
      omega
    unfold tokenizeWideLoop
    rw [if_pos (Or.inr (Option.some_ne_none start)), substr_of_le hle]
    dsimp only [Option.bind_some, Option.map_some, Option.any_some]
    rw [hnext, if_neg (by simp), findFirstOf_nil]
    exact ih (Nat.le_refl _)

theorem not_lossless_nil (hne : msg ≠ []) : ¬Lossless msg [] tokens := by
  rintro ⟨fuel, appended, hrun, -, -⟩
  have hstart : findFirstNotOf msg [] (some 0) = some 0 := by
    obtain ⟨c, msg, rfl⟩ := List.exists_cons_of_ne_nil hne
    simp [findFirstNotOf, findFirst, List.findIdx?_cons]
  unfold tokenizeWide at hrun
  dsimp only at hrun
  rw [hstart, findFirstOf_nil, tokenizeWideLoop_nil (Nat.zero_le _)] at hrun
  contradiction

theorem lossless_nil (delimiter : List α) : Lossless [] delimiter tokens := by
  refine ⟨1, [], ?_, ?_, ?_⟩
  . rw [List.append_nil]
    rfl
  . simp
  . exact strip_nil.symm

-- What comes out does not depend on the fuel.
theorem tokenizeWideLoop_add {fuel : Nat} {lastPos pos : Option Nat} {result : List (List α)}
    (h : tokenizeWideLoop msg delimiter fuel lastPos pos tokens = some result) (more : Nat) :
    tokenizeWideLoop msg delimiter (fuel + more) lastPos pos tokens = some result := by
  induction fuel generalizing lastPos pos tokens with
  | zero => contradiction
  | succ fuel ih =>
    rw [Nat.add_right_comm]
    unfold tokenizeWideLoop at h ⊢
    split at h
    . next hcond =>
      rw [if_pos hcond]
      obtain ⟨var, hvar, h⟩ := Option.bind_eq_some_iff.mp h
      rw [hvar, Option.bind_some]
      dsimp only at *
      split at h
      . next hend =>
        rw [if_pos hend]
        exact h
      . next hend =>
        rw [if_neg hend]
        exact ih h
    . next hcond =>
      rw [if_neg hcond]
      exact h

-- With a delimiter the loop ends in any case.
theorem tokenizeWide_spec (hne : delimiter ≠ []) :
    ∃ appended, tokenizeWide (msg.length + 1) msg tokens delimiter = some (tokens ++ appended)
      ∧ (∀ token ∈ appended, token <:+: msg)
      ∧ (delimiter.intercalate appended = strip delimiter msg ↔ Whole delimiter msg) := by
  unfold tokenizeWide
  dsimp only
  obtain ⟨hnone, hdrop⟩ | ⟨start, hstart, hfound⟩ := findFirstNotOf_cases msg delimiter 0
  . rw [hnone, findFirstOf_none]
    rw [List.drop_zero] at hdrop
    refine ⟨[], ?_, ?_, ?_⟩
    . rw [List.append_nil]
      rfl
    . simp
    . apply eq_strip_iff hne rfl
      rw [hdrop]
      exact iff_of_true rfl .nil
  . have hlt := hfound.lt_length
    obtain ⟨appended, hloop, happended⟩ :=
      @tokenizeWideLoop_spec α msg delimiter tokens _ (msg.length + 1) start hne (by omega) (by omega)
    have hdrop := hfound.drop
    rw [List.drop_zero] at hdrop
    rw [hstart]
    refine ⟨appended, hloop, happended.isInfix, ?_⟩
    apply eq_strip_iff hne
    . obtain ⟨more, hmore⟩ := happended.head
      have hcons := List.drop_eq_getElem_cons hlt
      have hnot := Runs.not_of_dropWhile (hfound.drop.symm.trans hcons)
      rw [hmore, hcons, List.takeWhile_cons_of_pos, List.cons_append, List.dropWhile_cons_of_neg]
      . rw [hnot]
        exact Bool.false_ne_true
      . rw [hnot]
        rfl
    . rw [← hdrop]
      exact happended.iff_whole

/--
The wide `tokenize` ends and loses nothing exactly when there is nothing to split, or when there is a
delimiter and its characters occur only together.
-/
theorem lossless_iff (msg delimiter : List α) (tokens : List (List α)) :
    Lossless msg delimiter tokens ↔ msg = [] ∨ delimiter ≠ [] ∧ Whole delimiter msg := by
  by_cases hmsg : msg = []
  . subst hmsg
    exact iff_of_true (lossless_nil delimiter) (Or.inl rfl)
  . rw [or_iff_right hmsg]
    by_cases hne : delimiter = []
    . subst hne
      exact iff_of_false (not_lossless_nil hmsg) fun h => h.1 rfl
    . obtain ⟨appended, hrun, hinfix, hiff⟩ := @tokenizeWide_spec α msg delimiter tokens _ hne
      rw [and_iff_right hne, ← hiff]
      constructor
      . rintro ⟨fuel, appended', hrun', -, hjoin⟩
        have heq := tokenizeWideLoop_add hrun fuel
        rw [Nat.add_comm, tokenizeWideLoop_add hrun' (msg.length + 1), Option.some_inj,
          List.append_cancel_left_eq] at heq
        rw [← heq]
        exact hjoin
      . exact fun hjoin => ⟨_, appended, hrun, hinfix, hjoin⟩

-- A comma without the blank that the delimiter has behind it: the second part is lost.
theorem exists_not_lossless : ¬Lossless "1,2".toList ", ".toList [] := by
  rintro ⟨fuel, appended, hrun, -, hjoin⟩
  have hend : tokenizeWide (fuel + 2) "1,2".toList [] ", ".toList = some ["1".toList, []] := by
    cases fuel with
    | zero => rfl
    | succ fuel => rfl
  have heq := (tokenizeWideLoop_add hrun 2).symm.trans hend
  injection heq with heq
  rw [List.nil_append] at heq
  have hstrip : strip ", ".toList "1,2".toList = "1,2".toList := strip_of_not_mem (by decide) _
  rw [heq, hstrip] at hjoin
  contradiction

end StringUtil
end Lax
