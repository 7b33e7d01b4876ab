import Linkage.Token.Scan

/-!
# Linkage.Proofs.Token.Ahead

What a token begins with decides how long it is, and nothing beyond the first white space after it
matters.

* `Breaks` — the end of a source, or white space and what comes after it.
* `run_take_append`, `fractionLength_take_append`, `exponentLength_take_append` — the parts of a
  token are found in any text that has them and breaks off after them or later.
* `munch_take_append` — so is the whole token.
-/

namespace Linkage
namespace Token

/-! ## White space -/

theorem isAlpha_iff {c : Char} : c.isAlpha = true ↔
    (65 ≤ c.toNat ∧ c.toNat ≤ 90) ∨ (97 ≤ c.toNat ∧ c.toNat ≤ 122) := by
  change (decide (c.val ≥ 'A'.val ∧ c.val ≤ 'Z'.val) ||
    (decide (c.val ≥ 'a'.val) && decide (c.val ≤ 'z'.val))) = true ↔ _
  rw [Bool.or_eq_true, Bool.and_eq_true, decide_eq_true_eq, decide_eq_true_eq, decide_eq_true_eq]
  rfl

theorem isDigit_iff {c : Char} : c.isDigit = true ↔ 48 ≤ c.toNat ∧ c.toNat ≤ 57 := by
  change (decide (c.val ≥ '0'.val) && decide (c.val ≤ '9'.val)) = true ↔ _
  rw [Bool.and_eq_true, decide_eq_true_eq, decide_eq_true_eq]
  rfl

theorem isIdentContinue_of_blank {c : Char} (h : Text.isBlankChar c = true) :
    isIdentContinue c = false := by
  rw [Bool.eq_false_iff]
  intro hword
  simp only [isIdentContinue, Char.isAlphanum, Bool.or_eq_true, isAlpha_iff, isDigit_iff,
    beq_iff_eq] at hword
  simp only [Text.isBlankChar, Text.blankRanges, List.any_cons, List.any_nil, Bool.or_eq_true,
    Bool.and_eq_true, decide_eq_true_eq, Bool.or_false] at h
  rcases hword with hword | rfl
  · omega
  · exact absurd h (by decide)

theorem isIdentStart_of_blank {c : Char} (h : Text.isBlankChar c = true) :
    isIdentStart c = false := by
  have hword := isIdentContinue_of_blank h
  simp only [isIdentContinue, Char.isAlphanum, Bool.or_eq_false_iff] at hword
  simp only [isIdentStart, hword, Bool.or_false]

theorem isDigit_of_blank {c : Char} (h : Text.isBlankChar c = true) : c.isDigit = false := by
  have hword := isIdentContinue_of_blank h
  simp only [isIdentContinue, Char.isAlphanum, Bool.or_eq_false_iff] at hword
  exact hword.1.2

/-- The end of a source, or white space and what comes after it. -/
def Breaks (es : List Char) : Prop := ∀ c, es.head? = some c → Text.isBlankChar c = true

theorem breaks_nil : Breaks [] := nofun

theorem breaks_cons {c : Char} (h : Text.isBlankChar c = true) (es : List Char) :
    Breaks (c :: es) := by
  rintro d ⟨⟩
  exact h

theorem Breaks.head_ne {es : List Char} (hes : Breaks es) {d : Char}
    (hd : Text.isBlankChar d = false) : es.head? ≠ some d := fun heq => by
  rw [hes d heq] at hd
  cases hd

/-- What comes first, if it is no white space, came first before. -/
theorem head_of_take_append {es : List Char} (hes : Breaks es) {cs : List Char} {m : Nat} {d : Char}
    (hd : Text.isBlankChar d = false) (h : (cs.take m ++ es).head? = some d) :
    cs.head? = some d := by
  cases cs with
  | nil =>
    rw [List.take_nil] at h
    exact absurd h (hes.head_ne hd)
  | cons c cs =>
    cases m with
    | zero => exact absurd h (hes.head_ne hd)
    | succ m => exact h

section

variable {es : List Char} (hes : Breaks es)

/-! ## Runs -/

theorem run_le (test : Char → Bool) (cs : List Char) : run test cs ≤ cs.length :=
  (List.takeWhile_prefix test).length_le

include hes in
theorem Breaks.takeWhile_eq_nil {test : Char → Bool}
    (htest : ∀ c, Text.isBlankChar c = true → test c = false) : es.takeWhile test = [] := by
  cases es with
  | nil => rfl
  | cons e es => exact List.takeWhile_cons_of_neg (by simp [htest e (hes e rfl)])

include hes in
theorem takeWhile_take_append {test : Char → Bool}
    (htest : ∀ c, Text.isBlankChar c = true → test c = false) {cs : List Char} {m : Nat} :
    run test cs ≤ m → (cs.take m ++ es).takeWhile test = cs.takeWhile test := by
  have hbreak := hes.takeWhile_eq_nil htest
  induction cs generalizing m with
  | nil =>
    intro _
    rw [List.take_nil]
    exact hbreak
  | cons c cs ih =>
    cases hc : test c with
    | false =>
      intro _
      rw [List.takeWhile_cons_of_neg (by simp [hc])]
      cases m with
      | zero => exact hbreak
      | succ m => exact List.takeWhile_cons_of_neg (by simp [hc])
    | true =>
      rw [run, List.takeWhile_cons_of_pos hc]
      intro hm
      cases m with
      | zero => cases hm
      | succ m =>
        rw [List.take_succ_cons, List.cons_append, List.takeWhile_cons_of_pos hc,
          ih (Nat.le_of_succ_le_succ hm)]

include hes in
theorem run_take_append {test : Char → Bool}
    (htest : ∀ c, Text.isBlankChar c = true → test c = false) {cs : List Char} {m : Nat}
    (hm : run test cs ≤ m) : run test (cs.take m ++ es) = run test cs :=
  congrArg List.length (takeWhile_take_append hes htest hm)

/-! ## Comments and strings -/

theorem commentLength_le {cs : List Char} {n : Nat} :
    commentLength cs = some n → n ≤ cs.length := by
  fun_induction commentLength cs generalizing n with
  | case1 cs =>
    rintro ⟨⟩
    simp
  | case2 d cs hopen ih =>
    intro h
    obtain ⟨m, hm, rfl⟩ := Option.map_eq_some_iff.1 h
    exact Nat.succ_le_succ (ih hm)
  | case3 => exact nofun

theorem stringLength_le (cs : List Char) : (stringLength cs).1 ≤ cs.length := by
  fun_induction stringLength cs with
  | case6 => simp
  | case7 d cs hd m closed hm ih =>
    rw [hm] at ih
    exact Nat.succ_le_succ (Nat.succ_le_succ ih)
  | case8 d cs hquote hfeed hreturn hlast hescape m closed hm ih =>
    rw [hm] at ih
    exact Nat.succ_le_succ ih
  | _ => simp

/-- What follows the closing quote does not matter. -/
theorem stringLength_take_append (es : List Char) {cs : List Char} {n m : Nat} :
    stringLength cs = (n, true) → n ≤ m → stringLength (cs.take m ++ es) = (n, true) := by
  fun_induction stringLength cs generalizing n m with
  | case1 => exact nofun
  | case2 =>
    rintro ⟨⟩ hm
    obtain ⟨m, rfl⟩ := Nat.exists_eq_add_of_le' hm
    rfl
  | case3 => exact nofun
  | case4 => exact nofun
  | case5 => exact nofun
  | case6 => exact nofun
  | case7 d cs hd k closed hk ih =>
    rintro ⟨⟩ hm
    obtain ⟨m, rfl⟩ := Nat.exists_eq_add_of_le' (Nat.le_of_add_left_le hm)
    rw [List.take_succ_cons, List.take_succ_cons, List.cons_append, List.cons_append, stringLength,
      if_neg hd, ih hk (Nat.le_of_add_le_add_right hm)]
  | case8 d cs hquote hfeed hreturn hlast hescape k closed hk ih =>
    rintro ⟨⟩ hm
    obtain ⟨m, rfl⟩ := Nat.exists_eq_add_of_le' (Nat.le_of_add_left_le hm)
    have hplain : d ≠ '\\' := by
      rintro rfl
      cases cs with
      | nil => exact hlast rfl rfl
      | cons e cs => exact hescape e cs rfl rfl
    rw [List.take_succ_cons, List.cons_append, stringLength,
      ih hk (Nat.le_of_add_le_add_right hm)]
    · exact hquote
    · exact hfeed
    · exact hreturn
    · exact fun h _ => hplain h
    · exact fun _ _ h _ => hplain h

/-! ## Numbers -/

theorem fractionLength_le (cs : List Char) : fractionLength cs ≤ cs.length := by
  fun_cases fractionLength cs with
  | case1 c cs =>
    have := run_le Char.isDigit cs
    simp only [List.length_cons]
    omega
  | case2 => exact Nat.zero_le _
  | case3 => exact Nat.zero_le _

/-- The length of some digits with the `marks` characters that only count before a digit. -/
def counted (marks digits : Nat) : Nat := if digits = 0 then 0 else marks + digits

theorem le_of_counted_le {marks digits m : Nat} (h : counted marks digits ≤ marks + m) :
    digits ≤ m := by
  unfold counted at h
  split at h <;> omega

theorem counted_eq_zero {marks digits m : Nat} (h : counted marks digits ≤ m) (hm : m < marks) :
    counted marks digits = 0 := by
  unfold counted at h ⊢
  split at h
  · rw [if_pos ‹_›]
  · omega

theorem run_digits_cons (c : Char) (cs : List Char) :
    run Char.isDigit (c :: cs) = if c.isDigit then 1 + run Char.isDigit cs else 0 := by
  unfold run
  rw [List.takeWhile_cons]
  split
  · rw [List.length_cons, Nat.add_comm]
  · rfl

theorem counted_cons (marks : Nat) (c : Char) (cs : List Char) :
    counted marks (run Char.isDigit (c :: cs)) =
      if c.isDigit then marks + 1 + run Char.isDigit cs else 0 := by
  rw [run_digits_cons, counted]
  split
  · rw [if_neg (by omega), Nat.add_assoc]
  · rfl

theorem fractionLength_point (cs : List Char) :
    fractionLength ('.' :: cs) = counted 1 (run Char.isDigit cs) := by
  cases cs with
  | nil => rfl
  | cons c cs => exact (counted_cons 1 c cs).symm

theorem fractionLength_of_head {cs : List Char} (h : cs.head? ≠ some '.') :
    fractionLength cs = 0 := by
  unfold fractionLength
  split
  · exact absurd rfl h
  · rfl

include hes in
theorem run_digits_take_append {cs : List Char} {m : Nat} (hm : run Char.isDigit cs ≤ m) :
    run Char.isDigit (cs.take m ++ es) = run Char.isDigit cs :=
  run_take_append hes (fun _ => isDigit_of_blank) hm

include hes in
theorem fractionLength_take_append {cs : List Char} {m : Nat} (hm : fractionLength cs ≤ m) :
    fractionLength (cs.take m ++ es) = fractionLength cs := by
  by_cases hpoint : cs.head? = some '.'
  · obtain ⟨ds, rfl⟩ := List.head?_eq_some_iff.1 hpoint
    rw [fractionLength_point] at hm ⊢
    cases m with
    | zero =>
      rw [counted_eq_zero hm (by decide)]
      exact fractionLength_of_head (hes.head_ne rfl)
    | succ m =>
      rw [List.take_succ_cons, List.cons_append, fractionLength_point,
        run_digits_take_append hes (le_of_counted_le (Nat.add_comm m 1 ▸ hm))]
  · rw [fractionLength_of_head hpoint,
      fractionLength_of_head (mt (head_of_take_append hes rfl) hpoint)]

theorem exponentLength_le (cs : List Char) : exponentLength cs ≤ cs.length := by
  fun_cases exponentLength cs with
  | case1 e c cs =>
    have := run_le Char.isDigit cs
    simp only [List.length_cons]
    omega
  | case2 e c _ _ _ d ds =>
    have := run_le Char.isDigit ds
    simp only [List.length_cons]
    omega
  | _ => exact Nat.zero_le _

theorem exponentLength_of_head {cs : List Char}
    (h : ∀ e, cs.head? = some e → ¬ (e = 'e' ∨ e = 'E')) : exponentLength cs = 0 := by
  unfold exponentLength
  split
  · rw [if_neg (h _ rfl)]
  · rfl

theorem exponentLength_sign {e c : Char} (he : e = 'e' ∨ e = 'E') (hc : c = '+' ∨ c = '-')
    (cs : List Char) : exponentLength (e :: c :: cs) = counted 2 (run Char.isDigit cs) := by
  have hdigit : ¬ c.isDigit = true := by
    rcases hc with rfl | rfl <;> decide
  simp only [exponentLength, if_pos he, if_neg hdigit, if_pos hc]
  cases cs with
  | nil => rfl
  | cons d ds => exact (counted_cons 2 d ds).symm

theorem exponentLength_digits {e : Char} (he : e = 'e' ∨ e = 'E') {cs : List Char}
    (h : ∀ c, cs.head? = some c → ¬ (c = '+' ∨ c = '-')) :
    exponentLength (e :: cs) = counted 1 (run Char.isDigit cs) := by
  cases cs with
  | nil => rfl
  | cons c cs =>
    rw [counted_cons]
    simp only [exponentLength, if_pos he, if_neg (h c rfl)]

include hes in
theorem exponentLength_take_append {cs : List Char} {m : Nat} (hm : exponentLength cs ≤ m) :
    exponentLength (cs.take m ++ es) = exponentLength cs := by
  have hmark {e : Char} (he : e = 'e' ∨ e = 'E') : Text.isBlankChar e = false := by
    rcases he with rfl | rfl <;> decide
  have hsign {c : Char} (hc : c = '+' ∨ c = '-') : Text.isBlankChar c = false := by
    rcases hc with rfl | rfl <;> decide
  have hnone : exponentLength es = 0 :=
    exponentLength_of_head fun e h he => hes.head_ne (hmark he) h
  by_cases he : ∃ e, cs.head? = some e ∧ (e = 'e' ∨ e = 'E')
  · obtain ⟨e, hhead, he⟩ := he
    obtain ⟨ds, rfl⟩ := List.head?_eq_some_iff.1 hhead
    by_cases hc : ∃ c, ds.head? = some c ∧ (c = '+' ∨ c = '-')
    · obtain ⟨c, hhead', hc⟩ := hc
      obtain ⟨ds, rfl⟩ := List.head?_eq_some_iff.1 hhead'
      rw [exponentLength_sign he hc] at hm ⊢
      match m with
      | 0 =>
        rw [counted_eq_zero hm (by decide)]
        exact hnone
      | 1 =>
        have hdigits : run Char.isDigit es = 0 :=
          congrArg List.length (hes.takeWhile_eq_nil fun _ => isDigit_of_blank)
        rw [counted_eq_zero hm (by decide), List.take_succ_cons, List.take_zero, List.cons_append,
          List.nil_append, exponentLength_digits he fun c h hc => hes.head_ne (hsign hc) h, hdigits]
        rfl
      | m + 2 =>
        rw [List.take_succ_cons, List.take_succ_cons, List.cons_append, List.cons_append,
          exponentLength_sign he hc,
          run_digits_take_append hes (le_of_counted_le (Nat.add_comm m 2 ▸ hm))]
    · rw [exponentLength_digits he fun c h h' => hc ⟨c, h, h'⟩] at hm ⊢
      cases m with
      | zero =>
        rw [counted_eq_zero hm (by decide)]
        exact hnone
      | succ m =>
        rw [List.take_succ_cons, List.cons_append,
          exponentLength_digits he fun c h h' => hc ⟨c, head_of_take_append hes (hsign h') h, h'⟩,
          run_digits_take_append hes (le_of_counted_le (Nat.add_comm m 1 ▸ hm))]
  · rw [exponentLength_of_head fun e h h' => he ⟨e, h, h'⟩,
      exponentLength_of_head fun e h h' => he ⟨e, head_of_take_append hes (hmark h') h, h'⟩]

/-- The letters directly after a number. -/
def suffix : List Char → List Char
  | d :: ds => if isIdentStart d then (d :: ds).takeWhile isIdentContinue else []
  | [] => []

theorem suffix_le (cs : List Char) : (suffix cs).length ≤ cs.length := by
  fun_cases suffix cs with
  | case1 d ds => exact (List.takeWhile_prefix isIdentContinue).length_le
  | case2 => exact Nat.zero_le _
  | case3 => exact Nat.le_refl 0

include hes in
theorem suffix_take_append {cs : List Char} {m : Nat} (hm : (suffix cs).length ≤ m) :
    suffix (cs.take m ++ es) = suffix cs := by
  have hnone : suffix es = [] := by
    cases es with
    | nil => rfl
    | cons e es => rw [suffix, if_neg (by simp [isIdentStart_of_blank (hes e rfl)])]
  cases cs with
  | nil =>
    rw [List.take_nil]
    exact hnone
  | cons d ds =>
    cases m with
    | zero =>
      rw [List.length_eq_zero_iff.1 (Nat.le_zero.1 hm)]
      exact hnone
    | succ m =>
      rw [List.take_succ_cons, List.cons_append]
      simp only [suffix] at hm ⊢
      split at hm
      · rename_i hstart
        rw [if_pos hstart, if_pos hstart]
        exact takeWhile_take_append hes (fun _ => isIdentContinue_of_blank) hm
      · rename_i hstart
        rw [if_neg hstart, if_neg hstart]

/-- The lengths of the whole part, of the fraction and of the exponent of a number. -/
def partLengths (cs : List Char) : Nat × Nat × Nat :=
  let whole := run Char.isDigit cs
  let fraction := fractionLength (cs.drop whole)
  (whole, fraction, exponentLength (cs.drop (whole + fraction)))

/-- The length of all three together. -/
def numberLength (cs : List Char) : Nat :=
  (partLengths cs).1 + (partLengths cs).2.1 + (partLengths cs).2.2

theorem numberLength_le (cs : List Char) : numberLength cs ≤ cs.length := by
  have hwhole := run_le Char.isDigit cs
  have hfraction := fractionLength_le (cs.drop (run Char.isDigit cs))
  have hexponent := exponentLength_le
    (cs.drop (run Char.isDigit cs + fractionLength (cs.drop (run Char.isDigit cs))))
  rw [List.length_drop] at hfraction hexponent
  simp only [numberLength, partLengths]
  omega

theorem drop_take_append {α : Type} {cs es : List α} {k m : Nat} (hk : k ≤ cs.length)
    (hm : k ≤ m) : (cs.take m ++ es).drop k = (cs.drop k).take (m - k) ++ es := by
  rw [List.drop_append_of_le_length (by rw [List.length_take]; omega), List.drop_take]

include hes in
theorem partLengths_take_append {cs : List Char} {m : Nat}
    (hm : numberLength cs ≤ m) :
    partLengths (cs.take m ++ es) = partLengths cs := by
  have hle := numberLength_le cs
  simp only [numberLength, partLengths] at hm hle ⊢
  rw [run_digits_take_append hes (by omega), drop_take_append (by omega) (by omega),
    fractionLength_take_append hes (by omega), drop_take_append (by omega) (by omega),
    exponentLength_take_append hes (by omega)]

theorem munchNumber_eq (c : Char) (cs : List Char) :
    munchNumber c cs =
      let parts := partLengths cs
      let length := numberLength cs
      let letters := suffix (cs.drop length)
      if letters ≠ [] then
        (.error (.numberSuffix (String.ofList letters)), length + letters.length)
      else if parts.2.1 + parts.2.2 ≠ 0 then (.token .floatLiteral, length)
      else if Decimal.toNat (c :: cs.take parts.1) < 0x8000000000000000 then
        (.token .intLiteral, length)
      else (.error .integerTooLarge, length) := rfl

theorem munchNumber_snd (c : Char) (cs : List Char) :
    (munchNumber c cs).2 =
      numberLength cs + (suffix (cs.drop (numberLength cs))).length := by
  rw [munchNumber_eq]
  dsimp only
  split
  · rfl
  · rename_i hletters
    rw [Decidable.not_not.1 hletters, List.length_nil, Nat.add_zero]
    split
    · rfl
    · split
      · rfl
      · rfl

theorem munchNumber_le (c : Char) (cs : List Char) : (munchNumber c cs).2 ≤ cs.length := by
  have hletters := suffix_le (cs.drop (numberLength cs))
  have hparts := numberLength_le cs
  rw [List.length_drop] at hletters
  rw [munchNumber_snd]
  omega

include hes in
theorem munchNumber_take_append {c : Char} {cs : List Char} {m : Nat}
    (hm : (munchNumber c cs).2 ≤ m) : munchNumber c (cs.take m ++ es) = munchNumber c cs := by
  have hparts := numberLength_le cs
  rw [munchNumber_snd] at hm
  have hsame : partLengths (cs.take m ++ es) = partLengths cs :=
    partLengths_take_append hes (by omega)
  have hlength : numberLength (cs.take m ++ es) = numberLength cs := by
    rw [numberLength, hsame, numberLength]
  have hwhole : (partLengths cs).1 ≤ numberLength cs := by
    rw [numberLength]
    omega
  rw [munchNumber_eq, munchNumber_eq, hsame, hlength]
  dsimp only
  rw [drop_take_append hparts (by omega), suffix_take_append hes (by omega),
    List.take_append_of_le_length (by rw [List.length_take]; omega), List.take_take,
    Nat.min_eq_left (by omega)]

/-! ## Tokens -/

theorem munch_le (c : Char) (cs : List Char) : (munch c cs).2 ≤ cs.length := by
  fun_cases munch c cs with
  | case1 => exact run_le _ cs
  | case2 hline hopen n hn =>
    cases cs with
    | nil => cases hopen.2
    | cons d cs => exact Nat.succ_le_succ (commentLength_le hn)
  | case3 => exact Nat.le_refl _
  | case4 hline hblock hquote n closed hn =>
    have hle := stringLength_le cs
    rwa [hn] at hle
  | case5 => exact munchNumber_le c cs
  | case6 => exact run_le _ cs
  | case7 => exact Nat.zero_le _
  | case8 => exact Nat.zero_le _

include hes in
/-- A token is found in any text that has it and breaks off after it or later. -/
theorem munch_take_append {c : Char} {cs : List Char} {kind : Kind} {m : Nat} :
    (munch c cs).1 = .token kind → (munch c cs).2 ≤ m →
      munch c (cs.take m ++ es) = munch c cs := by
  have hhead {d : Char} (hd : Text.isBlankChar d = false)
      (h : ¬ (c = '/' ∧ cs.head? = some d)) : ¬ (c = '/' ∧ (cs.take m ++ es).head? = some d) :=
    fun h' => h (h'.imp_right (head_of_take_append hes hd))
  fun_cases munch c cs with
  | case1 => exact nofun
  | case2 => exact nofun
  | case3 => exact nofun
  | case4 hline hblock hquote n closed hn =>
    intro htoken hm
    cases closed with
    | false => cases htoken
    | true =>
      rw [munch, if_neg (hhead rfl hline), if_neg (hhead rfl hblock), if_pos hquote,
        stringLength_take_append es hn hm]
  | case5 hline hblock hquote hdigit =>
    intro _ hm
    rw [munch, if_neg (hhead rfl hline), if_neg (hhead rfl hblock), if_neg hquote, if_pos hdigit]
    exact munchNumber_take_append hes hm
  | case6 hline hblock hquote hdigit hstart n word =>
    intro _ hm
    rw [munch, if_neg (hhead rfl hline), if_neg (hhead rfl hblock), if_neg hquote, if_neg hdigit,
      if_pos hstart, run_take_append hes (fun _ => isIdentContinue_of_blank) hm]
    dsimp only
    have hle : n ≤ (cs.take m).length := by
      rw [List.length_take]
      exact Nat.le_min.2 ⟨hm, run_le _ _⟩
    rw [List.take_append_of_le_length hle, List.take_take, Nat.min_eq_left hm]
  | case7 hline hblock hquote hdigit hstart kind hkind =>
    intro _ _
    rw [munch, if_neg (hhead rfl hline), if_neg (hhead rfl hblock), if_neg hquote, if_neg hdigit,
      if_neg hstart, hkind]
  | case8 => exact nofun

end

end Token
end Linkage
