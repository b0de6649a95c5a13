import WebIdl.Proofs.Lexing.Lexemes

/-!
# Where nothing goes on

No word and no numeral goes on with a character that breaks off, such as a line feed or a control
code, so what follows such a character does not matter to what stands in front of it. Strings and
comments may go on, but what is taken in front of the character is taken without it as well.
-/

namespace WebIdl

open Text Numeral Lexer

/-- The character is in no word and in no numeral. -/
structure Breaks (x : Char) : Prop where
  word : isWordPart x = false
  point : x ≠ '.'
  minus : x ≠ '-'
  plus : x ≠ '+'

namespace Numeral

variable {x : Char}

theorem run_append_of_not {p : Char → Bool} (hx : p x = false) (cs rest : List Char) :
    run p (cs ++ x :: rest) = run p cs := by
  induction cs with
  | nil => simp [run, hx]
  | cons c cs ih =>
    simp only [run, List.cons_append, List.takeWhile_cons] at ih ⊢
    split
    · simp [ih]
    · rfl

theorem drop_run_append_of_not {p : Char → Bool} (hx : p x = false) (cs rest : List Char) :
    (cs ++ x :: rest).drop (run p (cs ++ x :: rest)) = cs.drop (run p cs) ++ x :: rest := by
  rw [run_append_of_not hx, List.drop_append_of_le_length (run_le_length p cs)]

end Numeral

namespace Breaks

variable {x : Char} (hx : Breaks x)
include hx

theorem not_isDigit : x.isDigit = false :=
  not_isDigit_of_not_isWordPart hx.word

theorem not_isOctalDigit : isOctalDigit x = false :=
  not_isOctalDigit_of_not_isWordPart hx.word

theorem not_isHexDigit : isHexDigit x = false :=
  not_isHexDigit_of_not_isWordPart hx.word

theorem ne_of_isWordPart {c : Char} (hc : isWordPart c) : x ≠ c := by
  rintro rfl
  rw [hx.word] at hc
  cases hc

theorem minusLength_append (cs rest : List Char) :
    minusLength (cs ++ x :: rest) = minusLength cs := by
  cases cs with
  | nil => exact minusLength_eq_zero (by rintro _ ⟨⟩; exact hx.minus)
  | cons c cs => unfold minusLength; grind

theorem signLength_append (cs rest : List Char) :
    signLength (cs ++ x :: rest) = signLength cs := by
  have hminus := hx.minus
  have hplus := hx.plus
  cases cs with
  | nil => unfold signLength; grind
  | cons c cs => unfold signLength; grind

theorem exponentLength_append (cs rest : List Char) :
    exponentLength (cs ++ x :: rest) = exponentLength cs := by
  cases cs with
  | nil =>
    exact exponentLength_eq_zero (by
      rintro _ ⟨⟩
      exact ⟨hx.ne_of_isWordPart (by decide), hx.ne_of_isWordPart (by decide)⟩)
  | cons c cs =>
    simp only [List.cons_append, exponentLength, hx.signLength_append,
      List.drop_append_of_le_length (signLength_le cs), run_append_of_not hx.not_isDigit]

theorem decimalLength_append (cs rest : List Char) :
    decimalLength (cs ++ x :: rest) = decimalLength cs := by
  have hwhole := run_append_of_not hx.not_isDigit cs rest
  have hdrop := drop_run_append_of_not hx.not_isDigit cs rest
  rw [hwhole] at hdrop
  simp only [decimalLength, hwhole, hdrop]
  cases hbehind : cs.drop (run Char.isDigit cs) with
  | nil =>
    have hexponent := hx.exponentLength_append [] rest
    have hpoint := hx.point
    rw [List.nil_append] at hexponent ⊢
    grind
  | cons c behind =>
    by_cases hpoint : c = '.'
    · subst hpoint
      have hfraction := run_append_of_not hx.not_isDigit behind rest
      have hexponent := drop_run_append_of_not hx.not_isDigit behind rest
      rw [hfraction] at hexponent
      simp only [List.cons_append, hfraction, hexponent, hx.exponentLength_append]
    · have hexponent := hx.exponentLength_append (c :: behind) rest
      rw [List.cons_append] at hexponent ⊢
      grind

theorem floatLength_append (cs rest : List Char) :
    floatLength (cs ++ x :: rest) = floatLength cs := by
  simp only [floatLength, hx.minusLength_append, hx.decimalLength_append,
    List.drop_append_of_le_length (minusLength_le cs)]

theorem wholeLength_append (cs rest : List Char) :
    wholeLength (cs ++ x :: rest) = wholeLength cs := by
  cases cs with
  | nil =>
    have hdigit := hx.not_isDigit
    have hzero : x ≠ '0' := hx.ne_of_isWordPart (by decide)
    rw [List.nil_append]
    unfold wholeLength
    grind
  | cons c cs =>
    have hdigits := run_append_of_not hx.not_isDigit (c :: cs) rest
    have hoctal := run_append_of_not hx.not_isOctalDigit cs rest
    by_cases hzero : c = '0'
    · subst hzero
      cases cs with
      | nil =>
        have hmark : x ≠ 'x' ∧ x ≠ 'X' :=
          ⟨hx.ne_of_isWordPart (by decide), hx.ne_of_isWordPart (by decide)⟩
        rw [List.nil_append] at hoctal
        rw [List.cons_append, List.nil_append, wholeLength_zero_cons (by rintro _ ⟨⟩; exact hmark),
          hoctal]
        rfl
      | cons d cs =>
        have hhex := run_append_of_not hx.not_isHexDigit cs rest
        simp only [List.cons_append] at hoctal ⊢
        simp only [wholeLength, hhex, hoctal]
    · rw [List.cons_append] at hdigits ⊢
      unfold wholeLength
      grind

theorem integerLength_append (cs rest : List Char) :
    integerLength (cs ++ x :: rest) = integerLength cs := by
  simp only [integerLength, hx.minusLength_append, hx.wholeLength_append,
    List.drop_append_of_le_length (minusLength_le cs)]

theorem identifierLength_append (cs rest : List Char) :
    identifierLength (cs ++ x :: rest) = identifierLength cs := by
  cases cs with
  | nil =>
    have hstart : isWordStart x = false := by
      rw [Bool.eq_false_iff]
      intro hstart
      have hword := isWordPart_of_isWordStart hstart
      rw [hx.word] at hword
      cases hword
    simp [identifierLength, hstart]
  | cons c cs =>
    simp only [List.cons_append, identifierLength, run_append_of_not hx.word]

end Breaks

namespace Lexer

variable {cs more : List Char}

/-- A closed string does not depend on what follows. -/
theorem stringLength_append_of_ne_zero (h : stringLength cs ≠ 0) (more : List Char) :
    stringLength (cs ++ more) = stringLength cs := by
  obtain ⟨body, rest, rfl, hbody, hlength⟩ := exists_body_of_stringLength h
  rw [hlength, List.cons_append, List.append_assoc, List.cons_append]
  exact stringLength_append hbody

/-- A string is closed by the quote that it ends with. -/
theorem stringLength_of_append (h : stringLength (cs ++ more) ≤ cs.length) :
    stringLength cs = stringLength (cs ++ more) := by
  by_cases hzero : stringLength (cs ++ more) = 0
  · rw [hzero]
    by_contra hne
    exact hne (stringLength_append_of_ne_zero hne more ▸ hzero)
  · obtain ⟨body, rest, heq, hbody, hlength⟩ := exists_body_of_stringLength hzero
    rw [hlength] at h ⊢
    have hquoted : '"' :: (body ++ '"' :: rest) = '"' :: (body ++ ['"']) ++ rest := by simp
    have hcs : '"' :: (body ++ ['"']) <+: cs := by
      apply List.prefix_of_prefix_length_le _ (List.prefix_append cs more)
      · simp only [List.length_cons, List.length_append, List.length_nil]
        omega
      · rw [heq, hquoted]
        exact List.prefix_append _ rest
    obtain ⟨behind, rfl⟩ := hcs
    rw [List.cons_append, List.append_assoc]
    exact stringLength_append hbody

/-- An unclosed comment may be closed by what follows, but a closed one stays closed. -/
theorem commentLength_eq_zero_of_append (h : commentLength (cs ++ more) = 0) :
    commentLength cs = 0 := by
  by_contra hne
  unfold commentLength at hne
  split at hne
  · simp [commentLength] at h
  · next tail =>
    cases hend : blockCommentEnd? tail with
    | none => simp [hend] at hne
    | some n =>
      obtain ⟨body, rest, rfl, -, hbody⟩ := eq_of_blockCommentEnd? hend
      have hmore := @blockCommentEnd?_append body (rest ++ more) hbody
      simp [commentLength, hmore] at h
  · exact hne rfl

theorem whitespaceLength_eq_zero_of_append (h : whitespaceLength (cs ++ more) = 0) :
    whitespaceLength cs = 0 := by
  obtain ⟨hhead, hcomment⟩ := whitespaceLength_eq_zero_iff.mp h
  apply whitespaceLength_eq_zero_iff.mpr
  refine ⟨?_, commentLength_eq_zero_of_append hcomment⟩
  intro c hc
  apply hhead
  rw [List.head?_append, Option.mem_def.mp hc]
  rfl

/-- Blanks and comments that are taken in front of a place are taken without what follows it. -/
theorem whitespaceLength_of_append (h : whitespaceLength (cs ++ more) ≤ cs.length) :
    whitespaceLength cs = whitespaceLength (cs ++ more) := by
  obtain ⟨items, rest, hleads⟩ := Trivia.exists_leads (cs ++ more)
  rw [hleads.whitespaceLength_eq] at h ⊢
  have hcs : Trivia.chars items <+: cs := by
    apply List.prefix_of_prefix_length_le _ (List.prefix_append cs more) h
    exact ⟨rest, hleads.eq.symm⟩
  obtain ⟨behind, rfl⟩ := hcs
  have hrest : rest = behind ++ more := by
    have heq := hleads.eq
    rw [List.append_assoc] at heq
    exact (List.append_cancel_left heq).symm
  have hstop : whitespaceLength behind = 0 :=
    whitespaceLength_eq_zero_of_append (hrest ▸ hleads.stop)
  have hclosed : Trivia.Closed items ∨ ∀ c ∈ behind.head?, isLineBreak c := by
    refine hleads.closed.imp_right fun hnil => ?_
    rw [hrest, List.append_eq_nil_iff] at hnil
    simp [hnil.1]
  rw [Trivia.whitespaceLength_chars_append hleads.run hclosed, hstop, Nat.add_zero]

/-- A token in front of a character that breaks off is taken without that character as well. -/
theorem lexeme?_of_append {x : Char} {rest : List Char} {kind : TokenKind} {n : Nat} (hx : Breaks x)
    (h : lexeme? (cs ++ x :: rest) = some (kind, n)) (hn : n ≤ cs.length) :
    lexeme? cs = some (kind, n) := by
  rw [lexeme?_eq, hx.floatLength_append, hx.integerLength_append, hx.identifierLength_append] at h
  rw [lexeme?_eq]
  by_cases hfloat : floatLength cs ≠ 0
  · rwa [if_pos hfloat] at h ⊢
  rw [if_neg hfloat] at h ⊢
  by_cases hinteger : integerLength cs ≠ 0
  · rwa [if_pos hinteger] at h ⊢
  rw [if_neg hinteger] at h ⊢
  by_cases hword : identifierLength cs ≠ 0
  · rwa [if_pos hword] at h ⊢
  rw [if_neg hword] at h ⊢
  by_cases hstring : stringLength (cs ++ x :: rest) ≠ 0
  · rw [if_pos hstring] at h
    obtain ⟨rfl, rfl⟩ := Prod.mk.inj (Option.some.inj h)
    rw [stringLength_of_append hn, if_pos hstring]
  rw [if_neg hstring] at h
  rw [not_not] at hstring
  rw [stringLength_of_append (by rw [hstring]; exact Nat.zero_le _), hstring, if_neg (by simp)]
  by_cases hspace : whitespaceLength (cs ++ x :: rest) ≠ 0
  · rw [if_pos hspace] at h
    obtain ⟨rfl, rfl⟩ := Prod.mk.inj (Option.some.inj h)
    rw [whitespaceLength_of_append hn, if_pos hspace]
  rw [if_neg hspace] at h
  rw [whitespaceLength_eq_zero_of_append (not_not.mp hspace), if_neg (by simp)]
  by_cases hsymbol : symbolLength (cs ++ x :: rest) ≠ 0
  · rw [if_pos hsymbol] at h
    cases cs with
    | nil =>
      obtain ⟨rfl, rfl⟩ := Prod.mk.inj (Option.some.inj h)
      exact absurd (Nat.le_zero.mp hn) hsymbol
    | cons c cs => exact (if_pos hsymbol).trans h
  · rw [if_neg hsymbol] at h
    cases h

section Controls

variable {c : Char}

theorem breaks_of_isControl (h : isControl c) : Breaks c where
  word := by
    rw [Bool.eq_false_iff]
    intro hword
    simp only [isWordPart, Char.isAlphanum, Char.isAlpha, Char.isUpper, Char.isLower, Char.isDigit,
      Bool.or_eq_true, Bool.and_eq_true, decide_eq_true_eq, beq_iff_eq, UInt32.le_iff_toNat_le,
      ge_iff_le] at hword
    change ((((65 ≤ c.toNat ∧ c.toNat ≤ 90) ∨ (97 ≤ c.toNat ∧ c.toNat ≤ 122)) ∨
      (48 ≤ c.toNat ∧ c.toNat ≤ 57)) ∨ c = '_') at hword
    simp only [isControl, Bool.or_eq_true, Bool.and_eq_true, decide_eq_true_eq] at h
    rcases hword with ((hword | hword) | hword) | rfl
    · omega
    · omega
    · omega
    · exact absurd h (by decide)
  point := by
    rintro rfl
    exact absurd h (by decide)
  minus := by
    rintro rfl
    exact absurd h (by decide)
  plus := by
    rintro rfl
    exact absurd h (by decide)

theorem integerLength_ne_zero (h : c.isDigit) (cs : List Char) : integerLength (c :: cs) ≠ 0 := by
  have hminus : minusLength (c :: cs) = 0 := by
    apply minusLength_eq_zero
    rintro _ ⟨⟩ rfl
    exact absurd h (by decide)
  have hwhole : wholeLength (c :: cs) ≠ 0 := by
    by_cases hzero : c = '0'
    · subst hzero
      cases cs with
      | nil => exact Nat.one_ne_zero
      | cons x digits =>
        simp only [wholeLength]
        split <;> omega
    · have hrun : run Char.isDigit (c :: cs) ≠ 0 := by simp [run, h]
      unfold wholeLength
      grind
  simpa [integerLength, hminus] using hwhole

theorem lexeme?_eq_none_iff : lexeme? cs = none ↔
    floatLength cs = 0 ∧ integerLength cs = 0 ∧ identifierLength cs = 0 ∧ stringLength cs = 0 ∧
      whitespaceLength cs = 0 ∧ symbolLength cs = 0 := by
  rw [lexeme?_eq]
  grind

/-- No rule takes a control code that is no blank. All other characters are taken. -/
theorem isControl_of_lexeme?_eq_none (h : lexeme? (c :: cs) = none) :
    isControl c ∧ isBlank c = false := by
  obtain ⟨-, hinteger, hidentifier, -, hspace, hsymbol⟩ := lexeme?_eq_none_iff.mp h
  have hblank : isBlank c = false := (whitespaceLength_eq_zero_iff.mp hspace).1 c rfl
  have hstart : isWordStart c = false := by
    rw [Bool.eq_false_iff]
    intro hstart
    simp [identifierLength, hstart] at hidentifier
  have hdigit : c.isDigit = false := by
    rw [Bool.eq_false_iff]
    intro hdigit
    exact integerLength_ne_zero hdigit cs hinteger
  have hword : isWordPart c = false := by
    simp only [isWordStart, Bool.or_eq_false_iff] at hstart
    simp [isWordPart, Char.isAlphanum, hstart, hdigit]
  have hsymbol : isSymbol c = false := by
    rw [Bool.eq_false_iff]
    intro hother
    simp [symbolLength, hother] at hsymbol
  simp only [isSymbol, hblank, hword, Bool.not_false, Bool.true_and, Bool.not_eq_false'] at hsymbol
  exact ⟨hsymbol, hblank⟩

end Controls

end Lexer

end WebIdl
