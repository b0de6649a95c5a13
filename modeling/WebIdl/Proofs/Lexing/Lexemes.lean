import WebIdl.Proofs.Lexing.Gaps
import WebIdl.Token.Tokenize

/-!
# Lexemes

Which texts are tokens, and behind which of them the lexer stops. `IsCut` is said of the token
lists that the lexer gives: each token is what is taken at its place in the text of the list.
-/

namespace WebIdl.Lexer

open Text Numeral

/-- A word starts with a letter or an underscore. -/
inductive IsWord : List Char → Prop
  | intro {c : Char} {cs : List Char} (hc : isWordStart c) (hcs : ∀ d ∈ cs, isWordPart d) :
      IsWord (c :: cs)

instance (cs : List Char) : Decidable (IsWord cs) :=
  match cs with
  | [] => isFalse fun h => nomatch h
  | c :: cs =>
    decidable_of_iff (isWordStart c ∧ cs.all isWordPart)
      ⟨fun h => .intro h.1 (List.all_eq_true.mp h.2),
        fun | .intro hc hcs => ⟨hc, List.all_eq_true.mpr hcs⟩⟩

/-- The kinds that have no place where another comes first. -/
theorem lexeme?_eq (cs : List Char) :
    lexeme? cs =
      if floatLength cs ≠ 0 then some (.float, floatLength cs)
      else if integerLength cs ≠ 0 then some (.integer, integerLength cs)
      else if identifierLength cs ≠ 0 then some (.identifier, identifierLength cs)
      else if stringLength cs ≠ 0 then some (.string, stringLength cs)
      else if whitespaceLength cs ≠ 0 then some (.whitespace, whitespaceLength cs)
      else if symbolLength cs ≠ 0 then some (.other, symbolLength cs)
      else none := by
  simp only [lexeme?, rules, List.findSome?]
  grind

theorem isWordPart_of_isWordStart {c : Char} (h : isWordStart c) : isWordPart c := by
  simp only [isWordStart, Bool.or_eq_true] at h
  simp only [isWordPart, Char.isAlphanum, Bool.or_eq_true]
  rcases h with h | h
  · exact Or.inl (Or.inl h)
  · exact Or.inr h

theorem not_isDigit_of_isWordStart {c : Char} (h : isWordStart c) : c.isDigit = false := by
  rw [Bool.eq_false_iff]
  intro hd
  simp only [Char.isDigit, Bool.and_eq_true, decide_eq_true_eq, ge_iff_le] at hd
  simp only [isWordStart, Char.isAlpha, Char.isUpper, Char.isLower, Bool.or_eq_true,
    Bool.and_eq_true, decide_eq_true_eq, beq_iff_eq, ge_iff_le] at h
  rcases h with (h | h) | h
  · exact absurd (UInt32.le_trans h.1 hd.2) (by decide)
  · exact absurd (UInt32.le_trans h.1 hd.2) (by decide)
  · subst h
    exact absurd hd (by decide)

theorem numeralLengths_eq_zero {c : Char} {cs : List Char} (hd : c.isDigit = false) (hp : c ≠ '.')
    (hm : c ≠ '-') : floatLength (c :: cs) = 0 ∧ integerLength (c :: cs) = 0 :=
  ⟨floatLength_eq_zero_of_head (by rintro _ ⟨⟩; exact ⟨hd, hp, hm⟩),
    integerLength_eq_zero_of_head (by rintro _ ⟨⟩; exact ⟨hd, hm⟩)⟩

theorem lexeme?_word {w rest : List Char} (hw : IsWord w)
    (hr : ∀ c ∈ rest.head?, isWordPart c = false) :
    lexeme? (w ++ rest) = some (.identifier, w.length) := by
  obtain ⟨hc, hcs⟩ := hw
  rename_i c cs
  have hnum : floatLength (c :: (cs ++ rest)) = 0 ∧ integerLength (c :: (cs ++ rest)) = 0 := by
    refine numeralLengths_eq_zero (not_isDigit_of_isWordStart hc) ?_ ?_ <;>
      rintro rfl <;> exact absurd hc (by decide)
  have hlen : identifierLength (c :: (cs ++ rest)) = (c :: cs).length := by
    simp only [identifierLength, if_pos hc, run_append_stop hcs hr, List.length_cons]
    omega
  rw [List.cons_append, lexeme?_eq]
  simp [hnum.1, hnum.2, hlen]

theorem lexeme?_float {cs rest : List Char} (h : IsFloat cs) (hr : Stops rest) :
    lexeme? (cs ++ rest) = some (.float, cs.length) := by
  rw [lexeme?_eq, floatLength_append h hr]
  simp [h.ne_nil]

theorem lexeme?_integer {cs rest : List Char} (h : IsInteger cs) (hr : Stops rest) :
    lexeme? (cs ++ rest) = some (.integer, cs.length) := by
  rw [lexeme?_eq, floatLength_integer_append h hr, integerLength_append h hr]
  simp [h.ne_nil]

theorem stringLength_append {body rest : List Char} (h : '"' ∉ body) :
    stringLength ('"' :: (body ++ '"' :: rest)) = body.length + 2 := by
  have hrun : run (· != '"') (body ++ '"' :: rest) = body.length :=
    run_append_stop (fun c hc => bne_iff_ne.mpr fun he => h (he ▸ hc)) (by simp)
  simp only [stringLength, hrun]
  simp

theorem lexeme?_string {body rest : List Char} (h : '"' ∉ body) :
    lexeme? ('"' :: (body ++ '"' :: rest)) = some (.string, body.length + 2) := by
  have hnum := @numeralLengths_eq_zero '"' (body ++ '"' :: rest)
    (by decide) (by decide) (by decide)
  have hword : identifierLength ('"' :: (body ++ '"' :: rest)) = 0 := by
    simp [identifierLength, isWordStart]
  rw [lexeme?_eq, hnum.1, hnum.2, hword, stringLength_append h]
  simp

theorem lexeme?_whitespace {cs : List Char} (h : whitespaceLength cs ≠ 0) :
    lexeme? cs = some (.whitespace, whitespaceLength cs) := by
  cases cs with
  | nil => simp at h
  | cons c cs =>
    have hc : isBlank c ∨ c = '/' := by
      by_cases hb : isBlank c
      · exact Or.inl hb
      · refine Or.inr (Classical.byContradiction fun hs => h ?_)
        refine whitespaceLength_eq_zero_iff.mpr ⟨by simpa using hb, ?_⟩
        unfold commentLength
        split
        · next heq => cases heq; exact absurd rfl hs
        · next heq => cases heq; exact absurd rfl hs
        · rfl
    have hkind : c.isDigit = false ∧ c ≠ '.' ∧ c ≠ '-' ∧ isWordStart c = false ∧ c ≠ '"' := by
      rcases hc with hb | rfl
      · simp only [isBlank, Bool.or_eq_true, beq_iff_eq] at hb
        rcases hb with ((rfl | rfl) | rfl) | rfl <;> decide
      · decide
    obtain ⟨hd, hp, hm, hw, hq⟩ := hkind
    have hnum := @numeralLengths_eq_zero _ cs hd hp hm
    have hword : identifierLength (c :: cs) = 0 := by simp [identifierLength, hw]
    have hstring : stringLength (c :: cs) = 0 := by
      unfold stringLength
      split
      · next heq => cases heq; exact absurd rfl hq
      · rfl
    rw [lexeme?_eq, hnum.1, hnum.2, hword, hstring]
    simp [h]

/-- A symbol that may begin nothing longer. -/
def IsMark (c : Char) : Prop :=
  isSymbol c ∧ c ≠ '.' ∧ c ≠ '-' ∧ c ≠ '/' ∧ c ≠ '"'

instance (c : Char) : Decidable (IsMark c) :=
  inferInstanceAs (Decidable (_ ∧ _))

theorem not_isWordPart_of_isSymbol {c : Char} (h : isSymbol c) : isWordPart c = false := by
  simp only [isSymbol, Bool.and_eq_true, Bool.not_eq_true'] at h
  exact h.1.2

theorem not_isBlank_of_isSymbol {c : Char} (h : isSymbol c) : isBlank c = false := by
  simp only [isSymbol, Bool.and_eq_true, Bool.not_eq_true'] at h
  exact h.1.1

/-- A symbol is a token where nothing longer begins with it. -/
theorem lexeme?_of_isSymbol {c : Char} {rest : List Char} (hc : isSymbol c)
    (hf : floatLength (c :: rest) = 0) (hi : integerLength (c :: rest) = 0)
    (hs : stringLength (c :: rest) = 0) (hw : whitespaceLength (c :: rest) = 0) :
    lexeme? (c :: rest) = some (.other, 1) := by
  have hword : identifierLength (c :: rest) = 0 := by
    have hstart : isWordStart c ≠ true := by
      intro h
      have hpart := not_isWordPart_of_isSymbol hc
      rw [isWordPart_of_isWordStart h] at hpart
      cases hpart
    simp [identifierLength, hstart]
  rw [lexeme?_eq, hf, hi, hword, hs, hw]
  simp [symbolLength, hc]

theorem lexeme?_symbol {c : Char} {rest : List Char} (hc : isSymbol c)
    (hf : floatLength (c :: rest) = 0) (hi : integerLength (c :: rest) = 0) (hs : c ≠ '/')
    (hq : c ≠ '"') : lexeme? (c :: rest) = some (.other, 1) := by
  have hstring : stringLength (c :: rest) = 0 := by
    unfold stringLength
    split
    · next heq => cases heq; exact absurd rfl hq
    · rfl
  exact lexeme?_of_isSymbol hc hf hi hstring
    (whitespaceLength_eq_zero_of_head (by rintro _ ⟨⟩; exact ⟨not_isBlank_of_isSymbol hc, hs⟩))

theorem lexeme?_mark {c : Char} {rest : List Char} (h : IsMark c) :
    lexeme? (c :: rest) = some (.other, 1) := by
  obtain ⟨hc, hp, hm, hs, hq⟩ := h
  have hd := not_isDigit_of_not_isWordPart (not_isWordPart_of_isSymbol hc)
  have hnum := @numeralLengths_eq_zero _ rest hd hp hm
  exact lexeme?_symbol hc hnum.1 hnum.2 hs hq

theorem lexeme?_point {rest : List Char} (h : ∀ c ∈ rest.head?, c.isDigit = false) :
    lexeme? ('.' :: rest) = some (.other, 1) := by
  refine lexeme?_symbol (by decide) ?_ ?_ (by decide) (by decide)
  · have hrun : run Char.isDigit rest = 0 := run_eq_zero h
    have hdec : decimalLength ('.' :: rest) = 0 := by
      have h0 : run Char.isDigit ('.' :: rest) = 0 := by simp [run]
      simp only [decimalLength, h0, List.drop_zero, hrun, and_self, if_true]
    simp [floatLength, minusLength, hdec]
  · exact integerLength_eq_zero_of_head (by rintro _ ⟨⟩; decide)

theorem lexeme?_minus {rest : List Char} (h : ∀ c ∈ rest.head?, c.isDigit = false ∧ c ≠ '.') :
    lexeme? ('-' :: rest) = some (.other, 1) := by
  refine lexeme?_symbol (by decide) ?_ ?_ (by decide) (by decide)
  · have hrun : run Char.isDigit rest = 0 := run_eq_zero fun c hc => (h c hc).1
    have hdec : decimalLength rest = 0 := by
      simp only [decimalLength, hrun, List.drop_zero]
      split
      · exact absurd rfl (h '.' rfl).2
      · simp
    simp [floatLength, minusLength, hdec]
  · have hwhole : wholeLength rest = 0 := by
      unfold wholeLength
      split
      · simpa using (h '0' rfl).1
      · next d ds _ => simp [(h d rfl).1]
      · rfl
    simp [integerLength, minusLength, hwhole]

/-- What a token of each kind looks like, where the lexer takes `n` characters of a text. -/
inductive Taken (cs : List Char) : TokenKind → Nat → Prop
  | float {n : Nat} (h : IsFloat (cs.take n)) (hn : n ≤ cs.length) : Taken cs .float n
  | integer {n : Nat} (h : IsInteger (cs.take n)) (hn : n ≤ cs.length) : Taken cs .integer n
  | identifier {n : Nat} (h : IsWord (cs.take n)) (hn : n ≤ cs.length) : Taken cs .identifier n
  | string {body rest : List Char} (h : '"' ∉ body) (heq : cs = '"' :: (body ++ '"' :: rest)) :
      Taken cs .string (body.length + 2)
  | whitespace {items : List Trivia} {rest : List Char} (h : Trivia.Leads items rest cs)
      (hne : items ≠ []) : Taken cs .whitespace (Trivia.chars items).length
  | other {c : Char} {rest : List Char} (h : isSymbol c) (heq : cs = c :: rest) : Taken cs .other 1

theorem isWord_take {cs : List Char} (h : identifierLength cs ≠ 0) :
    IsWord (cs.take (identifierLength cs)) ∧ identifierLength cs ≤ cs.length := by
  cases cs with
  | nil => simp [identifierLength] at h
  | cons c cs =>
    have hle := run_le_length isWordPart cs
    simp only [identifierLength] at h ⊢
    split at h
    · next hc =>
      rw [if_pos hc, Nat.add_comm, List.take_succ_cons]
      exact ⟨.intro hc (take_run_all _ _), by simp only [List.length_cons]; omega⟩
    · simp at h

theorem exists_body_of_stringLength {cs : List Char} (h : stringLength cs ≠ 0) :
    ∃ body rest, cs = '"' :: (body ++ '"' :: rest) ∧ '"' ∉ body ∧
      stringLength cs = body.length + 2 := by
  unfold stringLength at h ⊢
  split at h
  · next tail =>
    by_cases hlt : run (· != '"') tail < tail.length
    · have hsplit := List.takeWhile_append_dropWhile (p := (· != '"')) (l := tail)
      have hhead := @dropWhile_head (· != '"') tail
      cases hd : tail.dropWhile (· != '"') with
      | nil =>
        have := congrArg List.length hsplit
        rw [hd] at this
        simp [run] at this hlt
        omega
      | cons q rest =>
        rw [hd] at hsplit hhead
        obtain rfl : q = '"' := by simpa using hhead q rfl
        refine ⟨tail.takeWhile (· != '"'), rest, by rw [hsplit], ?_, by rw [if_pos hlt]; rfl⟩
        intro hmem
        simpa using List.all_eq_true.mp List.all_takeWhile _ hmem
    · simp [hlt] at h
  · simp at h

theorem taken_of_lexeme? {cs : List Char} {kind : TokenKind} {n : Nat}
    (h : lexeme? cs = some (kind, n)) : Taken cs kind n := by
  rw [lexeme?_eq] at h
  split at h
  · next hf =>
    cases h
    exact .float (isFloat_take hf) (floatLength_le cs)
  · split at h
    · next hi =>
      cases h
      exact .integer (isInteger_take hi) (integerLength_le cs)
    · split at h
      · next hw =>
        cases h
        exact .identifier (isWord_take hw).1 (isWord_take hw).2
      · split at h
        · next hs =>
          cases h
          obtain ⟨body, rest, heq, hbody, hlen⟩ := exists_body_of_stringLength hs
          rw [hlen]
          exact .string hbody heq
        · split at h
          · next hb =>
            cases h
            obtain ⟨items, rest, hl⟩ := Trivia.exists_leads cs
            rw [hl.whitespaceLength_eq] at hb ⊢
            exact .whitespace hl (by rintro rfl; simp at hb)
          · split at h
            · next hs =>
              cases h
              cases cs with
              | nil => simp [symbolLength] at hs
              | cons c rest =>
                by_cases hc : isSymbol c
                · simp only [symbolLength, if_pos hc]
                  exact .other hc rfl
                · simp [symbolLength, hc] at hs
            · cases h

theorem Taken.le_length {cs : List Char} {kind : TokenKind} {n : Nat} (h : Taken cs kind n) :
    n ≤ cs.length := by
  cases h with
  | float _ hn => exact hn
  | integer _ hn => exact hn
  | identifier _ hn => exact hn
  | string _ heq => simp [heq]
  | whitespace h _ => simp [h.eq]
  | other _ heq => simp [heq]

end WebIdl.Lexer
