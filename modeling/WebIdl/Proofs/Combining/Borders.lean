import WebIdl.Proofs.Combining.Programs
import WebIdl.Proofs.Lexing.Breaks

/-!
# Texts joined at a line feed

Behind a line feed the lexer starts afresh: no word, numeral or string goes on there, a line comment
is ended, and of blanks and comments only one run is made. A quote or a slash that stands alone may
begin a string or a comment once more text follows, but those the grammar has no use for.
-/

namespace WebIdl.Lexer

open Text Numeral

theorem breaks_lineFeed : Breaks '\n' where
  word := by decide
  point := by decide
  minus := by decide
  plus := by decide

/-- What is no whitespace is cut alike if a line feed and more text follow. -/
theorem lexeme?_append_lineFeed {cs rest : List Char} {kind : TokenKind} {n : Nat}
    (h : lexeme? cs = some (kind, n)) (hblank : kind ≠ .whitespace)
    (hother : kind = .other → ∀ c ∈ cs.head?, c ≠ '/' ∧ c ≠ '"') :
    lexeme? (cs ++ '\n' :: rest) = some (kind, n) := by
  rw [lexeme?_eq] at h ⊢
  rw [breaks_lineFeed.floatLength_append, breaks_lineFeed.integerLength_append,
    breaks_lineFeed.identifierLength_append]
  by_cases hfloat : floatLength cs ≠ 0
  · rwa [if_pos hfloat] at h ⊢
  rw [if_neg hfloat] at h ⊢
  by_cases hinteger : integerLength cs ≠ 0
  · rwa [if_pos hinteger] at h ⊢
  rw [if_neg hinteger] at h ⊢
  by_cases hword : identifierLength cs ≠ 0
  · rwa [if_pos hword] at h ⊢
  rw [if_neg hword] at h ⊢
  by_cases hstring : stringLength cs ≠ 0
  · rw [stringLength_append_of_ne_zero hstring]
    rwa [if_pos hstring] at h ⊢
  rw [if_neg hstring] at h
  by_cases hspace : whitespaceLength cs ≠ 0
  · rw [if_pos hspace] at h
    exact absurd (Prod.mk.inj (Option.some.inj h)).1.symm hblank
  rw [if_neg hspace] at h
  by_cases hsymbol : symbolLength cs ≠ 0
  · rw [if_pos hsymbol] at h
    cases cs with
    | nil => exact absurd rfl hsymbol
    | cons c cs =>
      obtain ⟨rfl, rfl⟩ := Prod.mk.inj (Option.some.inj h)
      obtain ⟨hslash, hquote⟩ := hother rfl c rfl
      have hnoblank : isBlank c = false :=
        (whitespaceLength_eq_zero_iff.mp (not_not.mp hspace)).1 c rfl
      have hstring' : stringLength (c :: cs ++ '\n' :: rest) = 0 := by
        unfold stringLength
        split
        · next heq => exact absurd (List.cons.inj heq).1 hquote
        · rfl
      have hspace' : whitespaceLength (c :: cs ++ '\n' :: rest) = 0 := by
        refine whitespaceLength_eq_zero_of_head ?_
        rintro _ ⟨⟩
        exact ⟨hnoblank, hslash⟩
      rw [hstring', hspace', List.cons_append]
      exact if_pos hsymbol
  · rw [if_neg hsymbol] at h
    cases h

theorem kind_of_slash {cs : List Char} {kind : TokenKind} {n : Nat}
    (h : lexeme? ('/' :: cs) = some (kind, n)) : kind = .whitespace ∨ kind = .other := by
  have hnumeral := @numeralLengths_eq_zero '/' cs (by decide) (by decide) (by decide)
  have hword : identifierLength ('/' :: cs) = 0 := by simp [identifierLength, isWordStart]
  have hstring : stringLength ('/' :: cs) = 0 := rfl
  rw [lexeme?_eq, hnumeral.1, hnumeral.2, hword, hstring] at h
  grind

end WebIdl.Lexer

namespace WebIdl

open Text Lexer

/-- A separator that keeps texts apart: blanks that begin with a line feed. -/
structure IsBorder (s : String) : Prop where
  head : s.toList.head? = some '\n'
  blank : ∀ c ∈ s.toList, isBlank c

namespace Token

/-- A mark of the grammar begins neither a comment nor a string. -/
theorem Known.char_ne {t : Token} (h : Known t) (hkind : t.kind = .other) :
    ∀ c ∈ t.chars.head?, c ≠ '/' ∧ c ≠ '"' := by
  have hmarks : ∀ m ∈ grammarMarks, m.toList.head? ≠ some '/' ∧ m.toList.head? ≠ some '"' := by
    decide
  obtain ⟨hslash, hquote⟩ := hmarks t.text (h hkind)
  intro c hc
  refine ⟨?_, ?_⟩
  · rintro rfl
    exact hslash hc
  · rintro rfl
    exact hquote hc

/-- No comment begins with a token of the grammar. -/
theorem IsCut.head?_ne_slash {t : Token} {ts : List Token} (h : IsCut (t :: ts))
    (ht : t.isWhitespace = false) (hknown : Known t) :
    (sourceChars (t :: ts)).head? ≠ some '/' := by
  intro hhead
  rw [sourceChars_cons, List.head?_append_of_ne_nil _ h.chars_ne_nil] at hhead
  obtain ⟨cs, hcs⟩ := List.head?_eq_some_iff.mp hhead
  cases h with
  | cons hlexeme _ =>
    rw [hcs, List.cons_append] at hlexeme
    rcases kind_of_slash hlexeme with hkind | hkind
    · simp [isWhitespace, hkind] at ht
    · exact (hknown.char_ne hkind '/' hhead).1 rfl

theorem IsCut.whitespaceLength_eq {ts : List Token} (h : IsCut ts) :
    whitespaceLength (sourceChars ts) = (sourceChars (lead ts)).length := by
  cases ts with
  | nil => rw [sourceChars_nil, whitespaceLength_nil]; rfl
  | cons t ts =>
    cases ht : t.isWhitespace with
    | true =>
      obtain ⟨items, hchars, -, hleads⟩ := h.exists_run (isWhitespace_iff.mp ht)
      have hlead : lead (t :: ts) = [t] := by
        cases ts with
        | nil => simp [lead, ht]
        | cons u us => simp [lead, ht, h.not_isWhitespace ht]
      rw [sourceChars_cons, hleads.whitespaceLength_eq, hlead]
      simp [hchars]
    | false =>
      cases h with
      | cons hlexeme _ =>
        have hzero : whitespaceLength (t.chars ++ sourceChars ts) = 0 := by
          by_contra hne
          rw [lexeme?_whitespace hne] at hlexeme
          have hkind := (Prod.mk.inj (Option.some.inj hlexeme)).1
          simp [isWhitespace, ← hkind] at ht
        rw [sourceChars_cons, hzero]
        simp [lead, ht]

theorem sourceChars_border (cs : List Char) (us : List Token) :
    sourceChars (blank (String.ofList (cs ++ sourceChars (lead us))) :: core us) =
      cs ++ sourceChars us := by
  conv_rhs => rw [← lead_append_core us, sourceChars_append]
  simp [chars, blank]

/-- The blanks at the end of one text, the separator and the blanks at the start of the other text
are one token. -/
theorem isCut_border {items : List Trivia} {s : String} {us : List Token}
    (hitems : Trivia.IsRun items) (hs : IsBorder s) (hus : IsCut us) :
    IsCut (blank (String.ofList (Trivia.chars items ++ s.toList ++ sourceChars (lead us))) ::
      core us) := by
  have hbreak : ∀ c ∈ (s.toList ++ sourceChars us).head?, isLineBreak c := by
    rw [List.head?_append, hs.head]
    rintro _ ⟨⟩
    rfl
  have hlength : whitespaceLength (Trivia.chars items ++ s.toList ++ sourceChars us) =
      (Trivia.chars items ++ s.toList ++ sourceChars (lead us)).length := by
    rw [List.append_assoc, Trivia.whitespaceLength_chars_append hitems (.inr hbreak),
      whitespaceLength_blanks_append hs.blank, hus.whitespaceLength_eq]
    simp
  refine .cons ?_ (hus.suffix (core_suffix us))
  rw [← sourceChars_cons, sourceChars_border, lexeme?_whitespace, hlength]
  · simp [chars, blank]
  · rw [hlength]
    have hne : s.toList ≠ [] := by
      intro hnil
      have hhead := hs.head
      rw [hnil] at hhead
      cases hhead
    simp [hne]

/-- Two texts joined at a line feed are cut into the tokens of the one and those of the other, with
a single run of blanks between them. -/
theorem exists_isCut_append {ts us : List Token} {s : String} (hts : IsCut ts)
    (hknown : ∀ t ∈ ts, Known t) (hs : IsBorder s) (hus : IsCut us) :
    ∃ vs, IsCut vs ∧ sourceChars vs = sourceChars ts ++ s.toList ++ sourceChars us ∧
      ∀ p, bonds p vs = bonds p (ts ++ blank s :: us) := by
  induction ts with
  | nil =>
    refine ⟨_, isCut_border .nil hs hus, ?_, fun p => ?_⟩
    · rw [sourceChars_border]
      rfl
    · rw [bonds_cons_of_blank rfl, bonds_none_core]
      exact (bonds_cons_of_blank rfl).symm
  | cons t ts ih =>
    obtain ⟨vs, hcut, hsource, hbonds⟩ := ih hts.tail fun u hu => hknown u (.tail t hu)
    cases ht : t.isWhitespace with
    | false =>
      refine ⟨t :: vs, .cons ?_ hcut, by simp [hsource], fun p => ?_⟩
      · obtain ⟨cs, hcs⟩ := List.head?_eq_some_iff.mp hs.head
        cases hts with
        | cons hlexeme _ =>
          rw [hsource, hcs, List.append_assoc, ← List.append_assoc]
          refine lexeme?_append_lineFeed hlexeme (by simpa [isWhitespace] using ht) fun hother => ?_
          have hne : t.chars ≠ [] := (IsCut.cons hlexeme ‹_›).chars_ne_nil
          rw [List.head?_append_of_ne_nil _ hne]
          exact (hknown t List.mem_cons_self).char_ne hother
      · rw [List.cons_append, bonds_cons_of_solid ht, bonds_cons_of_solid ht, hbonds]
    | true =>
      obtain ⟨items, hchars, -, hleads⟩ := hts.exists_run (isWhitespace_iff.mp ht)
      cases ts with
      | nil =>
        refine ⟨_, isCut_border hleads.run hs hus, ?_, fun p => ?_⟩
        · rw [sourceChars_border, ← hchars]
          simp
        · rw [bonds_cons_of_blank rfl, bonds_none_core, List.cons_append, bonds_cons_of_blank ht]
          exact (bonds_cons_of_blank rfl).symm
      | cons u ts =>
        refine ⟨t :: vs, .cons ?_ hcut, by simp [hsource], fun p => ?_⟩
        · have hu := hts.not_isWhitespace ht
          have hne := hts.tail.chars_ne_nil
          have hrest : sourceChars (u :: ts) ≠ [] := by simp [hne]
          have hstop : whitespaceLength (sourceChars vs) = 0 := by
            refine whitespaceLength_eq_zero_of_head ?_
            rw [hsource, List.append_assoc, List.head?_append_of_ne_nil _ hrest]
            refine fun c hc => ⟨(whitespaceLength_eq_zero_iff.mp hleads.stop).1 c hc, ?_⟩
            rintro rfl
            exact hts.tail.head?_ne_slash hu (hknown u (by simp)) hc
          have hlength : whitespaceLength (t.chars ++ sourceChars vs) = t.chars.length := by
            rw [hchars, Trivia.whitespaceLength_chars_append hleads.run
              (.inl (hleads.closed.resolve_right hrest)), hstop, Nat.add_zero]
          rw [lexeme?_whitespace (by simpa [hlength] using hts.chars_ne_nil), hlength,
            isWhitespace_iff.mp ht]
        · rw [List.cons_append, bonds_cons_of_blank ht, bonds_cons_of_blank ht, hbonds]

end Token

end WebIdl
