import WebIdl.Proofs.Lexing.Tokens

/-!
# Tokens that stand alone

Nothing is lost when a text is cut, and a token is read in the same way without the text around it.
The rules that look ahead hand characters over to other rules, as at an open string, an open
comment or `0x` without digits, so that a lone symbol may be what is left of something longer: it
is still a symbol when nothing follows at all.
-/

namespace WebIdl

open Text Numeral

namespace Lexer

/-- Nothing longer begins with a symbol behind which the text ends. -/
theorem lexeme?_singleton {c : Char} (hc : isSymbol c) : lexeme? [c] = some (.other, 1) := by
  by_cases hpoint : c = '.'
  · subst hpoint
    exact lexeme?_point (by simp)
  by_cases hminus : c = '-'
  · subst hminus
    exact lexeme?_minus (by simp)
  have hdigit := not_isDigit_of_not_isWordPart (not_isWordPart_of_isSymbol hc)
  obtain ⟨hfloat, hinteger⟩ := @numeralLengths_eq_zero c [] hdigit hpoint hminus
  have hstring : stringLength [c] = 0 := by
    unfold stringLength
    split
    · next heq => cases heq; simp
    · rfl
  have hspace : whitespaceLength [c] = 0 :=
    whitespaceLength_eq_zero_iff.mpr
      ⟨by rintro _ ⟨⟩; exact not_isBlank_of_isSymbol hc, by simp [commentLength]⟩
  exact lexeme?_of_isSymbol hc hfloat hinteger hstring hspace

end Lexer

namespace Token

open Lexer

theorem isCut_singleton_iff {t : Token} :
    IsCut [t] ↔ lexeme? t.chars = some (t.kind, t.chars.length) := by
  constructor
  · intro h
    cases h with
    | cons ht _ => simpa using ht
  · intro h
    exact .cons (by simpa using h) .nil

/-- What follows a token has no part in how the token is read. -/
theorem IsCut.alone {t : Token} {ts : List Token} (h : IsCut (t :: ts)) : IsCut [t] := by
  rw [isCut_singleton_iff]
  cases hkind : t.kind with
  | float =>
    have hfloat := lexeme?_float (h.isFloat hkind) stops_nil
    rwa [List.append_nil] at hfloat
  | integer =>
    have hinteger := lexeme?_integer (h.isInteger hkind) stops_nil
    rwa [List.append_nil] at hinteger
  | identifier =>
    have hword := @lexeme?_word _ [] (h.isWord hkind) (by simp)
    rwa [List.append_nil] at hword
  | string =>
    obtain ⟨body, hchars, hbody⟩ := h.exists_body hkind
    rw [hchars, lexeme?_string hbody]
    simp
  | whitespace =>
    obtain ⟨items, hchars, hne, hleads⟩ := h.exists_run hkind
    -- a line comment that comes last would need a line break if any text followed
    have hspace := @Trivia.whitespaceLength_chars_append _ [] hleads.run (Or.inr (by simp))
    rw [List.append_nil, whitespaceLength_nil, Nat.add_zero, ← hchars] at hspace
    have hpos : t.chars.length ≠ 0 := fun h0 => h.chars_ne_nil (List.length_eq_zero_iff.mp h0)
    rw [lexeme?_whitespace (by rwa [hspace]), hspace]
  | other =>
    obtain ⟨c, hchars, hc⟩ := h.exists_symbol hkind
    rw [hchars]
    exact lexeme?_singleton hc

/-- Blanks and comments in a row are one token. -/
theorem IsCut.isChain {ts : List Token} (h : IsCut ts) :
    ts.IsChain fun t u => ¬ (t.isWhitespace ∧ u.isWhitespace) := by
  induction ts with
  | nil => exact .nil
  | cons t ts ih =>
    cases ts with
    | nil => exact .singleton t
    | cons u us =>
      refine .cons_cons ?_ (ih h.tail)
      rintro ⟨ht, hu⟩
      rw [h.not_isWhitespace ht] at hu
      cases hu

theorem IsCut.of_mem {ts : List Token} {t : Token} (h : IsCut ts) (ht : t ∈ ts) : IsCut [t] := by
  obtain ⟨pre, post, rfl⟩ := List.append_of_mem ht
  exact (h.suffix (List.suffix_append pre (t :: post))).alone

end Token

/-- Cutting a text loses nothing, gives no empty token and no two whitespace tokens in a row, and
each of its tokens is the only token of its own text. -/
theorem tokenize_lossless {text : String} {ts : List Token} (h : tokenize text = .ok ts) :
    String.join (ts.map Token.text) = text ∧ (∀ t ∈ ts, t.text ≠ "") ∧
      (ts.IsChain fun t u => ¬ (t.kind = .whitespace ∧ u.kind = .whitespace)) ∧
      ∀ t ∈ ts, tokenize t.text = .ok [t] := by
  obtain ⟨hcut, hsource⟩ := Token.tokenize_eq_ok_iff.mp h
  refine ⟨?_, ?_, ?_, ?_⟩
  · apply String.toList_injective
    rw [← hsource, ← Token.toList_source]
    rfl
  · intro t ht hempty
    apply (hcut.of_mem ht).chars_ne_nil
    simp [Token.chars, hempty]
  · apply hcut.isChain.imp
    intro t u htu
    rwa [Token.isWhitespace_iff, Token.isWhitespace_iff] at htu
  · intro t ht
    exact Token.tokenize_eq_ok_iff.mpr ⟨hcut.of_mem ht, by simp [Token.chars]⟩

/-- A numeral without digits behind its `e` or `x`, an open string and an open comment are each cut
into shorter tokens. -/
theorem tokenize_lossless_fallbacks :
    tokenize "-.5e- 0x\"/*" = .ok
      [⟨.float, "-.5"⟩, ⟨.identifier, "e"⟩, ⟨.other, "-"⟩, ⟨.whitespace, " "⟩, ⟨.integer, "0"⟩,
        ⟨.identifier, "x"⟩, ⟨.other, "\""⟩, ⟨.other, "/"⟩, ⟨.other, "*"⟩] ∧
      tokenize "-" = .ok [⟨.other, "-"⟩] := by
  have h : tokenize "-.5e- 0x\"/*" = .ok
      [⟨.float, "-.5"⟩, ⟨.identifier, "e"⟩, ⟨.other, "-"⟩, ⟨.whitespace, " "⟩, ⟨.integer, "0"⟩,
        ⟨.identifier, "x"⟩, ⟨.other, "\""⟩, ⟨.other, "/"⟩, ⟨.other, "*"⟩] := by
    decide +kernel
  exact ⟨h, (tokenize_lossless h).2.2.2 ⟨.other, "-"⟩ (by decide)⟩

end WebIdl
