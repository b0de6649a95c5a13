import Mathlib.Data.List.DropRight
import WebIdl.Proofs.Lexing.Tokens

/-!
# Where tokenizing fails

Strings and comments may hold any character, and whether a quote or a comment is open is told by
what follows. Nevertheless the lexer stops at control codes alone, the text in front of that place
can be cut by itself, and the place is told by that text.
-/

namespace WebIdl

open Text Lexer

/-- A control code that is no tab, line feed or carriage return. -/
def IsStray (c : Char) : Prop :=
  isControl c ∧ c ≠ '\t' ∧ c ≠ '\n' ∧ c ≠ '\r'

instance (c : Char) : Decidable (IsStray c) :=
  inferInstanceAs (Decidable (_ ∧ _))

theorem isStray_of_not_isBlank {c : Char} (hc : isControl c) (hb : isBlank c = false) :
    IsStray c := by
  refine ⟨hc, ?_, ?_, ?_⟩ <;>
    rintro rfl <;> exact absurd hb (by decide)

namespace Text

theorem utf8ByteSize_ofList (cs : List Char) : (String.ofList cs).utf8ByteSize = utf8Size cs := by
  induction cs with
  | nil => rfl
  | cons c cs ih =>
    rw [String.ofList_cons, String.utf8ByteSize_append, String.utf8ByteSize_singleton, ih, utf8Size]

end Text

namespace Position

/-- The place right behind a text. Bytes are counted from zero, lines and columns from one, and a
column is one character of the last line, which begins behind the last line feed. -/
structure Behind (p : Position) (pre : String) : Prop where
  offset : p.offset = pre.utf8ByteSize
  line : p.line = 1 + pre.toList.count '\n'
  column : ∃ above last, pre.toList = above ++ last ∧ (∀ c ∈ above.getLast?, c = '\n') ∧
    '\n' ∉ last ∧ p.column = 1 + last.length

/-- The last line is what is read from the end up to a line feed. -/
theorem behind_after (cs : List Char) : (after cs).Behind (String.ofList cs) where
  offset := (utf8ByteSize_ofList cs).symm
  line := by rw [String.toList_ofList]; rfl
  column := by
    refine ⟨cs.rdropWhile (· != '\n'), cs.rtakeWhile (· != '\n'), ?_, ?_, ?_, ?_⟩
    · rw [String.toList_ofList, List.rdropWhile_append_rtakeWhile]
    · intro c hc
      obtain ⟨hne, rfl⟩ := List.mem_getLast?_eq_getLast hc
      simpa using List.rdropWhile_last_not (· != '\n') cs hne
    · intro hmem
      simpa using List.mem_rtakeWhile_imp hmem
    · simp [after, List.rtakeWhile]

end Position

/-- A failing text is tokens up to a character that no rule takes, and the place of the failure is
read off those tokens. -/
theorem scan_of_tokenize_error {text : String} {e : LexError} (h : tokenize text = .error e) :
    ∃ ts post, scan text.toList = (ts, e.char :: post) ∧
      e.position = Position.after (Token.sourceChars ts) := by
  unfold tokenize at h
  split at h
  · cases h
  · next ts c post heq =>
    cases h
    exact ⟨ts, post, heq, by rw [Token.toList_source]⟩

/-- What stands in front of the failing character is cut as it was cut with that character. -/
theorem exists_split_of_tokenize_error {text : String} {e : LexError}
    (h : tokenize text = .error e) :
    ∃ pre post, text = pre ++ String.singleton e.char ++ post ∧ IsStray e.char ∧
      (∃ ts, tokenize pre = .ok ts) ∧ e.position.Behind pre := by
  obtain ⟨ts, post, hscan, hposition⟩ := scan_of_tokenize_error h
  obtain ⟨hcut, hsource, hnone⟩ := Token.isCut_scan text.toList
  rw [hscan] at hcut hsource hnone
  obtain ⟨hcontrol, hblank⟩ := isControl_of_lexeme?_eq_none hnone
  refine ⟨String.ofList (Token.sourceChars ts), String.ofList post, ?_,
    isStray_of_not_isBlank hcontrol hblank, ⟨ts, ?_⟩, ?_⟩
  · apply String.toList_injective
    simpa using hsource.symm
  · exact Token.tokenize_eq_ok_iff.mpr ⟨hcut, String.toList_ofList.symm⟩
  · rw [hposition]
    exact Position.behind_after _

/-- Tokenizing fails on a stray control code only, and tells its place: the text in front of it can
be cut, and the place is the one behind that text. A text without stray control codes can be cut. -/
theorem tokenize_stops_at_stray (text : String) :
    (∀ e, tokenize text = .error e →
      ∃ pre post, text = pre ++ String.singleton e.char ++ post ∧ IsStray e.char ∧
        (∃ ts, tokenize pre = .ok ts) ∧ e.position.Behind pre) ∧
      ((∀ c ∈ text.toList, ¬ IsStray c) → ∃ ts, tokenize text = .ok ts) := by
  refine ⟨fun e => exists_split_of_tokenize_error, ?_⟩
  intro hclean
  cases htokens : tokenize text with
  | ok ts => exact ⟨ts, rfl⟩
  | error e =>
    obtain ⟨pre, post, rfl, hstray, -⟩ := exists_split_of_tokenize_error htokens
    exact absurd hstray (hclean e.char (by simp))

/-- Control codes in a closed string or comment are taken. Behind an open quote one is not. -/
theorem tokenize_stops_at_stray_open_quote :
    (∃ pre post, "\"\x01\"/*\x02*/\né \"\x00/" = pre ++ String.singleton '\x00' ++ post ∧
      (∃ ts, tokenize pre = .ok ts) ∧ pre.utf8ByteSize = 13) ∧
      ∃ ts, tokenize "\t\r\n\"/*0x" = .ok ts := by
  have hfails : tokenize "\"\x01\"/*\x02*/\né \"\x00/" = .error ⟨'\x00', ⟨13, 2, 4⟩⟩ := by
    decide +kernel
  obtain ⟨pre, post, htext, -, htokens, hplace⟩ := (tokenize_stops_at_stray _).1 _ hfails
  exact ⟨⟨pre, post, htext, htokens, hplace.offset.symm⟩,
    (tokenize_stops_at_stray _).2 (by simp [IsStray, isControl])⟩

end WebIdl
