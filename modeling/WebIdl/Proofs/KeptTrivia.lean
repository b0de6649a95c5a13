import WebIdl.Proofs.Answers.Rules
import WebIdl.Proofs.Printing.Balance

/-!
# Trivia that is kept

A whitespace token is cut twice: the lexer finds where it ends, and a reader that keeps trivia cuts
it into blanks and comments. Both find the same comments in it, so the pieces are what they seem to
be, and nothing of the token is lost.
-/

namespace WebIdl

open Text Lexer Token

namespace Trivia

def isBlanks : Trivia → Bool
  | whitespace _ => true
  | _ => false

def isLineComment : Trivia → Bool
  | lineComment _ => true
  | _ => false

/-- Blanks with a line break in front. -/
def IsBreak : Trivia → Prop
  | whitespace s => ∃ c ∈ s.toList.head?, c = '\n' ∨ c = '\r'
  | _ => False

/-- What the text of a piece may be. -/
def Proper : Trivia → Prop
  | whitespace s => s ≠ "" ∧ ∀ c ∈ s.toList, c = '\t' ∨ c = '\n' ∨ c = '\r' ∨ c = ' '
  | lineComment s => '\n' ∉ s.toList ∧ '\r' ∉ s.toList
  | blockComment s => ¬ ['*', '/'] <:+: s.toList

/-- What may follow a piece: no blanks behind blanks, and a line break behind a line comment. -/
def Follows (t u : Trivia) : Prop :=
  ¬(t.isBlanks ∧ u.isBlanks) ∧ (t.isLineComment → u.IsBreak)

theorem IsPiece.proper {t : Trivia} (h : t.IsPiece) : t.Proper := by
  cases h with
  | blanks hne hb =>
    constructor
    · rintro rfl
      exact hne rfl
    · intro c hc
      simpa [isBlank, or_assoc] using hb c hc
  | line hs =>
    constructor
    · intro hmem
      exact absurd (hs _ hmem) (by decide)
    · intro hmem
      exact absurd (hs _ hmem) (by decide)
  | block hs => exact hs

/-- A piece begins with the characters of its kind. -/
theorem IsRun.head?_chars {u : Trivia} {items : List Trivia} (h : IsRun (u :: items)) :
    ∃ c ∈ (chars (u :: items)).head?, (u.isBlanks → isBlank c) ∧
      (isLineBreak c → u.IsBreak) := by
  cases h with
  | @blanks s _ hne hb _ _ =>
    obtain ⟨c, cs, hs⟩ := List.exists_cons_of_ne_nil hne
    refine ⟨c, by simp [hs], fun _ => hb c (by simp [hs]), fun hc => ⟨c, by simp [hs], ?_⟩⟩
    simpa [isLineBreak] using hc
  | line => exact ⟨'/', by simp, by simp [isBlanks], by simp [isLineBreak]⟩
  | block => exact ⟨'/', by simp, by simp [isBlanks], by simp [isLineBreak]⟩

theorem IsRun.isChain {items : List Trivia} (h : IsRun items) : items.IsChain Follows := by
  induction items with
  | nil => exact .nil
  | cons t items ih =>
    cases items with
    | nil => exact .singleton t
    | cons u items =>
      refine .cons_cons ?_ (ih h.tail)
      obtain ⟨c, hc, hblank, hbreak⟩ := h.tail.head?_chars
      cases h with
      | blanks _ _ hnext _ =>
        refine ⟨fun hu => ?_, nofun⟩
        rw [hnext c hc] at hblank
        exact absurd (hblank hu.2) (by simp)
      | line _ hnext _ => exact ⟨by simp [isBlanks], fun _ => hbreak (hnext c hc)⟩
      | block _ _ => exact ⟨by simp [isBlanks], nofun⟩

theorem toList_join_text (items : List Trivia) :
    (String.join (items.map text)).toList = chars items := by
  simp only [String.toList_join, chars, List.flatMap_map]

end Trivia

/-- Whitespace tokens of a lexer do not stand in a row. -/
theorem Token.IsCut.lead_eq {t : Token} {ts : List Token} (h : IsCut (t :: ts))
    (ht : t.isWhitespace) : lead (t :: ts) = [t] := by
  cases ts with
  | nil => simp [lead, ht]
  | cons u us => simp [lead, ht, h.not_isWhitespace ht]

/-- In front of a whitespace token of any text, a reader that keeps trivia reads that token and
keeps its pieces: put together they are the token, each of them is what it seems to be, and none of
them could have gone on. -/
theorem trivia_eq_pieces {d : Dialect} {text : String} {c : Cursor} {t : Token}
    {rest : List Token} (hd : d.keepTrivia) (hc : c.tokens = (scan text.toList).1)
    (hafter : c.after = t :: rest) (ht : t.kind = .whitespace) :
    (Grammar.trivia d : Grammar.Reader (List Trivia)) c =
        .ok (Trivia.ofText t.text, ⟨t :: c.before, rest, c.line + t.newlines⟩) ∧
      String.join ((Trivia.ofText t.text).map Trivia.text) = t.text ∧
      (∀ u ∈ Trivia.ofText t.text, u.Proper) ∧ (Trivia.ofText t.text).IsChain Trivia.Follows := by
  have hcut : IsCut (t :: rest) :=
    (hc ▸ (isCut_scan text.toList).1).suffix (hafter ▸ Cursor.after_suffix c)
  obtain ⟨items, hchars, -, hleads⟩ := hcut.exists_run ht
  have hitems : Trivia.ofText t.text = items := by
    rw [Trivia.ofText, show t.text.toList = Trivia.chars items from hchars,
      Trivia.pieces_chars hleads.run]
  have hgap : c.gap = [t] := by
    rw [show c.gap = lead c.after from rfl, hafter, hcut.lead_eq (isWhitespace_iff.mpr ht)]
  have hskip : c.skip = ⟨t :: c.before, rest, c.line + t.newlines⟩ := by
    have hcore := lead_append_core c.after
    rw [show lead c.after = [t] from hgap, hafter, List.singleton_append, List.cons.injEq] at hcore
    rw [Cursor.skip, hgap, show c.after.dropWhile isWhitespace = core c.after from rfl, hafter,
      hcore.2]
    rfl
  refine ⟨?_, ?_, ?_, ?_⟩
  · show Except.ok (if d.keepTrivia then Trivia.ofText (source c.gap) else [], c.skip) = _
    rw [if_pos hd, hgap, hskip]
    simp [source]
  · rw [hitems]
    apply String.toList_injective
    rw [Trivia.toList_join_text]
    exact hchars.symm
  · rw [hitems]
    exact fun u hu => (hleads.run.isPiece u hu).proper
  · rw [hitems]
    exact hleads.run.isChain

/-- A comment that looks closed too early, comments with nothing between them, and a line comment
that ends at a carriage return. -/
theorem trivia_eq_pieces_abutting :
    ∃ t, (scan "a\t/*/ //*/// /*\r\n/**///\x00/*".toList).1 = [word "a", t] ∧
      (Grammar.trivia { keepTrivia := true } : Grammar.Reader (List Trivia))
          ⟨[word "a"], [t], 1⟩ =
        .ok ([.whitespace "\t", .blockComment "/ //", .lineComment " /*", .whitespace "\r\n",
          .blockComment "", .lineComment "\x00/*"], ⟨[t, word "a"], [], 2⟩) ∧
      String.join ((Trivia.ofText t.text).map Trivia.text) = t.text := by
  have hscan : (scan "a\t/*/ //*/// /*\r\n/**///\x00/*".toList).1 =
      [word "a", blank "\t/*/ //*/// /*\r\n/**///\x00/*"] := by
    decide +kernel
  obtain ⟨hread, hjoin, -⟩ := @trivia_eq_pieces { keepTrivia := true } _ ⟨[word "a"], _, 1⟩ _ [] rfl
    (by rw [hscan]; rfl) rfl rfl
  have hpieces : Trivia.ofText "\t/*/ //*/// /*\r\n/**///\x00/*" =
      [.whitespace "\t", .blockComment "/ //", .lineComment " /*", .whitespace "\r\n",
        .blockComment "", .lineComment "\x00/*"] := by
    decide +kernel
  refine ⟨_, hscan, ?_, hjoin⟩
  rw [← hpieces]
  exact hread

end WebIdl
