import WebIdl.Proofs.Lexing.Tokens
import WebIdl.Spelling

/-!
# Written token lists

A written list keeps every piece of trivia in a token of its own, where the lexer puts a whole run
into one. `spaced` looks at a list without that difference: the blanks at its start, and then its
other tokens, each with the blanks behind it. A list is `Lexable` if its text is cut into tokens
that look the same and no two pieces of it are blanks in a row. The rules below build lexable lists
from their ends.
-/

namespace WebIdl.Spelling

@[simp] theorem trivia_nil : trivia [] = [] := rfl

@[simp] theorem trivia_cons (t : Trivia) (items : List Trivia) :
    trivia (t :: items) = t.token :: trivia items := rfl

end WebIdl.Spelling

namespace WebIdl

/-- A name as it stands in a tree: one word, without an escape mark. -/
structure IsName (s : String) : Prop where
  isWord : Lexer.IsWord s.toList
  unescaped : s.toList.head? ≠ some '_'

instance (s : String) : Decidable (IsName s) :=
  decidable_of_iff (Lexer.IsWord s.toList ∧ s.toList.head? ≠ some '_')
    ⟨fun h => ⟨h.1, h.2⟩, fun h => ⟨h.isWord, h.unescaped⟩⟩

end WebIdl

namespace WebIdl.Token

open Text Numeral Lexer

/-- The blanks at the start, and each other token with the blanks behind it. -/
def spaced : List Token → List Char × List (Token × List Char)
  | [] => ([], [])
  | t :: ts =>
    if t.isWhitespace then (t.chars ++ (spaced ts).1, (spaced ts).2)
    else ([], (t, (spaced ts).1) :: (spaced ts).2)

theorem spaced_cons_of_solid {t : Token} {ts : List Token} (h : t.isWhitespace = false) :
    spaced (t :: ts) = ([], (t, (spaced ts).1) :: (spaced ts).2) := by
  simp [spaced, h]

theorem spaced_cons_of_blank {t : Token} {ts : List Token} (h : t.isWhitespace) :
    spaced (t :: ts) = (t.chars ++ (spaced ts).1, (spaced ts).2) := by
  simp [spaced, h]

theorem spaced_append_congr (ts : List Token) {us vs : List Token} (h : spaced us = spaced vs) :
    spaced (ts ++ us) = spaced (ts ++ vs) := by
  induction ts with
  | nil => exact h
  | cons t ts ih => simp only [List.cons_append, spaced, ih]

theorem map_fst_spaced (ts : List Token) : (spaced ts).2.map Prod.fst = solids ts := by
  induction ts with
  | nil => rfl
  | cons t ts ih =>
    by_cases h : t.isWhitespace
    · rw [spaced_cons_of_blank h, solids_cons_of_blank h, ih]
    · rw [Bool.not_eq_true] at h
      rw [spaced_cons_of_solid h, solids_cons_of_solid h, List.map_cons, ih]

theorem spaced_fst (ts : List Token) : (spaced ts).1 = sourceChars (lead ts) := by
  induction ts with
  | nil => rfl
  | cons t ts ih =>
    by_cases h : t.isWhitespace
    · rw [spaced_cons_of_blank h]
      simp [lead, h]
      exact ih
    · rw [Bool.not_eq_true] at h
      rw [spaced_cons_of_solid h]
      simp [lead, h]

theorem spaced_core (ts : List Token) : spaced (core ts) = ([], (spaced ts).2) := by
  induction ts with
  | nil => rfl
  | cons t ts ih =>
    by_cases h : t.isWhitespace
    · rw [core_cons_of_blank h, spaced_cons_of_blank h, ih]
    · rw [Bool.not_eq_true] at h
      rw [core_cons_of_solid h, spaced_cons_of_solid h]

theorem solids_eq_of_spaced_eq {ts us : List Token} (h : spaced ts = spaced us) :
    solids ts = solids us := by
  rw [← map_fst_spaced, ← map_fst_spaced, h]

theorem sourceChars_eq_spaced (ts : List Token) :
    sourceChars ts = (spaced ts).1 ++ (spaced ts).2.flatMap fun p => p.1.chars ++ p.2 := by
  induction ts with
  | nil => rfl
  | cons t ts ih =>
    by_cases h : t.isWhitespace
    · rw [spaced_cons_of_blank h, sourceChars_cons, ih, List.append_assoc]
    · rw [Bool.not_eq_true] at h
      rw [spaced_cons_of_solid h, sourceChars_cons, ih]
      simp

theorem sourceChars_eq_of_spaced_eq {ts us : List Token} (h : spaced ts = spaced us) :
    sourceChars ts = sourceChars us := by
  rw [sourceChars_eq_spaced, sourceChars_eq_spaced, h]

/-- No whitespace stands right in front of a point. -/
def Tight : List Token → Prop
  | t :: u :: ts => (t.isWhitespace → u ≠ mark ".") ∧ Tight (u :: ts)
  | _ => True

theorem Tight.tail {t : Token} {ts : List Token} (h : Tight (t :: ts)) : Tight ts := by
  cases ts with
  | nil => trivial
  | cons u us => exact h.2

theorem Tight.suffix {ts us : List Token} (h : Tight ts) (hs : us <:+ ts) : Tight us := by
  obtain ⟨pre, rfl⟩ := hs
  induction pre with
  | nil => exact h
  | cons t pre ih => exact ih h.tail

theorem Tight.cons {t : Token} {ts : List Token} (h : Tight ts)
    (ht : t.isWhitespace → ts.head? ≠ some (mark ".")) : Tight (t :: ts) := by
  cases ts with
  | nil => trivial
  | cons u us => exact ⟨fun hb he => ht hb (by simp [he]), h⟩

/-- A point that comes next in spite of blanks stands right here. -/
theorem Tight.head_eq {ts us : List Token} (h : Tight ts) (hs : solids ts = mark "." :: us) :
    (core ts).head? = some (mark ".") ∧ (∀ t ∈ ts.head?, t.isWhitespace → False) := by
  have hhead : (core ts).head? = some (mark ".") := by rw [head?_core, hs]; rfl
  refine ⟨hhead, ?_⟩
  induction ts with
  | nil => simp
  | cons t ts ih =>
    rintro _ ⟨⟩ hb
    rw [core_cons_of_blank hb] at hhead
    rw [solids_cons_of_blank hb] at hs
    have hnot := ih h.tail hs hhead
    cases ts with
    | nil => simp at hhead
    | cons u us =>
      have hu : u.isWhitespace = false := by
        rw [Bool.eq_false_iff]
        exact fun hu => hnot u rfl hu
      rw [core_cons_of_solid hu] at hhead
      simp only [List.head?_cons, Option.some.injEq] at hhead
      exact h.1 hb hhead

/-- A token of blanks. -/
def isBlanks (t : Token) : Bool :=
  t.isWhitespace && t.chars.head?.any isBlank

/-- Blanks are not written in two pieces. -/
def Parted : List Token → Prop
  | t :: u :: ts => (t.isBlanks → u.isBlanks = false) ∧ Parted (u :: ts)
  | _ => True

theorem parted_cons {t : Token} {ts : List Token} :
    Parted (t :: ts) ↔ (t.isBlanks → ∀ u ∈ ts.head?, u.isBlanks = false) ∧ Parted ts := by
  cases ts with
  | nil => simp [Parted]
  | cons u us => simp [Parted]

/-- The text of the list is cut into tokens that look like the list. -/
def Lexable (ts : List Token) : Prop :=
  (∃ us, IsCut us ∧ spaced us = spaced ts ∧ Tight us ∧ Unescaped us) ∧ Parted ts

theorem lexable_nil : Lexable [] :=
  ⟨⟨[], .nil, rfl, trivial, by simp [Unescaped]⟩, trivial⟩

theorem Lexable.cons {t : Token} {ts : List Token} (h : Lexable ts) (hs : t.isWhitespace = false)
    (ht : lexeme? (t.chars ++ sourceChars ts) = some (t.kind, t.chars.length))
    (hname : t.kind = .identifier → t.chars.head? ≠ some '_') : Lexable (t :: ts) := by
  obtain ⟨⟨us, hcut, heq, htight, hunescaped⟩, hparted⟩ := h
  refine ⟨⟨t :: us, .cons ?_ hcut, ?_, htight.cons ?_, unescaped_cons.mpr ⟨hname, hunescaped⟩⟩,
    parted_cons.mpr ⟨by simp [isBlanks, hs], hparted⟩⟩
  · rw [sourceChars_eq_of_spaced_eq heq, ht]
  · exact spaced_append_congr [t] heq
  · simp [hs]

/-- What may follow a word: nothing that lengthens it. -/
def Clear (ts : List Token) : Prop :=
  ∀ c ∈ (sourceChars ts).head?, isWordPart c = false

/-- What may follow trivia: nothing that lengthens it, and no point, which is never set apart. -/
structure Firm (ts : List Token) : Prop where
  char : ∀ c ∈ (sourceChars ts).head?, isBlank c = false ∧ c ≠ '/'
  point : (core ts).head? ≠ some (mark ".")

theorem Lexable.word {w : String} {ts : List Token} (h : Lexable ts) (hw : IsName w)
    (hts : Clear ts) : Lexable (word w :: ts) :=
  h.cons rfl (lexeme?_word hw.isWord hts) fun _ => hw.unescaped

theorem Lexable.mark {m : String} {c : Char} {ts : List Token} (h : Lexable ts)
    (hm : m.toList = [c]) (hc : IsMark c) : Lexable (mark m :: ts) := by
  refine h.cons rfl ?_ nofun
  simp only [chars, Token.mark, hm]
  exact lexeme?_mark hc

theorem Lexable.point {ts : List Token} (h : Lexable ts)
    (hts : ∀ c ∈ (sourceChars ts).head?, c.isDigit = false) : Lexable (Token.mark "." :: ts) :=
  h.cons rfl (lexeme?_point hts) nofun

theorem Lexable.minus {ts : List Token} (h : Lexable ts)
    (hts : ∀ c ∈ (sourceChars ts).head?, c.isDigit = false ∧ c ≠ '.') :
    Lexable (Token.mark "-" :: ts) :=
  h.cons rfl (lexeme?_minus hts) nofun

theorem Lexable.quoted {s : String} {ts : List Token} (h : Lexable ts) (hs : '"' ∉ s.toList) :
    Lexable (Spelling.quoted s :: ts) := by
  have hlex := @lexeme?_string _ (sourceChars ts) hs
  refine h.cons rfl ?_ nofun
  simpa [chars, Spelling.quoted] using hlex

/-- A numeral stands alone if nothing that follows belongs to it. -/
theorem Lexable.numeral {s : String} {ts : List Token} (h : Lexable ts)
    (hs : IsFloat s.toList ∨ IsInteger s.toList) (hts : Stops (sourceChars ts)) :
    Lexable (Spelling.ofNumeral s :: ts) := by
  unfold Spelling.ofNumeral
  rcases hs with hs | hs
  · have hlen := floatLength_append hs stops_nil
    rw [List.append_nil] at hlen
    simp only [hlen, if_true]
    exact h.cons rfl (lexeme?_float hs hts) nofun
  · have hlen := floatLength_integer_append hs stops_nil
    have hne : s.toList.length ≠ 0 := by simpa using hs.ne_nil
    rw [List.append_nil] at hlen
    simp only [hlen, if_neg hne.symm]
    exact h.cons rfl (lexeme?_integer hs hts) nofun

theorem sourceChars_trivia (items : List Trivia) :
    sourceChars (Spelling.trivia items) = Trivia.chars items := by
  simp only [Spelling.trivia, sourceChars, List.flatMap_map]
  rfl

theorem spaced_trivia_append (items : List Trivia) (ts : List Token) :
    spaced (Spelling.trivia items ++ ts) = (Trivia.chars items ++ (spaced ts).1, (spaced ts).2) := by
  induction items with
  | nil => rfl
  | cons t items ih =>
    rw [Spelling.trivia_cons, List.cons_append, spaced_cons_of_blank rfl, ih, Trivia.chars_cons,
      List.append_assoc]
    rfl

theorem head?_sourceChars {t : Token} {c : Char} {ts : List Token} (h : c ∈ t.chars.head?) :
    c ∈ (sourceChars (t :: ts)).head? := by
  obtain ⟨cs, hcs⟩ := List.head?_eq_some_iff.mp h
  simp [hcs]

theorem isBlanks_of_head {ts : List Token} (h : ∀ c ∈ (sourceChars ts).head?, isBlank c = false) :
    ∀ t ∈ ts.head?, t.isBlanks = false := by
  intro t ht
  obtain ⟨us, rfl⟩ := List.head?_eq_some_iff.mp ht
  cases hc : t.chars.head? with
  | none => simp [isBlanks, hc]
  | some c => simp [isBlanks, hc, h c (head?_sourceChars hc)]

/-- The pieces of a run are no blanks in a row. -/
theorem parted_trivia_append {items : List Trivia} {ts : List Token} (hi : Trivia.IsRun items)
    (hts : ∀ c ∈ (sourceChars ts).head?, isBlank c = false) (h : Parted ts) :
    Parted (Spelling.trivia items ++ ts) := by
  have hslash : ∀ {t : Trivia}, t.text.toList.head? = some '/' → t.token.isBlanks = false := by
    intro t ht
    simp [isBlanks, chars, Trivia.token, blank, ht, isBlank]
  induction hi with
  | nil => exact h
  | @blanks s items _ _ hnext hitems ih =>
    have hrest : ∀ c ∈ (sourceChars (Spelling.trivia items ++ ts)).head?, isBlank c = false := by
      rw [sourceChars_append, sourceChars_trivia]
      by_cases hnil : items = []
      · rwa [hnil]
      · rwa [head?_append_of_ne_nil (hitems.chars_ne_nil hnil)]
    exact parted_cons.mpr ⟨fun _ => isBlanks_of_head hrest, ih⟩
  | line _ _ _ ih => exact parted_cons.mpr ⟨by simp [hslash], ih⟩
  | block _ _ ih => exact parted_cons.mpr ⟨by simp [hslash], ih⟩

/-- A run of trivia is cut as one token, in front of a token that is no point. -/
theorem Lexable.trivia {items : List Trivia} {ts : List Token} (h : Lexable ts)
    (hi : Trivia.IsRun items) (hclosed : Trivia.Closed items ∨ ts = [])
    (hts : Firm ts) :
    Lexable (Spelling.trivia items ++ ts) := by
  by_cases hne : items = []
  · subst hne
    exact h
  · obtain ⟨⟨us, hcut, heq, htight, hunescaped⟩, hparted⟩ := h
    have hsource := sourceChars_eq_of_spaced_eq heq
    have hstop : whitespaceLength (sourceChars us) = 0 := by
      rw [hsource]
      exact whitespaceLength_eq_zero_of_head hts.char
    have hlen : whitespaceLength (Trivia.chars items ++ sourceChars us) =
        (Trivia.chars items).length := by
      rw [Trivia.whitespaceLength_chars_append hi (hclosed.imp_right ?_), hstop, Nat.add_zero]
      rintro rfl
      simp [hsource]
    have hpos : (Trivia.chars items).length ≠ 0 := by simpa using hi.chars_ne_nil hne
    have hchars : (blank (String.ofList (Trivia.chars items))).chars = Trivia.chars items := by
      simp [chars, blank]
    refine ⟨⟨blank (String.ofList (Trivia.chars items)) :: us, .cons ?_ hcut, ?_, htight.cons ?_,
      unescaped_cons.mpr ⟨fun hkind => absurd hkind (by simp [blank]), hunescaped⟩⟩,
      parted_trivia_append hi (fun c hc => (hts.char c hc).1) hparted⟩
    · rw [hchars, lexeme?_whitespace (by rw [hlen]; exact hpos), hlen]
      rfl
    · rw [spaced_trivia_append, spaced_cons_of_blank rfl, hchars, heq]
    · intro _ hhead
      cases us with
      | nil => cases hhead
      | cons u us =>
        cases hhead
        refine hts.point ?_
        rw [head?_core, ← solids_eq_of_spaced_eq heq]
        rfl

end WebIdl.Token
