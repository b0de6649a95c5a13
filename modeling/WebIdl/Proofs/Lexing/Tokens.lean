import WebIdl.Proofs.Lexing.Breaks

/-!
# Token lists and their texts

`IsCut` holds of the token lists that the lexer gives, and of no others. `spaced` looks at a list
as its tokens and the blanks between them, whatever the number of whitespace tokens they are
spread over; a list is `Lexable` if its text is cut into tokens with the same look.
-/

namespace WebIdl.Token

open Text Numeral Lexer

def chars (t : Token) : List Char :=
  t.text.toList

/-- The text of a token list. -/
def sourceChars (ts : List Token) : List Char :=
  ts.flatMap chars

@[simp] theorem sourceChars_nil : sourceChars [] = [] := rfl

@[simp] theorem sourceChars_cons (t : Token) (ts : List Token) :
    sourceChars (t :: ts) = t.chars ++ sourceChars ts := rfl

@[simp] theorem sourceChars_append (ts us : List Token) :
    sourceChars (ts ++ us) = sourceChars ts ++ sourceChars us := by
  simp [sourceChars]

theorem toList_source (ts : List Token) : (source ts).toList = sourceChars ts := by
  simp only [source, sourceChars, String.toList_join, List.flatMap_map]
  rfl

/-- Every token is what the lexer takes at its place. -/
inductive IsCut : List Token → Prop
  | nil : IsCut []
  | cons {t : Token} {ts : List Token}
      (ht : lexeme? (t.chars ++ sourceChars ts) = some (t.kind, t.chars.length)) (hts : IsCut ts) :
      IsCut (t :: ts)

/-- No word has an escape mark. -/
def Unescaped (ts : List Token) : Prop :=
  ∀ t ∈ ts, t.kind = .identifier → t.chars.head? ≠ some '_'

instance (ts : List Token) : Decidable (Unescaped ts) :=
  inferInstanceAs (Decidable (∀ t ∈ ts, t.kind = .identifier → t.chars.head? ≠ some '_'))

theorem unescaped_cons {t : Token} {ts : List Token} :
    Unescaped (t :: ts) ↔ (t.kind = .identifier → t.chars.head? ≠ some '_') ∧ Unescaped ts := by
  simp [Unescaped]

theorem IsCut.tail {t : Token} {ts : List Token} (h : IsCut (t :: ts)) : IsCut ts := by
  cases h with
  | cons _ hts => exact hts

theorem IsCut.suffix {ts us : List Token} (h : IsCut ts) (hs : us <:+ ts) : IsCut us := by
  obtain ⟨pre, rfl⟩ := hs
  induction pre with
  | nil => exact h
  | cons t pre ih => exact ih h.tail

theorem scan_of_none {cs : List Char} (h : lexeme? cs = none) : scan cs = ([], cs) := by
  rw [scan]
  split
  · rfl
  · next heq =>
    rw [h] at heq
    cases heq

theorem scan_of_some {cs : List Char} {kind : TokenKind} {n : Nat}
    (h : lexeme? cs = some (kind, n)) :
    scan cs = (⟨kind, String.ofList (cs.take n)⟩ :: (scan (cs.drop n)).1, (scan (cs.drop n)).2) := by
  rw [scan]
  split
  · next heq =>
    rw [h] at heq
    cases heq
  · next heq =>
    rw [h] at heq
    cases heq
    rfl

theorem IsCut.scan_eq {ts : List Token} (h : IsCut ts) : scan (sourceChars ts) = (ts, []) := by
  induction h with
  | nil => exact scan_of_none lexeme?_nil
  | @cons t ts ht hts ih =>
    rw [sourceChars_cons, scan_of_some ht, List.drop_left, List.take_left, ih]
    simp [chars]

/-- The lexer goes up to a place where no rule holds, and no further text is needed to cut what
stands in front of it. -/
theorem isCut_scan (cs : List Char) :
    IsCut (scan cs).1 ∧ sourceChars (scan cs).1 ++ (scan cs).2 = cs ∧
      lexeme? (scan cs).2 = none := by
  induction hn : cs.length using Nat.strongRecOn generalizing cs with
  | ind n ih =>
    subst hn
    cases hlexeme : lexeme? cs with
    | none =>
      rw [scan_of_none hlexeme]
      exact ⟨.nil, rfl, hlexeme⟩
    | some taken =>
      obtain ⟨kind, n⟩ := taken
      have hle := (taken_of_lexeme? hlexeme).le_length
      obtain ⟨hcut, hsource, hnone⟩ :=
        ih (cs.drop n).length (length_drop_lt_of_lexeme? hlexeme) (cs.drop n) rfl
      have hchars : chars ⟨kind, String.ofList (cs.take n)⟩ = cs.take n := by simp [chars]
      rw [scan_of_some hlexeme]
      refine ⟨.cons ?_ hcut, ?_, hnone⟩
      · rw [hchars, List.length_take, Nat.min_eq_left hle]
        cases hrest : (scan (cs.drop n)).2 with
        | nil => rwa [← List.append_nil (sourceChars _), ← hrest, hsource, List.take_append_drop]
        | cons x rest =>
          -- only a control code stops the lexer, and nothing goes on with one
          have hbreaks : Breaks x := by
            rw [hrest] at hnone
            exact breaks_of_isControl (isControl_of_lexeme?_eq_none hnone).1
          apply @lexeme?_of_append _ x rest _ _ hbreaks
          · rwa [List.append_assoc, ← hrest, hsource, List.take_append_drop]
          · rw [List.length_append, List.length_take, Nat.min_eq_left hle]
            exact Nat.le_add_right n _
      · rw [sourceChars_cons, hchars, List.append_assoc, hsource, List.take_append_drop]

/-- The lexer gives the tokens of the whole text, if it comes to its end. -/
theorem isCut_of_scan {cs : List Char} {ts : List Token} (h : scan cs = (ts, [])) :
    IsCut ts ∧ sourceChars ts = cs := by
  obtain ⟨hcut, hsource, -⟩ := isCut_scan cs
  rw [h] at hcut hsource
  exact ⟨hcut, by rwa [List.append_nil] at hsource⟩

theorem tokenize_eq_ok_iff {text : String} {ts : List Token} :
    tokenize text = .ok ts ↔ IsCut ts ∧ sourceChars ts = text.toList := by
  unfold tokenize
  constructor
  · intro h
    split at h
    · next heq => cases h; exact isCut_of_scan heq
    · cases h
  · rintro ⟨hcut, hsource⟩
    rw [← hsource, hcut.scan_eq]

theorem IsCut.taken {t : Token} {ts : List Token} (h : IsCut (t :: ts)) :
    Taken (t.chars ++ sourceChars ts) t.kind t.chars.length := by
  cases h with
  | cons ht _ => exact taken_of_lexeme? ht

theorem IsCut.isWord {t : Token} {ts : List Token} (h : IsCut (t :: ts))
    (hk : t.kind = .identifier) : IsWord t.chars := by
  have htaken := h.taken
  rw [hk] at htaken
  cases htaken with
  | identifier hw _ => rwa [List.take_left] at hw

theorem IsCut.isFloat {t : Token} {ts : List Token} (h : IsCut (t :: ts)) (hk : t.kind = .float) :
    IsFloat t.chars := by
  have htaken := h.taken
  rw [hk] at htaken
  cases htaken with
  | float hw _ => rwa [List.take_left] at hw

theorem IsCut.isInteger {t : Token} {ts : List Token} (h : IsCut (t :: ts))
    (hk : t.kind = .integer) : IsInteger t.chars := by
  have htaken := h.taken
  rw [hk] at htaken
  cases htaken with
  | integer hw _ => rwa [List.take_left] at hw

theorem IsCut.exists_body {t : Token} {ts : List Token} (h : IsCut (t :: ts))
    (hk : t.kind = .string) : ∃ body, t.chars = '"' :: (body ++ ['"']) ∧ '"' ∉ body := by
  have htaken := h.taken
  rw [hk] at htaken
  generalize hn : t.chars.length = n at htaken
  cases htaken with
  | @string body rest hq heq =>
    refine ⟨body, ?_, hq⟩
    have htake := congrArg (List.take (body.length + 2)) heq
    rw [← hn, List.take_left] at htake
    have hbody : (body ++ '"' :: rest).take (body.length + 1) = body ++ ['"'] := by
      rw [List.take_append, List.take_of_length_le (Nat.le_succ _)]
      simp
    rw [htake, hn, show body.length + 2 = body.length + 1 + 1 by omega, List.take_succ_cons, hbody]

theorem IsCut.exists_symbol {t : Token} {ts : List Token} (h : IsCut (t :: ts))
    (hk : t.kind = .other) : ∃ c, t.chars = [c] ∧ isSymbol c := by
  have htaken := h.taken
  rw [hk] at htaken
  generalize hn : t.chars.length = n at htaken
  cases htaken with
  | @other c rest hc heq =>
    obtain ⟨d, hd⟩ := List.length_eq_one_iff.mp hn
    rw [hd] at heq
    cases heq
    exact ⟨c, hd, hc⟩

theorem IsCut.exists_run {t : Token} {ts : List Token} (h : IsCut (t :: ts))
    (hk : t.kind = .whitespace) :
    ∃ items, t.chars = Trivia.chars items ∧ items ≠ [] ∧
      Trivia.Leads items (sourceChars ts) (t.chars ++ sourceChars ts) := by
  have htaken := h.taken
  rw [hk] at htaken
  generalize hn : t.chars.length = n at htaken
  cases htaken with
  | @whitespace items rest hl hne =>
    obtain ⟨hchars, rfl⟩ := List.append_inj hl.eq hn
    exact ⟨items, hchars, hne, hl⟩

theorem IsCut.chars_ne_nil {t : Token} {ts : List Token} (h : IsCut (t :: ts)) :
    t.chars ≠ [] := by
  cases h with
  | cons ht _ => exact List.length_pos_iff.mp (lexeme?_pos ht)

theorem isWhitespace_iff {t : Token} : t.isWhitespace ↔ t.kind = .whitespace := by
  simp [isWhitespace]

/-- No whitespace token stands behind another. -/
theorem IsCut.not_isWhitespace {t u : Token} {ts : List Token} (h : IsCut (t :: u :: ts))
    (ht : t.isWhitespace) : u.isWhitespace = false := by
  rw [Bool.eq_false_iff]
  intro hu
  obtain ⟨items, -, -, hl⟩ := h.exists_run (isWhitespace_iff.mp ht)
  obtain ⟨items', -, hne, hl'⟩ := h.tail.exists_run (isWhitespace_iff.mp hu)
  have hstop := hl.stop
  rw [sourceChars_cons, hl'.whitespaceLength_eq, List.length_eq_zero_iff] at hstop
  exact hl'.run.chars_ne_nil hne hstop

/-- The tokens in front of which blanks may stand. -/
def solids (ts : List Token) : List Token :=
  ts.filter fun t => !t.isWhitespace

/-- What stands behind the whitespace at the start. -/
def core (ts : List Token) : List Token :=
  ts.dropWhile isWhitespace

/-- The whitespace at the start. -/
def lead (ts : List Token) : List Token :=
  ts.takeWhile isWhitespace

theorem lead_append_core (ts : List Token) : lead ts ++ core ts = ts :=
  List.takeWhile_append_dropWhile

theorem core_suffix (ts : List Token) : core ts <:+ ts :=
  List.dropWhile_suffix isWhitespace

@[simp] theorem solids_nil : solids [] = [] := rfl

@[simp] theorem core_nil : core [] = [] := rfl

@[simp] theorem solids_append (ts us : List Token) : solids (ts ++ us) = solids ts ++ solids us := by
  simp [solids]

theorem solids_cons_of_solid {t : Token} {ts : List Token} (h : t.isWhitespace = false) :
    solids (t :: ts) = t :: solids ts := by
  simp [solids, h]

theorem solids_cons_of_blank {t : Token} {ts : List Token} (h : t.isWhitespace) :
    solids (t :: ts) = solids ts := by
  simp [solids, h]

theorem core_cons_of_solid {t : Token} {ts : List Token} (h : t.isWhitespace = false) :
    core (t :: ts) = t :: ts := by
  simp [core, h]

theorem core_cons_of_blank {t : Token} {ts : List Token} (h : t.isWhitespace) :
    core (t :: ts) = core ts := by
  simp [core, h]

@[simp] theorem solids_core (ts : List Token) : solids (core ts) = solids ts := by
  induction ts with
  | nil => rfl
  | cons t ts ih =>
    by_cases h : t.isWhitespace
    · rw [core_cons_of_blank h, solids_cons_of_blank h, ih]
    · rw [core_cons_of_solid (by simpa using h)]

/-- A list is its leading blanks and then its first solid token with what follows. -/
theorem core_eq_cons_iff_head {ts : List Token} {t : Token} {us : List Token}
    (h : core ts = t :: us) : t.isWhitespace = false := by
  have := List.head?_dropWhile_not isWhitespace ts
  rw [show ts.dropWhile isWhitespace = t :: us from h] at this
  simpa using this

theorem head?_core (ts : List Token) : (core ts).head? = (solids ts).head? := by
  cases h : core ts with
  | nil => rw [← solids_core, h]; rfl
  | cons t us =>
    rw [← solids_core, h, solids_cons_of_solid (core_eq_cons_iff_head h)]
    rfl

/-- The blanks in front of a list of a lexer are the text of one run. -/
theorem IsCut.exists_lead {ts : List Token} (h : IsCut ts) :
    ∃ items, sourceChars (lead ts) = Trivia.chars items ∧ Trivia.IsRun items ∧
      (Trivia.Closed items ∨ core ts = []) := by
  cases ts with
  | nil => exact ⟨[], rfl, .nil, Or.inl trivial⟩
  | cons t ts =>
    by_cases ht : t.isWhitespace
    · obtain ⟨items, hchars, -, hl⟩ := h.exists_run (isWhitespace_iff.mp ht)
      have hlead : lead (t :: ts) = [t] := by
        cases ts with
        | nil => simp [lead, ht]
        | cons u us => simp [lead, ht, h.not_isWhitespace ht]
      refine ⟨items, by simp [hlead, hchars], hl.run, hl.closed.imp_right fun hnil => ?_⟩
      cases ts with
      | nil => simp [core, ht]
      | cons u us =>
        rw [sourceChars_cons, List.append_eq_nil_iff] at hnil
        exact absurd hnil.1 h.tail.chars_ne_nil
    · exact ⟨[], by simp [lead, ht], .nil, Or.inl trivial⟩

end WebIdl.Token

namespace WebIdl

/-- No name in the text is escaped. -/
def Unescaped (text : String) : Prop :=
  ∀ ts, tokenize text = .ok ts → Token.Unescaped ts

theorem unescaped_of_tokenize {text : String} {ts : List Token} (h : tokenize text = .ok ts)
    (hts : Token.Unescaped ts) : Unescaped text := by
  intro us hus
  rw [h] at hus
  cases hus
  exact hts

instance (text : String) : Decidable (Unescaped text) :=
  match h : tokenize text with
  | .ok ts => decidable_of_iff (Token.Unescaped ts) ⟨unescaped_of_tokenize h, fun hts => hts ts h⟩
  | .error e => isTrue fun ts hts => by simp [h] at hts

end WebIdl
