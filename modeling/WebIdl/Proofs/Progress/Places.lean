import WebIdl.Fragment
import WebIdl.Proofs.Printing.Phrases
import WebIdl.Proofs.Progress.Watched

/-!
# Where a parse fails

An error shows the tokens that were pending at some place of the text, and a line. The line counts
the line feeds of the blanks and comments in front of that place, but not those inside of strings.
Where no string holds one, the line leads back to the fragment with the place.
-/

namespace WebIdl.Token

open Text Lexer

variable {t : Token} {ts us : List Token}

/-- The string literals of a list. -/
def strings (ts : List Token) : List Token :=
  ts.filter fun t => t.kind == .string

theorem lineFeeds_sourceChars (ts : List Token) : Text.lineFeeds (sourceChars ts) = lineFeeds ts := by
  induction ts with
  | nil => rfl
  | cons t ts ih =>
    rw [sourceChars_cons, lineFeeds_append, ih]
    rfl

/-- Line feeds stand in blanks, in comments and in strings. -/
theorem newlines_eq_zero (h : IsCut (t :: ts)) (hsolid : t.isWhitespace = false)
    (hstring : t.kind ≠ .string) : t.newlines = 0 := by
  have hletters (ht : ∀ c ∈ t.chars, IsLetter c) : t.newlines = 0 := by
    refine List.count_eq_zero.mpr fun hmem => ?_
    have hnot := not_isWhiteSpace_of_isLetter (ht _ hmem)
    exact absurd hnot (by decide)
  cases hk : t.kind with
  | float => exact hletters (isLetter_of_isFloat (h.isFloat hk))
  | integer => exact hletters (isLetter_of_isInteger (h.isInteger hk))
  | identifier =>
    refine hletters fun c hc => Or.inl ?_
    cases hw : t.chars with
    | nil => rw [hw] at hc; cases hc
    | cons d ds =>
      have hword := h.isWord hk
      rw [hw] at hword hc
      cases hword with
      | intro hd hds =>
        rcases List.mem_cons.mp hc with rfl | hc
        · exact isWordPart_of_isWordStart hd
        · exact hds c hc
  | string => exact absurd hk hstring
  | whitespace => exact absurd (isWhitespace_iff.mpr hk) (by simp [hsolid])
  | other =>
    obtain ⟨c, hc, hsymbol⟩ := h.exists_symbol hk
    refine List.count_eq_zero.mpr fun hmem => ?_
    have hmem : '\n' ∈ [c] := hc ▸ hmem
    obtain rfl := List.mem_singleton.mp hmem
    exact absurd hsymbol (by decide)

/-- The line feeds of a list are those of its blanks and those of its strings. -/
theorem lineFeeds_eq_add (h : IsCut (ts ++ us)) :
    lineFeeds ts = lineFeeds (ts.filter isWhitespace) + lineFeeds (strings ts) := by
  induction ts with
  | nil => rfl
  | cons t ts ih =>
    have hrest := ih h.tail
    cases hblank : t.isWhitespace with
    | true =>
      have hstring : (t.kind == .string) = false := by
        rw [isWhitespace_iff.mp hblank]
        rfl
      rw [strings, List.filter_cons_of_pos hblank, List.filter_cons_of_neg (by simp [hstring])]
      simp only [lineFeeds, hrest, strings, Nat.add_assoc]
    | false =>
      rw [List.filter_cons_of_neg (by simp [hblank])]
      by_cases hstring : t.kind = .string
      · rw [strings, List.filter_cons_of_pos (by simp [hstring])]
        simp only [lineFeeds, hrest, strings]
        omega
      · rw [strings, List.filter_cons_of_neg (by simp [hstring])]
        simp only [lineFeeds, hrest, strings, newlines_eq_zero h hblank hstring, Nat.zero_add]

end WebIdl.Token

namespace WebIdl.Fragment

open Text

variable {separator : String} {before after : List Fragment} {f : Fragment} {front : List Char}

/-- The text of a combination up to a place in one of the fragments: the fragments before it, and
what of its own text is in front of the place. -/
def upTo (separator : String) (before : List Fragment) (front : List Char) : List Char :=
  before.flatMap (fun f => f.text.toList ++ separator.toList) ++ front

theorem upTo_cons (g : Fragment) :
    upTo separator (g :: before) front =
      g.text.toList ++ separator.toList ++ upTo separator before front := by
  simp [upTo]

theorem upTo_prefix_combine (h : front <+: f.text.toList) :
    upTo separator before front <+: (combine separator (before ++ f :: after)).toList := by
  induction before with
  | nil =>
    cases after with
    | nil => simpa [upTo, combine, combineTexts] using h
    | cons g after =>
      refine h.trans ?_
      simp [combine, combineTexts, String.intercalate_cons_cons, String.toList_append]
  | cons g before ih =>
    obtain ⟨rest, hrest⟩ := ih
    obtain ⟨t, ts, hts⟩ : ∃ t ts, (before ++ f :: after).map Fragment.text = t :: ts := by
      cases before with
      | nil => exact ⟨_, _, rfl⟩
      | cons g' before => exact ⟨_, _, rfl⟩
    refine ⟨rest, ?_⟩
    rw [combine, combineTexts, hts] at hrest
    rw [upTo_cons, combine, combineTexts, List.cons_append, List.map_cons, hts,
      String.intercalate_cons_cons, String.toList_append, String.toList_append, ← hrest,
      List.append_assoc]

/-- The line of a place leads back to it. A line that is shared with the fragment before leads
there. -/
theorem locateFrom_append {gap start line : Nat} (hfront : lineFeeds front ≤ f.newlines)
    (hown : before = [] ∨ 0 < gap + lineFeeds front)
    (hline : line = start + (before.map fun g => g.newlines + gap).sum + lineFeeds front) :
    locateFrom gap line start (before ++ f :: after) = some ⟨f.origin, 1 + lineFeeds front⟩ := by
  induction before generalizing start with
  | nil =>
    have hline : line = start + lineFeeds front := by simpa using hline
    have hlast : line ≤ start + f.newlines := by omega
    have hstart : start ≤ line := by omega
    rw [List.nil_append, locateFrom]
    simp only [if_pos hlast, if_pos hstart, Option.some.injEq, Location.mk.injEq, true_and]
    omega
  | cons g before ih =>
    have hpos := hown.resolve_left (List.cons_ne_nil _ _)
    rw [List.map_cons, List.sum_cons] at hline
    have hlast : ¬line ≤ start + g.newlines := by
      omega
    rw [List.cons_append, locateFrom]
    simp only [if_neg hlast]
    exact ih (Or.inr hpos) (by omega)

theorem lineFeeds_upTo :
    lineFeeds (upTo separator before front) =
      (before.map fun g => g.newlines + lineFeeds separator.toList).sum + lineFeeds front := by
  induction before with
  | nil => simp [upTo]
  | cons g before ih =>
    rw [upTo_cons, lineFeeds_append, lineFeeds_append, ih, List.map_cons, List.sum_cons]
    simp only [newlines, Nat.add_assoc]

theorem locate_of_line (h : front <+: f.text.toList)
    (hown : before = [] ∨ 0 < lineFeeds separator.toList + lineFeeds front) :
    locate separator (1 + lineFeeds (upTo separator before front)) (before ++ f :: after) =
      some ⟨f.origin, 1 + lineFeeds front⟩ := by
  refine locateFrom_append (h.sublist.count_le _) hown ?_
  rw [lineFeeds_upTo, Nat.add_assoc]

end WebIdl.Fragment

namespace WebIdl

open Token Cursor

variable {d : Dialect} {text : String} {e : ParseError} {ts : List Token}

/-- A parse fails at a cursor that it has reached. -/
theorem exists_cursor_of_parse (h : parse d ts = .error e) :
    ∃ c reason, Reaches (ofTokens ts) c ∧ e = c.fail reason := by
  have hwatched := (Grammar.seen_program d).honest (ofTokens ts)
  obtain ⟨c, hc, reason, heq⟩ := hwatched.fails e (parse_eq_error_iff.mp h)
  exact ⟨c, reason, hwatched.reaches c hc, heq⟩

/-- The place of an error: its tokens are those pending there, its line is behind by the line feeds
of the strings in front, and where these hold none, an error of combined fragments is put down to
the fragment with the place. -/
theorem parseText_fails_at (h : parseText d text = .error (.parse e)) :
    ∃ ts k, tokenize text = .ok ts ∧ k ≤ ts.length ∧
      e.tokens = (ts.drop k).take 5 ∧ e.input.toList = sourceChars ((ts.drop k).take 5) ∧
      e.line + lineFeeds (strings (ts.take k)) = 1 + Text.lineFeeds (sourceChars (ts.take k)) ∧
      (lineFeeds (strings (ts.take k)) = 0 → ∀ separator before f after front,
        text = Fragment.combine separator (before ++ f :: after) → front <+: f.text.toList →
        (sourceChars (ts.take k)).length = (Fragment.upTo separator before front).length →
        (before = [] ∨ 0 < Text.lineFeeds separator.toList + Text.lineFeeds front) →
        (Fragment.withLocation separator (before ++ f :: after) (.parse e)).location =
          some ⟨f.origin, 1 + Text.lineFeeds front⟩) := by
  obtain ⟨ts, htokens, hparse⟩ := parseText_eq_parse_iff.mp h
  obtain ⟨hcut, hsource⟩ := tokenize_eq_ok_iff.mp htokens
  obtain ⟨c, reason, ⟨read, hafter, hbefore, hline, -⟩, rfl⟩ := exists_cursor_of_parse hparse
  have hts : ts = read ++ c.after := hafter
  have htake : ts.take read.length = read := by rw [hts, List.take_left]
  have hdrop : ts.drop read.length = c.after := by rw [hts, List.drop_left]
  have hstart : c.line = 1 + lineFeeds (read.filter isWhitespace) := hline
  have hfeeds := lineFeeds_eq_add (hts ▸ hcut)
  refine ⟨ts, read.length, htokens, ?_, ?_, ?_, ?_, ?_⟩
  · rw [hts, List.length_append]
    exact Nat.le_add_right ..
  · rw [hdrop]
    rfl
  · rw [hdrop]
    exact toList_source _
  · rw [htake, lineFeeds_sourceChars, hfeeds, ← Nat.add_assoc, ← hstart]
    rfl
  · intro hnone separator before f after front hcombine hfront hlength hown
    rw [htake] at hnone hlength
    have hread : sourceChars read <+: text.toList := by
      rw [← hsource, hts, sourceChars_append]
      exact List.prefix_append ..
    have hplace : Fragment.upTo separator before front <+: text.toList :=
      hcombine ▸ Fragment.upTo_prefix_combine hfront
    have heq : sourceChars read = Fragment.upTo separator before front :=
      (List.prefix_of_prefix_length_le hread hplace (Nat.le_of_eq hlength)).eq_of_length hlength
    have hplaced : c.line = 1 + Text.lineFeeds (Fragment.upTo separator before front) := by
      rw [← heq, lineFeeds_sourceChars, hfeeds, hnone, hstart, Nat.add_zero]
    show Fragment.locate separator c.line _ = _
    rw [hplaced]
    exact Fragment.locate_of_line hfront hown

theorem error_of_map {ε α β : Type} {f : α → β} {r : Except ε α} {x : ε}
    (h : r.map f = .error x) : r = .error x := by
  cases r with
  | error y => exact congrArg Except.error (Except.error.inj h)
  | ok a => cases h

/-- An error in the second of two fragments. -/
theorem parseText_fails_at_fragment :
    ∃ e, parseText {} (Fragment.combine "\n" [⟨"a", "enum D \x7b \"d\" \x7d;"⟩,
        ⟨"b", "enum E \x7b\n  x\n\x7d;"⟩]) = .error (.parse e) ∧ e.line = 3 ∧
      (Fragment.withLocation "\n" [⟨"a", "enum D \x7b \"d\" \x7d;"⟩,
        ⟨"b", "enum E \x7b\n  x\n\x7d;"⟩] (.parse e)).location = some ⟨"b", 2⟩ := by
  have hfails := @error_of_map _ _ _ (fun _ => ()) (parseText {} (Fragment.combine "\n"
    [⟨"a", "enum D \x7b \"d\" \x7d;"⟩, ⟨"b", "enum E \x7b\n  x\n\x7d;"⟩]))
    (.parse ⟨.unexpectedEnumValue, 3, [word "x", blank "\n", mark "\x7d", mark ";"]⟩)
    (by decide +kernel)
  obtain ⟨ts, k, htokens, hk, hpending, -, -, hplace⟩ := parseText_fails_at hfails
  -- the pending tokens stand at one place only
  obtain ⟨ts', htokens', hts⟩ := @exists_of_map_eq_ok _ _ _ (fun ts : List Token =>
      decide (∀ k ≤ ts.length, [word "x", blank "\n", mark "\x7d", mark ";"] = (ts.drop k).take 5 →
        lineFeeds (strings (ts.take k)) = 0 ∧ (sourceChars (ts.take k)).length = 27))
    (tokenize (Fragment.combine "\n"
      [⟨"a", "enum D \x7b \"d\" \x7d;"⟩, ⟨"b", "enum E \x7b\n  x\n\x7d;"⟩])) true
    (by decide +kernel)
  obtain rfl : ts = ts' := Except.ok.inj (htokens.symm.trans htokens')
  obtain ⟨hstrings, hlength⟩ := of_decide_eq_true hts k hk hpending
  refine ⟨_, hfails, rfl, ?_⟩
  exact hplace hstrings "\n" [⟨"a", "enum D \x7b \"d\" \x7d;"⟩]
    ⟨"b", "enum E \x7b\n  x\n\x7d;"⟩ [] "enum E \x7b\n  ".toList rfl (by decide)
    (hlength.trans (by decide)) (Or.inr (by decide))

/-- A line feed inside of a string moves an error to the line in front, and here into the fragment
in front. -/
theorem parseText_fails_elsewhere :
    ∃ e ts, parseText {} (Fragment.combine "\n" [⟨"a", "enum D \x7b \"\n\" \x7d;"⟩,
        ⟨"b", "enum E \x7b x \x7d;"⟩]) = .error (.parse e) ∧
      tokenize (Fragment.combine "\n" [⟨"a", "enum D \x7b \"\n\" \x7d;"⟩,
        ⟨"b", "enum E \x7b x \x7d;"⟩]) = .ok ts ∧
      (∀ k ≤ ts.length, e.tokens = (ts.drop k).take 5 →
        e.line ≠ 1 + Text.lineFeeds (sourceChars (ts.take k))) ∧
      (Fragment.withLocation "\n" [⟨"a", "enum D \x7b \"\n\" \x7d;"⟩,
        ⟨"b", "enum E \x7b x \x7d;"⟩] (.parse e)).location = some ⟨"a", 2⟩ := by
  have hfails := @error_of_map _ _ _ (fun _ => ()) (parseText {} (Fragment.combine "\n"
    [⟨"a", "enum D \x7b \"\n\" \x7d;"⟩, ⟨"b", "enum E \x7b x \x7d;"⟩]))
    (.parse ⟨.unexpectedEnumValue, 2, [word "x", blank " ", mark "\x7d", mark ";"]⟩)
    (by decide +kernel)
  obtain ⟨ts, htokens, hts⟩ := @exists_of_map_eq_ok _ _ _ (fun ts : List Token =>
      decide (∀ k ≤ ts.length, [word "x", blank " ", mark "\x7d", mark ";"] = (ts.drop k).take 5 →
        2 ≠ 1 + Text.lineFeeds (sourceChars (ts.take k))))
    (tokenize (Fragment.combine "\n"
      [⟨"a", "enum D \x7b \"\n\" \x7d;"⟩, ⟨"b", "enum E \x7b x \x7d;"⟩])) true
    (by decide +kernel)
  exact ⟨_, ts, hfails, htokens, of_decide_eq_true hts, by decide⟩

end WebIdl
