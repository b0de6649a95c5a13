import WebIdl.Proofs.Lexing.Failures
import WebIdl.Proofs.Progress.Places

/-!
# Lines of a combination

Where separators hold a line feed no line has two fragments on it. Each line with something of a
fragment on it, be it the empty end of a text, then leads back to that fragment, and the other
lines lead nowhere. The lexer counts lines in the same way, so a character that it stops at is found
in its fragment.
-/

namespace WebIdl

namespace Text

/-- A text goes through all of its lines. -/
theorem exists_prefix_lineFeeds {cs : List Char} {n : Nat} (h : n ≤ lineFeeds cs) :
    ∃ front, front <+: cs ∧ lineFeeds front = n := by
  induction cs generalizing n with
  | nil => exact ⟨[], List.nil_prefix, (Nat.le_zero.mp h).symm⟩
  | cons c cs ih =>
    cases n with
    | zero => exact ⟨[], List.nil_prefix, rfl⟩
    | succ n =>
      have hsplit : lineFeeds (c :: cs) = lineFeeds [c] + lineFeeds cs := lineFeeds_append [c] cs
      have hone : lineFeeds [c] ≤ 1 := List.count_le_length
      obtain ⟨front, hfront, hcount⟩ := @ih (n + 1 - lineFeeds [c]) (by omega)
      refine ⟨c :: front, List.cons_prefix_cons.mpr ⟨rfl, hfront⟩, ?_⟩
      rw [show c :: front = [c] ++ front from rfl, lineFeeds_append]
      omega

theorem utf8Size_append (xs ys : List Char) :
    utf8Size (xs ++ ys) = utf8Size xs + utf8Size ys := by
  induction xs with
  | nil => simp [utf8Size]
  | cons c xs ih => rw [List.cons_append, utf8Size, ih, utf8Size, Nat.add_assoc]

theorem eq_nil_of_utf8Size_eq_zero {cs : List Char} (h : utf8Size cs = 0) : cs = [] := by
  cases cs with
  | nil => rfl
  | cons c cs =>
    have hpos := c.utf8Size_pos
    rw [utf8Size] at h
    omega

theorem eq_of_isPrefix_of_utf8Size_eq {xs ys : List Char} (h : xs <+: ys)
    (hsize : utf8Size xs = utf8Size ys) : xs = ys := by
  obtain ⟨rest, rfl⟩ := h
  rw [utf8Size_append] at hsize
  have hrest : rest = [] := eq_nil_of_utf8Size_eq_zero (by omega)
  rw [hrest, List.append_nil]

/-- An offset tells a place of a text. -/
theorem eq_of_utf8Size_eq {xs ys cs : List Char} (hxs : xs <+: cs) (hys : ys <+: cs)
    (hsize : utf8Size xs = utf8Size ys) : xs = ys := by
  rcases List.prefix_or_prefix_of_prefix hxs hys with h | h
  · exact eq_of_isPrefix_of_utf8Size_eq h hsize
  · exact (eq_of_isPrefix_of_utf8Size_eq h hsize.symm).symm

end Text

namespace Fragment

open Text

variable {separator : String} {fragments before : List Fragment} {f : Fragment}
  {front : List Char}

/-- A place in one of the fragments, behind some that come before it and behind the front of its
own text. The place at the end of the text is one of them. -/
structure IsPlace (fragments before : List Fragment) (f : Fragment) (front : List Char) :
    Prop where
  fragments_eq : ∃ after, fragments = before ++ f :: after
  front_prefix : front <+: f.text.toList

/-- A line that leads somewhere is the line of a place in the fragment that it leads to. -/
theorem exists_of_locateFrom {gap start line : Nat} {l : Location}
    (h : locateFrom gap line start fragments = some l) :
    ∃ before f after n, fragments = before ++ f :: after ∧ n ≤ f.newlines ∧
      line = start + (before.map fun g => g.newlines + gap).sum + n := by
  induction fragments generalizing start with
  | nil => cases h
  | cons f fs ih =>
    rw [locateFrom] at h
    by_cases hlast : line ≤ start + f.newlines
    · by_cases hstart : start ≤ line
      · exact ⟨[], f, fs, line - start, rfl, by omega, by simp; omega⟩
      · rw [if_pos hlast, if_neg hstart] at h
        cases h
    · rw [if_neg hlast] at h
      obtain ⟨before, g, after, n, rfl, hn, hline⟩ := ih h
      refine ⟨f :: before, g, after, n, rfl, hn, ?_⟩
      rw [List.map_cons, List.sum_cons]
      omega

theorem exists_isPlace_of_locate {line : Nat} {l : Location}
    (h : locate separator line fragments = some l) :
    ∃ before f front, IsPlace fragments before f front ∧
      line = 1 + lineFeeds (upTo separator before front) := by
  obtain ⟨before, f, after, n, heq, hn, hline⟩ := exists_of_locateFrom h
  obtain ⟨front, hfront, rfl⟩ := exists_prefix_lineFeeds hn
  refine ⟨before, f, front, ⟨⟨after, heq⟩, hfront⟩, ?_⟩
  rw [hline, lineFeeds_upTo, Nat.add_assoc]

theorem IsPlace.upTo_prefix (h : IsPlace fragments before f front) :
    upTo separator before front <+: (combine separator fragments).toList := by
  obtain ⟨⟨after, rfl⟩, hfront⟩ := h
  exact upTo_prefix_combine hfront

theorem IsPlace.locate_eq (hsep : '\n' ∈ separator.toList)
    (h : IsPlace fragments before f front) :
    locate separator (1 + lineFeeds (upTo separator before front)) fragments =
      some ⟨f.origin, 1 + lineFeeds front⟩ := by
  obtain ⟨⟨after, rfl⟩, hfront⟩ := h
  have hpos : 0 < lineFeeds separator.toList := List.count_pos_iff.mpr hsep
  exact locate_of_line hfront (Or.inr (Nat.lt_of_lt_of_le hpos (Nat.le_add_right ..)))

/-- The line of a lexing error is the line of the place with its offset. -/
theorem IsPlace.line_of_lexError {d : Dialect} {e : LexError}
    (h : IsPlace fragments before f front)
    (herror : parseText d (combine separator fragments) = .error (.lex e))
    (hoffset : e.position.offset = utf8Size (upTo separator before front)) :
    e.position.line = 1 + lineFeeds (upTo separator before front) := by
  obtain ⟨pre, post, htext, -, -, hbehind⟩ :=
    exists_split_of_tokenize_error (parseText_eq_lex_iff.mp herror)
  have hpre : pre.toList <+: (combine separator fragments).toList := by
    refine ⟨e.char :: post.toList, ?_⟩
    rw [htext]
    simp
  have hsize : utf8Size pre.toList = utf8Size (upTo separator before front) := by
    rw [← hoffset, hbehind.offset, ← utf8ByteSize_ofList, String.ofList_toList]
  rw [hbehind.line, ← eq_of_utf8Size_eq hpre h.upTo_prefix hsize]
  rfl

/-- The line of every place leads back to its fragment and to its line there, and no other line
leads anywhere. So a character that cannot be read is reported where it stands. -/
theorem locate_upTo (hsep : '\n' ∈ separator.toList) (fragments : List Fragment) :
    (∀ before f front, IsPlace fragments before f front →
      upTo separator before front <+: (combine separator fragments).toList ∧
        locate separator (1 + lineFeeds (upTo separator before front)) fragments =
          some ⟨f.origin, 1 + lineFeeds front⟩) ∧
      (∀ line, locate separator line fragments = none ↔
        ∀ before f front, IsPlace fragments before f front →
          line ≠ 1 + lineFeeds (upTo separator before front)) ∧
      ∀ d e before f front back, parseText d (combine separator fragments) = .error (.lex e) →
        IsPlace fragments before f front → f.text.toList = front ++ e.char :: back →
        e.position.offset = utf8Size (upTo separator before front) →
        withLocation separator fragments (.lex e) =
          ⟨some ⟨f.origin, 1 + lineFeeds front⟩, .lex e⟩ := by
  refine ⟨fun before f front h => ⟨h.upTo_prefix, h.locate_eq hsep⟩, fun line => ?_, ?_⟩
  · constructor
    · rintro hnone before f front h rfl
      rw [h.locate_eq hsep] at hnone
      cases hnone
    · intro hline
      cases hlocate : locate separator line fragments with
      | none => rfl
      | some l =>
        obtain ⟨before, f, front, h, heq⟩ := exists_isPlace_of_locate hlocate
        exact absurd heq (hline before f front h)
  · intro d e before f front back herror h _ hoffset
    have hplaced : locate separator e.position.line fragments =
        some ⟨f.origin, 1 + lineFeeds front⟩ := by
      rw [h.line_of_lexError herror hoffset]
      exact h.locate_eq hsep
    show LocatedError.mk (locate separator e.position.line fragments) _ = _
    rw [hplaced]

/-- The empty fragment has a line of its own between the separators, and the control code stands on
the second line of the last fragment. -/
theorem locate_upTo_empty :
    locate " \n\n" 4 [⟨"a", "x\ny"⟩, ⟨"b", ""⟩, ⟨"c", "\n é\x00;"⟩] = some ⟨"b", 1⟩ ∧
      locate " \n\n" 5 [⟨"a", "x\ny"⟩, ⟨"b", ""⟩, ⟨"c", "\n é\x00;"⟩] = none ∧
      ∃ e, parseText {} (combine " \n\n" [⟨"a", "x\ny"⟩, ⟨"b", ""⟩, ⟨"c", "\n é\x00;"⟩]) =
          .error (.lex e) ∧
        (withLocation " \n\n" [⟨"a", "x\ny"⟩, ⟨"b", ""⟩, ⟨"c", "\n é\x00;"⟩] (.lex e)).message =
          "Invalid WebIDL in c at line 2" := by
  obtain ⟨hplaces, -, herrors⟩ :=
    @locate_upTo " \n\n" (by decide) [⟨"a", "x\ny"⟩, ⟨"b", ""⟩, ⟨"c", "\n é\x00;"⟩]
  have hfails : parseText {} (combine " \n\n" [⟨"a", "x\ny"⟩, ⟨"b", ""⟩, ⟨"c", "\n é\x00;"⟩]) =
      .error (.lex ⟨'\x00', ⟨13, 7, 3⟩⟩) :=
    error_of_map (f := fun _ => ()) (by decide +kernel)
  have hlast : IsPlace [⟨"a", "x\ny"⟩, ⟨"b", ""⟩, ⟨"c", "\n é\x00;"⟩] [⟨"a", "x\ny"⟩, ⟨"b", ""⟩]
      ⟨"c", "\n é\x00;"⟩ "\n é".toList :=
    ⟨⟨[], rfl⟩, ⟨['\x00', ';'], by decide⟩⟩
  refine ⟨?_, by decide, _, hfails, ?_⟩
  · exact (hplaces [⟨"a", "x\ny"⟩] ⟨"b", ""⟩ [] ⟨⟨_, rfl⟩, List.nil_prefix⟩).2
  · rw [herrors {} _ _ _ _ [';'] hfails hlast (by decide) (by decide)]
    decide

end Fragment

end WebIdl
