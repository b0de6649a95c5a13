import WebIdl.Layout.Print
import WebIdl.Proofs.Printing.Comments

/-!
# Printing a block

A block is a header, and a body of entries with a run of trivia in front of each. Told what line
each entry makes, the printed block is known: every comment and every entry stands on a line of its
own.
-/

namespace WebIdl

open Token Text Lexer

namespace Trivia

/-- The run without blanks at its start. -/
def dropBlanks : List Trivia → List Trivia
  | whitespace _ :: items => items
  | items => items

/-- The start of a line. -/
def lineStart (indent : Nat) : Trivia :=
  whitespace (String.ofList ('\n' :: List.replicate indent ' '))

/-- The comments, each on a line of its own. -/
def onLines (indent : Nat) (items : List Trivia) : List Trivia :=
  (comments items).flatMap fun t => [lineStart indent, t]

/-- The comments on lines of their own, in front of one more line. -/
def leadLines (indent : Nat) (items : List Trivia) : List Trivia :=
  onLines indent items ++ [lineStart indent]

/-- The comments on lines of their own, in front of a line without indentation. -/
def lastLines (indent : Nat) (items : List Trivia) : List Trivia :=
  onLines indent items ++ [lineStart 0]

theorem chars_append (xs ys : List Trivia) : chars (xs ++ ys) = chars xs ++ chars ys := by
  simp [chars]

theorem IsRun.dropBlanks {items : List Trivia} (h : IsRun items) : IsRun (dropBlanks items) := by
  cases h with
  | nil => exact .nil
  | blanks _ _ _ h => exact h
  | line hs hnext h => exact .line hs hnext h
  | block hs h => exact .block hs h

theorem lineFed_dropBlanks {items : List Trivia} (h : LineFed (Spelling.trivia items)) :
    LineFed (Spelling.trivia (dropBlanks items)) := by
  cases items with
  | nil => exact h
  | cons t items =>
    cases t with
    | whitespace s => exact h.2
    | lineComment s | blockComment s => exact h

/-- A run that starts with no blank starts with a comment. -/
theorem begun_chars_append {items : List Trivia} {cs : List Char} (h : IsRun items)
    (hfirst : ∀ c ∈ (chars items).head?, isBlank c = false) (hcs : Begun cs) :
    Begun (chars items ++ cs) := by
  have hslash : isWhiteSpace '/' = false := by decide
  cases h with
  | nil => exact hcs
  | @blanks s _ hne hb =>
    obtain ⟨c, tail, hs⟩ := List.exists_cons_of_ne_nil hne
    have hc := hfirst c (by simp [hs])
    rw [hb c (by simp [hs])] at hc
    cases hc
  | line =>
    rw [chars_cons, toList_text_lineComment]
    exact begun_cons hslash _
  | block =>
    rw [chars_cons, toList_text_blockComment]
    exact begun_cons hslash _

/-- Trimming takes the blanks off at the start of a run. -/
theorem trimStart_chars_append {items : List Trivia} {cs : List Char} (h : IsRun items)
    (hcs : Begun cs) : trimStart (chars items ++ cs) = chars (dropBlanks items) ++ cs := by
  cases h with
  | nil => exact hcs.trimStart_eq
  | @blanks s items hne hb hnext h =>
    rw [chars_cons, List.append_assoc, toList_text_whitespace,
      trimStart_append (Layout.isWhiteSpace_of_all_isBlank hb),
      (begun_chars_append h hnext hcs).trimStart_eq]
    rfl
  | line hs hnext h =>
    exact (begun_chars_append (.line hs hnext h) (by simp [isBlank]) hcs).trimStart_eq
  | block hs h =>
    exact (begun_chars_append (.block hs h) (by simp [isBlank]) hcs).trimStart_eq

end Trivia

namespace Layout

open Trivia

variable {cs ds inner after rest header body : List Char} {items closing : List Trivia}

theorem skipAttributes_of_head (h : cs.head? ≠ some '[') : skipAttributes cs = cs := by
  have hfst : (exposure cs).map Prod.fst = cs := map_fst_expose _ _
  unfold skipAttributes
  split
  · next heq =>
    rw [heq, List.map_cons] at hfst
    exact absurd (by rw [← hfst]; rfl) h
  · rfl

/-- Attributes are skipped with the white space and the comments behind them. -/
theorem skipAttributes_bracketed {P : Char → Prop} {c : Char} (hinner : Passes P inner)
    (hafter : Passes (isWhiteSpace ·) after) (hc : IsPlain c) (hsolid : isWhiteSpace c = false) :
    skipAttributes ('[' :: (inner ++ ']' :: (after ++ c :: rest))) = c :: rest := by
  obtain ⟨fs, heq, -, hfs⟩ := hinner 1 (']' :: (after ++ c :: rest))
  obtain ⟨gs, heq', -, hgs⟩ := hafter 0 (c :: rest)
  have hbracket : ('[', ']') ∈ brackets := by decide
  have hexposure : exposure ('[' :: (inner ++ ']' :: (after ++ c :: rest))) =
      ('[', true) :: (fs ++ (']', false) :: (gs ++ (c, true) :: expose (.code 0) rest)) := by
    rw [exposure, expose_opening hbracket, heq, expose_closing hbracket, heq', expose_plain 0 hc]
    rfl
  have hskip : ∀ f ∈ fs ++ (']', false) :: gs, (!(f.2 && !isWhiteSpace f.1)) = true := by
    rintro ⟨x, exposed⟩ hf
    cases exposed with
    | false => rfl
    | true =>
      simp only [List.mem_append, List.mem_cons] at hf
      rcases hf with hf | hf | hf
      · exact absurd (hfs _ hf rfl).1 (by simp)
      · cases hf
      · simpa using (hgs _ hf rfl).2
  unfold skipAttributes
  rw [hexposure]
  have hsplit : fs ++ (']', false) :: (gs ++ (c, true) :: expose (.code 0) rest) =
      (fs ++ (']', false) :: gs) ++ (c, true) :: expose (.code 0) rest := by simp
  simp only [hsplit]
  rw [List.dropWhile_append_of_pos hskip, List.dropWhile_cons_of_neg (by simp [hsolid]),
    List.map_cons, map_fst_expose]

/-- A body is all that stands between the braces. -/
theorem block?_braced (hheader : Passes (· ≠ '\x7b') cs) (inner : List Char) :
    block? (cs ++ '\x7b' :: (inner ++ ['\x7d'])) = some (trim cs, inner) := by
  have hbrace : ('\x7b', '\x7d') ∈ brackets := by decide
  have hended : Ended (inner ++ ['\x7d']) := ended_concat rfl inner
  rw [block?, cutAt?_append hheader (expose_opening hbrace 0 _)]
  simp only [Option.bind_eq_bind, Option.bind_some, hended.trimEnd_eq, List.reverse_append,
    List.reverse_singleton, List.singleton_append, List.reverse_reverse]

theorem definitionKeyword_run (hrun : IsRun items) (hfed : LineFed (Spelling.trivia items))
    (hbare : Bare cs) (hended : Ended cs) :
    definitionKeyword (chars items ++ cs) = (skipPartial (skipAttributes cs)).takeWhile isWordPart := by
  rw [definitionKeyword, leadingComments_run hrun hfed hbare.leadingComments_eq, hended.trimEnd_eq]

/-- The printed comments of a run. -/
def commentTexts (items : List Trivia) : List (List Char) :=
  (comments items).map fun t => t.text.toList

theorem chars_onLines (indent : Nat) (items : List Trivia) :
    chars (onLines indent items) =
      (commentTexts items).flatMap fun line => '\n' :: (List.replicate indent ' ' ++ line) := by
  rw [onLines, commentTexts, Trivia.chars, List.flatMap_assoc, List.flatMap_map]
  simp [lineStart]

/-- A declaration behind its trivia. -/
theorem pieceEntries_run (hrun : IsRun items) (hfed : LineFed (Spelling.trivia items))
    (hbare : Bare cs) :
    pieceEntries (chars items ++ cs) =
      (commentTexts items).map .comment ++ [.declaration (trimEnd cs)] := by
  have hne : trimEnd cs ≠ [] := by
    obtain ⟨c, hc, hsolid⟩ := hbare.begun
    obtain ⟨tail, rfl⟩ := List.head?_eq_some_iff.mp hc
    have hended : Ended [c] := ended_concat hsolid []
    rw [← List.singleton_append, trimEnd_append_of_ended hended]
    simp
  rw [pieceEntries, leadingComments_run hrun hfed hbare.leadingComments_eq]
  simp [commentTexts, hne]

/-- Trivia in front of the end of a body. -/
theorem pieceEntries_closing (hrun : IsRun items) (hfed : LineFed (Spelling.trivia items)) :
    pieceEntries (chars items) = (commentTexts items).map .comment := by
  have hempty := leadingComments_run hrun hfed leadingComments_nil
  rw [List.append_nil] at hempty
  simp [pieceEntries, hempty, commentTexts]

section Bodies

variable {γ : Type} {lead : γ → List Trivia}

/-- The lines of a body, with the comments in front of each. -/
def linesOf (lead : γ → List Trivia) (line : γ → List Char) (gs : List γ) (closing : List Trivia) :
    List (List Char) :=
  gs.flatMap (fun g => commentTexts (lead g) ++ [line g]) ++ commentTexts closing

/-- A line feed in front of each line is as good as one behind it. -/
theorem indentLines_eq (indent : Nat) (lines : List (List Char)) :
    '\n' :: indentLines indent lines =
      lines.flatMap (fun line => '\n' :: (List.replicate indent ' ' ++ line)) ++ ['\n'] := by
  induction lines with
  | nil => rfl
  | cons line lines ih =>
    rw [indentLines, List.flatMap_cons, ← indentLines, List.flatMap_cons, List.append_assoc,
      List.append_assoc, List.singleton_append, ih]
    simp

theorem indentLines_linesOf (indent : Nat) (line : γ → List Char) (gs : List γ) :
    '\n' :: indentLines indent (linesOf lead line gs closing) =
      gs.flatMap (fun g => chars (leadLines indent (lead g)) ++ line g) ++
        chars (lastLines indent closing) := by
  have hstart : chars [lineStart indent] = '\n' :: List.replicate indent ' ' := by simp [lineStart]
  have hlast : chars [lineStart 0] = ['\n'] := by simp [lineStart]
  rw [indentLines_eq, linesOf, List.flatMap_append, List.flatMap_assoc, lastLines, chars_append,
    hlast, chars_onLines, List.append_assoc]
  congr 1
  apply List.flatMap_congr
  intro g _
  rw [leadLines, chars_append, hstart, chars_onLines, List.flatMap_append]
  simp

/-- A block is printed line by line, behind its header. -/
theorem statement_block {indent : Nat} {line : γ → List Char} {gs : List γ} (hrun : IsRun items)
    (hbegun : Begun cs) (hended : Ended cs)
    (hpasses : Passes (· ≠ '\x7b') (chars items ++ (cs ++ [' '])))
    (hlines : bodyLines (definitionKeyword (chars (dropBlanks items) ++ cs)) body =
      linesOf lead line gs closing) :
    statement indent (chars items ++ (cs ++ ' ' :: '\x7b' :: (body ++ ['\x7d']))) =
      chars (dropBlanks items) ++ (cs ++ ' ' :: '\x7b' ::
        (gs.flatMap (fun g => chars (leadLines indent (lead g)) ++ line g) ++
          chars (lastLines indent closing) ++ "\x7d;\n\n".toList)) := by
  have hspace : ∀ c ∈ [' '], isWhiteSpace c := by simp; rfl
  have htrim : trim (chars items ++ (cs ++ [' '])) = chars (dropBlanks items) ++ cs := by
    rw [trim, trimStart_chars_append hrun (hbegun.append _), ← List.append_assoc,
      trimEnd_append hspace, (hended.append_left _).trimEnd_eq]
  have hsource : chars items ++ (cs ++ ' ' :: '\x7b' :: (body ++ ['\x7d'])) =
      (chars items ++ (cs ++ [' '])) ++ '\x7b' :: (body ++ ['\x7d']) := by simp
  have hopen : " \x7b\n".toList = [' ', '\x7b', '\n'] := rfl
  rw [statement, hsource, block?_braced hpasses]
  simp only [htrim, hlines, hopen, List.append_assoc, List.cons_append, List.nil_append]
  rw [← List.cons_append, indentLines_linesOf]
  simp only [List.append_assoc]

end Bodies

/-- A statement without a body is only trimmed. -/
theorem statement_plain {indent : Nat} (hrun : IsRun items) (hbegun : Begun cs) (hended : Ended cs)
    (hpasses : Passes (· ≠ '\x7b') (chars items ++ cs)) :
    statement indent (chars items ++ cs) =
      chars (dropBlanks items) ++ (cs ++ ";\n\n".toList) := by
  have hnone : block? (chars items ++ cs) = none := by
    rw [block?, cutAt?_of_passes hpasses]
    rfl
  have htrim : trim (chars items ++ cs) = chars (dropBlanks items) ++ cs := by
    rw [trim, trimStart_chars_append hrun hbegun, (hended.append_left _).trimEnd_eq]
  have hne := hended.ne_nil
  rw [statement, hnone]
  simp [htrim, hne]

end Layout

end WebIdl
