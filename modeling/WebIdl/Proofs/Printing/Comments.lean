import WebIdl.Layout.Entry
import WebIdl.Proofs.Printing.Balance
import WebIdl.Proofs.Printing.Words

/-!
# Comments in front of a text

The printer takes the comments off that a text starts with. Of a run of trivia it takes each comment
as the lexer saw it, if a line feed ends each line comment, and leaves the blanks out.
-/

namespace WebIdl

open Token Text Lexer

namespace Trivia

/-- A comment as it is printed, without white space at the end of a line. -/
def comment? : Trivia → Option Trivia
  | whitespace _ => none
  | lineComment s => some (lineComment (String.ofList (trimEnd s.toList)))
  | blockComment s => some (blockComment s)

def comments (items : List Trivia) : List Trivia :=
  items.filterMap comment?

end Trivia

namespace Layout

variable {cs rest comment : List Char} {items : List Trivia}

theorem leadingComments_of_none (h : comment? (trimStart cs) = none) :
    leadingComments cs = ([], trim cs) := by
  rw [leadingComments]
  split
  · rfl
  · next heq =>
    rw [h] at heq
    cases heq

theorem leadingComments_of_some (h : comment? (trimStart cs) = some (comment, rest)) :
    leadingComments cs = (comment :: (leadingComments rest).1, (leadingComments rest).2) := by
  rw [leadingComments]
  split
  · next heq =>
    rw [h] at heq
    cases heq
  · next heq =>
    rw [h] at heq
    cases heq
    rfl

/-- White space in front of the comments is skipped. -/
theorem leadingComments_white_append {bs : List Char} (hbs : ∀ c ∈ bs, isWhiteSpace c)
    (cs : List Char) : leadingComments (bs ++ cs) = leadingComments cs := by
  have htrim := trimStart_append hbs cs
  cases hcs : comment? (trimStart cs) with
  | none =>
    rw [leadingComments_of_none hcs, leadingComments_of_none (by rw [htrim, hcs]), trim, htrim, trim]
  | some found =>
    rw [leadingComments_of_some hcs, leadingComments_of_some (by rw [htrim, hcs])]

/-- Text that starts with neither white space nor a comment. -/
structure Bare (cs : List Char) : Prop where
  begun : Begun cs
  plain : cs.head? ≠ some '/'

theorem comment?_of_head (h : cs.head? ≠ some '/') : comment? cs = none := by
  unfold comment?
  split
  · exact absurd rfl h
  · exact absurd rfl h
  · rfl

theorem leadingComments_nil : leadingComments [] = ([], []) :=
  leadingComments_of_none rfl

theorem Bare.leadingComments_eq (h : Bare cs) : leadingComments cs = ([], trimEnd cs) := by
  have hbegun := h.begun.trimStart_eq
  rw [leadingComments_of_none, trim, hbegun]
  rw [hbegun]
  exact comment?_of_head h.plain

theorem isWhiteSpace_of_all_isBlank {bs : List Char} (h : ∀ c ∈ bs, isBlank c) :
    ∀ c ∈ bs, isWhiteSpace c :=
  fun c hc => isWhiteSpace_of_isBlank (h c hc)

theorem takeWhile_ne_append {c : Char} {front back : List Char} (h : c ∉ front) :
    (front ++ c :: back).takeWhile (· != c) = front ∧
      (front ++ c :: back).dropWhile (· != c) = c :: back := by
  have hfront : ∀ a ∈ front, (a != c) = true := by
    intro a ha
    simpa using fun heq : a = c => h (heq ▸ ha)
  rw [List.takeWhile_append_of_pos hfront, List.dropWhile_append_of_pos hfront]
  simp

/-- A line comment reaches to the line feed behind it. -/
theorem comment?_line {s as : List Char} (hs : '\n' ∉ s) (has : '\n' ∉ as)
    (hblank : ∀ c ∈ as, isBlank c) (bs : List Char) :
    comment? ('/' :: '/' :: (s ++ (as ++ '\n' :: bs))) =
      some ('/' :: '/' :: trimEnd s, '\n' :: bs) := by
  have hfeed : '\n' ∉ s ++ as := by simp [hs, has]
  obtain ⟨htake, hdrop⟩ := @takeWhile_ne_append _ _ bs hfeed
  have htrim : trimEnd ('/' :: '/' :: (s ++ as)) = '/' :: '/' :: trimEnd s := by
    have hslash : Ended ['/', '/'] := ended_concat rfl ['/']
    rw [← List.cons_append, ← List.cons_append,
      trimEnd_append (isWhiteSpace_of_all_isBlank hblank)]
    exact trimEnd_append_of_ended hslash s
  rw [← List.append_assoc, comment?, htake, hdrop, htrim]

theorem comment?_block {s : List Char} (hs : CommentBody s) (rest : List Char) :
    comment? ('/' :: '*' :: (s ++ '*' :: '/' :: rest)) =
      some ('/' :: '*' :: (s ++ ['*', '/']), rest) := by
  have hlength : s.length + 2 = (s ++ ['*', '/']).length := by simp
  have happend : s ++ '*' :: '/' :: rest = (s ++ ['*', '/']) ++ rest := by simp
  rw [comment?, blockCommentEnd?_append hs, Option.getD_some, hlength, happend, List.take_left,
    List.drop_left]

/-- The comments of a run are those that the printer finds. -/
theorem leadingComments_run (hrun : Trivia.IsRun items) (hfed : LineFed (Spelling.trivia items))
    (hcs : leadingComments cs = ([], rest)) :
    leadingComments (Trivia.chars items ++ cs) =
      ((Trivia.comments items).map fun t => t.text.toList, rest) := by
  induction hrun with
  | nil => exact hcs
  | @blanks s items _ hb _ _ ih =>
    rw [Trivia.chars_cons, List.append_assoc, Trivia.toList_text_whitespace,
      leadingComments_white_append (isWhiteSpace_of_all_isBlank hb), ih hfed.2]
    rfl
  | @block s items hs _ ih =>
    have hfound := comment?_block hs (Trivia.chars items ++ cs)
    have hbegun : Begun ('/' :: '*' :: (s.toList ++ '*' :: '/' :: (Trivia.chars items ++ cs))) :=
      begun_cons rfl _
    rw [Trivia.chars_cons, Trivia.toList_text_blockComment]
    simp only [List.cons_append, List.append_assoc, List.nil_append]
    rw [leadingComments_of_some (by rw [hbegun.trimStart_eq, hfound]), ih hfed.2]
    simp [Trivia.comments, Trivia.comment?]
  | @line s items hs _ _ ih =>
    have hsource := ih hfed.2
    -- the line feed is among the blanks of the next piece
    obtain ⟨u, hu, hfeed⟩ := hfed.1 (isLineComment_lineComment s)
    cases items with
    | nil => cases hu
    | cons t items =>
      obtain rfl : t.token = u := by simpa using hu
      simp only [isLineFeed, Bool.and_eq_true, List.all_eq_true, List.contains_iff_mem] at hfeed
      obtain ⟨⟨-, hblanks⟩, hmem⟩ := hfeed
      obtain ⟨as, bs, heq, has⟩ := List.eq_append_cons_of_mem hmem
      have hchars : t.text.toList = as ++ '\n' :: bs := heq
      have hs' : '\n' ∉ s.toList := fun hmem => absurd (hs _ hmem) (by decide)
      have hblank : ∀ c ∈ as, isBlank c := fun c hc => hblanks c (by simp [heq, hc])
      have hfound := comment?_line hs' has hblank (bs ++ (Trivia.chars items ++ cs))
      have hbegun : Begun ('/' :: '/' ::
          (s.toList ++ (as ++ '\n' :: (bs ++ (Trivia.chars items ++ cs))))) := begun_cons rfl _
      rw [Trivia.chars_cons, hchars, List.append_assoc, List.append_assoc,
        leadingComments_white_append (isWhiteSpace_of_all_isBlank hblank)] at hsource
      rw [Trivia.chars_cons, Trivia.chars_cons, Trivia.toList_text_lineComment, hchars]
      simp only [List.cons_append, List.append_assoc] at hsource ⊢
      rw [leadingComments_of_some (by rw [hbegun.trimStart_eq, hfound]), hsource]
      simp [Trivia.comments, Trivia.comment?]

end Layout

end WebIdl
