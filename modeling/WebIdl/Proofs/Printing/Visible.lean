import WebIdl.Layout.Print
import WebIdl.Proofs.Printing.Comments

/-!
# What printing leaves in place

Printing moves white space and sets the separators `;` and `,` anew. All other characters of a text
are its visible ones, and they come out as they went in, whatever the text is. The text is cut apart
again and again on the way. Each cut loses its separator at most, or a bracket that is put back.
-/

namespace WebIdl.Layout

open Text

variable {separator wanted : Char} {cs text header body comment rest : List Char}

/-- The characters that are no business of the layout. -/
def isVisible (c : Char) : Bool :=
  !isWhiteSpace c && c != ';' && c != ','

def visible (cs : List Char) : List Char :=
  cs.filter isVisible

@[simp]
theorem visible_nil : visible [] = [] :=
  rfl

@[simp]
theorem visible_append (cs ds : List Char) : visible (cs ++ ds) = visible cs ++ visible ds :=
  List.filter_append cs ds

theorem visible_cons (c : Char) (cs : List Char) : visible (c :: cs) = visible [c] ++ visible cs :=
  visible_append [c] cs

theorem visible_of_hidden {c : Char} (h : isVisible c = false) (cs : List Char) :
    visible (c :: cs) = visible cs :=
  List.filter_cons_of_neg (by simp [h])

theorem isVisible_of_white (c : Char) (h : isWhiteSpace c) : isVisible c = false := by
  simp [isVisible, h]

theorem visible_trimEnd (cs : List Char) : visible (trimEnd cs) = visible cs :=
  filter_trimEnd isVisible_of_white cs

@[simp]
theorem visible_trim (cs : List Char) : visible (trim cs) = visible cs :=
  filter_trim isVisible_of_white cs

/-! ## Cuts -/

theorem visible_splitMarked (hsep : isVisible separator = false) (fs : List (Char × Bool)) :
    visible (splitMarked separator fs).1.flatten ++ visible (splitMarked separator fs).2 =
      visible (fs.map Prod.fst) := by
  induction fs with
  | nil => rfl
  | cons f fs ih =>
    obtain ⟨c, exposed⟩ := f
    rw [List.map_cons, splitMarked]
    generalize splitMarked separator fs = cut at ih ⊢
    obtain ⟨pieces, last⟩ := cut
    dsimp only at ih ⊢
    split
    · next hcut =>
      have hc : c = separator := by
        rw [Bool.and_eq_true, beq_iff_eq] at hcut
        exact hcut.2
      rw [hc, visible_of_hidden hsep, ← ih]
      rfl
    · cases pieces with
      | nil =>
        dsimp only
        rw [visible_cons c, visible_cons c (fs.map _), ← ih]
        rfl
      | cons piece more =>
        dsimp only
        rw [visible_cons c (fs.map _), ← ih, List.flatten_cons, List.cons_append,
          visible_cons c (piece ++ _), List.append_assoc]
        rfl

/-- Splitting loses nothing but separators. -/
theorem visible_split (hsep : isVisible separator = false) (cs : List Char) :
    visible (split separator cs).1.flatten ++ visible (split separator cs).2 = visible cs := by
  rw [split, visible_splitMarked hsep, exposure, map_fst_expose]

/-- A cut text is put together again by the character that it was cut at. -/
theorem eq_of_cutAt?_eq_some {front back : List Char} (h : cutAt? wanted cs = some (front, back)) :
    front ++ wanted :: back = cs := by
  have hcs : (exposure cs).map Prod.fst = cs := map_fst_expose _ cs
  unfold cutAt? at h
  rw [List.span_eq_takeWhile_dropWhile] at h
  split at h
  · cases h
  · next marked c after heq =>
    obtain ⟨rfl, hdrop⟩ := Prod.mk.inj heq
    cases h
    have hc : c.1 = wanted := by
      have hhead := List.head?_dropWhile_not (fun f : Char × Bool => !(f.2 && f.1 == wanted))
        (exposure cs)
      rw [hdrop] at hhead
      simp only [List.head?_cons, Bool.not_eq_false', Bool.and_eq_true, beq_iff_eq] at hhead
      exact hhead.2
    have hmarked := List.takeWhile_append_dropWhile
      (p := fun f : Char × Bool => !(f.2 && f.1 == wanted)) (l := exposure cs)
    rw [hdrop] at hmarked
    rw [← hmarked, List.map_append, List.map_cons, hc] at hcs
    exact hcs

theorem visible_of_comment?_eq_some (h : comment? cs = some (comment, rest)) :
    visible comment ++ visible rest = visible cs := by
  unfold comment? at h
  split at h
  · next tail =>
    cases h
    rw [visible_trimEnd, ← visible_append]
    simp only [List.cons_append, List.takeWhile_append_dropWhile]
  · next tail =>
    cases h
    rw [← visible_append]
    simp only [List.cons_append, List.take_append_drop]
  · cases h

theorem visible_leadingComments (cs : List Char) :
    visible (leadingComments cs).1.flatten ++ visible (leadingComments cs).2 = visible cs := by
  fun_induction leadingComments cs with
  | case1 cs h => exact visible_trim cs
  | case2 cs comment rest h comments text heq ih =>
    rw [heq] at ih
    rw [List.flatten_cons, visible_append, List.append_assoc, ih, visible_of_comment?_eq_some h]
    exact filter_trimStart isVisible_of_white cs

/-- A block is its header and its body in braces. -/
theorem visible_of_block?_eq_some (h : block? text = some (header, body)) :
    visible header ++ '\x7b' :: (visible body ++ ['\x7d']) = visible text := by
  have hopen : isVisible '\x7b' = true := rfl
  have hclose : isVisible '\x7d' = true := rfl
  unfold block? at h
  obtain ⟨⟨front, back⟩, hcut, h⟩ := Option.bind_eq_some_iff.mp h
  dsimp only at h
  split at h
  · next inner heq =>
    cases h
    have hback : trimEnd back = inner.reverse ++ ['\x7d'] := by
      rw [← List.reverse_reverse (trimEnd back), heq, List.reverse_cons]
    have hbody : visible back = visible inner.reverse ++ ['\x7d'] := by
      rw [← visible_trimEnd, hback, visible_append]
      simp [visible, hclose]
    rw [← eq_of_cutAt?_eq_some hcut, visible_append, visible_cons, hbody, visible_trim]
    simp [visible, hopen]
  · cases h

/-! ## Lines -/

/-- The text of an entry, whichever kind it is of. -/
def Entry.chars : Entry → List Char
  | .comment text => text
  | .declaration text => text

theorem visible_pieceEntries (piece : List Char) :
    visible ((pieceEntries piece).flatMap Entry.chars) = visible piece := by
  have hcomments : ∀ comments : List (List Char),
      (comments.map Entry.comment).flatMap Entry.chars = comments.flatten := by
    intro comments
    rw [List.flatMap_map]
    exact List.flatMap_id
  rw [← visible_leadingComments piece, pieceEntries, List.flatMap_append, visible_append, hcomments]
  split
  · next hnil => rw [List.isEmpty_iff.mp hnil, List.flatMap_nil]
  · rw [List.flatMap_singleton, Entry.chars]

theorem visible_entries (hsep : isVisible separator = false) (body : List Char) :
    visible ((entries separator body).flatMap Entry.chars) = visible body := by
  have hpieces : ∀ pieces : List (List Char),
      visible ((pieces.flatMap pieceEntries).flatMap Entry.chars) = visible pieces.flatten := by
    intro pieces
    induction pieces with
    | nil => rfl
    | cons piece pieces ih =>
      rw [List.flatMap_cons, List.flatMap_append, visible_append, visible_pieceEntries, ih,
        List.flatten_cons, visible_append]
  rw [entries, hpieces, List.flatten_append, List.flatten_singleton, visible_append,
    visible_split hsep]

/-- A dictionary member is put together of its fields as it was taken apart. -/
theorem filter_fieldLine_ofDeclaration {p : Char → Bool} (hp : ∀ c, isWhiteSpace c → p c = false)
    (width : Nat) (text : List Char) :
    (fieldLine width (FieldText.ofDeclaration text)).filter p = text.filter p := by
  have hspace : [' '].filter p = [] := filter_of_white hp (by simp; rfl)
  -- the words in front of the name and the name are all the words
  have hwords : ∀ front : List Char,
      (unwords (words front).dropLast).filter p ++ ((words front).getLastD []).filter p =
        front.filter p := by
    intro front
    rw [filter_unwords hp, ← List.filter_append, ← filter_flatten_words hp front]
    rcases List.eq_nil_or_concat (words front) with hnil | ⟨ws, w, hws⟩
    · rw [hnil]
      rfl
    · rw [hws, List.concat_eq_append]
      simp
  have hcolumn : ∀ type name : List Char,
      (if type.isEmpty then name else padEnd width type ++ ' ' :: name).filter p =
        type.filter p ++ name.filter p := by
    intro type name
    split
    · next hnil => rw [List.isEmpty_iff.mp hnil, List.filter_nil, List.nil_append]
    · rw [List.filter_append, filter_padEnd hp, ← List.singleton_append, List.filter_append, hspace,
        List.nil_append]
  rw [fieldLine, List.filter_append, hcolumn, FieldText.ofDeclaration]
  cases hcut : cutAt? '=' text with
  | none =>
    dsimp only
    rw [hwords, List.filter_nil, List.append_nil]
  | some cut =>
    obtain ⟨front, back⟩ := cut
    have hdefault : (' ' :: '=' :: ' ' :: trim back).filter p = ('=' :: back).filter p := by
      have hsource : ' ' :: '=' :: ' ' :: trim back = [' '] ++ ['='] ++ [' '] ++ trim back := rfl
      rw [hsource, List.filter_append, List.filter_append, List.filter_append, hspace, filter_trim hp,
        List.nil_append, List.append_nil, ← List.filter_append, List.singleton_append]
    dsimp only
    rw [hwords, hdefault, ← List.filter_append, eq_of_cutAt?_eq_some hcut]

theorem visible_concat_of_hidden {c : Char} (h : isVisible c = false) (cs : List Char) :
    visible (cs ++ [c]) = visible cs := by
  rw [visible_append, visible_of_hidden h, visible_nil, List.append_nil]

theorem visible_dictionaryLines (es : List Entry) :
    visible (dictionaryLines es).flatten = visible (es.flatMap Entry.chars) := by
  rw [dictionaryLines]
  generalize columnWidth es = width
  induction es with
  | nil => rfl
  | cons e es ih =>
    rw [List.map_cons, List.flatten_cons, visible_append, ih, List.flatMap_cons, visible_append]
    cases e with
    | comment text => rfl
    | declaration text =>
      dsimp only
      rw [visible_concat_of_hidden rfl, Entry.chars]
      exact congrArg (· ++ _) (filter_fieldLine_ofDeclaration isVisible_of_white width text)

theorem visible_memberLines (es : List Entry) :
    visible (memberLines es).flatten = visible (es.flatMap Entry.chars) := by
  rw [memberLines]
  induction es with
  | nil => rfl
  | cons e es ih =>
    rw [List.map_cons, List.flatten_cons, visible_append, ih, List.flatMap_cons, visible_append]
    cases e with
    | comment text => rfl
    | declaration text =>
      dsimp only
      rw [visible_concat_of_hidden rfl, Entry.chars]

theorem visible_enumLines (es : List Entry) :
    visible (enumLines es).flatten = visible (es.flatMap Entry.chars) := by
  induction es with
  | nil => rfl
  | cons e es ih =>
    cases e with
    | comment text =>
      rw [enumLines, List.flatten_cons, visible_append, ih, List.flatMap_cons, visible_append]
      rfl
    | declaration text =>
      have hcomma : visible (if es.any Entry.isDeclaration then [','] else []) = [] := by
        split <;> rfl
      rw [enumLines, List.flatten_cons, visible_append, ih, List.flatMap_cons, visible_append,
        visible_append, hcomma, List.append_nil, Entry.chars]

theorem visible_bodyLines (keyword body : List Char) :
    visible (bodyLines keyword body).flatten = visible body := by
  rw [bodyLines]
  split
  · rw [visible_dictionaryLines, visible_entries rfl]
  · split
    · rw [visible_enumLines, visible_entries rfl]
    · rw [visible_memberLines, visible_entries rfl]

theorem visible_indentLines (indent : Nat) (lines : List (List Char)) :
    visible (indentLines indent lines) = visible lines.flatten := by
  have hindent : visible (List.replicate indent ' ') = [] := filter_padEnd isVisible_of_white indent []
  have hfeed : isVisible '\n' = false := rfl
  induction lines with
  | nil => rfl
  | cons line lines ih =>
    rw [indentLines, List.flatMap_cons, ← indentLines, visible_append, ih,
      visible_concat_of_hidden hfeed, visible_append, hindent, List.nil_append, List.flatten_cons,
      visible_append]

/-! ## Statements -/

theorem visible_statement (indent : Nat) (text : List Char) :
    visible (statement indent text) = visible text := by
  have hopen : visible " \x7b\n".toList = ['\x7b'] := rfl
  have hclose : visible "\x7d;\n\n".toList = ['\x7d'] := rfl
  have hend : visible ";\n\n".toList = [] := rfl
  rw [statement]
  cases hblock : block? text with
  | some found =>
    obtain ⟨header, body⟩ := found
    dsimp only
    rw [visible_append, visible_append, visible_append, hopen, hclose, visible_indentLines,
      visible_bodyLines, ← visible_of_block?_eq_some hblock]
    simp
  | none =>
    dsimp only
    split
    · next hnil => rw [← visible_trim text, List.isEmpty_iff.mp hnil]
    · rw [visible_append, visible_trim, hend, List.append_nil]

theorem visible_remainder (text : List Char) : visible (remainder text) = visible text := by
  unfold remainder
  dsimp only
  split
  · next hnil => rw [← visible_trim text, List.isEmpty_iff.mp hnil]
  · rw [visible_concat_of_hidden rfl, visible_trim]

theorem visible_printChars (indent : Nat) (cs : List Char) :
    visible (printChars indent cs) = visible cs := by
  have hstatements : ∀ texts : List (List Char),
      visible (texts.flatMap (statement indent)) = visible texts.flatten := by
    intro texts
    induction texts with
    | nil => rfl
    | cons text texts ih =>
      rw [List.flatMap_cons, visible_append, visible_statement, ih, List.flatten_cons,
        visible_append]
  rw [printChars, visible_append, hstatements, visible_remainder, visible_split rfl]

/-- Any text at all, at any indentation, keeps its visible characters and their order. -/
theorem visible_print (indent : Nat) (text : String) :
    visible (print indent text).toList = visible text.toList := by
  rw [print, String.toList_ofList, visible_printChars]

end WebIdl.Layout
