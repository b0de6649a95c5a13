import WebIdl.Proofs.Printing.Headers

/-!
# Printing enum values

A comma follows every value but the last, whether it did so before or not. A line comment behind a
value takes the comma in, which the grammar can do without.
-/

namespace WebIdl

open Token Lexer Spelling Grammar
open Text hiding words

namespace Trivia

/-- The run without white space at its end. -/
def trimLast : List Trivia → List Trivia
  | [] => []
  | t :: items =>
    if (trimLast items).isEmpty then (comment? t).toList else t :: trimLast items

theorem trimEnd_line (cs : List Char) : trimEnd ('/' :: '/' :: cs) = '/' :: '/' :: trimEnd cs := by
  have hslash : Ended ['/', '/'] := ended_concat rfl ['/']
  exact trimEnd_append_of_ended hslash cs

theorem chars_comment? {t : Trivia} (ht : t.IsPiece) :
    chars (comment? t).toList = trimEnd t.text.toList := by
  cases ht with
  | blanks _ hb => exact (trimEnd_of_white (Layout.isWhiteSpace_of_all_isBlank hb)).symm
  | line => simp [comment?, trimEnd_line]
  | @block s hs =>
    have hended : Ended (blockComment s).text.toList := by
      rw [toList_text_blockComment, ← List.cons_append, ← List.cons_append, List.append_cons]
      exact ended_concat rfl _
    rw [hended.trimEnd_eq]
    simp [comment?]

theorem IsPiece.toList_text_ne_nil {t : Trivia} (ht : t.IsPiece) : t.text.toList ≠ [] := by
  cases ht with
  | blanks hne _ => exact hne
  | line | block => simp

/-- Trimming the pieces trims the text. -/
theorem chars_trimLast {items : List Trivia} (h : ∀ t ∈ items, t.IsPiece) :
    chars (trimLast items) = trimEnd (chars items) ∧
      ((trimLast items).isEmpty ↔ trimEnd (chars items) = []) := by
  induction items with
  | nil => exact ⟨rfl, by simp [trimLast, trimEnd]⟩
  | cons t items ih =>
    obtain ⟨ht, hitems⟩ := List.forall_mem_cons.mp h
    obtain ⟨hchars, hempty⟩ := ih hitems
    rw [trimLast, chars_cons, trimEnd_append_eq]
    by_cases hnil : (trimLast items).isEmpty
    · rw [if_pos hnil, if_pos (hempty.mp hnil)]
      refine ⟨chars_comment? ht, ?_⟩
      cases ht with
      | blanks _ hb =>
        simp [comment?, trimEnd_of_white (Layout.isWhiteSpace_of_all_isBlank hb)]
      | line => simp [comment?, trimEnd_line]
      | block hs =>
        rw [← chars_comment? (.block hs)]
        simp [comment?]
    · rw [if_neg hnil, if_neg fun heq => hnil (hempty.mpr heq), chars_cons, hchars]
      simp [ht.toList_text_ne_nil]

theorem head?_trimEnd {cs : List Char} {c : Char} (h : c ∈ (trimEnd cs).head?) : c ∈ cs.head? := by
  obtain ⟨tail, htail⟩ := List.head?_eq_some_iff.mp h
  obtain ⟨rest, hrest⟩ := trimEnd_isPrefix cs
  rw [← hrest, htail]
  rfl

theorem IsRun.trimLast {items : List Trivia} (h : IsRun items) : IsRun (trimLast items) := by
  have hline : ∀ {s : String}, (∀ c ∈ s.toList, isLineBreak c = false) →
      ∀ c ∈ (String.ofList (trimEnd s.toList)).toList, isLineBreak c = false := by
    intro s hs c hc
    rw [String.toList_ofList] at hc
    exact hs c ((trimEnd_isPrefix s.toList).subset hc)
  induction h with
  | nil => exact .nil
  | @blanks s items hne hb hnext hitems ih =>
    rw [Trivia.trimLast]
    split
    · exact .nil
    · refine .blanks hne hb (fun c hc => ?_) ih
      rw [(chars_trimLast hitems.isPiece).1] at hc
      exact hnext c (head?_trimEnd hc)
  | @line s items hs hnext hitems ih =>
    rw [Trivia.trimLast]
    split
    · exact .line (hline hs) (by simp) .nil
    · refine .line hs (fun c hc => ?_) ih
      rw [(chars_trimLast hitems.isPiece).1] at hc
      exact hnext c (head?_trimEnd hc)
  | block hs _ ih =>
    rw [Trivia.trimLast]
    split
    · exact .block hs .nil
    · exact .block hs ih

/-- No blanks are left at the end of a trimmed run. -/
theorem getLast?_trimLast (items : List Trivia) :
    ∀ t ∈ (trimLast items).getLast?, ∀ s, t ≠ whitespace s := by
  induction items with
  | nil => simp [trimLast]
  | cons t items ih =>
    rw [trimLast]
    split
    · cases t <;> simp [comment?]
    · next hne =>
      have hne : trimLast items ≠ [] := by simpa using hne
      rwa [List.getLast?_cons_of_ne_nil hne]

/-- Two runs make one if neither blanks nor a comment of the first go on in the second. -/
theorem IsRun.append {xs ys : List Trivia} (hxs : IsRun xs) (hys : IsRun ys)
    (hlast : ∀ t ∈ xs.getLast?, ∀ s, t ≠ whitespace s)
    (hhead : ∀ c ∈ (chars ys).head?, isLineBreak c) : IsRun (xs ++ ys) := by
  have hnext : ∀ {xs : List Trivia}, xs ≠ [] → IsRun xs →
      (chars (xs ++ ys)).head? = (chars xs).head? := by
    intro xs hne hxs
    rw [chars_append, Numeral.head?_append_of_ne_nil (hxs.chars_ne_nil hne)]
  induction hxs with
  | nil => exact hys
  | @blanks s items hne hb hfollow hitems ih =>
    have hitems' : items ≠ [] := by
      rintro rfl
      exact hlast _ rfl s rfl
    rw [List.cons_append]
    refine .blanks hne hb ?_ (ih fun t ht => hlast t ?_)
    · rwa [hnext hitems' hitems]
    · rwa [List.getLast?_cons_of_ne_nil hitems']
  | @line s items hs hfollow hitems ih =>
    rw [List.cons_append]
    refine .line hs ?_ (ih fun t ht => hlast t ?_)
    · by_cases hitems' : items = []
      · subst hitems'
        exact hhead
      · rwa [hnext hitems' hitems]
    · exact List.mem_getLast?_cons ht
  | @block s items hs hitems ih =>
    exact .block hs (ih fun t ht => hlast t (List.mem_getLast?_cons ht))

/-- A line comment at the end of a run takes in what follows on the line. -/
def isOpen : List Trivia → Bool
  | [] => false
  | [lineComment _] => true
  | _ :: items => isOpen items

/-- The run with the comma that the comment at its end takes in. -/
def takeComma : List Trivia → List Trivia
  | [] => []
  | [lineComment s] => [lineComment (s ++ ",")]
  | t :: items => t :: takeComma items

theorem isOpen_cons {t : Trivia} {items : List Trivia} (hne : items ≠ []) :
    isOpen (t :: items) = isOpen items := by
  cases items with
  | nil => exact absurd rfl hne
  | cons u us => cases t <;> rfl

theorem takeComma_cons {t : Trivia} {items : List Trivia} (hne : items ≠ []) :
    takeComma (t :: items) = t :: takeComma items := by
  cases items with
  | nil => exact absurd rfl hne
  | cons u us => cases t <;> rfl

theorem closed_of_isOpen {items : List Trivia} (h : isOpen items = false) : Closed items := by
  induction items with
  | nil => trivial
  | cons t items ih =>
    by_cases hne : items = []
    · subst hne
      cases t with
      | lineComment s => cases h
      | _ => trivial
    · rw [isOpen_cons hne] at h
      exact (ih h).of_ne_nil hne

theorem takeComma_of_closed {items : List Trivia} (h : isOpen items = false) :
    takeComma items = items := by
  induction items with
  | nil => rfl
  | cons t items ih =>
    by_cases hne : items = []
    · subst hne
      cases t with
      | lineComment s => cases h
      | _ => rfl
    · rw [isOpen_cons hne] at h
      rw [takeComma_cons hne, ih h]

theorem chars_takeComma {items : List Trivia} (h : isOpen items) :
    chars (takeComma items) = chars items ++ [','] := by
  induction items with
  | nil => cases h
  | cons t items ih =>
    by_cases hne : items = []
    · subst hne
      cases t with
      | lineComment s => simp [takeComma]
      | _ => cases h
    · rw [isOpen_cons hne] at h
      rw [takeComma_cons hne, chars_cons, ih h, chars_cons, List.append_assoc]

theorem takeComma_ne_nil {items : List Trivia} (h : items ≠ []) : takeComma items ≠ [] := by
  obtain ⟨t, items, rfl⟩ := List.exists_cons_of_ne_nil h
  by_cases hne : items = []
  · subst hne
    cases t <;> simp [takeComma]
  · simp [takeComma_cons hne]

theorem getLast?_takeComma {items : List Trivia} (h : isOpen items) :
    ∀ t ∈ (takeComma items).getLast?, ∀ s, t ≠ whitespace s := by
  induction items with
  | nil => cases h
  | cons t items ih =>
    by_cases hne : items = []
    · subst hne
      cases t with
      | lineComment s => simp [takeComma]
      | _ => cases h
    · rw [isOpen_cons hne] at h
      rw [takeComma_cons hne, List.getLast?_cons_of_ne_nil (takeComma_ne_nil hne)]
      exact ih h

theorem IsRun.takeComma {items : List Trivia} (h : IsRun items) : IsRun (takeComma items) := by
  cases hopen : isOpen items with
  | false => rwa [takeComma_of_closed hopen]
  | true =>
    have hhead : ∀ {items : List Trivia}, items ≠ [] → IsRun items → isOpen items →
        (chars (Trivia.takeComma items)).head? = (chars items).head? := by
      intro items hne hitems hopen
      rw [chars_takeComma hopen, Numeral.head?_append_of_ne_nil (hitems.chars_ne_nil hne)]
    induction h with
    | nil => exact .nil
    | @blanks s items hne hb hnext hitems ih =>
      have hne' : items ≠ [] := by
        rintro rfl
        cases hopen
      rw [isOpen_cons hne'] at hopen
      rw [takeComma_cons hne']
      exact .blanks hne hb (by rwa [hhead hne' hitems hopen]) (ih hopen)
    | @line s items hs hnext hitems ih =>
      by_cases hne : items = []
      · subst hne
        refine .line (fun c hc => ?_) (by simp) .nil
        rw [String.toList_append] at hc
        rcases List.mem_append.mp hc with hc | hc
        · exact hs c hc
        · obtain rfl : c = ',' := by simpa using hc
          rfl
      · rw [isOpen_cons hne] at hopen
        rw [takeComma_cons hne]
        exact .line hs (by rwa [hhead hne hitems hopen]) (ih hopen)
    | @block s items hs hitems ih =>
      have hne : items ≠ [] := by
        rintro rfl
        cases hopen
      rw [isOpen_cons hne] at hopen
      rw [takeComma_cons hne]
      exact .block hs (ih hopen)

end Trivia

namespace Spelling

/-- What is printed behind a value: the trivia, trimmed, and a comma. -/
def valueEnd (trailing : List Trivia) (comma : Bool) : List Token :=
  let items := Trivia.trimLast trailing
  if comma then
    trivia (Trivia.takeComma items) ++ (if Trivia.isOpen items then [] else [mark ","])
  else trivia items

/-- A value as it is printed. -/
def valueTokens (v : EnumValue × Bool) : List Token :=
  quoted v.1.value :: valueEnd v.1.trailing v.2

/-- Whether a comma is read behind the printed value. -/
def keepsComma (v : EnumValue × Bool) : Bool :=
  v.2 && !Trivia.isOpen (Trivia.trimLast v.1.trailing)

theorem sourceChars_valueTokens {v : EnumValue × Bool}
    (h : ∀ t ∈ v.1.trailing, t.IsPiece) :
    sourceChars (valueTokens v) =
      trimEnd ((quoted v.1.value).chars ++ Trivia.chars v.1.trailing) ++
        if v.2 then [','] else [] := by
  have hquoted : Ended (quoted v.1.value).chars := by
    have hchars : (quoted v.1.value).chars = ('"' :: v.1.value.toList) ++ ['"'] := by
      simp [chars, quoted]
    rw [hchars]
    exact ended_concat rfl _
  rw [trimEnd_append_of_ended hquoted, ← (Trivia.chars_trimLast h).1, valueTokens, valueEnd,
    sourceChars_cons, List.append_assoc]
  congr 1
  obtain ⟨v, comma⟩ := v
  cases comma with
  | false => simp [sourceChars_trivia]
  | true =>
    cases hopen : Trivia.isOpen (Trivia.trimLast v.trailing) with
    | false =>
      simp [sourceChars_trivia, Trivia.takeComma_of_closed hopen, chars, mark]
    | true => simp [sourceChars_trivia, Trivia.chars_takeComma hopen]

theorem solids_valueTokens (v : EnumValue × Bool) :
    solids (valueTokens v) = solids (valueBody (v.1, keepsComma v)) := by
  obtain ⟨v, comma⟩ := v
  cases comma <;> cases hopen : Trivia.isOpen (Trivia.trimLast v.trailing) <;>
    simp [valueTokens, valueEnd, valueBody, keepsComma, hopen, solids_append]

end Spelling

namespace Layout

variable {d : Dialect} {separator : Char} {cs : List Char}

theorem entries_append (hs : IsPlain separator) (h : Passes (· ≠ separator) cs) (rest : List Char) :
    entries separator (cs ++ separator :: rest) = pieceEntries cs ++ entries separator rest := by
  simp [entries, split_append hs h]

theorem entries_of_passes (h : Passes (· ≠ separator) cs) :
    entries separator cs = pieceEntries cs := by
  simp [entries, split_of_passes h]

/-- A value with the trivia around it. -/
def valueEntries (v : EnumValue) : List Entry :=
  (commentTexts v.leading).map .comment ++
    [.declaration (trimEnd ((quoted v.value).chars ++ Trivia.chars v.trailing))]

theorem ofEnumValue_append (v : EnumValue) (us : List Token) :
    ofEnumValue v ++ us = trivia v.leading ++ quoted v.value :: (trivia v.trailing ++ us) := by
  simp [ofEnumValue]

/-- A written value in front of a comma or of the end. -/
theorem pieceEntries_value {v : EnumValue} (hv : v.WellFormed d) {us : List Token}
    (hus : ∀ u ∈ us.head?, u.isWhitespace = false) (hfed : LineFed (ofEnumValue v ++ us)) :
    Passes (· ≠ ',') (sourceChars (ofEnumValue v)) ∧
      pieceEntries (sourceChars (ofEnumValue v)) = valueEntries v ∧ LineFed us := by
  rw [ofEnumValue_append] at hfed
  have hlead := hfed.left (by simp [quoted, isWhitespace])
  have htrail := (LineFed.of_append hfed).2.left hus
  have hchars : (quoted v.value).chars = '"' :: (v.value.toList ++ ['"']) := by
    simp [chars, quoted]
  have hsource : sourceChars (ofEnumValue v) =
      Trivia.chars v.leading ++ ((quoted v.value).chars ++ Trivia.chars v.trailing) := by
    rw [ofEnumValue, sourceChars_append, sourceChars_trivia, sourceChars_cons, sourceChars_trivia]
  have hquoted : Passes (· ≠ ',') (quoted v.value).chars := by
    rw [hchars]
    exact passes_string hv.value
  have hbare : Bare ((quoted v.value).chars ++ Trivia.chars v.trailing) := by
    rw [hchars]
    exact ⟨begun_cons rfl _, by simp⟩
  rw [hsource]
  exact ⟨(passes_chars rfl hv.leading.settled.1 hlead).append
      (hquoted.append (passes_chars rfl hv.trailing.settled.1 htrail)),
    pieceEntries_run hv.leading.settled.1 hlead hbare, (LineFed.of_append hfed).2.of_append⟩

theorem entries_values {comma : Bool} {values : List EnumValue} {closing : List Trivia}
    (hvalues : ∀ v ∈ values, v.WellFormed d) (hclosing : d.Keeps closing)
    (hcomma : values ≠ [] → comma = false → closing = [])
    (hfed : LineFed (ofEnumValues comma values ++ trivia closing)) :
    entries ',' (sourceChars (ofEnumValues comma values ++ trivia closing)) =
      values.flatMap valueEntries ++ (commentTexts closing).map .comment := by
  have hplain : IsPlain ',' := by decide
  have hend : LineFed (trivia closing) →
      entries ',' (Trivia.chars closing) = (commentTexts closing).map .comment := by
    intro hfed
    rw [entries_of_passes (passes_chars rfl hclosing.settled.1 hfed),
      pieceEntries_closing hclosing.settled.1 hfed]
  induction values with
  | nil =>
    rw [ofEnumValues, List.nil_append, sourceChars_trivia, hend hfed]
    rfl
  | cons v values ih =>
    obtain ⟨hv, hvalues⟩ := List.forall_mem_cons.mp hvalues
    have hmark : ∀ us : List Token, sourceChars (mark "," :: us) = ',' :: sourceChars us := fun _ => rfl
    have hbehind : ∀ us : List Token, LineFed (ofEnumValue v ++ mark "," :: us) → LineFed us ∧
        entries ',' (sourceChars (ofEnumValue v ++ mark "," :: us)) =
          valueEntries v ++ entries ',' (sourceChars us) := by
      intro us hfed
      obtain ⟨hpasses, hpiece, hrest⟩ := pieceEntries_value hv (by simp [mark, isWhitespace]) hfed
      rw [sourceChars_append, hmark, entries_append hplain hpasses, hpiece]
      exact ⟨hrest.2, rfl⟩
    rw [List.flatMap_cons, List.append_assoc]
    cases values with
    | cons w rest =>
      rw [ofEnumValues, List.append_assoc, List.cons_append] at hfed ⊢
      obtain ⟨hrest, hentries⟩ := hbehind _ hfed
      rw [hentries, ih hvalues (fun _ => hcomma (List.cons_ne_nil v _)) hrest]
    | nil =>
      cases comma with
      | true =>
        rw [ofEnumValues, List.append_assoc, if_pos rfl, List.cons_append, List.nil_append] at hfed ⊢
        obtain ⟨hrest, hentries⟩ := hbehind _ hfed
        rw [hentries, sourceChars_trivia, hend hrest]
        rfl
      | false =>
        obtain rfl := hcomma (List.cons_ne_nil v _) rfl
        rw [ofEnumValues, if_neg Bool.false_ne_true, List.append_assoc, List.nil_append] at hfed ⊢
        obtain ⟨hpasses, hpiece, -⟩ := @pieceEntries_value d v hv [] (by simp) hfed
        rw [trivia_nil, List.append_nil, entries_of_passes hpasses, hpiece]
        exact (List.append_nil _).symm

/-- A comma stands behind every declaration but the last. -/
theorem enumLines_flatMap {comments : EnumValue → List (List Char)} {text : EnumValue → List Char}
    (values : List EnumValue) (closing : List (List Char)) :
    enumLines (values.flatMap (fun v => (comments v).map .comment ++ [.declaration (text v)]) ++
        closing.map .comment) =
      (withCommas false values).flatMap (fun v =>
        comments v.1 ++ [text v.1 ++ if v.2 then [','] else []]) ++ closing := by
  have hcomments : ∀ (lines : List (List Char)) (es : List Entry),
      enumLines (lines.map .comment ++ es) = lines ++ enumLines es := by
    intro lines es
    induction lines with
    | nil => rfl
    | cons line lines ih => rw [List.map_cons, List.cons_append, enumLines, ih, List.cons_append]
  have hnone : ∀ lines : List (List Char), (lines.map Entry.comment).any Entry.isDeclaration = false := by
    intro lines
    induction lines with
    | nil => rfl
    | cons line lines ih => exact ih
  have hclosing : enumLines (closing.map .comment) = closing := by
    have hlines := hcomments closing []
    simpa [enumLines] using hlines
  induction values with
  | nil => exact hclosing
  | cons v values ih =>
    rw [List.flatMap_cons, List.append_assoc, List.append_assoc, hcomments, List.singleton_append,
      enumLines, ih]
    cases values with
    | nil => simp [withCommas, hnone]
    | cons w rest => simp [withCommas, Entry.isDeclaration]

/-- The lines of an enum body. -/
theorem bodyLines_values {comma : Bool} {values : List EnumValue} {closing : List Trivia}
    (hvalues : ∀ v ∈ values, v.WellFormed d) (hclosing : d.Keeps closing)
    (hcomma : values ≠ [] → comma = false → closing = [])
    (hfed : LineFed (ofEnumValues comma values ++ trivia closing)) :
    bodyLines "enum".toList (sourceChars (ofEnumValues comma values ++ trivia closing)) =
      linesOf (fun v => v.1.leading) (fun v => sourceChars (valueTokens v))
        (withCommas false values) closing := by
  have hdictionary : "enum".toList ≠ "dictionary".toList := by decide
  rw [bodyLines, if_neg hdictionary, if_pos rfl, entries_values hvalues hclosing hcomma hfed,
    linesOf]
  unfold valueEntries
  rw [enumLines_flatMap]
  congr 1
  apply List.flatMap_congr
  intro v hv
  have hmem : v.1 ∈ values := by
    rw [← map_fst_withCommas false values]
    exact List.mem_map_of_mem hv
  rw [sourceChars_valueTokens (hvalues _ hmem).trailing.settled.1.isPiece]

end Layout

end WebIdl
