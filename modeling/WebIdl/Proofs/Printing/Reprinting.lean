import WebIdl.Proofs.Printing.Nesting
import WebIdl.Proofs.Printing.Values
import WebIdl.Proofs.Printing.Visible

/-!
# Printing what is printed

A printed body is cut into the same entries as the body it was printed from: the lines are set apart
by the separators that they are cut at, and what was trimmed off or filled up is white space. So the
second time everything is found where it was put the first time, the width of the type column
included.
-/

namespace WebIdl.Layout

open Text

variable {separator : Char} {V W cs bs front back body text : List Char} {indent width : Nat}

theorem solid_of_white (c : Char) (h : isWhiteSpace c) : (!isWhiteSpace c) = false := by
  simp [h]

/-! ## Fields -/

/-- The words of a member with its type in a column. -/
def inColumns (width : Nat) (ws : List (List Char)) : List Char :=
  let type := unwords ws.dropLast
  if type.isEmpty then ws.getLastD [] else padEnd width type ++ ' ' :: ws.getLastD []

/-- Columns are made of the words that they were made of. -/
theorem words_inColumns {ws : List (List Char)} (width : Nat)
    (h : ∀ w ∈ ws, w ≠ [] ∧ ∀ c ∈ w, isWhiteSpace c = false) : words (inColumns width ws) = ws := by
  rcases List.eq_nil_or_concat ws with rfl | ⟨vs, v, rfl⟩
  · rfl
  · rw [List.concat_eq_append] at h ⊢
    obtain ⟨hvs, hv⟩ := List.forall_mem_append.mp h
    obtain ⟨hne, hsolid⟩ := hv v (List.mem_singleton_self v)
    have hpad : ∀ c ∈ List.replicate (width - (unwords vs).length) ' ', isWhiteSpace c := by
      intro c hc
      rw [List.eq_of_mem_replicate hc]
      rfl
    unfold inColumns
    rw [List.dropLast_concat, List.getLastD_concat]
    dsimp only
    split
    · next hnil =>
      have hvs' := words_unwords hvs
      rw [List.isEmpty_iff.mp hnil] at hvs'
      rw [← hvs', words_of_forall hne hsolid]
      rfl
    · rw [words_append_white rfl, padEnd, words_append_of_white hpad, words_unwords hvs,
        words_of_forall hne hsolid]

theorem fieldLine_ofDeclaration_of_none (hcut : cutAt? '=' text = none) :
    fieldLine width (FieldText.ofDeclaration text) = inColumns width (words text) := by
  rw [fieldLine, FieldText.ofDeclaration, hcut]
  exact List.append_nil _

theorem fieldLine_ofDeclaration_of_some (hcut : cutAt? '=' text = some (front, back)) :
    fieldLine width (FieldText.ofDeclaration text) =
      inColumns width (words front) ++ ' ' :: '=' :: ' ' :: trim back := by
  rw [fieldLine, FieldText.ofDeclaration, hcut]
  rfl

theorem ofDeclaration_of_none (hcut : cutAt? '=' text = none) :
    FieldText.ofDeclaration text =
      ⟨unwords (words text).dropLast, (words text).getLastD [], none⟩ := by
  rw [FieldText.ofDeclaration, hcut]

theorem ofDeclaration_of_some (hcut : cutAt? '=' text = some (front, back)) :
    FieldText.ofDeclaration text =
      ⟨unwords (words front).dropLast, (words front).getLastD [], some (trim back)⟩ := by
  rw [FieldText.ofDeclaration, hcut]

theorem Nested.cutAt?_eq_none (h : Nested ('=' :: V) text) : cutAt? '=' text = none :=
  cutAt?_of_passes (h.passes_ne List.mem_cons_self)

theorem Nested.cutAt?_append (h : Nested ('=' :: V) front) (back : List Char) :
    cutAt? '=' (front ++ '=' :: back) = some (front, back) := by
  have hpasses := h.passes_ne List.mem_cons_self
  exact Layout.cutAt?_append hpasses (expose_plain 0 (by decide) back)

/-- Nested text has no equals sign outside of brackets, or it is cut at the first one. -/
theorem Nested.or_equals (h : Nested V text) :
    Nested ('=' :: V) text ∨ ∃ front back, text = front ++ '=' :: back ∧ Nested ('=' :: V) front := by
  rcases settle_or_cut (w := '=') (by decide) h with hpast | ⟨front, back, heq, hfront, -⟩
  · exact Or.inl hpast
  · exact Or.inr ⟨front, back, heq, hfront⟩

section Members

variable (hV : ∀ c ∈ V, isWhiteSpace c = false)
include hV

theorem solid_equals : ∀ c ∈ '=' :: V, isWhiteSpace c = false :=
  List.forall_mem_cons.mpr ⟨rfl, hV⟩

/-- A member is read the same with white space at its ends. -/
theorem ofDeclaration_padded (h : Nested V text) {as bs : List Char} (has : ∀ c ∈ as, isWhiteSpace c)
    (hbs : ∀ c ∈ bs, isWhiteSpace c) :
    FieldText.ofDeclaration (as ++ (text ++ bs)) = FieldText.ofDeclaration text := by
  rcases h.or_equals with hpast | ⟨front, back, rfl, hfront⟩
  · have hpadded : Nested ('=' :: V) (as ++ (text ++ bs)) :=
      (nested_white (solid_equals hV) has).append (hpast.append (nested_white (solid_equals hV) hbs))
    rw [ofDeclaration_of_none hpast.cutAt?_eq_none, ofDeclaration_of_none hpadded.cutAt?_eq_none,
      words_white_append has, words_append_of_white hbs]
  · have hpadded : Nested ('=' :: V) (as ++ front) :=
      (nested_white (solid_equals hV) has).append hfront
    have hsource : as ++ (front ++ '=' :: back ++ bs) = (as ++ front) ++ '=' :: (back ++ bs) := by
      simp
    rw [hsource, ofDeclaration_of_some (hfront.cutAt?_append back),
      ofDeclaration_of_some (hpadded.cutAt?_append (back ++ bs)), words_white_append has,
      trim_append_right hbs]

theorem ofDeclaration_trim (h : Nested V text) :
    FieldText.ofDeclaration (trim text) = FieldText.ofDeclaration text := by
  have htrim : Nested V (trim text) := h.of_filter_eq hV (filter_trim solid_of_white text).symm
  obtain ⟨as, bs, heq, has, hbs⟩ := exists_eq_trim text
  have hpadded := ofDeclaration_padded hV htrim has hbs
  rw [← heq] at hpadded
  exact hpadded.symm

/-- A printed member is read as it was read before. -/
theorem ofDeclaration_fieldLine (h : Nested V text) (width : Nat) :
    FieldText.ofDeclaration (fieldLine width (FieldText.ofDeclaration text)) =
      FieldText.ofDeclaration text := by
  have hcolumns : ∀ front, Nested ('=' :: V) front →
      Nested ('=' :: V) (inColumns width (words front)) := by
    intro front hfront
    apply hfront.of_filter_eq (solid_equals hV)
    have hfilter := filter_fieldLine_ofDeclaration solid_of_white width front
    rw [fieldLine_ofDeclaration_of_none hfront.cutAt?_eq_none] at hfilter
    exact hfilter.symm
  have hwords : ∀ front, words (inColumns width (words front)) = words front :=
    fun front => words_inColumns width fun w hw => solid_of_mem_words hw
  rcases h.or_equals with hpast | ⟨front, back, rfl, hfront⟩
  · rw [fieldLine_ofDeclaration_of_none hpast.cutAt?_eq_none,
      ofDeclaration_of_none (hcolumns text hpast).cutAt?_eq_none, hwords,
      ofDeclaration_of_none hpast.cutAt?_eq_none]
  · have hspace : ∀ c ∈ [' '], isWhiteSpace c := List.forall_mem_singleton.mpr rfl
    have hcut := hfront.cutAt?_append back
    have hpadded : Nested ('=' :: V) (inColumns width (words front) ++ [' ']) :=
      (hcolumns front hfront).append (nested_white (solid_equals hV) hspace)
    have hsource : inColumns width (words front) ++ ' ' :: '=' :: ' ' :: trim back =
        (inColumns width (words front) ++ [' ']) ++ '=' :: ([' '] ++ trim back) := by simp
    rw [fieldLine_ofDeclaration_of_some hcut, hsource,
      ofDeclaration_of_some (hpadded.cutAt?_append _), words_append_of_white hspace, hwords,
      trim_append_left hspace, trim_trim, ofDeclaration_of_some hcut]

end Members

/-! ## Entries -/

/-- Of a nested piece the trimmed text is left, unless that is empty. -/
theorem Nested.pieceEntries_eq (h : Nested W cs) (hW : ∀ c ∈ W, isWhiteSpace c = false) :
    pieceEntries cs = if (trim cs).isEmpty then [] else [.declaration (trim cs)] := by
  rw [pieceEntries, h.leadingComments_eq hW]
  rfl

theorem pieceEntries_padded (h : Nested W text) (hW : ∀ c ∈ W, isWhiteSpace c = false)
    (hne : trim text ≠ []) {as bs : List Char} (has : ∀ c ∈ as, isWhiteSpace c)
    (hbs : ∀ c ∈ bs, isWhiteSpace c) :
    Nested W (as ++ (text ++ bs)) ∧ pieceEntries (as ++ (text ++ bs)) = [.declaration (trim text)] := by
  have hpadded : Nested W (as ++ (text ++ bs)) :=
    (nested_white hW has).append (h.append (nested_white hW hbs))
  refine ⟨hpadded, ?_⟩
  rw [hpadded.pieceEntries_eq hW, trim_append_left has, trim_append_right hbs]
  exact if_neg (by simpa using hne)

/-- What a separated declaration looks like. -/
structure Separated (separator : Char) (text : List Char) : Prop where
  nested : Nested [separator] text
  trimmed : trim text = text
  ne_nil : text ≠ []

theorem Separated.kept (h : Separated separator text) :
    Nested [separator] text ∧ trim text ≠ [] := by
  rw [h.trimmed]
  exact ⟨h.nested, h.ne_nil⟩

section Bodies

variable (hs : IsPlain separator) (hsolid : isWhiteSpace separator = false)
include hs hsolid

/-- The entries of a nested body are its declarations. -/
theorem exists_entries (h : Nested [] body) :
    ∃ texts : List (List Char), entries separator body = texts.map .declaration ∧
      ∀ t ∈ texts, Separated separator t := by
  have hW : ∀ c ∈ [separator], isWhiteSpace c = false := List.forall_mem_singleton.mpr hsolid
  have hpiece : ∀ {cs}, Nested [separator] cs → ∃ texts : List (List Char),
      pieceEntries cs = texts.map .declaration ∧ ∀ t ∈ texts, Separated separator t := by
    intro cs hcs
    rw [hcs.pieceEntries_eq hW]
    split
    · exact ⟨[], rfl, by simp⟩
    · next hne =>
      have htrim : Nested [separator] (trim cs) :=
        hcs.of_filter_eq hW (filter_trim solid_of_white cs).symm
      refine ⟨[trim cs], rfl, List.forall_mem_singleton.mpr ⟨htrim, trim_trim cs, ?_⟩⟩
      simpa using hne
  induction hn : body.length using Nat.strongRecOn generalizing body with
  | ind n ih =>
    subst hn
    rcases settle_or_cut (w := separator) hs.1 h with hpast | ⟨front, back, rfl, hfront, hback⟩
    · have hnested : Nested [separator] body := hpast
      rw [entries_of_passes (hnested.passes_ne List.mem_cons_self)]
      exact hpiece hnested
    · have hnested : Nested [separator] front := hfront
      have hdepth : depthAfter 0 separator = 0 := by simp [depthAfter, hs.2.2.1, hs.2.2.2]
      rw [hdepth] at hback
      obtain ⟨texts, heq, htexts⟩ := hpiece hnested
      obtain ⟨more, heq', hmore⟩ := ih back.length (by simp; omega) hback rfl
      refine ⟨texts ++ more, ?_, List.forall_mem_append.mpr ⟨htexts, hmore⟩⟩
      rw [entries_append hs (hnested.passes_ne List.mem_cons_self), heq, heq',
        List.map_append]

omit hs hsolid in
theorem indentLines_cons (indent : Nat) (line : List Char) (lines : List (List Char)) :
    indentLines indent (line :: lines) =
      List.replicate indent ' ' ++ line ++ '\n' :: indentLines indent lines := by
  simp [indentLines]

omit hs hsolid in
theorem white_indent (hbs : ∀ c ∈ bs, isWhiteSpace c) (indent : Nat) :
    ∀ c ∈ bs ++ List.replicate indent ' ', isWhiteSpace c := by
  intro c hc
  rcases List.mem_append.mp hc with hc | hc
  · exact hbs c hc
  · rw [List.eq_of_mem_replicate hc]
    rfl

omit hs in
theorem entries_white (hbs : ∀ c ∈ bs, isWhiteSpace c) : entries separator bs = [] := by
  have hW : ∀ c ∈ [separator], isWhiteSpace c = false := List.forall_mem_singleton.mpr hsolid
  have hnested := nested_white hW hbs
  have htrim : trim bs = [] := by
    rw [← List.append_nil bs, trim_append_left hbs]
    rfl
  rw [entries_of_passes (hnested.passes_ne List.mem_cons_self),
    hnested.pieceEntries_eq hW, htrim]
  rfl

/-- Lines that end with the separator are cut apart again. -/
theorem entries_indentLines {texts : List (List Char)}
    (htexts : ∀ t ∈ texts, Nested [separator] t ∧ trim t ≠ []) (hbs : ∀ c ∈ bs, isWhiteSpace c) :
    entries separator (bs ++ indentLines indent (texts.map (· ++ [separator]))) =
      (texts.map trim).map .declaration := by
  have hW : ∀ c ∈ [separator], isWhiteSpace c = false := List.forall_mem_singleton.mpr hsolid
  induction texts generalizing bs with
  | nil =>
    rw [List.map_nil, indentLines, List.flatMap_nil, List.append_nil, entries_white hsolid hbs]
    rfl
  | cons t texts ih =>
    obtain ⟨⟨ht, hne⟩, htexts⟩ := List.forall_mem_cons.mp htexts
    have hfeed : ∀ c ∈ ['\n'], isWhiteSpace c := List.forall_mem_singleton.mpr rfl
    obtain ⟨hnested, hpiece⟩ :=
      pieceEntries_padded ht hW hne (white_indent hbs indent) (List.forall_mem_nil _)
    rw [List.append_nil] at hnested hpiece
    have hsource : bs ++ indentLines indent ((t :: texts).map (· ++ [separator])) =
        (bs ++ List.replicate indent ' ' ++ t) ++ separator ::
          (['\n'] ++ indentLines indent (texts.map (· ++ [separator]))) := by
      rw [List.map_cons, indentLines_cons]
      simp
    rw [hsource, entries_append hs (hnested.passes_ne List.mem_cons_self), hpiece,
      ih htexts hfeed]
    rfl

end Bodies

/-- A comma follows every value but the last, which is cut off all the same. -/
theorem entries_enumLines {texts : List (List Char)} (htexts : ∀ t ∈ texts, Separated ',' t)
    (hbs : ∀ c ∈ bs, isWhiteSpace c) :
    entries ',' (bs ++ indentLines indent (enumLines (texts.map .declaration))) =
      texts.map .declaration := by
  have hplain : IsPlain ',' := by decide
  have hW : ∀ c ∈ [','], isWhiteSpace c = false := List.forall_mem_singleton.mpr rfl
  have hfeed : ∀ c ∈ ['\n'], isWhiteSpace c := List.forall_mem_singleton.mpr rfl
  induction texts generalizing bs with
  | nil =>
    rw [List.map_nil, enumLines, indentLines, List.flatMap_nil, List.append_nil,
      entries_white rfl hbs]
  | cons t texts ih =>
    obtain ⟨ht, htexts⟩ := List.forall_mem_cons.mp htexts
    have hpadded := fun cs => @pieceEntries_padded [','] t ht.nested hW ht.kept.2 _ cs
      (white_indent hbs indent)
    cases texts with
    | nil =>
      obtain ⟨hnested, hpiece⟩ := hpadded _ hfeed
      have hsource : bs ++ indentLines indent (enumLines [.declaration t]) =
          bs ++ List.replicate indent ' ' ++ (t ++ ['\n']) := by
        rw [enumLines, indentLines_cons]
        simp [enumLines, indentLines]
      rw [List.map_singleton, hsource,
        entries_of_passes (hnested.passes_ne List.mem_cons_self), hpiece, ht.trimmed]
    | cons u texts =>
      obtain ⟨hnested, hpiece⟩ := hpadded [] (by simp)
      rw [List.append_nil] at hnested hpiece
      have hsource : bs ++ indentLines indent (enumLines ((t :: u :: texts).map .declaration)) =
          (bs ++ List.replicate indent ' ' ++ t) ++ ',' ::
            (['\n'] ++ indentLines indent (enumLines ((u :: texts).map .declaration))) := by
        rw [List.map_cons, enumLines, indentLines_cons]
        simp [Entry.isDeclaration]
      rw [hsource, entries_append hplain (hnested.passes_ne List.mem_cons_self),
        hpiece, ih htexts hfeed, ht.trimmed]
      rfl

/-! ## Bodies -/

theorem memberLines_declarations (texts : List (List Char)) :
    memberLines (texts.map .declaration) = texts.map (· ++ [';']) := by
  rw [memberLines, List.map_map]
  rfl

theorem dictionaryLines_declarations (texts : List (List Char)) :
    dictionaryLines (texts.map .declaration) =
      (texts.map fun t => fieldLine (columnWidth (texts.map .declaration))
        (FieldText.ofDeclaration t)).map (· ++ [';']) := by
  rw [dictionaryLines, List.map_map, List.map_map]
  rfl

/-- A member is put in columns without changing what it is made of. -/
theorem Separated.fieldLine (h : Separated ';' text) (width : Nat) :
    Nested [';'] (fieldLine width (FieldText.ofDeclaration text)) ∧
      trim (Layout.fieldLine width (FieldText.ofDeclaration text)) ≠ [] := by
  have hW : ∀ c ∈ [';'], isWhiteSpace c = false := List.forall_mem_singleton.mpr rfl
  have hfilter := filter_fieldLine_ofDeclaration solid_of_white width text
  refine ⟨h.nested.of_filter_eq hW hfilter.symm, fun hnil => ?_⟩
  have hempty : text.filter (!isWhiteSpace ·) = [] := by
    rw [← hfilter, ← filter_trim solid_of_white, hnil]
    rfl
  rcases trim_eq_nil_or text with htrim | ⟨⟨c, hc, hsolid⟩, -⟩
  · exact h.ne_nil (h.trimmed.symm.trans htrim)
  · rw [h.trimmed] at hc
    have hmem := List.filter_eq_nil_iff.mp hempty c (List.mem_of_mem_head? hc)
    simp [hsolid] at hmem

/-- Every member has the type that it had before, so the column is as wide. -/
theorem dictionaryLines_congr {texts texts' : List (List Char)}
    (h : texts.map FieldText.ofDeclaration = texts'.map FieldText.ofDeclaration) :
    dictionaryLines (texts.map .declaration) = dictionaryLines (texts'.map .declaration) := by
  have hwidth : ∀ texts : List (List Char), columnWidth (texts.map .declaration) =
      ((texts.map FieldText.ofDeclaration).map fun f => f.type.length).foldl max 0 := by
    intro texts
    rw [columnWidth, List.map_map, List.map_map]
    rfl
  have hlines : ∀ texts : List (List Char), dictionaryLines (texts.map .declaration) =
      (texts.map FieldText.ofDeclaration).map fun f =>
        fieldLine (columnWidth (texts.map .declaration)) f ++ [';'] := by
    intro texts
    rw [dictionaryLines, List.map_map, List.map_map]
    rfl
  rw [hlines, hlines, hwidth, hwidth, h]

theorem entries_dictionaryLines {texts : List (List Char)} (htexts : ∀ t ∈ texts, Separated ';' t)
    (hbs : ∀ c ∈ bs, isWhiteSpace c) :
    dictionaryLines (entries ';' (bs ++ indentLines indent
        (dictionaryLines (texts.map .declaration)))) =
      dictionaryLines (texts.map .declaration) := by
  have hW : ∀ c ∈ [';'], isWhiteSpace c = false := List.forall_mem_singleton.mpr rfl
  have hlines : ∀ line ∈ texts.map fun t => Layout.fieldLine (columnWidth (texts.map .declaration))
      (FieldText.ofDeclaration t), Nested [';'] line ∧ trim line ≠ [] := by
    intro line hline
    obtain ⟨t, ht, rfl⟩ := List.mem_map.mp hline
    exact (htexts t ht).fieldLine _
  rw [dictionaryLines_declarations, entries_indentLines (by decide) rfl hlines hbs,
    ← dictionaryLines_declarations]
  apply dictionaryLines_congr
  rw [List.map_map, List.map_map]
  apply List.map_congr_left
  intro t ht
  rw [Function.comp_apply, Function.comp_apply,
    ofDeclaration_trim hW ((htexts t ht).fieldLine _).1,
    ofDeclaration_fieldLine hW (htexts t ht).nested]

theorem entries_memberLines {texts : List (List Char)} (htexts : ∀ t ∈ texts, Separated ';' t)
    (hbs : ∀ c ∈ bs, isWhiteSpace c) :
    entries ';' (bs ++ indentLines indent (memberLines (texts.map .declaration))) =
      texts.map .declaration := by
  have htrim : texts.map trim = texts := by
    nth_rewrite 2 [← List.map_id texts]
    apply List.map_congr_left
    intro t ht
    exact (htexts t ht).trimmed
  rw [memberLines_declarations,
    entries_indentLines (by decide) rfl (fun t ht => (htexts t ht).kept) hbs, htrim]

/-- The lines of a nested body make the same lines again. -/
theorem bodyLines_indentLines (h : Nested [] body) (hbs : ∀ c ∈ bs, isWhiteSpace c)
    (keyword : List Char) :
    bodyLines keyword (bs ++ indentLines indent (bodyLines keyword body)) =
      bodyLines keyword body := by
  obtain ⟨members, hmembers, hseparated⟩ := @exists_entries ';' _ (by decide) rfl h
  obtain ⟨values, hvalues, hseparated'⟩ := @exists_entries ',' _ (by decide) rfl h
  unfold bodyLines
  rw [hmembers, hvalues]
  split
  · exact entries_dictionaryLines hseparated hbs
  · split
    · rw [entries_enumLines hseparated' hbs]
    · rw [entries_memberLines hseparated hbs]

theorem nested_indentLines {lines : List (List Char)} (h : ∀ line ∈ lines, Nested [] line)
    (indent : Nat) : Nested [] (indentLines indent lines) := by
  have hwhite : ∀ {cs : List Char}, (∀ c ∈ cs, isWhiteSpace c) → Nested [] cs :=
    nested_white (by simp)
  induction lines with
  | nil => exact nested_nil
  | cons line lines ih =>
    obtain ⟨hline, hlines⟩ := List.forall_mem_cons.mp h
    rw [indentLines_cons, ← List.singleton_append]
    have hindent : Nested [] (List.replicate indent ' ') :=
      hwhite (white_indent (List.forall_mem_nil _) indent)
    have hfeed : Nested [] ['\n'] := hwhite (List.forall_mem_singleton.mpr rfl)
    exact (hindent.append hline).append (hfeed.append (ih hlines))

theorem nested_bodyLines (h : Nested [] body) (keyword : List Char) :
    ∀ line ∈ bodyLines keyword body, Nested [] line := by
  have hterminated : ∀ {texts : List (List Char)}, (∀ t ∈ texts, Nested [';'] t) →
      ∀ line ∈ texts.map (· ++ [';']), Nested [] line := by
    intro texts htexts line hline
    obtain ⟨t, ht, rfl⟩ := List.mem_map.mp hline
    exact ((htexts t ht).mono (by simp)).append (by decide)
  have hvalues : ∀ {texts : List (List Char)}, (∀ t ∈ texts, Separated ',' t) →
      ∀ line ∈ enumLines (texts.map .declaration), Nested [] line := by
    intro texts htexts
    induction texts with
    | nil => simp [enumLines]
    | cons t texts ih =>
      obtain ⟨ht, htexts⟩ := List.forall_mem_cons.mp htexts
      rw [List.map_cons, enumLines]
      refine List.forall_mem_cons.mpr ⟨(ht.nested.mono (by simp)).append ?_, ih htexts⟩
      split <;> decide
  obtain ⟨members, hmembers, hseparated⟩ := @exists_entries ';' _ (by decide) rfl h
  obtain ⟨values, hentries, hseparated'⟩ := @exists_entries ',' _ (by decide) rfl h
  unfold bodyLines
  rw [hmembers, hentries]
  split
  · rw [dictionaryLines_declarations]
    apply hterminated
    intro line hline
    obtain ⟨t, ht, rfl⟩ := List.mem_map.mp hline
    exact ((hseparated t ht).fieldLine _).1
  · split
    · exact hvalues hseparated'
    · rw [memberLines_declarations]
      exact hterminated fun t ht => (hseparated t ht).nested

/-! ## Statements -/

/-- A statement without comments: with a body in braces at its end, or without braces outside of
brackets. -/
inductive Phrase : List Char → Prop
  | plain {cs : List Char} (h : Nested [';', '\x7b'] cs) : Phrase cs
  | block {header body : List Char} (hheader : Nested [';', '\x7b'] header) (hbody : Nested [] body) :
      Phrase (header ++ '\x7b' :: (body ++ ['\x7d']))

theorem solid_cuts : ∀ c ∈ [';', '\x7b'], isWhiteSpace c = false := by
  simp only [List.forall_mem_cons]
  exact ⟨rfl, rfl, by simp⟩

theorem nested_braces (h : Nested V body) : Nested [';'] ('\x7b' :: (body ++ ['\x7d'])) :=
  h.bracketed (by decide) (by decide)

theorem Phrase.nested (h : Phrase cs) : Nested [';'] cs := by
  cases h with
  | plain h => exact h.mono (by simp)
  | block hheader hbody => exact (hheader.mono (by simp)).append (nested_braces hbody)

theorem Phrase.white_append (h : Phrase cs) (hbs : ∀ c ∈ bs, isWhiteSpace c) : Phrase (bs ++ cs) := by
  have hwhite : Nested [';', '\x7b'] bs := nested_white solid_cuts hbs
  cases h with
  | plain h => exact .plain (hwhite.append h)
  | block hheader hbody =>
    rw [← List.append_assoc]
    exact .block (hwhite.append hheader) hbody

/-- What a statement is printed as is printed as it stands, wherever it stands. -/
structure Settled (indent : Nat) (cs : List Char) : Prop where
  nested : Nested [';'] cs
  statement_eq : ∀ {bs : List Char}, (∀ c ∈ bs, isWhiteSpace c) →
    statement indent (bs ++ cs) = cs ++ ";\n\n".toList

theorem statement_plain_nested (h : Nested [';', '\x7b'] cs) :
    statement indent cs = if (trim cs).isEmpty then [] else trim cs ++ ";\n\n".toList := by
  have hnone : block? cs = none := by
    rw [block?, cutAt?_of_passes (h.passes_ne (by simp))]
    rfl
  rw [statement, hnone]

theorem statement_block_nested {header : List Char} (h : Nested [';', '\x7b'] header)
    (body : List Char) :
    statement indent (header ++ '\x7b' :: (body ++ ['\x7d'])) =
      trim header ++ " \x7b\n".toList ++
        indentLines indent (bodyLines (definitionKeyword (trim header)) body) ++
          "\x7d;\n\n".toList := by
  rw [statement, block?_braced (h.passes_ne (by simp))]

theorem settled_trim (h : Nested [';', '\x7b'] cs) (hne : trim cs ≠ []) (indent : Nat) :
    Settled indent (trim cs) := by
  have htrim : Nested [';', '\x7b'] (trim cs) :=
    h.of_filter_eq solid_cuts (filter_trim solid_of_white cs).symm
  constructor
  · exact htrim.mono (by simp)
  · intro bs hbs
    rw [statement_plain_nested ((nested_white solid_cuts hbs).append htrim), trim_append_left hbs,
      trim_trim, if_neg (by simpa using hne)]

/-- A printed block has its lines where they were found. -/
theorem settled_block {header : List Char} (hheader : Nested [';', '\x7b'] header)
    (hbody : Nested [] body) (indent : Nat) :
    ∃ text, statement indent (header ++ '\x7b' :: (body ++ ['\x7d'])) = text ++ ";\n\n".toList ∧
      Settled indent text := by
  have hspace : ∀ c ∈ [' '], isWhiteSpace c := List.forall_mem_singleton.mpr rfl
  have hfeed : ∀ c ∈ ['\n'], isWhiteSpace c := List.forall_mem_singleton.mpr rfl
  have htrim : Nested [';', '\x7b'] (trim header) :=
    hheader.of_filter_eq solid_cuts (filter_trim solid_of_white header).symm
  have hfront : Nested [';', '\x7b'] (trim header ++ [' ']) :=
    htrim.append (nested_white solid_cuts hspace)
  have hopen : " \x7b\n".toList = [' ', '\x7b', '\n'] := rfl
  have hclose : "\x7d;\n\n".toList = '\x7d' :: ";\n\n".toList := rfl
  let lines := bodyLines (definitionKeyword (trim header)) body
  let inner := ['\n'] ++ indentLines indent lines
  have heq : trim header ++ " \x7b\n".toList ++ indentLines indent lines ++ "\x7d;\n\n".toList =
      (trim header ++ [' ']) ++ '\x7b' :: (inner ++ ['\x7d']) ++ ";\n\n".toList := by
    rw [hopen, hclose]
    simp [inner]
  have hinner : Nested [] inner :=
    (nested_white (by simp) hfeed).append (nested_indentLines (nested_bodyLines hbody _) indent)
  refine ⟨_, (statement_block_nested hheader body).trans heq, ?_, ?_⟩
  · exact (hfront.mono (by simp)).append (nested_braces hinner)
  · intro bs hbs
    have hheader' : trim (bs ++ (trim header ++ [' '])) = trim header := by
      rw [trim_append_left hbs, trim_append_right hspace, trim_trim]
    rw [← List.append_assoc,
      statement_block_nested ((nested_white solid_cuts hbs).append hfront), hheader',
      bodyLines_indentLines hbody hfeed, heq]

theorem Phrase.statement_eq_nil_or (h : Phrase cs) (indent : Nat) :
    statement indent cs = [] ∨
      ∃ text, statement indent cs = text ++ ";\n\n".toList ∧ Settled indent text := by
  cases h with
  | plain h =>
    rw [statement_plain_nested h]
    split
    · exact Or.inl rfl
    · next hne => exact Or.inr ⟨trim cs, rfl, settled_trim h (by simpa using hne) indent⟩
  | block hheader hbody => exact Or.inr (settled_block hheader hbody indent)

/-! ## Texts -/

theorem printChars_append (h : Nested [';'] cs) (rest : List Char) :
    printChars indent (cs ++ ';' :: rest) = statement indent cs ++ printChars indent rest := by
  have hpasses := h.passes_ne List.mem_cons_self
  rw [printChars, split_append (by decide) hpasses, printChars]
  simp

theorem printChars_white (hbs : ∀ c ∈ bs, isWhiteSpace c) : printChars indent bs = [] := by
  have hW : ∀ c ∈ [';'], isWhiteSpace c = false := List.forall_mem_singleton.mpr rfl
  have hpasses : Passes (· ≠ ';') bs :=
    (nested_white hW hbs).passes_ne List.mem_cons_self
  have htrim : trim bs = [] := by
    rw [← List.append_nil bs, trim_append_left hbs]
    rfl
  rw [printChars, split_of_passes hpasses]
  simp [remainder, htrim]

theorem printChars_phrases {phrases : List (List Char)} (h : ∀ p ∈ phrases, Phrase p)
    (indent : Nat) :
    printChars indent (phrases.flatMap (· ++ [';'])) = phrases.flatMap (statement indent) := by
  induction phrases with
  | nil => exact printChars_white (by simp)
  | cons p phrases ih =>
    obtain ⟨hp, hphrases⟩ := List.forall_mem_cons.mp h
    rw [List.flatMap_cons, List.append_assoc, List.singleton_append, printChars_append hp.nested,
      ih hphrases, List.flatMap_cons]

theorem printChars_settled {texts : List (List Char)} (h : ∀ t ∈ texts, Settled indent t)
    (hbs : ∀ c ∈ bs, isWhiteSpace c) :
    printChars indent (bs ++ texts.flatMap (· ++ ";\n\n".toList)) =
      texts.flatMap (· ++ ";\n\n".toList) := by
  have hW : ∀ c ∈ [';'], isWhiteSpace c = false := List.forall_mem_singleton.mpr rfl
  have hfeeds : ∀ c ∈ ['\n', '\n'], isWhiteSpace c := by simp; rfl
  have hend : ";\n\n".toList = ';' :: ['\n', '\n'] := rfl
  induction texts generalizing bs with
  | nil => rw [List.flatMap_nil, List.append_nil, printChars_white hbs]
  | cons t texts ih =>
    obtain ⟨ht, htexts⟩ := List.forall_mem_cons.mp h
    have hsource : bs ++ (t :: texts).flatMap (· ++ ";\n\n".toList) =
        (bs ++ t) ++ ';' :: (['\n', '\n'] ++ texts.flatMap (· ++ ";\n\n".toList)) := by
      rw [List.flatMap_cons, hend]
      simp
    rw [hsource, printChars_append ((nested_white hW hbs).append ht.nested), ht.statement_eq hbs,
      ih htexts hfeeds, List.flatMap_cons]

/-- To print phrases twice is to print them once. -/
theorem printChars_printChars {phrases : List (List Char)} (h : ∀ p ∈ phrases, Phrase p)
    (indent : Nat) :
    printChars indent (printChars indent (phrases.flatMap (· ++ [';']))) =
      printChars indent (phrases.flatMap (· ++ [';'])) := by
  have hexists : ∃ texts : List (List Char),
      phrases.flatMap (statement indent) = texts.flatMap (· ++ ";\n\n".toList) ∧
        ∀ t ∈ texts, Settled indent t := by
    induction phrases with
    | nil => exact ⟨[], rfl, by simp⟩
    | cons p phrases ih =>
      obtain ⟨hp, hphrases⟩ := List.forall_mem_cons.mp h
      obtain ⟨texts, heq, htexts⟩ := ih hphrases
      rw [List.flatMap_cons, heq]
      rcases hp.statement_eq_nil_or indent with hnil | ⟨text, htext, hsettled⟩
      · exact ⟨texts, by rw [hnil, List.nil_append], htexts⟩
      · exact ⟨text :: texts, by rw [htext, List.flatMap_cons],
          List.forall_mem_cons.mpr ⟨hsettled, htexts⟩⟩
  obtain ⟨texts, heq, htexts⟩ := hexists
  have hprinted := printChars_settled htexts (List.forall_mem_nil _)
  rw [List.nil_append] at hprinted
  rw [printChars_phrases h, heq, hprinted]

end WebIdl.Layout
