import WebIdl.Proofs.Printing.Blocks
import WebIdl.Proofs.Printing.Statements

/-!
# Headers and bodies of written blocks

The keyword that tells how a body is laid out is the first one of the header, and the entries of a
written body are its members, with the comments in front of each.
-/

namespace WebIdl.Layout

open Token Lexer Spelling Grammar
open Text hiding words

variable {d : Dialect} {b : Bool} {w name : String} {ws : List String} {isPartial : Bool}
  {inheritance : Option String} {es : List ExtendedAttribute} {items lead closing : List Trivia}
  {ts us : List Token}

theorem skipPartial_of_head {cs : List Char} (h : cs.head? ≠ some 'p') : skipPartial cs = cs := by
  have hmark : "partial".toList.isPrefixOf cs = false := by
    cases cs with
    | nil => rfl
    | cons c cs =>
      have hc : ('p' == c) = false := by
        rw [beq_eq_false_iff_ne]
        rintro rfl
        exact h rfl
      change (('p' == c) && _) = false
      rw [hc, Bool.false_and]
  rw [skipPartial, hmark]
  rfl

theorem skipPartial_partial {cs : List Char} (hcs : Begun cs) :
    skipPartial ("partial".toList ++ ' ' :: cs) = cs := by
  have hmark : "partial".toList.isPrefixOf ("partial".toList ++ ' ' :: cs) := by
    rw [List.isPrefixOf_iff_prefix]
    exact List.prefix_append _ _
  have hspace : trimStart (' ' :: cs) = cs := by
    rw [← List.singleton_append, trimStart_append (by simp; rfl), hcs.trimStart_eq]
  rw [skipPartial, if_pos hmark, List.drop_left, hspace]

theorem exists_header_eq (w : String) (ws : List String) (name : String) (isPartial : Bool)
    (inheritance : Option String) :
    ∃ ts, header (w :: ws) name isPartial inheritance =
      wordIf isPartial "partial" ++ word w :: space :: ts := by
  cases ws with
  | nil => exact ⟨_, by simp [header, words, joined]; rfl⟩
  | cons v vs => exact ⟨_, by simp [header, words, joined]; rfl⟩

theorem exists_letter_word (hw : IsName w) (ts : List Token) :
    ∃ c cs, sourceChars (word w :: ts) = c :: cs ∧ IsLetter c := by
  obtain ⟨c, cs, heq⟩ := List.exists_cons_of_ne_nil hw.toList_ne_nil
  exact ⟨c, cs ++ sourceChars ts, by simp [chars, word, heq],
    Or.inl (hw.forall_isWordPart c (by simp [heq]))⟩

theorem exists_letter_header (hw : IsName w) (ws : List String) (name : String) (isPartial : Bool)
    (inheritance : Option String) :
    ∃ c cs, sourceChars (header (w :: ws) name isPartial inheritance) = c :: cs ∧ IsLetter c := by
  obtain ⟨ts, hts⟩ := exists_header_eq w ws name isPartial inheritance
  rw [hts]
  cases isPartial with
  | true => exact exists_letter_word (w := "partial") (by decide) _
  | false => exact exists_letter_word hw _

theorem begun_word {w : String} (hw : IsName w) (cs : List Char) :
    Begun (w.toList ++ cs) := by
  obtain ⟨c, tail, heq⟩ := List.exists_cons_of_ne_nil hw.toList_ne_nil
  have hletter : IsLetter c := Or.inl (hw.forall_isWordPart c (by simp [heq]))
  rw [heq]
  exact begun_cons (not_isWhiteSpace_of_isLetter hletter) _

/-- The first word of a header is its keyword, `partial` aside. -/
theorem takeWhile_skipPartial (hw : IsName w) (hp : w.toList.head? ≠ some 'p') (ws : List String)
    (name : String) (isPartial : Bool) (inheritance : Option String) :
    (skipPartial (sourceChars (header (w :: ws) name isPartial inheritance))).takeWhile isWordPart =
      w.toList := by
  obtain ⟨ts, hts⟩ := exists_header_eq w ws name isPartial inheritance
  have htail : sourceChars (word w :: space :: ts) = w.toList ++ ' ' :: sourceChars ts := rfl
  have hbegun := begun_word hw (' ' :: sourceChars ts)
  have hskip : skipPartial (sourceChars (header (w :: ws) name isPartial inheritance)) =
      w.toList ++ ' ' :: sourceChars ts := by
    rw [hts]
    cases isPartial with
    | false =>
      refine skipPartial_of_head ?_
      change (sourceChars (word w :: space :: ts)).head? ≠ some 'p'
      rwa [htail, Numeral.head?_append_of_ne_nil hw.toList_ne_nil]
    | true => exact skipPartial_partial hbegun
  rw [hskip, List.takeWhile_append_of_pos hw.forall_isWordPart]
  simp [isWordPart, Char.isAlphanum, Char.isAlpha]

section Fronts

variable (hbare : es = [] → items = [])
include hbare

/-- Attributes are skipped with the trivia behind them. -/
theorem skipAttributes_front (hitems : Trivia.IsRun items)
    (hfits : ∀ t ∈ bracketed (ofAttributes es) items, t.Fits b) {c : Char} {cs : List Char}
    (hts : sourceChars ts = c :: cs) (hc : IsLetter c) (hopens : Opens ts)
    (hfed : LineFed (bracketed (ofAttributes es) items ++ ts)) :
    skipAttributes (sourceChars (bracketed (ofAttributes es) items ++ ts)) = sourceChars ts := by
  obtain ⟨hplain, -⟩ := isPlain_of_isLetter hc
  by_cases hnil : es = []
  · subst hnil
    obtain rfl := hbare rfl
    refine skipAttributes_of_head ?_
    change (sourceChars ts).head? ≠ some '['
    rw [hts, List.head?_cons, ne_eq, Option.some.injEq]
    rintro rfl
    exact absurd hplain (by decide)
  · rw [bracketed_of_ne_nil (ofAttributes_ne_nil hnil)] at hfed hfits ⊢
    have hattributes : Balanced b [] (ofAttributes es) :=
      (shaped_ofAttributes es).balanced fun t ht => hfits t (by simp [ht])
    simp only [List.cons_append, List.append_assoc] at hfed ⊢
    have hinner : LineFed (ofAttributes es) := LineFed.left hfed.2 (by simp [mark, isWhitespace])
    have hbehind : LineFed (trivia (filled items) ++ ts) := (LineFed.of_append hfed.2).2
    have hafter : LineFed (trivia (filled items)) := hbehind.left (by
      obtain ⟨t, us, rfl, hsolid, -⟩ := hopens.isEntry
      simpa using hsolid)
    have hsource : sourceChars (mark "[" :: (ofAttributes es ++ mark "]" ::
        (trivia (filled items) ++ ts))) =
        '[' :: (sourceChars (ofAttributes es) ++ ']' ::
          (sourceChars (trivia (filled items)) ++ c :: cs)) := by
      simp [chars, mark, hts]
    rw [hsource, hts]
    exact skipAttributes_bracketed (hattributes.passes (by simp) hinner)
      (passes_run (isRun_filled hitems) hafter) hplain (not_isWhiteSpace_of_isLetter hc)

/-- Behind attributes or none, what is written starts with a word or a mark. -/
theorem head?_front (hopens : Opens ts) :
    ∃ t ∈ (bracketed (ofAttributes es) items ++ ts).head?, t.isWhitespace = false := by
  obtain ⟨t, us, heq, hsolid, -⟩ := isEntry_bracketed hbare hopens
  exact ⟨t, by rw [heq]; rfl, hsolid⟩

end Fronts

theorem lineFed_lead {lead : List Trivia} (hts : ∃ t ∈ ts.head?, t.isWhitespace = false)
    (hfed : LineFed (trivia lead ++ ts)) : LineFed (trivia lead) ∧ LineFed ts := by
  obtain ⟨t, ht, hsolid⟩ := hts
  refine ⟨hfed.left fun u hu => ?_, hfed.of_append⟩
  rw [Option.mem_def.mp ht] at hu
  cases hu
  exact hsolid

section Frames

variable {γ : Type} {leadOf : γ → List Trivia} {line : γ → List Char} {gs : List γ} {indent : Nat}
  {body : List Token}

theorem shaped_front : Shaped [';', '\x7b'] (bracketed (ofAttributes es) items ++
    header (w :: ws) name isPartial inheritance) :=
  (shaped_bracketed (by decide) (shaped_ofAttributes es) items).append (shaped_header _ _ _ _)

section Keyword

variable (hbare : es = [] → items = [])
  (hfits : ∀ t ∈ bracketed (ofAttributes es) items ++ header (w :: ws) name isPartial inheritance,
    t.Fits b)
include hbare hfits

theorem ends_front :
    Bare (sourceChars (bracketed (ofAttributes es) items ++
        header (w :: ws) name isPartial inheritance)) ∧
      Ended (sourceChars (bracketed (ofAttributes es) items ++
        header (w :: ws) name isPartial inheritance)) := by
  have hbalanced := shaped_front.balanced hfits
  have hhead := head?_front hbare (opens_header w ws name isPartial inheritance [])
  rw [List.append_nil] at hhead
  have hstart := hbalanced.bare hhead []
  rw [List.append_nil] at hstart
  exact ⟨hstart, hbalanced.ended ((finished_header _ _ _ _).append_left _)⟩

/-- The word that tells what is defined is found behind comments, attributes and `partial`. -/
theorem definitionKeyword_front (hw : IsName w) (hp : w.toList.head? ≠ some 'p')
    (hlead : Trivia.IsRun lead) (hitems : Trivia.IsRun items) (hfedlead : LineFed (trivia lead))
    (hfed : LineFed (bracketed (ofAttributes es) items ++
      header (w :: ws) name isPartial inheritance)) :
    definitionKeyword (Trivia.chars lead ++ sourceChars (bracketed (ofAttributes es) items ++
      header (w :: ws) name isPartial inheritance)) = w.toList := by
  obtain ⟨hstart, hended⟩ := ends_front hbare hfits
  have hopens := opens_header w ws name isPartial inheritance []
  rw [List.append_nil] at hopens
  obtain ⟨c, cs, hsource, hc⟩ := exists_letter_header hw ws name isPartial inheritance
  rw [definitionKeyword_run hlead hfedlead hstart hended,
    skipAttributes_front hbare hitems (List.forall_mem_append.mp hfits).1 hsource hc hopens hfed,
    takeWhile_skipPartial hw hp]

end Keyword

/-- A written block is printed line by line if the lines of its body are known. -/
theorem statement_frame (hw : IsName w) (hp : w.toList.head? ≠ some 'p')
    (hlead : Trivia.IsRun lead) (hbare : es = [] → items = []) (hitems : Trivia.IsRun items)
    (hfits : ∀ t ∈ bracketed (ofAttributes es) items ++ header (w :: ws) name isPartial inheritance,
      t.Fits b)
    (hfed : LineFed (trivia lead ++ (bracketed (ofAttributes es) items ++
      (header (w :: ws) name isPartial inheritance ++ space :: mark "\x7b" :: us))))
    (hlines : bodyLines w.toList (sourceChars body) = linesOf leadOf line gs closing) :
    statement indent (sourceChars (trivia lead ++ (bracketed (ofAttributes es) items ++
        (header (w :: ws) name isPartial inheritance ++ space :: mark "\x7b" ::
          (body ++ [mark "\x7d"]))))) =
      Trivia.chars (Trivia.dropBlanks lead) ++
        (sourceChars (bracketed (ofAttributes es) items ++
          header (w :: ws) name isPartial inheritance) ++ ' ' :: '\x7b' ::
          (gs.flatMap (fun g => Trivia.chars (Trivia.leadLines indent (leadOf g)) ++ line g) ++
            Trivia.chars (Trivia.lastLines indent closing) ++ "\x7d;\n\n".toList)) := by
  obtain ⟨hstart, hended⟩ := ends_front hbare hfits
  have hopens := opens_header w ws name isPartial inheritance
  obtain ⟨hfedlead, hfedhead⟩ := lineFed_lead (head?_front hbare (hopens _)) hfed
  have hfinished : Finished (bracketed (ofAttributes es) items ++
      header (w :: ws) name isPartial inheritance) :=
    (finished_header _ _ _ _).append_left _
  have hfedfront := (@lineFed_append _ (space :: mark "\x7b" :: us) hfinished).mp (by
    rwa [List.append_assoc])
  have hpasses : Passes (· ≠ '\x7b') (Trivia.chars lead ++
      (sourceChars (bracketed (ofAttributes es) items ++
        header (w :: ws) name isPartial inheritance) ++ [' '])) := by
    rw [← sourceChars_trivia]
    refine ((passes_run hlead hfedlead).mono ?_).append
      ((((shaped_front.balanced hfits).passes (by decide) hfedfront.1).mono ?_).append ?_)
    · rintro c hc rfl
      exact absurd hc (by decide)
    · simp
    · exact passes_plain (List.forall_mem_singleton.mpr (by decide))
  have hkeyword := definitionKeyword_front hbare hfits hw hp hlead.dropBlanks hitems
    (Trivia.lineFed_dropBlanks hfedlead) hfedfront.1
  have hprinted := @statement_block _ _ _ _ _ _ indent _ gs hlead hstart.begun hended hpasses
    (by rw [hkeyword, hlines])
  rw [← hprinted]
  simp [sourceChars_trivia, chars, space, mark, blank]

end Frames

/-- What a statement is in front of its semicolon. -/
theorem front_of_stated (h : Stated b [';'] ts) (hhead : ∃ t ∈ ts.head?, t.isWhitespace = false)
    (hfed : LineFed ts) :
    sourceChars ts = sourceChars ts.dropLast ++ [';'] ∧ Bare (sourceChars ts.dropLast) ∧
      Ended (sourceChars ts.dropLast) ∧ Passes (· ≠ ';') (sourceChars ts.dropLast) := by
  obtain ⟨us, rfl, hus, hfinished⟩ := h
  have hsolid : ∃ t ∈ us.head?, t.isWhitespace = false := by
    obtain ⟨t, ht, hsolid⟩ := hhead
    have hne : us ≠ [] := by
      rintro rfl
      obtain ⟨u, hu, -⟩ := hfinished
      cases hu
    obtain ⟨u, vs, rfl⟩ := List.exists_cons_of_ne_nil hne
    exact ⟨t, ht, hsolid⟩
  have hbare := hus.bare hsolid []
  rw [List.append_nil] at hbare
  have hpasses := hus.passes (by decide) (hfed.left (by simp [mark, isWhitespace]))
  rw [List.dropLast_concat]
  exact ⟨by simp [chars, mark], hbare, hus.ended hfinished, hpasses.mono (by simp)⟩

theorem passes_chars {c : Char} (hc : isWhiteSpace c = false) (hrun : Trivia.IsRun items)
    (hfed : LineFed (trivia items)) : Passes (· ≠ c) (Trivia.chars items) := by
  rw [← sourceChars_trivia]
  refine (passes_run hrun hfed).mono ?_
  rintro d hd rfl
  rw [hc] at hd
  cases hd

section Bodies

variable {γ : Type} {leadOf : γ → List Trivia} {f : γ → List Token} {gs : List γ}
  (hstated : ∀ g ∈ gs, Stated b [';'] (f g))
  (hhead : ∀ g ∈ gs, ∃ t ∈ (f g).head?, t.isWhitespace = false)
  (hlead : ∀ g ∈ gs, Trivia.IsRun (leadOf g)) (hclosing : Trivia.IsRun closing)
  (hfed : LineFed (gs.flatMap (fun g => trivia (leadOf g) ++ f g) ++ trivia closing))
include hstated hhead hfed

theorem lineFed_stated :
    (∀ g ∈ gs, LineFed (trivia (leadOf g)) ∧ LineFed (f g)) ∧ LineFed (trivia closing) := by
  obtain ⟨hpieces, hclosing⟩ :=
    lineFed_flatMap (fun g hg => (hstated g hg).finished.append_left _) hfed
  exact ⟨fun g hg => lineFed_lead (hhead g hg) (hpieces g hg), hclosing⟩

include hlead hclosing

/-- Written statements are cut behind each of them. -/
theorem split_stated :
    split ';' (sourceChars (gs.flatMap (fun g => trivia (leadOf g) ++ f g) ++ trivia closing)) =
      (gs.map fun g => Trivia.chars (leadOf g) ++ sourceChars (f g).dropLast,
        Trivia.chars closing) := by
  obtain ⟨hpieces, hfedclosing⟩ := lineFed_stated hstated hhead hfed
  have hfront := fun g hg => front_of_stated (hstated g hg) (hhead g hg) (hpieces g hg).2
  have hsource : sourceChars (gs.flatMap (fun g => trivia (leadOf g) ++ f g) ++ trivia closing) =
      gs.flatMap (fun g => (Trivia.chars (leadOf g) ++ sourceChars (f g).dropLast) ++ [';']) ++
        Trivia.chars closing := by
    rw [sourceChars_append, sourceChars_trivia, sourceChars, List.flatMap_assoc]
    congr 1
    apply List.flatMap_congr
    intro g hg
    change sourceChars (trivia (leadOf g) ++ f g) = _
    rw [sourceChars_append, sourceChars_trivia, (hfront g hg).1, List.append_assoc]
  have hlast := split_of_passes (passes_chars (c := ';') rfl hclosing hfedclosing)
  rw [hsource, split_flatMap (by decide) fun g hg =>
    (passes_chars rfl (hlead g hg) (hpieces g hg).1).append (hfront g hg).2.2.2, hlast,
    List.append_nil]

end Bodies

theorem head?_memberBody {m : Member} (hbare : m.extAttrs = [] → m.afterAttrs = []) :
    ∃ t ∈ (memberBody m).head?, t.isWhitespace = false :=
  head?_front hbare (opens_ofMemberKind m.kind)

section Members

variable {ms : List Member} (hlead : ∀ m ∈ ms, Trivia.IsRun m.leading)
  (hbare : ∀ m ∈ ms, m.extAttrs = [] → m.afterAttrs = []) (hclosing : Trivia.IsRun closing)
  (hfits : ∀ t ∈ members ms, t.Fits b) (hfed : LineFed (members ms ++ trivia closing))

include hfits

theorem fits_memberBody : ∀ m ∈ ms, ∀ t ∈ memberBody m, t.Fits b := by
  intro m hm t ht
  refine hfits t (List.mem_flatMap.mpr ⟨m, hm, ?_⟩)
  rw [ofMember_eq]
  exact List.mem_append_right _ ht

theorem stated_memberBody : ∀ m ∈ ms, Stated b [';'] (memberBody m) :=
  fun m hm => (clause_memberBody m).stated (fits_memberBody hfits m hm)

include hbare hfed

theorem lineFed_memberBody : ∀ m ∈ ms, LineFed (memberBody m) := by
  rw [members, funext ofMember_eq] at hfed
  have hpieces := lineFed_stated (stated_memberBody hfits)
    (fun m hm => head?_memberBody (hbare m hm)) hfed
  exact fun m hm => (hpieces.1 m hm).2

include hlead hclosing

/-- The entries of a body are its members, with the comments in front of each. -/
theorem entries_members :
    entries ';' (sourceChars (members ms ++ trivia closing)) =
      ms.flatMap (fun m => (commentTexts m.leading).map .comment ++
        [.declaration (sourceChars (memberBody m).dropLast)]) ++
          (commentTexts closing).map .comment := by
  have hstated := stated_memberBody hfits
  have hhead := fun m hm => head?_memberBody (hbare m hm)
  rw [members, funext ofMember_eq] at hfed ⊢
  obtain ⟨hpieces, hfedclosing⟩ := lineFed_stated hstated hhead hfed
  rw [entries, split_stated hstated hhead hlead hclosing hfed]
  simp only [List.flatMap_append, List.flatMap_map, List.flatMap_singleton,
    pieceEntries_closing hclosing hfedclosing]
  congr 1
  apply List.flatMap_congr
  intro m hm
  obtain ⟨-, hbare, hended, -⟩ := front_of_stated (hstated m hm) (hhead m hm) (hpieces m hm).2
  rw [pieceEntries_run (hlead m hm) (hpieces m hm).1 hbare, hended.trimEnd_eq]

/-- A body without columns and without commas has each member on a line of its own, as it was
written. -/
theorem bodyLines_members (hdictionary : w ≠ "dictionary") (henum : w ≠ "enum") :
    bodyLines w.toList (sourceChars (members ms ++ trivia closing)) =
      linesOf Member.leading (fun m => sourceChars (memberBody m)) ms closing := by
  have hline : ∀ m ∈ ms, sourceChars (memberBody m).dropLast ++ [';'] =
      sourceChars (memberBody m) := by
    intro m hm
    obtain ⟨us, heq, -⟩ := stated_memberBody hfits m hm
    rw [heq, List.dropLast_concat]
    simp [chars, mark]
  have hne : ∀ {v : String}, w ≠ v → w.toList ≠ v.toList := fun h heq => h (String.toList_inj.mp heq)
  rw [bodyLines, if_neg (hne hdictionary), if_neg (hne henum),
    entries_members hlead hbare hclosing hfits hfed, memberLines, List.map_append, linesOf,
    List.map_flatMap, List.map_map]
  congr 1
  · apply List.flatMap_congr
    intro m hm
    simp [Function.comp_def, hline m hm]
  · simp [Function.comp_def]

end Members

end WebIdl.Layout
