import WebIdl.Index
import WebIdl.Proofs.Combining.Texts
import WebIdl.Proofs.Lexing.Standalone
import WebIdl.Proofs.Merging.Targets
import WebIdl.Proofs.Printing.Reprinting
import WebIdl.Proofs.Printing.Shapes
import WebIdl.Proofs.Sound.Drawn

/-!
# Printed text stays as it is

Where no trivia is kept, whatever is written after a parse is printed once and for all, also with the
partial definitions folded into others, and whether or not it could be parsed again.
-/

namespace WebIdl

open Token Spelling Lexer Grammar
open Text hiding words

namespace Token

variable {ts : List Token} {t : Token}

theorem mem_of_mem_unescape {c : Char} (h : c ∈ t.unescape.chars) : c ∈ t.chars := by
  unfold unescape at h
  split at h
  · next heq =>
    rw [chars, heq]
    exact List.mem_cons_of_mem _ (by simpa [chars] using h)
  · exact h

theorem neat_quoted {s : String} (hs : '"' ∉ s.toList) : (quoted s).Neat :=
  ⟨s, hs, rfl⟩

/-- What is drawn from the tokens of a text keeps to its place. -/
theorem Drawn.neat (h : Drawn ts t) (hts : IsCut ts) : t.Neat := by
  have hletters : ∀ {w : String}, (∀ c ∈ w.toList, isWordPart c) → (Token.word w).Neat :=
    fun hw c hc => Or.inl (hw c hc)
  cases h with
  | mark => trivial
  | @word w hw =>
    have hwords : grammarWords.all (·.toList.all isWordPart) := by decide +kernel
    exact hletters (List.all_eq_true.mp (List.all_eq_true.mp hwords w hw))
  | space => exact List.forall_mem_singleton.mpr rfl
  | @name t ht hkind =>
    have hcut := hts.of_mem ht
    apply hletters
    intro c hc
    exact isWordPart_of_isWord (hcut.isWord hkind) c (mem_of_mem_unescape hc)
  | @numeral t ht hkind =>
    have hcut := hts.of_mem ht
    have hletter : ∀ c ∈ t.text.toList, IsLetter c := by
      rcases hkind with hkind | hkind
      · exact isLetter_of_isFloat (hcut.isFloat hkind)
      · exact isLetter_of_isInteger (hcut.isInteger hkind)
    unfold Neat
    rw [chars, ofNumeral_text]
    rcases ofNumeral_kind t.text with hkind | hkind <;> rw [hkind] <;> exact hletter
  | @literal t ht hkind =>
    have hcut := hts.of_mem ht
    obtain ⟨s, hs, rfl⟩ := hcut.exists_quoted hkind
    apply neat_quoted
    rwa [unquote_quoted hs]
  | value => exact neat_quoted (by simp)

end Token

namespace Layout

variable {ts : List Token}

/-- What is written for a definition is a phrase and a semicolon. -/
theorem exists_phrase (h : Sentence ts) (hts : ∀ t ∈ ts, t.Neat) :
    ∃ cs, sourceChars ts = cs ++ [';'] ∧ Phrase cs := by
  cases h with
  | plain h =>
    obtain ⟨us, rfl, hshaped, -⟩ := h
    obtain ⟨hus, -⟩ := List.forall_mem_append.mp hts
    refine ⟨sourceChars us, by simp [chars, mark], .plain ?_⟩
    exact hshaped.nested (by decide) hus
  | @block front body hfront hbody =>
    obtain ⟨hneat, hrest⟩ := List.forall_mem_append.mp hts
    obtain ⟨-, hrest⟩ := List.forall_mem_cons.mp hrest
    obtain ⟨hneat', -⟩ := List.forall_mem_append.mp hrest
    refine ⟨sourceChars front ++ '\x7b' :: (sourceChars body ++ ['\x7d']), ?_, .block ?_ ?_⟩
    · simp [chars, mark]
    · exact hfront.nested (by decide) hneat
    · exact hbody.nested (by simp) hneat'

/-- Nothing but a line feed is written between two definitions. -/
theorem white_break (x : Definition) :
    ∀ c ∈ sourceChars (if x.leading.isEmpty then [blank "\n"] else []), isWhiteSpace c := by
  split
  · exact List.forall_mem_singleton.mpr rfl
  · simp

theorem exists_phrases {xs : List Definition} (h : ∀ x ∈ xs, ∀ t ∈ ofDefinition x, t.Neat) :
    ∃ phrases : List (List Char), (writeDefinitions xs).toList = phrases.flatMap (· ++ [';']) ∧
      ∀ cs ∈ phrases, Phrase cs := by
  have hmore : ∀ xs : List Definition, (∀ x ∈ xs, ∀ t ∈ ofDefinition x, t.Neat) →
      ∃ phrases : List (List Char), sourceChars (ofMoreDefinitions xs) = phrases.flatMap (· ++ [';']) ∧
        ∀ cs ∈ phrases, Phrase cs := by
    intro xs hxs
    induction xs with
    | nil => exact ⟨[], rfl, by simp⟩
    | cons x xs ih =>
      obtain ⟨hx, hxs⟩ := List.forall_mem_cons.mp hxs
      obtain ⟨cs, heq, hcs⟩ := exists_phrase (sentence_ofDefinition x) hx
      obtain ⟨phrases, hphrases, hall⟩ := ih hxs
      refine ⟨_ :: phrases, ?_, List.forall_mem_cons.mpr ⟨hcs.white_append (white_break x), hall⟩⟩
      rw [ofMoreDefinitions, sourceChars_append, sourceChars_append, heq, hphrases,
        List.flatMap_cons]
      simp only [List.append_assoc]
  cases xs with
  | nil => exact ⟨[], rfl, by simp⟩
  | cons x xs =>
    obtain ⟨hx, hxs⟩ := List.forall_mem_cons.mp h
    obtain ⟨cs, heq, hcs⟩ := exists_phrase (sentence_ofDefinition x) hx
    obtain ⟨phrases, hphrases, hall⟩ := hmore xs hxs
    refine ⟨cs :: phrases, ?_, List.forall_mem_cons.mpr ⟨hcs, hall⟩⟩
    rw [writeDefinitions, toList_source, ofDefinitions, sourceChars_append, heq, hphrases,
      List.flatMap_cons]

theorem printChars_toList (indent : Nat) (text : String) :
    (print indent text).toList = printChars indent text.toList :=
  String.toList_ofList

end Layout

namespace Spelling

variable {ts : List Token} {x : Definition}

theorem made_members {ms : List Member} :
    Made ts (members ms) ↔ ∀ m ∈ ms, Made ts (ofMember m) := by
  constructor
  · exact fun h m hm t ht => h t (List.mem_flatMap.mpr ⟨m, hm, ht⟩)
  · exact made_flatMap

/-- A body is made of its members and the braces around them. -/
theorem made_block_members {front : List Token} {ms : List Member} {closing : List Trivia} :
    Made ts (front ++ block (members ms) closing) ↔
      Made ts (front ++ block (members []) closing) ∧ ∀ m ∈ ms, Made ts (ofMember m) := by
  rw [← made_members]
  simp only [block, members, List.flatMap_nil, List.cons_append, made_append, made_cons, made_nil]
  tauto

/-- A definition is made of its members and what is left without them. -/
theorem made_ofDefinition_iff :
    Made ts (ofDefinition x) ↔
      Made ts (ofDefinition x.emptied) ∧ ∀ m ∈ x.body, Made ts (ofMember m) := by
  obtain ⟨extAttrs, leading, afterAttrs, kind⟩ := x
  cases kind with
  | interface i | «class» i | callbackInterface i | dictionary i | exception i =>
    simp only [ofDefinition, Definition.emptied, ofDefinitionKind, ofInterface, ofDictionary,
      ofException, ← List.append_assoc]
    exact made_block_members
  | _ => simp [Definition.body, Definition.members?, Definition.emptied]

theorem made_addMembers {more : List Member} (h : Made ts (ofDefinition x))
    (hmore : ∀ m ∈ more, Made ts (ofMember m)) : Made ts (ofDefinition (x.addMembers more)) := by
  obtain ⟨hemptied, hbody⟩ := made_ofDefinition_iff.mp h
  obtain ⟨hemptied', hmembers⟩ := x.extends_addMembers more
  rw [made_ofDefinition_iff, hemptied']
  refine ⟨hemptied, fun m hm => ?_⟩
  rw [Definition.body, hmembers] at hm
  rw [Definition.body] at hbody
  cases hcase : x.members? with
  | none => simp [hcase] at hm
  | some ms =>
    simp only [hcase, Option.map_some, Option.getD_some] at hm hbody
    rcases List.mem_append.mp hm with hm | hm
    · exact hbody m hm
    · exact hmore m hm

/-- What is folded together is made of what it was folded from. -/
theorem made_mergePartials {xs : List Definition} (h : ∀ x ∈ xs, Made ts (ofDefinition x)) :
    ∀ y ∈ (mergePartials xs).definitions, Made ts (ofDefinition y) := by
  have hmem : ∀ {p : Definition × Nat → Bool} {e}, e ∈ xs.zipIdx.filter p → e.1 ∈ xs :=
    fun he => List.fst_mem_of_mem_zipIdx (List.mem_of_mem_filter he)
  intro y hy
  rw [mergePartials_eq] at hy
  obtain ⟨e, he, rfl⟩ := List.mem_map.mp hy
  apply made_addMembers (h e.1 (hmem he))
  intro m hm
  obtain ⟨e', he', hm⟩ := List.mem_flatMap.mp hm
  exact (made_ofDefinition_iff.mp (h e'.1 (hmem he'))).2 m hm

theorem made_merge {xs : List Definition} (h : ∀ x ∈ xs, Made ts (ofDefinition x))
    (o : RenderOptions) : ∀ y ∈ (o.merge xs).definitions, Made ts (ofDefinition y) := by
  rw [RenderOptions.merge]
  split
  · exact made_mergePartials h
  · exact h

end Spelling

namespace Layout

/-- Whatever is printed of the definitions of a text is not changed by printing it again. -/
theorem print_print {o : RenderOptions} {text : String} {p : Program}
    (hd : o.dialect.keepTrivia = false) (h : parseText o.dialect text = .ok p) (indent : Nat) :
    print indent (print indent (writeDefinitions (o.merge p.definitions).definitions)) =
      print indent (writeDefinitions (o.merge p.definitions).definitions) := by
  obtain ⟨ts, hts, hparse⟩ := parseText_eq_ok_iff.mp h
  have hmade := made_merge (made_of_parse hd hparse) o
  have hneat : ∀ x ∈ (o.merge p.definitions).definitions, ∀ t ∈ ofDefinition x, t.Neat :=
    fun x hx t ht => (hmade x hx t ht).neat (tokenize_eq_ok_iff.mp hts).1
  obtain ⟨phrases, hphrases, hall⟩ := exists_phrases hneat
  apply String.ext
  rw [printChars_toList, printChars_toList, hphrases]
  exact printChars_printChars hall indent

/-- Names may be empty, be taken for keywords, or have come from another definition. -/
theorem print_print_partial :
    ∃ p, parseText {}
        "interface I \x7b\x7d; partial interface I \x7b_long _(_ x);\x7d; dictionary D \x7bT x=\" =\";\x7d;" =
        .ok p ∧
      writeDefinitions (({} : RenderOptions).merge p.definitions).definitions =
        "interface I \x7blong ( x);\x7d;\ndictionary D \x7bT x = \" =\";\x7d;" ∧
      print 2 (print 2 (writeDefinitions (({} : RenderOptions).merge p.definitions).definitions)) =
        print 2 (writeDefinitions (({} : RenderOptions).merge p.definitions).definitions) := by
  obtain ⟨p, hp, hwritten⟩ := @exists_of_map_eq_ok _ _ _
    (fun p : Program => writeDefinitions (({} : RenderOptions).merge p.definitions).definitions)
    (parseText {}
      "interface I \x7b\x7d; partial interface I \x7b_long _(_ x);\x7d; dictionary D \x7bT x=\" =\";\x7d;")
    "interface I \x7blong ( x);\x7d;\ndictionary D \x7bT x = \" =\";\x7d;"
    (by decide +kernel)
  exact ⟨p, hp, hwritten, print_print (o := {}) rfl hp 2⟩

end Layout

end WebIdl
