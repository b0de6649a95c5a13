import WebIdl.Proofs.Progress.Forward
import WebIdl.Proofs.RoundTrip

/-!
# Types as they are shown

What is shown of a type is read as that type, and a type is read from the tokens that it is shown
with, whatever blanks lie between them. So there is one way to spell each type and one type for each
spelling.
-/

namespace WebIdl

open Token Spelling Grammar

variable {d : Dialect} {t : IdlType}

theorem exists_tokens_write (ht : t.WellFormed) :
    ∃ us, tokenize t.write = .ok us ∧ solids us = solids (ofType t) := by
  have hlex : Lexable (ofType t) := by
    have hlex := lexable_ofType ht lexable_nil (by simp [Clear])
    rwa [List.append_nil] at hlex
  obtain ⟨⟨us, hcut, hspaced, -⟩, -⟩ := hlex
  refine ⟨us, tokenize_eq_ok_iff.mpr ⟨hcut, ?_⟩, solids_eq_of_spaced_eq hspaced⟩
  rw [IdlType.write, toList_source, sourceChars_eq_of_spaced_eq hspaced]

/-- A definition that gives a type a name, without attributes and without trivia. -/
def namedDefinition (t : IdlType) (name : String) : Definition where
  extAttrs := []
  leading := []
  afterAttrs := []
  kind := .typedef { typeExtAttrs := [], afterTypeAttrs := [], type := t, name }

theorem Dialect.keeps_nil (d : Dialect) : d.Keeps [] := by
  rw [Keeps]
  split
  · exact ⟨.nil, trivial⟩
  · rfl

theorem wellFormed_namedDefinition (ht : t.WellFormed) {name : String} (hname : IsName name)
    (hlong : name ≠ "long") : (namedDefinition t name).WellFormed d where
  annotated := ⟨by simp [namedDefinition], d.keeps_nil, fun _ => rfl⟩
  leading := d.keeps_nil
  kind :=
    { annotated := ⟨by simp, d.keeps_nil, fun _ => rfl⟩
      type := ht
      name := hname
      apart := fun _ _ => hlong }

theorem sourceChars_namedDefinition (t : IdlType) :
    sourceChars (ofDefinitions [namedDefinition t "X"]) =
      ("typedef " ++ t.write ++ " X;").toList := by
  have htokens : ofDefinitions [namedDefinition t "X"] =
      word "typedef" :: space :: ofType t ++ [space, word "X", mark ";"] := by
    simp [ofDefinitions, ofMoreDefinitions, ofDefinition, namedDefinition, ofDefinitionKind,
      ofTypedef, ofAttributes, bracketed, Spelling.trivia]
  rw [htokens, String.toList_append, String.toList_append, IdlType.write, toList_source]
  simp [chars, word, space, blank, mark]

theorem kind_eq_typedef {x : Definition} {s : Typedef} (h : x.kind.erase = .typedef s) :
    ∃ td, x.kind = .typedef td ∧ td.erase = s := by
  cases hkind : x.kind with
  | typedef td =>
    rw [hkind] at h
    exact ⟨td, rfl, DefinitionKind.typedef.inj h⟩
  | _ =>
    rw [hkind] at h
    cases h

theorem exists_parseText_typedef (d : Dialect) (ht : t.WellFormed) :
    ∃ p x td, parseText d ("typedef " ++ t.write ++ " X;") = .ok p ∧ p.definitions = [x] ∧
      x.extAttrs = [] ∧ x.kind = .typedef td ∧ td.typeExtAttrs = [] ∧ td.name = "X" ∧
      td.type = t := by
  obtain ⟨-, p, hparse, hsame, -⟩ := @parseText_of_wellFormed d
    ("typedef " ++ t.write ++ " X;") false [namedDefinition t "X"] [] nofun
    (by
      intro x hx
      rw [List.mem_singleton.mp hx]
      exact wellFormed_namedDefinition ht (by decide) (by decide))
    .nil (by rw [← sourceChars_namedDefinition]; simp [Spelling.trivia])
  obtain ⟨x, hx, hdefinitions⟩ : ∃ x, SameDefinition false ([], namedDefinition t "X") x ∧
      p.definitions = [x] := by
    generalize p.definitions = xs at hsame
    cases hsame with
    | cons hx hnil =>
      cases hnil
      exact ⟨_, hx, rfl⟩
  obtain ⟨td, hkind, htd⟩ := kind_eq_typedef (congrArg Definition.kind hx.erase)
  have hattributes : x.extAttrs.map ExtendedAttribute.erase = [] :=
    congrArg Definition.extAttrs hx.erase
  have htyped : td.typeExtAttrs.map ExtendedAttribute.erase = [] :=
    congrArg Typedef.typeExtAttrs htd
  exact ⟨p, x, td, hparse, hdefinitions, List.map_eq_nil_iff.mp hattributes, hkind,
    List.map_eq_nil_iff.mp htyped, congrArg Typedef.name htd, congrArg Typedef.type htd⟩

/-- A type that is read from anywhere in a text has been read from its own tokens. -/
theorem exists_read_of_idlType {c c' : Cursor} (hc : Cursor.Cut c)
    (h : (idlType : Reader (Option IdlType)) c = .ok (some t, c')) :
    t.WellFormed ∧ ∃ read, c.after = read ++ c'.after ∧ solids read = solids (ofType t) := by
  have htype : TypeRead c t c' :=
    answers_idlType (Q := fun o c' => ∀ t, o = some t → TypeRead c t c') hc
      (fun t c' ht _ heq => Option.some.inj heq ▸ ht) (by simp) (some t) c' h t rfl
  have hforward : Forward (idlType : Reader (Option IdlType)) := inferInstance
  obtain ⟨read, hread, -⟩ := (hforward.answers c (some t) c' h).1
  refine ⟨htype.wellFormed, read, hread, ?_⟩
  have hahead := htype.ahead
  rw [Cursor.ahead, Cursor.ahead, hread, solids_append] at hahead
  exact List.append_cancel_right hahead

/-- Reading types and showing them undo each other: each well-formed type is read from what is shown
of it, and what is read at any place of a text is a well-formed type that is shown with the very
tokens that it has been read from. -/
theorem idlType_write_inverse :
    (∀ (d : Dialect) (t : IdlType), t.WellFormed →
      ∃ p x td, parseText d ("typedef " ++ t.write ++ " X;") = .ok p ∧ p.definitions = [x] ∧
        x.extAttrs = [] ∧ x.kind = .typedef td ∧ td.typeExtAttrs = [] ∧ td.name = "X" ∧
        td.type = t) ∧
      ∀ (text : String) (ts : List Token) (c c' : Cursor) (t : IdlType),
        tokenize text = .ok ts → Token.Unescaped ts → c.tokens = ts →
        (idlType : Reader (Option IdlType)) c = .ok (some t, c') →
        t.WellFormed ∧ ∃ read us, c.after = read ++ c'.after ∧ tokenize t.write = .ok us ∧
          solids read = solids us := by
  refine ⟨fun d t => exists_parseText_typedef d, ?_⟩
  intro text ts c c' t htokens hunescaped hc h
  have hcut : Cursor.Cut c := by
    subst hc
    exact ⟨(tokenize_eq_ok_iff.mp htokens).1, hunescaped⟩
  obtain ⟨ht, read, hread, hsolids⟩ := exists_read_of_idlType hcut h
  obtain ⟨us, hus, hshown⟩ := exists_tokens_write ht
  exact ⟨ht, read, us, hread, hus, hsolids.trans hshown.symm⟩

/-- A type with suffixes at every level, shown and read with other blanks. -/
theorem idlType_write_inverse_union :
    (∃ p x td, parseText {} "typedef (unsigned long long?[] or sequence<any?[]>)? X;" = .ok p ∧
        p.definitions = [x] ∧ x.kind = .typedef td ∧
        td.type = .union [.primitive (.integer true .longLong) ⟨false, [true]⟩,
          .generic "sequence" (.named "any" ⟨false, [true]⟩) {}] ⟨true, []⟩) ∧
      ∃ ts t c' read us,
        tokenize "(unsigned long// l\n long ? []or sequence< any?[ ]> )? X" = .ok ts ∧
        (idlType : Reader (Option IdlType)) (Cursor.ofTokens ts) = .ok (some t, c') ∧
        t.write = "(unsigned long long?[] or sequence<any?[]>)?" ∧ ts = read ++ c'.after ∧
        tokenize t.write = .ok us ∧ solids read = solids us := by
  constructor
  · have ht : (IdlType.union [.primitive (.integer true .longLong) ⟨false, [true]⟩,
        .generic "sequence" (.named "any" ⟨false, [true]⟩) {}] ⟨true, []⟩).WellFormed := by
      have hname : ∀ n ∈ ["sequence", "any"], IsTypeName n := by
        intro n hn
        exact ⟨(show ∀ n ∈ ["sequence", "any"], IsName n by decide) n hn,
          (show ∀ n ∈ ["sequence", "any"], n ∉ Primitive.keywords by decide) n hn⟩
      refine .union _ ?_ (by simp)
      simp only [List.forall_mem_cons, List.not_mem_nil, false_implies, implies_true, and_true]
      exact ⟨.primitive _ _, .generic _ (hname _ (by simp)) (.named (hname _ (by simp)) (by simp))⟩
    obtain ⟨p, x, td, hparse, hdefinitions, -, hkind, -, -, htype⟩ :=
      idlType_write_inverse.1 {} _ ht
    exact ⟨p, x, td, hparse, hdefinitions, hkind, htype⟩
  · obtain ⟨ts, htokens, hpair⟩ := @exists_of_map_eq_ok _ _ _
      (fun ts : List Token => (decide (Token.Unescaped ts),
        ((idlType : Reader (Option IdlType)) (Cursor.ofTokens ts)).map fun r =>
          r.1.map IdlType.write))
      (tokenize "(unsigned long// l\n long ? []or sequence< any?[ ]> )? X")
      (true, .ok (some "(unsigned long long?[] or sequence<any?[]>)?")) (by decide +kernel)
    obtain ⟨hunescaped, hshown⟩ := Prod.mk.inj hpair
    obtain ⟨⟨o, c'⟩, hread, ho⟩ := exists_of_map_eq_ok hshown
    obtain ⟨t, rfl, hwrite⟩ := Option.map_eq_some_iff.mp ho
    obtain ⟨-, read, us, hts, hus, hsolids⟩ := idlType_write_inverse.2 _ ts _ c' t htokens
      (of_decide_eq_true hunescaped) (Cursor.tokens_ofTokens ts) hread
    exact ⟨ts, t, c', read, us, htokens, hread, hwrite, hts, hus, hsolids⟩

end WebIdl
