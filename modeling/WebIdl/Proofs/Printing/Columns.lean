import WebIdl.Proofs.Printing.Fields
import WebIdl.Proofs.Printing.Idempotence
import WebIdl.Proofs.Printing.Values
import WebIdl.Proofs.Sound.Tables
import WebIdl.Proofs.Twins.Trivia

/-!
# The layout told from the tree

The printer is given nothing but text. Still it finds the definitions, the members and the columns
that one would take from the tree, provided that no name is empty. Names may be taken for keywords,
since nothing that is printed is read as a name again.
-/

namespace WebIdl

open Token Spelling

/-- Quoted values with a comma behind each but the last. -/
def valueLines : List EnumValue → List (List Char)
  | [] => []
  | [v] => [(quoted v.value).chars]
  | v :: w :: rest => ((quoted v.value).chars ++ [',']) :: valueLines (w :: rest)

/-- The header of a definition with a body, and the lines of the body. -/
def DefinitionKind.frame? : DefinitionKind → Option (List Token × List (List Char))
  | .interface i =>
    some (header ["interface"] i.name i.isPartial i.inheritance,
      i.members.map fun m => m.write.toList)
  | .class i =>
    some (header ["class"] i.name i.isPartial i.inheritance,
      i.members.map fun m => m.write.toList)
  | .callbackInterface i =>
    some (header ["callback", "interface"] i.name i.isPartial i.inheritance,
      i.members.map fun m => m.write.toList)
  | .exception e =>
    some (header ["exception"] e.name false e.inheritance,
      e.members.map fun m => m.write.toList)
  | .dictionary b =>
    some (header ["dictionary"] b.name b.isPartial b.inheritance,
      b.members.map (Member.tabulated b.typeSpan))
  | .enum e => some (header ["enum"] e.name false none, valueLines e.values)
  | .callback _ | .typedef _ | .implements _ => none

/-- A definition on lines of its own, with an empty line behind it. -/
def Definition.layOut (indent : Nat) (x : Definition) : List Char :=
  match x.kind.frame? with
  | some (front, lines) =>
    sourceChars (bracketed (ofAttributes x.extAttrs) x.afterAttrs ++ front) ++ " \x7b\n".toList ++
      Layout.indentLines indent lines ++ "\x7d;\n\n".toList
  | none => x.write.toList ++ "\n\n".toList

namespace Token

variable {W : List Char} {ts : List Token} {t : Token}

/-- The token keeps to its place and is not empty. -/
def Full (t : Token) : Prop :=
  t.Neat ∧ t.chars ≠ []

theorem Full.fits (h : t.Full) : t.Fits false := by
  obtain ⟨kind, text⟩ := t
  obtain ⟨hneat, hne⟩ := h
  cases kind with
  | other => trivial
  | whitespace => exact ⟨.whitespace text, rfl, .blanks hne hneat, .inr ⟨text, rfl⟩⟩
  | string => exact hneat
  | identifier | float | integer => exact ⟨hne, hneat⟩

/-- Nothing is empty in what is drawn from the tokens of a text, if no name is the escape mark
alone. -/
theorem Drawn.chars_ne_nil (h : Drawn ts t) (hts : IsCut ts) (hbare : Token.word "_" ∉ ts) :
    t.chars ≠ [] := by
  cases h with
  | @mark m hm =>
    have hmarks : grammarMarks.all (!·.toList.isEmpty) := by decide
    simpa [chars, Token.mark] using List.all_eq_true.mp hmarks m hm
  | @word w hw =>
    have hwords : grammarWords.all (!·.toList.isEmpty) := by decide +kernel
    simpa [chars, Token.word] using List.all_eq_true.mp hwords w hw
  | space => simp [chars, Spelling.space, Token.blank]
  | @name t ht hkind =>
    have hcut := hts.of_mem ht
    have hne := hcut.chars_ne_nil
    intro hnil
    have hempty : t.unescape.chars = [] := hnil
    unfold unescape at hempty
    split at hempty
    · next rest hkind htext =>
      obtain rfl : rest = [] := by simpa [chars] using hempty
      apply hbare
      have hword : t = Token.word "_" := by
        obtain ⟨kind, text⟩ := t
        obtain rfl : kind = .identifier := hkind
        exact congrArg (Token.mk .identifier) (String.ext htext)
      rwa [← hword]
    · exact hne hempty
  | @numeral t ht _ =>
    have hcut := hts.of_mem ht
    rw [chars, Grammar.ofNumeral_text]
    exact hcut.chars_ne_nil
  | literal | value => simp [chars, quoted]

end Token

namespace Layout

open Text hiding words
open Grammar

variable {indent : Nat} {ts body : List Token} {out : List Char} {lines : List (List Char)}
  {w name : String} {ws : List String} {isPartial : Bool} {inheritance : Option String}
  {es : List ExtendedAttribute}

/-- The tokens end with a semicolon, and what is printed of them is known wherever they stand. -/
def Laid (indent : Nat) (ts : List Token) (out : List Char) : Prop :=
  ∃ cs, sourceChars ts = cs ++ [';'] ∧ Nested [';'] cs ∧
    ∀ bs : List Char, (∀ c ∈ bs, isWhiteSpace c) → statement indent (bs ++ cs) = out

theorem lineFed_of_full (hts : ∀ t ∈ ts, t.Full) : LineFed ts :=
  lineFed_of_forall fun t ht => (hts t ht).fits.not_isLineComment

/-- What has no body is only set off from what follows. -/
theorem laid_clause (h : Clause [';', '\x7b'] ts) (hhead : ∃ t ∈ ts.head?, t.isWhitespace = false)
    (hts : ∀ t ∈ ts, t.Full) :
    Laid indent ts (sourceChars ts ++ "\n\n".toList) := by
  obtain ⟨us, rfl, hus, hfinished⟩ := h
  have hneat := (List.forall_mem_append.mp hts).1
  have hbalanced := hus.balanced fun t ht => (hneat t ht).fits
  obtain ⟨hsource, hbare, hended, -⟩ := front_of_stated
    ⟨us, rfl, hbalanced.mono (by simp), hfinished⟩ hhead (lineFed_of_full hts)
  rw [List.dropLast_concat] at hsource hbare hended
  have hnested : Nested [';', '\x7b'] (sourceChars us) :=
    hus.nested (by decide) fun t ht => (hneat t ht).1
  refine ⟨sourceChars us, hsource, hnested.mono (by simp), fun bs hbs => ?_⟩
  have hne : ¬(sourceChars us).isEmpty := by simpa using hended.ne_nil
  rw [statement_plain_nested ((nested_white solid_cuts hbs).append hnested), trim_append_left hbs,
    trim_of_ends hbare.begun hended, if_neg hne, hsource]
  simp

/-! ## Blocks -/

/-- A block is printed line by line, once the lines of its body are known. -/
theorem laid_block (hw : IsName w) (hp : w.toList.head? ≠ some 'p') (hbody : Shaped [] body)
    (hts : ∀ t ∈ bracketed (ofAttributes es) [] ++
      (header (w :: ws) name isPartial inheritance ++ block body []), t.Full)
    (hlines : (∀ t ∈ body, t.Full) →
      bodyLines w.toList (sourceChars body) = lines) :
    Laid indent (bracketed (ofAttributes es) [] ++
        (header (w :: ws) name isPartial inheritance ++ block body []))
      (sourceChars (bracketed (ofAttributes es) [] ++
          header (w :: ws) name isPartial inheritance) ++ " \x7b\n".toList ++
        indentLines indent lines ++ "\x7d;\n\n".toList) := by
  rw [← List.append_assoc] at hts ⊢
  obtain ⟨hfront, hblock⟩ := List.forall_mem_append.mp hts
  have hinner : ∀ t ∈ body, t.Full := fun t ht => hblock t (by simp [block, ht])
  have hfits := fun t ht => (hfront t ht).fits
  have hkeyword := definitionKeyword_front (fun _ => rfl) hfits hw hp .nil .nil trivial
    (lineFed_of_full hfront)
  rw [Trivia.chars_nil, List.nil_append] at hkeyword
  obtain ⟨hbare, hended⟩ := ends_front (fun _ => rfl) hfits
  have hnested : Nested [] (sourceChars body) :=
    hbody.nested (by simp) fun t ht => (hinner t ht).1
  have hspace : ∀ c ∈ [' '], isWhiteSpace c := List.forall_mem_singleton.mpr rfl
  have hheader := ((shaped_front.nested (by decide) fun t ht => (hfront t ht).1).append
    (nested_white solid_cuts hspace))
  generalize bracketed (ofAttributes es) [] ++ header (w :: ws) name isPartial inheritance = front
    at hkeyword hbare hended hheader ⊢
  have hsource : sourceChars (front ++ block body []) =
      (sourceChars front ++ [' ']) ++ '\x7b' :: (sourceChars body ++ ['\x7d']) ++ [';'] := by
    simp [block, chars, mark, space, blank]
  refine ⟨_, hsource, (hheader.mono (by simp)).append (nested_braces hnested), fun bs hbs => ?_⟩
  rw [← List.append_assoc, statement_block_nested ((nested_white solid_cuts hbs).append hheader),
    trim_append_left hbs, trim_append_right hspace, trim_of_ends hbare.begun hended, hkeyword,
    hlines hinner]

/-! ## Bodies -/

theorem linesOf_plain {γ : Type} {lead : γ → List Trivia} {gs : List γ}
    (h : ∀ g ∈ gs, lead g = []) (line : γ → List Char) : linesOf lead line gs [] = gs.map line := by
  have hline : ∀ g ∈ gs, commentTexts (lead g) ++ [line g] = [line g] := by
    intro g hg
    rw [h g hg]
    rfl
  rw [linesOf, List.flatMap_congr hline, List.map_eq_flatMap]
  exact List.append_nil _

section Members

variable {ms : List Member} (hms : ∀ m ∈ ms, m.erase = m) (hts : ∀ t ∈ members ms, t.Full)
include hms

theorem leading_of_erase : ∀ m ∈ ms, m.leading = [] :=
  fun m hm => (congrArg Member.leading (hms m hm)).symm

theorem afterAttrs_of_erase : ∀ m ∈ ms, m.afterAttrs = [] :=
  fun m hm => (congrArg Member.afterAttrs (hms m hm)).symm

theorem isRun_of_erase : ∀ m ∈ ms, Trivia.IsRun m.leading := by
  intro m hm
  rw [leading_of_erase hms m hm]
  exact .nil

include hts

/-- Each member stands on a line of its own. -/
theorem bodyLines_plain (hdictionary : w ≠ "dictionary") (henum : w ≠ "enum") :
    bodyLines w.toList (sourceChars (members ms)) = ms.map fun m => m.write.toList := by
  have hfits := fun t ht => (hts t ht).fits
  have hlines := bodyLines_members (isRun_of_erase hms)
    (fun m hm _ => afterAttrs_of_erase hms m hm) .nil hfits
    (by simpa using lineFed_of_full hts) hdictionary henum
  rw [trivia_nil, List.append_nil, linesOf_plain (leading_of_erase hms)] at hlines
  rw [hlines]
  apply List.map_congr_left
  intro m hm
  rw [Member.write, toList_source, ofMember_eq, leading_of_erase hms m hm]
  rfl

end Members

/-- The members of a dictionary have their names in one column. -/
theorem bodyLines_columns {x : Dictionary} (hms : ∀ m ∈ x.members, m.erase = m)
    (hfields : ∀ m ∈ x.members, ∃ f, m.kind = .field f)
    (hts : ∀ t ∈ members x.members, t.Full) :
    bodyLines "dictionary".toList (sourceChars (members x.members)) =
      x.members.map (Member.tabulated x.typeSpan) := by
  have hfits := fun t ht => (hts t ht).fits
  have hlines := bodyLines_dictionary (isRun_of_erase hms)
    (fun m hm _ => afterAttrs_of_erase hms m hm) .nil hfits
    (by simpa using lineFed_of_full hts) hfields
  rwa [trivia_nil, List.append_nil, linesOf_plain (leading_of_erase hms)] at hlines

/-! ## Values -/

theorem sourceChars_valueTokens_plain {v : EnumValue} (hv : v.trailing = []) (comma : Bool) :
    sourceChars (valueTokens (v, comma)) =
      (quoted v.value).chars ++ if comma then [','] else [] := by
  change sourceChars (quoted v.value :: valueEnd v.trailing comma) = _
  rw [hv]
  cases comma <;> rfl

theorem map_valueTokens {values : List EnumValue} (hvalues : ∀ v ∈ values, v.trailing = []) :
    (withCommas false values).map (fun v => sourceChars (valueTokens v)) = valueLines values := by
  induction values with
  | nil => rfl
  | cons v values ih =>
    obtain ⟨hv, hvalues⟩ := List.forall_mem_cons.mp hvalues
    cases values with
    | nil => simp [withCommas, valueLines, sourceChars_valueTokens_plain, hv]
    | cons w rest =>
      rw [withCommas, List.map_cons, ih hvalues, valueLines]
      simp [sourceChars_valueTokens_plain, hv]

theorem bodyLines_enum {comma : Bool} {values : List EnumValue}
    (hvalues : ∀ v ∈ values, v.erase = v) (hquotes : ∀ v ∈ values, '"' ∉ v.value.toList)
    (hts : ∀ t ∈ ofEnumValues comma values, t.Full) :
    bodyLines "enum".toList (sourceChars (ofEnumValues comma values)) = valueLines values := by
  have hleading : ∀ v ∈ values, v.leading = [] := fun v hv =>
    (congrArg EnumValue.leading (hvalues v hv)).symm
  have htrailing : ∀ v ∈ values, v.trailing = [] := fun v hv =>
    (congrArg EnumValue.trailing (hvalues v hv)).symm
  have hwell : ∀ v ∈ values, v.WellFormed {} := fun v hv =>
    ⟨hquotes v hv, by simp [Dialect.Keeps, hleading v hv], by simp [Dialect.Keeps, htrailing v hv]⟩
  have hfed := lineFed_of_full hts
  rw [← List.append_nil (ofEnumValues _ _), ← trivia_nil] at hfed ⊢
  have hfst : ∀ v ∈ withCommas false values, v.1.leading = [] := by
    intro v hv
    apply hleading
    rw [← map_fst_withCommas false values]
    exact List.mem_map_of_mem hv
  rw [bodyLines_values hwell (by simp [Dialect.Keeps]) (fun _ _ => rfl) hfed, linesOf_plain hfst,
    map_valueTokens htrailing]

/-! ## Definitions -/

section Definitions

variable {x : Definition}

theorem eq_of_map_eq_self {α : Type} {f : α → α} {l : List α} (h : l.map f = l) :
    ∀ a ∈ l, f a = a :=
  List.map_inj_left.mp (h.trans (List.map_id l).symm)

theorem laid_members {ms : List Member} (hw : IsName w) (hp : w.toList.head? ≠ some 'p')
    (hdictionary : w ≠ "dictionary") (henum : w ≠ "enum") (hms : ∀ m ∈ ms, m.erase = m)
    (hts : ∀ t ∈ bracketed (ofAttributes es) [] ++
      (header (w :: ws) name isPartial inheritance ++ block (members ms) []), t.Full) :
    Laid indent (bracketed (ofAttributes es) [] ++
        (header (w :: ws) name isPartial inheritance ++ block (members ms) []))
      (sourceChars (bracketed (ofAttributes es) [] ++
          header (w :: ws) name isPartial inheritance) ++ " \x7b\n".toList ++
        indentLines indent (ms.map fun m => m.write.toList) ++ "\x7d;\n\n".toList) :=
  laid_block hw hp (shaped_members ms) hts fun hinner =>
    bodyLines_plain hms hinner hdictionary henum

/-- A definition without trivia is printed as it is laid out. -/
theorem laid_ofDefinition (hx : x.erase = x) (hsound : x.Sound) (htabular : x.kind.Tabular)
    (hts : ∀ t ∈ ofDefinition x, t.Full) (indent : Nat) :
    Laid indent (ofDefinition x) (x.layOut indent) := by
  obtain ⟨es, leading, after, kind⟩ := x
  obtain rfl : leading = [] := (congrArg Definition.leading hx).symm
  obtain rfl : after = [] := (congrArg Definition.afterAttrs hx).symm
  have hkind : kind.erase = kind := congrArg Definition.kind hx
  have hsound : kind.Sound := hsound.kind
  have hplain : kind.frame? = none → Clause [';', '\x7b'] (ofDefinitionKind kind) →
      Laid indent (ofDefinition ⟨es, [], [], kind⟩)
        (Definition.layOut indent ⟨es, [], [], kind⟩) := by
    intro hframe hclause
    rw [Definition.layOut, hframe, Definition.write, toList_source]
    exact laid_clause (hclause.append (shaped_bracketed (by decide) (shaped_ofAttributes es) []))
      (head?_front (fun _ => rfl) (opens_ofDefinitionKind kind)) hts
  cases kind with
  | interface i | «class» i | callbackInterface i =>
    have hi : i.erase = i := by injection hkind
    obtain ⟨name, isPartial, base, ms, closing⟩ := i
    obtain rfl : closing = [] := (congrArg Interface.closing hi).symm
    exact laid_members (by decide) (by decide) (by decide) (by decide)
      (eq_of_map_eq_self (congrArg Interface.members hi)) hts
  | exception e =>
    have he : e.erase = e := DefinitionKind.exception.inj hkind
    obtain ⟨name, base, ms, closing⟩ := e
    obtain rfl : closing = [] := (congrArg Exception.closing he).symm
    exact laid_members (by decide) (by decide) (by decide) (by decide)
      (eq_of_map_eq_self (congrArg Exception.members he)) hts
  | dictionary b =>
    have hb : b.erase = b := DefinitionKind.dictionary.inj hkind
    obtain ⟨name, isPartial, base, ms, closing⟩ := b
    obtain rfl : closing = [] := (congrArg Dictionary.closing hb).symm
    exact laid_block (by decide) (by decide) (shaped_members ms) hts
      (bodyLines_columns (x := ⟨name, isPartial, base, ms, []⟩)
        (eq_of_map_eq_self (congrArg Dictionary.members hb)) htabular)
  | enum e =>
    have he : e.erase = e := DefinitionKind.enum.inj hkind
    obtain ⟨name, values, comma, closing⟩ := e
    obtain rfl : closing = [] := (congrArg Enum.closing he).symm
    have hquotes : ∀ v ∈ values, '"' ∉ v.value.toList := by
      cases hsound with
      | enum h => exact h
    exact laid_block (by decide) (by decide) (shaped_ofEnumValues comma values) hts
      (bodyLines_enum (eq_of_map_eq_self (congrArg Enum.values he)) hquotes)
  | callback c => exact hplain rfl (clause_ofCallback (by simp) c)
  | typedef t => exact hplain rfl (clause_ofTypedef (by simp) t)
  | «implements» i => exact hplain rfl (clause_ofImplements i)

end Definitions

/-! ## Texts -/

theorem Laid.printChars_append {bs : List Char} (h : Laid indent ts out)
    (hbs : ∀ c ∈ bs, isWhiteSpace c) (rest : List Char) :
    printChars indent (bs ++ (sourceChars ts ++ rest)) = out ++ printChars indent rest := by
  obtain ⟨cs, hsource, hnested, hstatement⟩ := h
  have hwhite : Nested [';'] bs := nested_white (List.forall_mem_singleton.mpr rfl) hbs
  rw [hsource, List.append_assoc, List.singleton_append, ← List.append_assoc,
    Layout.printChars_append (hwhite.append hnested), hstatement bs hbs]

theorem printChars_laid {xs : List Definition}
    (h : ∀ x ∈ xs, Laid indent (ofDefinition x) (x.layOut indent)) :
    printChars indent (sourceChars (ofDefinitions xs)) = xs.flatMap (Definition.layOut indent) := by
  have hmore : ∀ xs : List Definition, (∀ x ∈ xs, Laid indent (ofDefinition x) (x.layOut indent)) →
      printChars indent (sourceChars (ofMoreDefinitions xs)) =
        xs.flatMap (Definition.layOut indent) := by
    intro xs hxs
    induction xs with
    | nil => exact printChars_white (List.forall_mem_nil _)
    | cons x xs ih =>
      obtain ⟨hx, hxs⟩ := List.forall_mem_cons.mp hxs
      rw [ofMoreDefinitions, List.append_assoc, sourceChars_append, sourceChars_append,
        hx.printChars_append (white_break x), ih hxs, List.flatMap_cons]
  cases xs with
  | nil => exact printChars_white (List.forall_mem_nil _)
  | cons x xs =>
    obtain ⟨hx, hxs⟩ := List.forall_mem_cons.mp h
    have hprinted := hx.printChars_append (List.forall_mem_nil _) (sourceChars (ofMoreDefinitions xs))
    rw [List.nil_append] at hprinted
    rw [ofDefinitions, sourceChars_append, hprinted, hmore xs hxs, List.flatMap_cons]

/-- Behind its type a member has its name in the column of the dictionary. -/
theorem drop_tabulated {b : Dictionary} {m : Member} {f : Field} (hm : m ∈ b.members)
    (hkind : m.kind = .field f) :
    (m.tabulated b.typeSpan).drop (b.typeSpan + 1) =
      f.name.toList ++ sourceChars (ofDefault f.default) ++ [';'] := by
  have hspan : m.typeText.length ≤ b.typeSpan := by
    rw [Dictionary.typeSpan, List.foldl_eq_foldr]
    exact List.le_max_of_le' 0 (List.mem_map_of_mem hm) le_rfl
  have hlength : (padEnd b.typeSpan m.typeText ++ [' ']).length = b.typeSpan + 1 := by
    simp [padEnd]
    omega
  rw [tabulated_field hkind, List.append_cons (padEnd _ _)]
  exact List.drop_left' hlength

/-- Written definitions are printed as they are laid out, unless a name is the escape mark alone. In
a dictionary all names start in one column, behind the widest type. -/
theorem print_writeDefinitions {d : Dialect} {text : String} {p : Program}
    (hd : d.keepTrivia = false)
    (htext : ∀ ts, tokenize text = .ok ts → Token.word "_" ∉ ts)
    (h : parseText d text = .ok p) (indent : Nat) :
    (print indent (writeDefinitions p.definitions)).toList =
        p.definitions.flatMap (Definition.layOut indent) ∧
      ∀ x ∈ p.definitions, ∀ b, x.kind = .dictionary b → ∀ m ∈ b.members, ∃ f, m.kind = .field f ∧
        (m.tabulated b.typeSpan).drop (b.typeSpan + 1) =
          f.name.toList ++ sourceChars (ofDefault f.default) ++ [';'] := by
  obtain ⟨ts, hts, hparse⟩ := parseText_eq_ok_iff.mp h
  have hcut := (tokenize_eq_ok_iff.mp hts).1
  have htabular := tabular_of_parse hparse
  constructor
  · have hneat : ∀ x ∈ p.definitions, ∀ t ∈ ofDefinition x, t.Full := by
      intro x hx t ht
      have hdrawn := made_of_parse hd hparse x hx t ht
      exact ⟨hdrawn.neat hcut, hdrawn.chars_ne_nil hcut (htext ts hts)⟩
    have herase : ∀ x ∈ p.definitions, x.erase = x := by
      have hp : p.erase = p := erase_eq_self_of_parseFrom hd (parse_eq_parseFrom d ts ▸ hparse)
      exact eq_of_map_eq_self (congrArg Program.definitions hp)
    rw [printChars_toList, writeDefinitions, toList_source]
    apply printChars_laid
    intro x hx
    exact laid_ofDefinition (herase x hx) (sound_of_parse hparse x hx) (htabular x hx) (hneat x hx) _
  · intro x hx b hb m hm
    have hfields := htabular x hx
    rw [hb] at hfields
    obtain ⟨f, hf⟩ := hfields m hm
    exact ⟨f, hf, drop_tabulated hm hf⟩

/-- Names and strings may look like what the layout is made of. -/
theorem print_writeDefinitions_keywords :
    ∃ p, parseText {}
        "dictionary _enum \x7b[A] T x=\"=;\"; required long _dictionary;\x7d; enum E \x7b\"\x7b\",\"a\",\x7d;" =
        .ok p ∧
      print 2 (writeDefinitions p.definitions) =
        "dictionary enum \x7b\n  [A] T         x = \"=;\";\n  required long dictionary;\n\x7d;\n\nenum E \x7b\n  \"\x7b\",\n  \"a\"\n\x7d;\n\n" ∧
      (print 2 (writeDefinitions p.definitions)).toList =
        p.definitions.flatMap (Definition.layOut 2) := by
  obtain ⟨p, hp, hprinted⟩ := @exists_of_map_eq_ok _ _ _
    (fun p : Program => print 2 (writeDefinitions p.definitions))
    (parseText {}
      "dictionary _enum \x7b[A] T x=\"=;\"; required long _dictionary;\x7d; enum E \x7b\"\x7b\",\"a\",\x7d;")
    "dictionary enum \x7b\n  [A] T         x = \"=;\";\n  required long dictionary;\n\x7d;\n\nenum E \x7b\n  \"\x7b\",\n  \"a\"\n\x7d;\n\n"
    (by decide +kernel)
  have hbare : (tokenize
      "dictionary _enum \x7b[A] T x=\"=;\"; required long _dictionary;\x7d; enum E \x7b\"\x7b\",\"a\",\x7d;").map
        (fun ts => decide (Token.word "_" ∈ ts)) = .ok false := by
    decide +kernel
  have hnames := @print_writeDefinitions {} _ p rfl (fun ts hts => by
    rw [hts] at hbare
    exact of_decide_eq_false (Except.ok.inj hbare)) hp 2
  exact ⟨p, hp, hprinted, hnames.1⟩

end Layout

end WebIdl
