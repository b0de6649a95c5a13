import WebIdl.Proofs.Printing.Relexing

/-!
# Reading the printed layout

From the printed text the squeezed definitions are read again. Only the comma behind the last value
of an enum is gone.
-/

namespace WebIdl

open Token Cursor Spelling Grammar

/-- The enum without a comma behind its last value. -/
def Enum.withoutComma (e : Enum) : Enum :=
  { e with trailingComma := false }

def DefinitionKind.withoutComma : DefinitionKind → DefinitionKind
  | .enum e => .enum e.withoutComma
  | kind => kind

def Definition.withoutComma (x : Definition) : Definition :=
  { x with kind := x.kind.withoutComma }

namespace Spelling

variable {indent : Nat}

theorem solids_fieldTokens (width : Nat) (m : Member) :
    solids (fieldTokens width m) = solids (memberBody m) := by
  unfold fieldTokens
  split
  · next f hkind =>
    rw [memberBody_field hkind, solids_append, solids_append]
    rfl
  · rfl

theorem solids_laidBlock {γ : Type} {lead : γ → List Trivia} {f g : γ → List Token} {gs : List γ}
    {closing : List Trivia} (hfg : ∀ x ∈ gs, solids (f x) = solids (g x)) :
    solids (laidBlock indent lead f gs closing) =
      solids (block (gs.flatMap fun x => trivia (lead x) ++ g x) closing) := by
  have hgs : solids (gs.flatMap fun x => trivia (Trivia.leadLines indent (lead x)) ++ f x) =
      solids (gs.flatMap fun x => trivia (lead x) ++ g x) := by
    simp only [solids, List.filter_flatMap]
    apply List.flatMap_congr
    intro x hx
    change solids _ = solids _
    rw [solids_append, solids_append, solids_trivia, solids_trivia, hfg x hx]
  simp only [laidBlock, block, List.cons_append, solids_space, solids_mark, solids_append, hgs,
    solids_trivia]

theorem solids_laidMembers (ms : List Member) (closing : List Trivia) :
    solids (laidBlock indent Member.leading memberBody ms closing) =
      solids (block (members ms) closing) := by
  rw [solids_laidBlock fun m _ => rfl, members, funext ofMember_eq]

/-- The layout of a definition leaves its tokens alone, commas between values apart. -/
theorem solids_laidKind {k : DefinitionKind} (hk : ∀ e, k ≠ .enum e) :
    solids (laidKind indent k) = solids (ofDefinitionKind k) := by
  cases k with
  | interface i | «class» i | callbackInterface i =>
    simp only [laidKind, ofDefinitionKind, laidInterface, ofInterface, solids_append,
      solids_laidMembers]
  | exception e =>
    simp only [laidKind, ofDefinitionKind, laidException, ofException, solids_append,
      solids_laidMembers]
  | dictionary b =>
    have hblock := @solids_laidBlock indent _ Member.leading
      (fieldTokens (longestType b.members)) memberBody b.members b.closing
      fun m _ => solids_fieldTokens _ m
    simp only [laidKind, ofDefinitionKind, laidDictionary, ofDictionary, solids_append, hblock,
      members, funext ofMember_eq]
  | enum e => exact absurd rfl (hk e)
  | callback c | typedef t | implements i => rfl

/-- The values with a comma where one is printed and read. -/
def printedValues (values : List EnumValue) : List (EnumValue × Bool) :=
  (withCommas false values).map fun v => (v.1, keepsComma v)

theorem map_fst_printedValues (values : List EnumValue) :
    (printedValues values).map Prod.fst = values := by
  rw [printedValues, List.map_map]
  exact map_fst_withCommas false values

theorem getLast?_printedValues (values : List EnumValue) :
    ((printedValues values).getLast?.map Prod.snd).getD false = false := by
  have hlast : ∀ v ∈ (withCommas false values).getLast?, v.2 = false := by
    induction values with
    | nil => simp [withCommas]
    | cons v values ih =>
      cases values with
      | nil => simp [withCommas]
      | cons w rest =>
        have hne : withCommas false (w :: rest) ≠ [] := by cases rest <;> simp [withCommas]
        rwa [withCommas, List.getLast?_cons_of_ne_nil hne]
  rw [printedValues, List.getLast?_map, Option.map_map]
  cases hcase : (withCommas false values).getLast? with
  | none => rfl
  | some v => simp [keepsComma, hlast v hcase]

theorem solids_laidEnum (e : Enum) :
    solids (laidEnum indent e) = solids (header ["enum"] e.name false none ++
      block ((printedValues e.values).flatMap fun v => trivia v.1.leading ++ valueBody v)
        e.closing) := by
  rw [laidEnum, solids_append, solids_append, printedValues, List.flatMap_map,
    solids_laidBlock fun v _ => solids_valueTokens v]

end Spelling

namespace Grammar

variable {d : Dialect} {c : Cursor} {ts us : List Token} {indent : Nat}

theorem near_of_solids_eq (hc : Near false c ts) (h : solids ts = solids us) : Near false c us :=
  ⟨hc.solids.trans h, hc.tight, nofun⟩

theorem of_inexact {p : Prop} (h : false = true) : p := by
  cases h

/-- The kind of a definition is read from its layout. -/
theorem reads_laidKind {k : DefinitionKind} (hk : k.WellFormed d)
    (hc : Near false c (laidKind indent k ++ us)) :
    Reads c (definitionKind d) fun o c' =>
      ∃ k', o = some k' ∧ k'.erase = k.withoutComma.erase ∧ At false c' us := by
  by_cases henum : ∃ e, k = .enum e
  · obtain ⟨⟨name, values, comma, closing⟩, rfl⟩ := henum
    obtain ⟨hname, hvalues, hclosing, -, -⟩ := hk
    have hsolids := congrArg (· ++ solids us)
      (@solids_laidEnum indent ⟨name, values, comma, closing⟩)
    simp only [← solids_append] at hsolids
    replace hc := near_of_solids_eq hc hsolids
    rw [header_block_append] at hc
    refine reads_definitionKind_enum hc rfl fun c1 hc1 => ?_
    refine reads_enum of_inexact hname (fun v hv => hvalues v.1 ?_) hclosing of_inexact hc1
      fun ws items c2 hws _ hc2 => ⟨_, rfl, _, rfl, ?_, hc2⟩
    · rw [← map_fst_printedValues values]
      exact List.mem_map_of_mem hv
    · have hlast : (ws.getLast?.map Prod.snd).getD false = false := by
        rw [getLast?_comma_eq hws, getLast?_printedValues]
      have hvalues : (ws.map Prod.fst).map EnumValue.erase = values.map EnumValue.erase := by
        rw [map_erase_values_eq hws, map_fst_printedValues]
      simp only [DefinitionKind.withoutComma, Enum.withoutComma, DefinitionKind.erase, Enum.erase,
        hlast, hvalues]
  · have hne : ∀ e, k ≠ .enum e := fun e heq => henum ⟨e, heq⟩
    have hsolids := congrArg (· ++ solids us) (@solids_laidKind indent _ hne)
    simp only [← solids_append] at hsolids
    have hplain : k.withoutComma = k := by
      cases k with
      | enum e => exact absurd rfl (hne e)
      | _ => rfl
    rw [hplain]
    exact reads_definitionKind of_inexact hk (near_of_solids_eq hc hsolids)
      fun k' c' hk' hc' => ⟨k', rfl, hk'.erase, hc'⟩

theorem reads_laidEntry {e : List Trivia × Definition} (he : e.2.WellFormed d) :
    ReadsEntry false d (laidEntry indent e) fun y => y.erase = e.2.withoutComma.erase := by
  intro c us hc
  refine (reads_entry of_inexact of_inexact he.annotated (opens_laidKind e.2.kind)
    (fun c us hc => reads_laidKind he.kind hc) c us hc).mono ?_
  rintro _ c' ⟨y, rfl, ⟨-, hsame, hkind⟩, hc'⟩
  refine ⟨y, rfl, ?_, hc'⟩
  simp only [Definition.erase, Definition.withoutComma, hsame.erase, hkind]

end Grammar

namespace Spelling

variable {d : Dialect} {indent : Nat}

theorem map_snd_laidEntries (xs : List Definition) : (laidEntries xs).map Prod.snd = xs := by
  cases xs with
  | nil => rfl
  | cons x xs => simp [laidEntries, Function.comp_def]

theorem solids_laidEntry_ne_nil (e : List Trivia × Definition) :
    solids (laidEntry indent e) ≠ [] := by
  have hkind : solids (laidKind indent e.2.kind) ≠ [] := by
    generalize laidKind indent e.2.kind = ts, opens_laidKind e.2.kind = hopens
    cases hopens <;> simp
  simp [laidEntry, laidBody, solids_append, hkind]

end Spelling

/-- From a text that is laid out as well-formed definitions these are read again. -/
theorem parseText_of_laid {d : Dialect} {indent : Nat} {xs : List Definition} {text : String}
    (hxs : ∀ x ∈ xs, x.WellFormed d) (htext : text.toList = sourceChars (laidProgram indent xs)) :
    Unescaped text ∧ ∃ q, parseText d text = .ok q ∧
      q.definitions.map Definition.erase = xs.map fun x => x.withoutComma.erase := by
  obtain ⟨hunescaped, q, hq, hsame, -⟩ := @parseText_of_entries false d _ (laidEntries xs)
    (laidEntry indent) (fun e y => y.erase = e.2.withoutComma.erase) (laidEnd xs) text of_inexact
    (fun e he => reads_laidEntry (settled_of_mem_laidEntries hxs he).2)
    (fun e _ => solids_laidEntry_ne_nil e) of_inexact (lexable_laidProgram hxs) htext
  refine ⟨hunescaped, q, hq, ?_⟩
  have hmap := forall₂_map_eq (f := fun e : List Trivia × Definition => e.2.withoutComma.erase)
    (g := Definition.erase) hsame fun e y h => h
  rw [hmap]
  conv_rhs => rw [← map_snd_laidEntries xs, List.map_map]
  rfl

namespace Layout

variable {d : Dialect} {indent : Nat} {xs : List Definition}

instance (m : Member) : Decidable (Inline m) :=
  inferInstanceAs (Decidable (∀ t ∈ bracketed (ofAttributes m.extAttrs) m.afterAttrs,
    t.isLineComment = false))

instance : DecidablePred InlineKind
  | .dictionary b => inferInstanceAs (Decidable (∀ m ∈ b.members, Inline m))
  | .interface _ | .class _ | .callback _ | .callbackInterface _ | .exception _ | .enum _
  | .typedef _ | .implements _ => isTrue trivial

/-- The line comments of the definitions end where the printer thinks that they do, and none has to
give way to the column of types. -/
structure Printable (xs : List Definition) : Prop where
  fed : LineFed (ofDefinitions xs)
  inline : ∀ x ∈ xs, InlineKind x.kind

instance (xs : List Definition) : Decidable (Printable xs) :=
  decidable_of_iff (LineFed (ofDefinitions xs) ∧ ∀ x ∈ xs, InlineKind x.kind)
    ⟨fun h => ⟨h.1, h.2⟩, fun h => ⟨h.fed, h.inline⟩⟩

theorem not_isLineComment_brokenLine {items : List Trivia} (h : items = []) :
    ∀ t ∈ Spelling.trivia (brokenLine items), t.isLineComment = false := by
  subst h
  exact List.forall_mem_singleton.mpr rfl

/-- Definitions without trivia hold no line comments at all. -/
theorem printable_of_wellFormed (hd : d.keepTrivia = false) (hxs : ∀ x ∈ xs, x.WellFormed d) :
    Printable xs := by
  have hleading : ∀ x ∈ xs, x.leading = [] := fun x hx => by
    simpa [Dialect.Keeps, hd] using (hxs x hx).leading
  have hbody : ∀ x ∈ xs, ∀ t ∈ definitionBody x, t.isLineComment = false := by
    intro x hx t ht
    have hfits := fits_definitionBody (hxs x hx) t ht
    rw [hd] at hfits
    exact hfits.not_isLineComment
  constructor
  · rw [ofDefinitions_eq]
    refine lineFed_of_forall fun t ht => ?_
    obtain ⟨e, he, ht⟩ := List.mem_flatMap.mp ht
    cases xs with
    | nil => cases he
    | cons x xs =>
      obtain ⟨hx, hleading⟩ := List.forall_mem_cons.mp hleading
      rcases List.mem_cons.mp he with rfl | he
      · rw [entryTokens, hx] at ht
        exact hbody x List.mem_cons_self t ht
      · obtain ⟨y, hy, rfl⟩ := List.mem_map.mp he
        rcases List.mem_append.mp ht with ht | ht
        · exact not_isLineComment_brokenLine (hleading y hy) t ht
        · exact hbody y (List.mem_cons_of_mem x hy) t ht
  · intro x hx
    have hkind := (hxs x hx).kind
    generalize x.kind = k at hkind
    cases k with
    | dictionary b =>
      intro m hm
      have hpieced := pieced_annotated ((Dictionary.WellFormed.body hkind).members m hm).annotated
      rw [hd] at hpieced
      exact hpieced.not_isLineComment
    | _ => trivial

/-- The printed text is that of the layout. -/
theorem toList_print (hxs : ∀ x ∈ xs, x.WellFormed d) (hprintable : d.keepTrivia → Printable xs) :
    (print indent (writeDefinitions xs)).toList =
      sourceChars (laidProgram indent (xs.map Definition.squeeze)) := by
  have hprintable : Printable xs := by
    cases hd : d.keepTrivia with
    | true => exact hprintable hd
    | false => exact printable_of_wellFormed hd hxs
  rw [print, String.toList_ofList, writeDefinitions, toList_source,
    printChars_ofDefinitions hxs hprintable.fed hprintable.inline]

end Layout

/-- Printing a written program squeezes the attributes of dictionary members and drops the comma
behind the last value of an enum. Nothing else is read in another way. -/
theorem parseText_print {d : Dialect} {indent : Nat} {text : String} {p : Program}
    (htext : Unescaped text) (h : parseText d text = .ok p)
    (hprintable : d.keepTrivia → Layout.Printable p.definitions) :
    ∃ q, parseText d (Layout.print indent (writeDefinitions p.definitions)) = .ok q ∧
      q.definitions.map Definition.erase =
        p.definitions.map fun x => x.squeeze.withoutComma.erase := by
  have hp := (wellFormed_of_parseText htext h).definitions
  have hsqueezed : ∀ x ∈ p.definitions.map Definition.squeeze, x.WellFormed d := by
    intro y hy
    obtain ⟨x, hx, rfl⟩ := List.mem_map.mp hy
    exact (hp x hx).squeeze
  obtain ⟨-, q, hq, hsame⟩ := parseText_of_laid hsqueezed (Layout.toList_print hp hprintable)
  rw [List.map_map] at hsame
  exact ⟨q, hq, hsame⟩

/-- Comments stay where they were, or where there is a line for them. -/
theorem parseText_print_comments :
    ∃ p, parseText { keepTrivia := true }
        "// c\ndictionary D \x7b [A(long   x)] required long a; // n\n DOMString b = \"x  y\";\x7d; enum E \x7b \"p\" // o\n, \"q\", \x7d;" =
        .ok p ∧
      Layout.print 2 (writeDefinitions p.definitions) =
        "// c\ndictionary D \x7b\n  [A(long x)] required long a;\n  // n\n  DOMString                 b = \"x  y\";\n\x7d;\n\nenum E \x7b\n  \"p\" // o,\n  \"q\"\n\x7d;\n\n" ∧
      ∃ q, parseText { keepTrivia := true } (Layout.print 2 (writeDefinitions p.definitions)) =
          .ok q ∧
        q.definitions.map Definition.erase =
          p.definitions.map fun x => x.squeeze.withoutComma.erase := by
  obtain ⟨p, hp, hprinted⟩ := @exists_of_map_eq_ok _ _ _
    (fun p : Program => (Layout.print 2 (writeDefinitions p.definitions),
      decide (Layout.Printable p.definitions)))
    (parseText { keepTrivia := true }
      "// c\ndictionary D \x7b [A(long   x)] required long a; // n\n DOMString b = \"x  y\";\x7d; enum E \x7b \"p\" // o\n, \"q\", \x7d;")
    ("// c\ndictionary D \x7b\n  [A(long x)] required long a;\n  // n\n  DOMString                 b = \"x  y\";\n\x7d;\n\nenum E \x7b\n  \"p\" // o,\n  \"q\"\n\x7d;\n\n", true)
    (by decide +kernel)
  obtain ⟨hprinted, hprintable⟩ := Prod.mk.inj hprinted
  exact ⟨p, hp, hprinted,
    parseText_print (by decide +kernel) hp fun _ => of_decide_eq_true hprintable⟩

/-- The blanks in a string are squeezed like those around it. -/
theorem parseText_print_ne :
    Unescaped "dictionary D \x7b [A(optional DOMString s = \"a  b\")] long x; \x7d;" ∧
      ∃ p q, parseText {} "dictionary D \x7b [A(optional DOMString s = \"a  b\")] long x; \x7d;" =
          .ok p ∧
        parseText {} (Layout.print Layout.standardIndent (writeDefinitions p.definitions)) = .ok q ∧
        q.definitions.map (fun x => x.withoutComma.erase) ≠
          p.definitions.map fun x => x.withoutComma.erase := by
  obtain ⟨p, hp, hwritten⟩ := @exists_of_map_eq_ok _ _ _
    (fun p : Program => (Layout.print Layout.standardIndent (writeDefinitions p.definitions),
      writeDefinitions (p.definitions.map fun x => x.withoutComma.erase)))
    (parseText {} "dictionary D \x7b [A(optional DOMString s = \"a  b\")] long x; \x7d;")
    ("dictionary D \x7b\n    [A(optional DOMString s = \"a b\")] long x;\n\x7d;\n\n",
      "dictionary D \x7b[A(optional DOMString s = \"a  b\")] long x;\x7d;") (by decide +kernel)
  obtain ⟨hprinted, hwritten⟩ := Prod.mk.inj hwritten
  obtain ⟨q, hq, hrewritten⟩ := @exists_of_map_eq_ok _ _ _
    (fun q : Program => writeDefinitions (q.definitions.map fun x => x.withoutComma.erase))
    (parseText {} "dictionary D \x7b\n    [A(optional DOMString s = \"a b\")] long x;\n\x7d;\n\n")
    "dictionary D \x7b[A(optional DOMString s = \"a b\")] long x;\x7d;" (by decide +kernel)
  refine ⟨by decide +kernel, p, q, hp, by rw [hprinted, hq], fun heq => ?_⟩
  rw [heq, hwritten] at hrewritten
  exact absurd hrewritten (by decide)

end WebIdl
