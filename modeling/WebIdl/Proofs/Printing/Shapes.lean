import WebIdl.Proofs.Printing.Nesting
import WebIdl.Proofs.Printing.Phrases

/-!
# The shape of written text

Whatever the names in a tree are, the marks that it is written with make the same shape: brackets
come in pairs, and a member or a definition ends with the only semicolon that stands outside of
them. So the text is nested as soon as no single token breaks out of its place. Empty names do not,
and neither do names that would be taken for a keyword.
-/

namespace WebIdl.Token

open Text

variable {W : List Char} {t : Token} {ts us : List Token}

/-- Brackets come in pairs, and outside of them none of the characters stands as a mark. Any words
may stand between the marks. -/
inductive Shaped : List Char → List Token → Prop
  | nil {W : List Char} : Shaped W []
  | free {W : List Char} {t : Token} {ts : List Token} (hkind : t.kind ≠ .other)
      (h : Shaped W ts) : Shaped W (t :: ts)
  | symbol {W : List Char} {m : String} {c : Char} {ts : List Token} (hm : m.toList = [c])
      (hc : c ∈ symbols) (hW : c ∉ W) (h : Shaped W ts) : Shaped W (mark m :: ts)
  | group {W : List Char} {m n : String} {o e : Char} {us ts : List Token} (hm : m.toList = [o])
      (hn : n.toList = [e]) (hb : (o, e) ∈ Layout.brackets) (hW : o ∉ W) (hus : Shaped [] us)
      (h : Shaped W ts) : Shaped W (mark m :: (us ++ mark n :: ts))

/-- The token does not reach beyond its place: nothing in it ends a string or opens a bracket. -/
def Neat (t : Token) : Prop :=
  match t.kind with
  | .other => True
  | .whitespace => ∀ c ∈ t.chars, isBlank c
  | .string => ∃ s, '"' ∉ s.toList ∧ t = Spelling.quoted s
  | .identifier | .float | .integer => ∀ c ∈ t.chars, IsLetter c

theorem Shaped.append (h : Shaped W ts) (h' : Shaped W us) : Shaped W (ts ++ us) := by
  induction h with
  | nil => exact h'
  | free hkind _ ih => exact .free hkind (ih h')
  | symbol hm hc hW _ ih => exact .symbol hm hc hW (ih h')
  | group hm hn hb hW hus _ _ ih =>
    rw [List.cons_append, List.append_assoc, List.cons_append]
    exact .group hm hn hb hW hus (ih h')

theorem Shaped.mono {V : List Char} (h : Shaped W ts) (hVW : V ⊆ W) : Shaped V ts := by
  induction h with
  | nil => exact .nil
  | free hkind _ ih => exact .free hkind (ih hVW)
  | symbol hm hc hW _ ih => exact .symbol hm hc (fun hV => hW (hVW hV)) (ih hVW)
  | group hm hn hb hW hus _ _ ih => exact .group hm hn hb (fun hV => hW (hVW hV)) hus (ih hVW)

theorem shaped_of_forall (h : ∀ t ∈ ts, t.kind ≠ .other) : Shaped W ts := by
  induction ts with
  | nil => exact .nil
  | cons t ts ih =>
    obtain ⟨ht, hts⟩ := List.forall_mem_cons.mp h
    exact .free ht (ih hts)

theorem Shaped.word (h : Shaped W ts) (w : String) : Shaped W (word w :: ts) :=
  .free (by simp [Token.word]) h

theorem Shaped.space (h : Shaped W ts) : Shaped W (Spelling.space :: ts) :=
  .free (by simp [Spelling.space, blank]) h

/-- A symbol at which the printer does not cut. -/
theorem Shaped.mark {m : String} {c : Char} (h : Shaped W ts) (hW : W ⊆ separators)
    (hm : m.toList = [c]) (hc : c ∈ symbols ∧ c ∉ separators) : Shaped W (mark m :: ts) :=
  .symbol hm hc.1 (fun hmem => hc.2 (hW hmem)) h

theorem Shaped.parentheses (h : Shaped W ts) (hW : W ⊆ separators) (hus : Shaped [] us) :
    Shaped W (Token.mark "(" :: (us ++ Token.mark ")" :: ts)) :=
  .group (o := '(') (e := ')') rfl rfl (by decide) (fun hmem => absurd (hW hmem) (by decide)) hus h

theorem Shaped.square (h : Shaped W ts) (hW : W ⊆ separators) (hus : Shaped [] us) :
    Shaped W (Token.mark "[" :: (us ++ Token.mark "]" :: ts)) :=
  .group (o := '[') (e := ']') rfl rfl (by decide) (fun hmem => absurd (hW hmem) (by decide)) hus h

theorem Shaped.flatMap {α : Type} {f : α → List Token} {l : List α}
    (h : ∀ x ∈ l, Shaped W (f x)) : Shaped W (l.flatMap f) := by
  induction l with
  | nil => exact .nil
  | cons x xs ih =>
    rw [List.flatMap_cons]
    exact (h x List.mem_cons_self).append (ih fun y hy => h y (List.mem_cons_of_mem x hy))

theorem Shaped.joined {α : Type} {s : List Token} {f : α → List Token} {l : List α}
    (hs : Shaped W s) (h : ∀ x ∈ l, Shaped W (f x)) : Shaped W (Spelling.joined s (l.map f)) := by
  cases l with
  | nil => exact .nil
  | cons x xs =>
    rw [List.map_cons, Spelling.joined_cons, List.flatMap_map]
    apply (h x List.mem_cons_self).append
    apply Shaped.flatMap
    intro y hy
    exact hs.append (h y (List.mem_cons_of_mem x hy))

theorem Neat.nested (h : t.Neat) (hkind : t.kind ≠ .other) (hW : W ⊆ separators) :
    Layout.Nested W t.chars := by
  have hletters : (∀ c ∈ t.chars, IsLetter c) → Layout.Nested W t.chars := by
    intro hletter
    apply Layout.nested_plain
    intro c hc
    exact (isPlain_of_isLetter (hletter c hc)).imp_right fun hnot hmem => hnot (hW hmem)
  unfold Neat at h
  cases hcase : t.kind with
  | other => exact absurd hcase hkind
  | whitespace =>
    rw [hcase] at h
    apply Layout.nested_plain
    intro c hc
    exact (isPlain_of_isBlank (h c hc)).imp_right fun hnot hmem => hnot (hW hmem)
  | string =>
    rw [hcase] at h
    obtain ⟨s, hs, rfl⟩ := h
    have hchars : (Spelling.quoted s).chars = '"' :: (s.toList ++ ['"']) := by
      simp [chars, Spelling.quoted]
    rw [hchars]
    exact Layout.nested_string hs
  | identifier | float | integer =>
    rw [hcase] at h
    exact hletters h

/-- Text in this shape is nested, if its tokens keep to their places. -/
theorem Shaped.nested (h : Shaped W ts) (hW : W ⊆ separators) (hts : ∀ t ∈ ts, t.Neat) :
    Layout.Nested W (sourceChars ts) := by
  induction h with
  | nil => exact Layout.nested_nil
  | free hkind _ ih =>
    obtain ⟨ht, hts⟩ := List.forall_mem_cons.mp hts
    rw [sourceChars_cons]
    exact (ht.nested hkind hW).append (ih hW hts)
  | @symbol W m c ts hm hc hcW _ ih =>
    obtain ⟨-, hts⟩ := List.forall_mem_cons.mp hts
    have hplain : Layout.Nested W [c] :=
      Layout.nested_plain (List.forall_mem_singleton.mpr ⟨isPlain_of_mem_symbols hc, hcW⟩)
    rw [sourceChars_cons, show (Token.mark m).chars = [c] from hm]
    exact hplain.append (ih hW hts)
  | @group W m n o e us ts hm hn hb hoW _ _ ihus ih =>
    obtain ⟨-, hts⟩ := List.forall_mem_cons.mp hts
    obtain ⟨hinside, hbehind⟩ := List.forall_mem_append.mp hts
    obtain ⟨-, hbehind⟩ := List.forall_mem_cons.mp hbehind
    have hgroup := (ihus (by simp) hinside).bracketed (W := W) hb hoW
    have hchars : sourceChars (Token.mark m :: (us ++ Token.mark n :: ts)) =
        (o :: (sourceChars us ++ [e])) ++ sourceChars ts := by
      simp [chars, Token.mark, hm, hn]
    rw [hchars]
    exact hgroup.append (ih hW hbehind)

/-- A list in this shape is balanced, if its tokens fit. -/
theorem Shaped.balanced {b : Bool} (h : Shaped W ts) (hts : ∀ t ∈ ts, t.Fits b) :
    Balanced b W ts := by
  induction h with
  | nil => exact .nil
  | @free W t ts hkind _ ih =>
    obtain ⟨hfits, hrest⟩ := List.forall_mem_cons.mp hts
    have hbehind := ih hrest
    unfold Fits at hfits
    cases hcase : t.kind with
    | other => exact absurd hcase hkind
    | whitespace =>
      rw [hcase] at hfits
      obtain ⟨item, rfl, hpiece, hcomment⟩ := hfits
      exact .trivia hpiece hcomment hbehind
    | string =>
      rw [hcase] at hfits
      obtain ⟨s, hs, rfl⟩ := hfits
      exact .quoted hs hbehind
    | identifier | float | integer =>
      rw [hcase] at hfits
      exact .letters (by simp [isWhitespace, hcase]) (by simp [hcase]) hfits.1 hfits.2 hbehind
  | symbol hm hc hW _ ih =>
    obtain ⟨-, hts⟩ := List.forall_mem_cons.mp hts
    exact .symbol hm hc hW (ih hts)
  | group hm hn hb hW _ _ ihus ih =>
    obtain ⟨-, hts⟩ := List.forall_mem_cons.mp hts
    obtain ⟨hinside, hbehind⟩ := List.forall_mem_append.mp hts
    obtain ⟨-, hbehind⟩ := List.forall_mem_cons.mp hbehind
    exact .group hm hn hb hW (ihus hinside) (ih hbehind)

/-- The list ends with a semicolon, in front of which no other stands outside of brackets. -/
def Clause (W : List Char) (ts : List Token) : Prop :=
  ∃ us, ts = us ++ [mark ";"] ∧ Shaped W us ∧ Finished us

theorem Clause.append (h : Clause W us) (hts : Shaped W ts) : Clause W (ts ++ us) := by
  obtain ⟨vs, rfl, hvs, hfinished⟩ := h
  exact ⟨ts ++ vs, (List.append_assoc _ _ _).symm, hts.append hvs, hfinished.append_left ts⟩

theorem clause_word (w : String) : Clause W [word w, mark ";"] :=
  ⟨[word w], rfl, Shaped.nil.word w, word w, rfl, rfl⟩

/-- Within brackets the semicolon is a symbol like any other. -/
theorem Clause.shaped (h : Clause W ts) : Shaped [] ts := by
  obtain ⟨us, rfl, hus, -⟩ := h
  exact (hus.mono (by simp)).append (.symbol (c := ';') rfl (by decide) (by simp) .nil)

end WebIdl.Token

namespace WebIdl.Spelling

open Token Grammar

variable {W : List Char}

theorem shaped_trivia (items : List Trivia) : Shaped W (trivia items) := by
  apply shaped_of_forall
  intro t ht
  obtain ⟨item, -, rfl⟩ := List.mem_map.mp ht
  simp [Trivia.token, blank]

theorem shaped_wordIf (flag : Bool) (w : String) : Shaped W (wordIf flag w) := by
  cases flag with
  | true => exact Shaped.nil.space.word w
  | false => exact .nil

theorem shaped_words (ws : List String) : Shaped W (words ws) :=
  Shaped.joined Shaped.nil.space fun w _ => Shaped.nil.word w

theorem shaped_ofSuffix (hW : W ⊆ separators) (s : Suffix) : Shaped W (ofSuffix s) := by
  have hquestion : ∀ flag : Bool, Shaped W (if flag then [mark "?"] else []) := by
    intro flag
    cases flag with
    | true => exact Shaped.nil.mark hW rfl (by decide)
    | false => exact .nil
  apply Shaped.append _ (hquestion s.nullable)
  apply Shaped.flatMap
  intro nullable _
  exact (hquestion nullable).append (Shaped.nil.square hW .nil)

mutual

theorem shaped_ofType {V : List Char} (hV : V ⊆ separators) : (t : IdlType) → Shaped V (ofType t)
  | .primitive p s => (shaped_words p.words).append (shaped_ofSuffix hV s)
  | .named name s => (shaped_ofSuffix hV s).word name
  | .generic name inner s => by
    have hclose := (shaped_ofSuffix hV s).mark hV (m := ">") rfl (by decide)
    have hopen := ((shaped_ofType hV inner).append hclose).mark hV (m := "<") rfl (by decide)
    simpa [ofType] using hopen.word name
  | .union members s => by
    have hmembers : Shaped [] (ofMembers members) := shaped_ofMembers (by simp) members
    simpa [ofType] using (shaped_ofSuffix hV s).parentheses hV hmembers

theorem shaped_ofMembers {V : List Char} (hV : V ⊆ separators) :
    (ts : List IdlType) → Shaped V (ofMembers ts)
  | [] => .nil
  | [t] => shaped_ofType hV t
  | t :: u :: rest => by
    have hrest := (shaped_ofMembers hV (u :: rest)).space.word "or"
    simpa [ofMembers] using (shaped_ofType hV t).append hrest.space

end

section Cuts

variable (hW : W ⊆ separators)
include hW

theorem shaped_ofLiteral (l : Literal) : Shaped W (ofLiteral l) := by
  cases l with
  | boolean b => cases b <;> exact Shaped.nil.word _
  | null => exact Shaped.nil.word _
  | infinity negative =>
    cases negative with
    | false => exact Shaped.nil.word _
    | true => exact (Shaped.nil.word "Infinity").mark hW (m := "-") rfl (by decide)
  | nan => exact Shaped.nil.word _
  | number s =>
    apply Shaped.free _ .nil
    rcases ofNumeral_kind s with hkind | hkind <;> simp [hkind]
  | string s => exact .free (by simp [quoted]) .nil
  | emptySequence => exact Shaped.nil.square hW .nil

theorem shaped_ofDefault (hequals : '=' ∉ W) (o : Option Literal) : Shaped W (ofDefault o) := by
  cases o with
  | none => exact .nil
  | some l =>
    have hvalue := (shaped_ofLiteral hW l).space
    exact (Shaped.symbol (c := '=') rfl (by decide) hequals hvalue).space

theorem shaped_bracketed {ts : List Token} (hts : Shaped [] ts) (after : List Trivia) :
    Shaped W (bracketed ts after) := by
  have hafter : Shaped W (if after.isEmpty then [space] else trivia after) := by
    split
    · exact Shaped.nil.space
    · exact shaped_trivia after
  rw [bracketed]
  split
  · exact shaped_trivia after
  · exact hafter.square hW hts

end Cuts

theorem shaped_ofValue (v : AttributeValue) : Shaped [] (ofValue v) := by
  have hequals : ∀ {ts : List Token}, Shaped [] ts → Shaped [] (mark "=" :: ts) :=
    fun h => .symbol (c := '=') rfl (by decide) (by simp) h
  cases v with
  | absent => exact .nil
  | identifier name => exact hequals (Shaped.nil.word name)
  | identifierList names =>
    have hcomma : Shaped [] [mark ","] := .symbol (c := ',') rfl (by decide) (by simp) .nil
    have hnames : Shaped [] (joined [mark ","] (names.map fun n => [word n])) :=
      hcomma.joined fun n _ => Shaped.nil.word n
    exact hequals (Shaped.nil.parentheses (by simp) hnames)

theorem shaped_comma {ts : List Token} (h : Shaped [] ts) : Shaped [] (mark "," :: ts) :=
  .symbol (c := ',') rfl (by decide) (by simp) h

mutual

theorem shaped_ofAttribute : (e : ExtendedAttribute) → Shaped [] (ofAttribute e)
  | ⟨name, value, parameters⟩ => by
    rw [ofAttribute]
    exact ((shaped_ofValue value).append (shaped_ofParameters parameters)).word name

theorem shaped_ofParameters : (p : AttributeParameters) → Shaped [] (ofParameters p)
  | .absent => .nil
  | .arguments args => by
    simpa [ofParameters] using Shaped.nil.parentheses (W := []) (by simp) (shaped_ofArguments args)
  | .typePair key value => by
    have hvalue := shaped_comma (shaped_ofType (V := []) (by simp) value).space
    have hpair := (shaped_ofType (V := []) (by simp) key).append hvalue
    simpa [ofParameters] using Shaped.nil.parentheses (W := []) (by simp) hpair

theorem shaped_ofArgument : (a : Argument) → Shaped [] (ofArgument a)
  | { extAttrs, optional, variadic, type, name, default, leading, afterAttrs, trailing } => by
    have hpoint : ∀ {ts : List Token}, Shaped [] ts → Shaped [] (mark "." :: ts) :=
      fun h => h.mark (by simp) rfl (by decide)
    have hpoints : Shaped [] (if variadic then [mark ".", mark ".", mark "."] else []) := by
      cases variadic with
      | true => exact hpoint (hpoint (hpoint .nil))
      | false => exact .nil
    have hdefault : Shaped [] (ofDefault default) := shaped_ofDefault (by simp) (by simp) default
    have hnamed := (hdefault.append (shaped_trivia trailing)).word name
    have htyped := (shaped_ofType (V := []) (by simp) type).append (hpoints.append hnamed.space)
    have hmarked := (shaped_wordIf optional "optional").append htyped
    have hattributes := shaped_bracketed (W := []) (by simp) (shaped_ofAttributes extAttrs) afterAttrs
    simpa [ofArgument] using (shaped_trivia leading).append (hattributes.append hmarked)

theorem shaped_ofArguments : (as : List Argument) → Shaped [] (ofArguments as)
  | [] => .nil
  | a :: as => by
    rw [ofArguments]
    exact (shaped_ofArgument a).append (shaped_ofMoreArguments as)

theorem shaped_ofMoreArguments : (as : List Argument) → Shaped [] (ofMoreArguments as)
  | [] => .nil
  | a :: as => by
    have hspace : Shaped [] (if a.leading.isEmpty then [space] else []) := by
      split
      · exact Shaped.nil.space
      · exact .nil
    have hrest := (shaped_ofArgument a).append (shaped_ofMoreArguments as)
    simpa [ofMoreArguments] using shaped_comma (hspace.append hrest)

theorem shaped_ofAttributes : (es : List ExtendedAttribute) → Shaped [] (ofAttributes es)
  | [] => .nil
  | [e] => shaped_ofAttribute e
  | e :: f :: rest => by
    have hrest := shaped_comma (shaped_ofAttributes (f :: rest)).space
    simpa [ofAttributes] using (shaped_ofAttribute e).append hrest

end

section Clauses

variable (hW : W ⊆ [';', '\x7b'])
include hW

theorem subset_separators : W ⊆ separators :=
  fun _ hc => (by decide : [';', '\x7b'] ⊆ separators) (hW hc)

theorem not_mem_of_subset {c : Char} (hc : c ∉ [';', '\x7b']) : c ∉ W :=
  fun hmem => hc (hW hmem)

/-- An equals sign with blanks around it. -/
theorem shaped_equals : Shaped W [space, mark "=", space] :=
  (Shaped.symbol (c := '=') rfl (by decide) (not_mem_of_subset hW (by decide))
    Shaped.nil.space).space

theorem clause_default (name : String) (o : Option Literal) :
    Clause W (word name :: ofDefault o ++ [mark ";"]) := by
  have hequals : '=' ∉ W := not_mem_of_subset hW (by decide)
  have hdefault := shaped_ofDefault (subset_separators hW) hequals o
  refine ⟨word name :: ofDefault o, rfl, hdefault.word name, ?_⟩
  cases o with
  | none => exact ⟨_, rfl, rfl⟩
  | some l => exact (finished_ofLiteral l).append_left [word name, space, mark "=", space]

theorem clause_ofTypedef (t : Typedef) : Clause W (ofTypedef t) := by
  have hnamed := (clause_word (W := W) t.name).append Shaped.nil.space
  have htyped := hnamed.append (shaped_ofType (subset_separators hW) t.type)
  have hattributes := shaped_bracketed (subset_separators hW) (shaped_ofAttributes t.typeExtAttrs)
    t.afterTypeAttrs
  simpa [ofTypedef] using
    (htyped.append hattributes).append (Shaped.nil.space.word "typedef")

theorem clause_signature (type : IdlType) (name : Option String) (args : List Argument) :
    Clause W (signature type name args) := by
  have hargs : Shaped W (mark "(" :: (ofArguments args ++ [mark ")"])) :=
    Shaped.nil.parentheses (subset_separators hW) (shaped_ofArguments args)
  have hcall : Clause W (mark "(" :: (ofArguments args ++ [mark ")", mark ";"])) :=
    ⟨mark "(" :: (ofArguments args ++ [mark ")"]), by simp, hargs,
      (finished_concat rfl _).append_left [mark "("]⟩
  have hname : Shaped W (name.toList.flatMap fun n => [space, word n]) :=
    Shaped.flatMap fun n _ => (Shaped.nil.word n).space
  simpa [signature] using (hcall.append hname).append (shaped_ofType (subset_separators hW) type)

theorem clause_ofCallback (c : Callback) : Clause W (ofCallback c) := by
  have hassigned := (clause_signature hW c.returnType none c.arguments).append (shaped_equals hW)
  simpa [ofCallback] using hassigned.append ((Shaped.nil.word c.name).space.word "callback")

omit hW in
theorem clause_ofImplements (i : Implements) : Clause W (ofImplements i) := by
  have hfront : Shaped W [word i.target, space, word "implements", space] :=
    (Shaped.nil.space.word "implements").space.word i.target
  simpa [ofImplements] using (clause_word (W := W) i.mixin).append hfront

end Clauses

section Members

theorem subset_clause : [';'] ⊆ [';', '\x7b'] := by
  decide

theorem clause_ofConst (c : Const) : Clause [';'] (ofConst c) := by
  have hvalue := (clause_default subset_clause c.name (some c.value)).append Shaped.nil.space
  have htyped := hvalue.append (shaped_ofType (by decide) c.type)
  simpa [ofConst] using htyped.append (Shaped.nil.space.word "const")

theorem clause_ofField (f : Field) : Clause [';'] (ofField f) := by
  have hvalue := (clause_default subset_clause f.name f.default).append Shaped.nil.space
  have htyped := hvalue.append (shaped_ofType (by decide) f.type)
  simpa [ofField] using htyped.append (shaped_wordIf f.required "required")

theorem clause_ofAttributeMember (a : Attribute) : Clause [';'] (ofAttributeMember a) := by
  have hnamed := (clause_word (W := [';']) a.name).append Shaped.nil.space
  have htyped := hnamed.append (shaped_ofType (by decide) a.type)
  have hmarks := ((shaped_wordIf (W := [';']) a.isStatic "static").append
    (shaped_wordIf a.stringifier "stringifier")).append
    ((shaped_wordIf a.inherits "inherit").append (shaped_wordIf a.readonly "readonly"))
  simpa [ofAttributeMember] using
    (htyped.append (Shaped.nil.space.word "attribute")).append hmarks

theorem clause_ofOperation (o : Operation) : Clause [';'] (ofOperation o) := by
  rw [ofOperation]
  cases o.returnType with
  | none => exact clause_word "stringifier"
  | some type =>
    have hspecials : Shaped [';'] (o.specials.toList.flatMap fun s => [word s.keyword, space]) :=
      Shaped.flatMap fun s _ => Shaped.nil.space.word s.keyword
    have hmarks := (hspecials.append (shaped_wordIf o.stringifier "stringifier")).append
      (shaped_wordIf o.isStatic "static")
    exact (clause_signature subset_clause type o.name o.arguments).append hmarks

theorem clause_ofIterator (i : IteratorMember) : Clause [';'] (ofIterator i) := by
  have hobject : Clause [';'] (word "iterator" :: (objectBehind i.object ++ [mark ";"])) := by
    cases i.object with
    | absent => exact clause_word "iterator"
    | object => exact (clause_word "object").append (Shaped.nil.space.word "iterator")
    | named n => exact (clause_word n).append ((shaped_equals subset_clause).word "iterator")
  rw [← List.append_nil (ofIterator i), ofIterator_append]
  exact (hobject.append Shaped.nil.space).append (shaped_ofType (by decide) i.returnType)

theorem clause_ofSerializer (s : Serializer) : Clause [';'] (ofSerializer s) := by
  have hassigned : Shaped [';'] (word "serializer" :: [space, mark "=", space]) :=
    (shaped_equals subset_clause).word "serializer"
  have hpattern : ∀ {o e : Char} {m n : String} (names : List String), m.toList = [o] →
      n.toList = [e] → (o, e) ∈ Layout.brackets → o ∉ [';'] →
      Clause [';'] (mark m :: (nameList names ++ [mark n, mark ";"])) := by
    intro o e m n names hm hn hb ho
    have hnames : Shaped [] (nameList names) :=
      (shaped_comma Shaped.nil.space).joined fun n _ => Shaped.nil.word n
    refine ⟨mark m :: (nameList names ++ [mark n]), by simp, .group hm hn hb ho hnames .nil, ?_⟩
    exact (finished_concat rfl _).append_left [mark m]
  cases s with
  | bare => exact clause_word "serializer"
  | named name => exact (clause_word name).append hassigned
  | patternMap names =>
    have hnames := hpattern (m := "\x7b") (n := "\x7d") names rfl rfl (by decide) (by decide)
    simpa [ofSerializer] using hnames.append hassigned
  | patternList names =>
    have hnames := hpattern (m := "[") (n := "]") names rfl rfl (by decide) (by decide)
    simpa [ofSerializer] using hnames.append hassigned
  | operation type name args =>
    exact (clause_signature subset_clause type name args).append
      (Shaped.nil.space.word "serializer")

theorem clause_ofIterable (i : Iterable) : Clause [';'] (ofIterable i) := by
  have hcomma : Shaped [';'] [mark ",", space] :=
    .symbol (c := ',') rfl (by decide) (by decide) Shaped.nil.space
  have htypes : Shaped [';'] (joined [mark ",", space] (i.types.map ofType)) :=
    hcomma.joined fun t _ => shaped_ofType (by decide) t
  have hclose : Clause [';'] [mark ">", mark ";"] :=
    ⟨[mark ">"], rfl, Shaped.nil.mark (by decide) rfl (by decide), _, rfl, rfl⟩
  have hkeyword : Shaped [';'] [word i.kind.keyword, mark "<"] :=
    (Shaped.nil.mark (by decide) rfl (by decide)).word i.kind.keyword
  have hkind := (hclose.append htypes).append hkeyword
  simpa [ofIterable] using hkind.append (shaped_wordIf i.readonly "readonly")

theorem clause_ofMemberKind (k : MemberKind) : Clause [';'] (ofMemberKind k) := by
  cases k with
  | const c => exact clause_ofConst c
  | field f => exact clause_ofField f
  | «attribute» a => exact clause_ofAttributeMember a
  | operation o => exact clause_ofOperation o
  | iterator i => exact clause_ofIterator i
  | serializer s => exact clause_ofSerializer s
  | iterable i => exact clause_ofIterable i
  | typedef t => exact clause_ofTypedef subset_clause t

theorem clause_memberBody (m : Member) : Clause [';'] (memberBody m) :=
  (clause_ofMemberKind m.kind).append
    (shaped_bracketed (by decide) (shaped_ofAttributes m.extAttrs) m.afterAttrs)

theorem clause_ofMember (m : Member) : Clause [';'] (ofMember m) := by
  rw [ofMember_eq]
  exact (clause_memberBody m).append (shaped_trivia m.leading)

theorem shaped_members (ms : List Member) : Shaped [] (members ms) :=
  Shaped.flatMap fun m _ => (clause_ofMember m).shaped

end Members

section Definitions

/-- A definition ends with a semicolon, and if it has a body, with that of braces in front of it. -/
inductive Sentence : List Token → Prop
  | plain {ts : List Token} (h : Clause [';', '\x7b'] ts) : Sentence ts
  | block {front body : List Token} (hfront : Shaped [';', '\x7b'] front) (hbody : Shaped [] body) :
      Sentence (front ++ mark "\x7b" :: (body ++ [mark "\x7d", mark ";"]))

theorem Sentence.append {ts us : List Token} (h : Sentence us) (hts : Shaped [';', '\x7b'] ts) :
    Sentence (ts ++ us) := by
  cases h with
  | plain h => exact .plain (h.append hts)
  | block hfront hbody =>
    rw [← List.append_assoc]
    exact .block (hts.append hfront) hbody

theorem shaped_header (keywords : List String) (name : String) (isPartial : Bool)
    (inheritance : Option String) :
    Shaped [';', '\x7b'] (header keywords name isPartial inheritance) := by
  have hbase : Shaped [';', '\x7b']
      (inheritance.toList.flatMap fun base => [space, mark ":", space, word base]) :=
    Shaped.flatMap fun base _ =>
      ((Shaped.nil.word base).space.mark (by decide) rfl (by decide)).space
  have hnamed := (hbase.word name).space
  have hpartial : Shaped [';', '\x7b'] (wordIf isPartial "partial") := shaped_wordIf _ _
  exact (hpartial.append (shaped_words keywords)).append hnamed

/-- Outside of brackets and braces the only semicolon is the last token. -/
theorem Sentence.clause {ts : List Token} (h : Sentence ts) : Clause [';'] ts := by
  cases h with
  | plain h =>
    obtain ⟨us, rfl, hus, hfinished⟩ := h
    exact ⟨us, rfl, hus.mono (by simp), hfinished⟩
  | @block front body hfront hbody =>
    have hbraces : Shaped [';'] (mark "\x7b" :: (body ++ mark "\x7d" :: [])) :=
      .group (o := '\x7b') (e := '\x7d') rfl rfl (by decide) (by decide) hbody .nil
    refine ⟨front ++ mark "\x7b" :: (body ++ [mark "\x7d"]), by simp, ?_, ?_⟩
    · exact (hfront.mono (by simp)).append hbraces
    · exact (finished_concat rfl (mark "\x7b" :: body)).append_left front

theorem sentence_block {front entries : List Token} (hfront : Shaped [';', '\x7b'] front)
    (hentries : Shaped [] entries) (closing : List Trivia) :
    Sentence (front ++ block entries closing) := by
  have hbody := hentries.append (shaped_trivia closing)
  have hspace : Shaped [';', '\x7b'] [space] := Shaped.nil.space
  simpa [block] using Sentence.block (hfront.append hspace) hbody

theorem sentence_ofInterface (keywords : List String) (i : Interface) :
    Sentence (ofInterface keywords i) :=
  sentence_block (shaped_header _ _ _ _) (shaped_members i.members) i.closing

theorem shaped_ofEnumValues (trailingComma : Bool) (vs : List EnumValue) :
    Shaped [] (ofEnumValues trailingComma vs) := by
  have hvalue : ∀ v : EnumValue, Shaped [] (ofEnumValue v) := by
    intro v
    have hquoted : Shaped [] (quoted v.value :: trivia v.trailing) :=
      .free (by simp [quoted]) (shaped_trivia v.trailing)
    exact (shaped_trivia v.leading).append hquoted
  induction vs with
  | nil => exact .nil
  | cons v vs ih =>
    cases vs with
    | nil =>
      apply (hvalue v).append
      cases trailingComma with
      | true => exact shaped_comma .nil
      | false => exact .nil
    | cons w rest => exact (hvalue v).append (shaped_comma ih)

theorem sentence_ofDefinitionKind (k : DefinitionKind) : Sentence (ofDefinitionKind k) := by
  cases k with
  | interface i => exact sentence_ofInterface ["interface"] i
  | «class» i => exact sentence_ofInterface ["class"] i
  | callbackInterface i => exact sentence_ofInterface ["callback", "interface"] i
  | callback c => exact .plain (clause_ofCallback (by simp) c)
  | dictionary b => exact sentence_block (shaped_header _ _ _ _) (shaped_members b.members) b.closing
  | exception e => exact sentence_block (shaped_header _ _ _ _) (shaped_members e.members) e.closing
  | enum e =>
    exact sentence_block (shaped_header _ _ _ _) (shaped_ofEnumValues _ e.values) e.closing
  | typedef t => exact .plain (clause_ofTypedef (by simp) t)
  | «implements» i => exact .plain (clause_ofImplements i)

theorem sentence_definitionBody (x : Definition) : Sentence (definitionBody x) :=
  (sentence_ofDefinitionKind x.kind).append
    (shaped_bracketed (by decide) (shaped_ofAttributes x.extAttrs) x.afterAttrs)

theorem sentence_ofDefinition (x : Definition) : Sentence (ofDefinition x) := by
  rw [ofDefinition_eq]
  exact (sentence_definitionBody x).append (shaped_trivia x.leading)

end Definitions

end WebIdl.Spelling
