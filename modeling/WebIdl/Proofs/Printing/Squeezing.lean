import WebIdl.Proofs.Erasure
import WebIdl.Proofs.Printing.Statements

/-!
# Squeezed trees

The printer takes the front of a dictionary member as words and puts one space between them, so that
the strings and the comments inside attributes are squeezed like the rest. The squeezed member is
written with the squeezed text, unless a line comment stands in it, which would swallow what follows
on the line.
-/

namespace WebIdl

open Token Text Lexer Spelling

def squeezeString (s : String) : String :=
  String.ofList (squeeze s.toList)

/-- A line comment cannot stand in the middle of a line. An empty comment takes its place. -/
def Trivia.squeeze : Trivia → Trivia
  | whitespace _ => whitespace " "
  | lineComment _ => blockComment ""
  | blockComment s => blockComment (squeezeString s)

def ExtendedAttribute.squeeze (e : ExtendedAttribute) : ExtendedAttribute :=
  e.map (List.map Trivia.squeeze) squeezeString

def Argument.squeeze (a : Argument) : Argument :=
  a.map (List.map Trivia.squeeze) squeezeString

def Member.squeeze (m : Member) : Member :=
  { m with
    extAttrs := m.extAttrs.map ExtendedAttribute.squeeze
    afterAttrs := m.afterAttrs.map Trivia.squeeze }

def Dictionary.squeeze (b : Dictionary) : Dictionary :=
  { b with members := b.members.map Member.squeeze }

def DefinitionKind.squeeze : DefinitionKind → DefinitionKind
  | .dictionary b => .dictionary b.squeeze
  | kind => kind

/-- The definition with the attributes of dictionary members squeezed. -/
def Definition.squeeze (x : Definition) : Definition :=
  { x with kind := x.kind.squeeze }

section Strings

variable {cs : List Char} {c d : Char}

theorem not_mem_squeezeString {s : String} (hc : c ≠ ' ') (hs : c ∉ s.toList) :
    c ∉ (squeezeString s).toList := by
  rw [squeezeString, String.toList_ofList]
  intro hmem
  rcases isWhiteSpace_of_mem_squeezeFrom hmem with hmem | heq
  · exact hs hmem
  · exact hc heq

/-- Characters that are not white stand side by side in a squeezed text only if they did before. -/
theorem isInfix_of_squeezeFrom (hc : isWhiteSpace c = false) (hd : isWhiteSpace d = false)
    {spaced : Bool} (h : [c, d] <:+: squeezeFrom spaced cs) : [c, d] <:+: cs := by
  have hspace : isWhiteSpace ' ' = true := rfl
  induction cs generalizing spaced with
  | nil => simp [squeezeFrom] at h
  | cons e cs ih =>
    by_cases he : isWhiteSpace e
    · have hrest : [c, d] <:+: squeezeFrom true cs := by
        rw [squeezeFrom, if_pos he] at h
        split at h
        · exact h
        · rcases List.infix_cons_iff.mp h with hfirst | hrest
          · rw [List.cons_prefix_cons] at hfirst
            rw [hfirst.1, hspace] at hc
            cases hc
          · exact hrest
      exact (ih hrest).trans (List.suffix_cons e cs).isInfix
    · rw [squeezeFrom, if_neg he] at h
      rcases List.infix_cons_iff.mp h with hfirst | hrest
      · rw [List.cons_prefix_cons] at hfirst
        obtain ⟨rfl, hnext⟩ := hfirst
        cases cs with
        | nil => simp [squeezeFrom] at hnext
        | cons a cs =>
          rw [squeezeFrom] at hnext
          by_cases ha : isWhiteSpace a
          · rw [if_pos ha, if_neg Bool.false_ne_true, List.cons_prefix_cons] at hnext
            rw [hnext.1, hspace] at hd
            cases hd
          · rw [if_neg ha, List.cons_prefix_cons] at hnext
            obtain ⟨rfl, -⟩ := hnext
            exact List.IsPrefix.isInfix (by simp)
      · exact (ih hrest).trans (List.suffix_cons e cs).isInfix

theorem commentBody_squeezeString {s : String} (hs : CommentBody s.toList) :
    CommentBody (squeezeString s).toList := by
  rw [squeezeString, String.toList_ofList]
  exact fun h => hs (isInfix_of_squeezeFrom rfl rfl h)

theorem squeezeString_squeezeString (s : String) :
    squeezeString (squeezeString s) = squeezeString s := by
  rw [squeezeString, squeezeString, String.toList_ofList, squeeze_squeeze]

end Strings

namespace Trivia

theorem squeeze_squeeze (t : Trivia) : t.squeeze.squeeze = t.squeeze := by
  cases t with
  | blockComment s => rw [squeeze, squeeze, squeezeString_squeezeString]
  | _ => rfl

theorem IsRun.squeeze {items : List Trivia} (h : IsRun items) : IsRun (items.map squeeze) := by
  induction h with
  | nil => exact .nil
  | @blanks s items _ _ hnext hitems ih =>
    refine .blanks (by simp) (by simp [isBlank]) ?_ ih
    cases hitems with
    | nil => simp
    | @blanks s' _ hne hb =>
      obtain ⟨c, cs, hs⟩ := List.exists_cons_of_ne_nil hne
      have hc := hnext c (by simp [hs])
      rw [hb c (by simp [hs])] at hc
      cases hc
    | line | block => simp [Trivia.squeeze, isBlank]
  | line _ _ _ ih => exact .block (by simp [CommentBody]) ih
  | block hs _ ih => exact .block (commentBody_squeezeString hs) ih

theorem closed_squeeze (items : List Trivia) : Closed (items.map squeeze) := by
  induction items with
  | nil => trivial
  | cons t items ih => exact closed_of_not_line (by cases t <;> simp [squeeze]) ih

end Trivia

theorem Dialect.Keeps.squeeze {d : Dialect} {items : List Trivia} (h : d.Keeps items) :
    d.Keeps (items.map Trivia.squeeze) := by
  unfold Dialect.Keeps at h ⊢
  by_cases hd : d.keepTrivia
  · rw [if_pos hd] at h ⊢
    exact ⟨h.1.squeeze, Trivia.closed_squeeze items⟩
  · rw [if_neg hd] at h ⊢
    rw [h, List.map_nil]

theorem Literal.mapString_mapString (g g' : String → String) (l : Literal) :
    (l.mapString g).mapString g' = l.mapString (g' ∘ g) := by
  cases l <;> rfl

mutual

theorem ExtendedAttribute.map_map (f f' : List Trivia → List Trivia) (g g' : String → String) :
    ∀ e : ExtendedAttribute, (e.map f g).map f' g' = e.map (f' ∘ f) (g' ∘ g)
  | ⟨_, _, parameters⟩ => by
    simp [ExtendedAttribute.map, AttributeParameters.map_map f f' g g' parameters]

theorem AttributeParameters.map_map (f f' : List Trivia → List Trivia) (g g' : String → String) :
    ∀ p : AttributeParameters, (p.map f g).map f' g' = p.map (f' ∘ f) (g' ∘ g)
  | .absent => rfl
  | .arguments args => by
    simp [AttributeParameters.map, Argument.mapAll_mapAll f f' g g' args]
  | .typePair _ _ => rfl

theorem Argument.map_map (f f' : List Trivia → List Trivia) (g g' : String → String) :
    ∀ a : Argument, (a.map f g).map f' g' = a.map (f' ∘ f) (g' ∘ g)
  | ⟨extAttrs, _, _, _, _, default, _, _, _⟩ => by
    have hliteral : Literal.mapString g' ∘ Literal.mapString g = Literal.mapString (g' ∘ g) :=
      funext (Literal.mapString_mapString g g')
    simp [Argument.map, ExtendedAttribute.mapAll_mapAll f f' g g' extAttrs, hliteral]

theorem Argument.mapAll_mapAll (f f' : List Trivia → List Trivia) (g g' : String → String) :
    ∀ as : List Argument, Argument.mapAll f' g' (Argument.mapAll f g as) =
      Argument.mapAll (f' ∘ f) (g' ∘ g) as
  | [] => rfl
  | a :: as => by
    simp [Argument.mapAll, Argument.map_map f f' g g' a, Argument.mapAll_mapAll f f' g g' as]

theorem ExtendedAttribute.mapAll_mapAll (f f' : List Trivia → List Trivia)
    (g g' : String → String) :
    ∀ es : List ExtendedAttribute,
      ExtendedAttribute.mapAll f' g' (ExtendedAttribute.mapAll f g es) =
        ExtendedAttribute.mapAll (f' ∘ f) (g' ∘ g) es
  | [] => rfl
  | e :: es => by
    simp [ExtendedAttribute.mapAll, ExtendedAttribute.map_map f f' g g' e,
      ExtendedAttribute.mapAll_mapAll f f' g g' es]

end

theorem map_squeeze_squeeze (items : List Trivia) :
    (items.map Trivia.squeeze).map Trivia.squeeze = items.map Trivia.squeeze := by
  rw [List.map_map]
  exact List.map_congr_left fun t _ => Trivia.squeeze_squeeze t

theorem ExtendedAttribute.squeeze_squeeze (e : ExtendedAttribute) : e.squeeze.squeeze = e.squeeze := by
  have htrivia : List.map Trivia.squeeze ∘ List.map Trivia.squeeze = List.map Trivia.squeeze :=
    funext map_squeeze_squeeze
  have hstring : squeezeString ∘ squeezeString = squeezeString := funext squeezeString_squeezeString
  rw [squeeze, squeeze, map_map, htrivia, hstring]

theorem Member.squeeze_squeeze (m : Member) : m.squeeze.squeeze = m.squeeze := by
  have hattributes : ExtendedAttribute.squeeze ∘ ExtendedAttribute.squeeze =
      ExtendedAttribute.squeeze := funext ExtendedAttribute.squeeze_squeeze
  rw [squeeze, squeeze, List.map_map, hattributes, map_squeeze_squeeze]

/-- A squeezed definition is left alone. -/
theorem Definition.squeeze_squeeze (x : Definition) : x.squeeze.squeeze = x.squeeze := by
  obtain ⟨extAttrs, leading, afterAttrs, kind⟩ := x
  have hmember : Member.squeeze ∘ Member.squeeze = Member.squeeze := funext Member.squeeze_squeeze
  cases kind with
  | dictionary b => simp [squeeze, DefinitionKind.squeeze, Dictionary.squeeze, hmember]
  | _ => rfl

section WellFormed

variable {d : Dialect}

theorem Literal.WellFormed.squeeze {l : Literal} (h : l.WellFormed) :
    (l.mapString squeezeString).WellFormed := by
  cases l with
  | string s => exact not_mem_squeezeString (by decide) h
  | _ => exact h

mutual

theorem ExtendedAttribute.WellFormed.squeeze :
    ∀ {e : ExtendedAttribute}, e.WellFormed d → e.squeeze.WellFormed d
  | ⟨_, _, parameters⟩, .intro hname hvalue hparameters => by
    rw [ExtendedAttribute.squeeze, ExtendedAttribute.map]
    exact .intro hname hvalue (AttributeParameters.WellFormed.squeeze hparameters)

theorem AttributeParameters.WellFormed.squeeze : ∀ {p : AttributeParameters}, p.WellFormed d →
    (p.map (List.map Trivia.squeeze) squeezeString).WellFormed d
  | .absent, _ => .absent
  | .arguments args, .arguments h => by
    rw [AttributeParameters.map, Argument.mapAll_eq]
    refine .arguments fun a' ha' => ?_
    obtain ⟨a, ha, rfl⟩ := List.mem_map.mp ha'
    exact Argument.WellFormed.squeeze (h a ha)
  | .typePair _ _, .typePair hkey hvalue => .typePair hkey hvalue

theorem Argument.WellFormed.squeeze : ∀ {a : Argument}, a.WellFormed d → a.squeeze.WellFormed d
  | ⟨extAttrs, optional, variadic, type, name, default, leading, afterAttrs, trailing⟩,
    .intro hattributes hafter hbare hleading htrailing htype hname happart hdefault hrequired
      hoptional => by
    rw [Argument.squeeze, Argument.map, ExtendedAttribute.mapAll_eq]
    refine .intro (fun e' he' => ?_) hafter.squeeze (fun hnil => ?_) hleading.squeeze
      htrailing.squeeze htype hname happart (fun l' hl' => ?_) (fun ho => ?_) (fun ho => ?_)
    · obtain ⟨e, he, rfl⟩ := List.mem_map.mp he'
      exact ExtendedAttribute.WellFormed.squeeze (hattributes e he)
    · exact List.map_eq_nil_iff.mpr (hbare (List.map_eq_nil_iff.mp hnil))
    · obtain ⟨l, hl, rfl⟩ := Option.map_eq_some_iff.mp hl'
      exact (hdefault l hl).squeeze
    · exact (hrequired ho).imp_left fun hnone => Option.map_eq_none_iff.mpr hnone
    · refine (hoptional ho).imp_right fun h hnone => ?_
      exact List.map_eq_nil_iff.mpr (h (Option.map_eq_none_iff.mp hnone))

end

theorem Annotated.squeeze {es : List ExtendedAttribute} {items : List Trivia}
    (h : Annotated d es items) :
    Annotated d (es.map ExtendedAttribute.squeeze) (items.map Trivia.squeeze) where
  attributes := by
    intro e' he'
    obtain ⟨e, he, rfl⟩ := List.mem_map.mp he'
    exact (h.attributes e he).squeeze
  after := h.after.squeeze
  bare := fun hnil => List.map_eq_nil_iff.mpr (h.bare (List.map_eq_nil_iff.mp hnil))

theorem Member.WellFormed.squeeze {P : MemberKind → Prop} {m : Member} (h : m.WellFormed d P) :
    m.squeeze.WellFormed d P :=
  ⟨h.annotated.squeeze, h.leading, h.kind⟩

theorem Dictionary.WellFormed.squeeze {b : Dictionary} (h : b.WellFormed d) :
    b.squeeze.WellFormed d := by
  refine ⟨h.headed, fun m' hm' => ?_, h.body.closing⟩
  obtain ⟨m, hm, rfl⟩ := List.mem_map.mp hm'
  exact (h.body.members m hm).squeeze

/-- Squeezing keeps a tree well-formed. -/
theorem Definition.WellFormed.squeeze {x : Definition} (h : x.WellFormed d) :
    x.squeeze.WellFormed d := by
  refine ⟨h.annotated, h.leading, ?_⟩
  obtain ⟨extAttrs, leading, afterAttrs, kind⟩ := x
  cases kind with
  | dictionary b => exact Dictionary.WellFormed.squeeze h.kind
  | _ => exact h.kind

end WellFormed

namespace Token

/-- The token with the runs of white space inside it squeezed. -/
def squeeze (t : Token) : Token :=
  match t.kind with
  | .string => ⟨.string, squeezeString t.text⟩
  | .whitespace => if t.isLineComment then Token.blank "/**/" else ⟨.whitespace, squeezeString t.text⟩
  | _ => t

@[simp] theorem squeeze_word (w : String) : (word w).squeeze = word w := rfl

@[simp] theorem squeeze_mark (m : String) : (mark m).squeeze = mark m := rfl

theorem squeeze_ofNumeral (s : String) : (ofNumeral s).squeeze = ofNumeral s := by
  rcases Grammar.ofNumeral_kind s with h | h <;> simp [squeeze, h]

theorem squeeze_of_solid {t : Token} (hsolid : t.isWhitespace = false) (hkind : t.kind ≠ .string) :
    t.squeeze = t := by
  rw [isWhitespace, beq_eq_false_iff_ne] at hsolid
  unfold squeeze
  split
  · next heq => exact absurd heq hkind
  · next heq => exact absurd heq hsolid
  · rfl

theorem squeeze_append_solid (cs : List Char) {c : Char} (hc : isWhiteSpace c = false)
    (spaced : Bool) (ds : List Char) :
    squeezeFrom spaced (cs ++ c :: ds) = squeezeFrom spaced cs ++ c :: squeezeFrom false ds := by
  rw [squeezeFrom_append, squeezeFrom.eq_2, if_neg (by simp [hc])]

theorem squeezeFrom_quoted (spaced : Bool) (s : String) (cs : List Char) :
    squeezeFrom spaced ((quoted s).chars ++ cs) =
      (quoted (squeezeString s)).chars ++ squeezeFrom false cs := by
  have hquote : isWhiteSpace '"' = false := rfl
  have hchars : ∀ s, (quoted s).chars ++ cs = '"' :: (s.toList ++ '"' :: cs) := by
    simp [chars, quoted]
  rw [hchars, squeezeFrom.eq_2, if_neg (by simp [hquote]), squeeze_append_solid _ hquote]
  simp [chars, quoted, squeezeString, Text.squeeze]

theorem squeezeFrom_blockComment (spaced : Bool) (s : String) (cs : List Char) :
    squeezeFrom spaced ((Trivia.blockComment s).token.chars ++ cs) =
      (Trivia.blockComment s).squeeze.token.chars ++ squeezeFrom false cs := by
  have hslash : isWhiteSpace '/' = false := rfl
  have hstar : isWhiteSpace '*' = false := rfl
  have hchars : ∀ s ds, (Trivia.blockComment s).token.chars ++ ds =
      '/' :: '*' :: (s.toList ++ '*' :: '/' :: ds) := by
    simp [chars, Trivia.token, blank]
  rw [Trivia.squeeze, hchars, hchars, squeezeFrom.eq_2, if_neg (by simp [hslash]),
    squeezeFrom.eq_2, if_neg (by simp [hstar]), squeeze_append_solid _ hstar,
    squeezeFrom.eq_2, if_neg (by simp [hslash])]
  simp [squeezeString, Text.squeeze]

@[simp] theorem squeeze_quoted (s : String) : (quoted s).squeeze = quoted (squeezeString s) := by
  have hchars := squeezeFrom_quoted false s []
  simp only [List.append_nil, squeezeFrom] at hchars
  have htext : squeezeString (quoted s).text = (quoted (squeezeString s)).text :=
    String.toList_inj.mp (by rw [squeezeString, String.toList_ofList]; exact hchars)
  rw [squeeze]
  exact congrArg (Token.mk .string) htext

theorem squeeze_blank (s : String) :
    (blank s).squeeze =
      if (blank s).isLineComment then blank "/**/" else blank (squeezeString s) :=
  rfl

theorem squeeze_token {t : Trivia} (ht : t.IsPiece) : t.token.squeeze = t.squeeze.token := by
  rw [Trivia.token, squeeze_blank]
  cases ht with
  | @line s hs => exact if_pos (isLineComment_lineComment s)
  | @blanks s hne hb =>
    obtain ⟨c, cs, hs⟩ := List.exists_cons_of_ne_nil hne
    have hslash : c ≠ '/' := by
      rintro rfl
      exact absurd (hb '/' (by simp [hs])) (by decide)
    have hline : (blank (Trivia.whitespace s).text).isLineComment = false := by
      simp [isLineComment, chars, blank, Trivia.text, hs, List.isPrefixOf, hslash.symm]
    have hwhite : squeezeString s = " " := by
      rw [squeezeString, squeeze_of_white hne fun c hc => isWhiteSpace_of_isBlank (hb c hc)]
    rw [if_neg (by simp [hline]), Trivia.text, hwhite]
    rfl
  | @block s hs =>
    have hchars := squeezeFrom_blockComment false s []
    simp only [List.append_nil, squeezeFrom] at hchars
    have hline : (blank (Trivia.blockComment s).text).isLineComment = false := by
      simp [isLineComment, chars, blank, List.isPrefixOf]
    have htext : squeezeString (Trivia.blockComment s).text = (Trivia.blockComment s).squeeze.text :=
      String.toList_inj.mp (by rw [squeezeString, String.toList_ofList]; exact hchars)
    rw [if_neg (by simp [hline]), htext]
    rfl

@[simp] theorem squeeze_space : space.squeeze = space :=
  squeeze_token (t := .whitespace " ") (.blanks (by simp) (by simp [isBlank]))

/-- The text of a list is squeezed token by token. -/
theorem squeezeFrom_sourceChars {ts : List Token} (htame : ∀ t ∈ ts, Tame t)
    (hline : ∀ t ∈ ts, t.isLineComment = false) (hparted : Parted ts) {spaced : Bool}
    (hspaced : spaced → ∀ t ∈ ts.head?, t.isBlanks = false) :
    squeezeFrom spaced (sourceChars ts) = sourceChars (ts.map squeeze) := by
  induction ts generalizing spaced with
  | nil => rfl
  | cons t ts ih =>
    obtain ⟨ht, hts⟩ := List.forall_mem_cons.mp htame
    obtain ⟨hline, hlines⟩ := List.forall_mem_cons.mp hline
    rw [parted_cons] at hparted
    have ih := @ih hts hlines hparted.2
    rw [sourceChars_cons, List.map_cons, sourceChars_cons]
    cases ht with
    | solid hsolid hkind hne hchars =>
      have hwhite : ∀ c ∈ t.chars, isWhiteSpace c = false := fun c hc => (hchars c hc).1
      have hbehind : spacedBehind spaced t.chars = false := by
        obtain ⟨c, hc, hsolid⟩ := ended_of_forall hne hwhite
        rw [spacedBehind, Option.mem_def.mp hc]
        exact hsolid
      rw [squeezeFrom_append, hbehind, squeezeFrom_of_forall hwhite, ih (by simp),
        squeeze_of_solid hsolid hkind]
    | quoted _ => rw [squeezeFrom_quoted, ih (by simp), squeeze_quoted]
    | @trivia t ht =>
      rw [squeeze_token ht]
      cases ht with
      | line =>
        rw [isLineComment_lineComment] at hline
        cases hline
      | block => rw [squeezeFrom_blockComment, ih (by simp)]
      | @blanks s hne hb =>
        have hwhite : ∀ c ∈ s.toList, isWhiteSpace c := fun c hc => isWhiteSpace_of_isBlank (hb c hc)
        obtain ⟨c, cs, hs⟩ := List.exists_cons_of_ne_nil hne
        have hblanks : (Trivia.whitespace s).token.isBlanks := by
          simp [isBlanks, chars, Trivia.token, blank, Trivia.text, isWhitespace, hs,
            hb c (by simp [hs])]
        have hnot : spaced = false := by
          rw [Bool.eq_false_iff]
          intro h
          rw [hspaced h _ rfl] at hblanks
          cases hblanks
        have hbehind : spacedBehind spaced s.toList = true := by
          rw [spacedBehind, List.getLast?_eq_getLast_of_ne_nil hne]
          exact hwhite _ (List.getLast_mem hne)
        rw [show (Trivia.whitespace s).token.chars = s.toList from rfl, squeezeFrom_append, hbehind,
          ih (fun _ => hparted.1 hblanks), hnot]
        have hspace : Text.squeeze s.toList = (Trivia.whitespace s).squeeze.token.chars := by
          simp [squeeze_of_white hne hwhite, Trivia.squeeze, Trivia.token, blank, chars]
        exact congrArg (· ++ _) hspace

end Token

namespace Spelling

variable {d : Dialect} {items : List Trivia}

theorem map_squeeze_trivia (hrun : Trivia.IsRun items) :
    (trivia items).map Token.squeeze = trivia (items.map Trivia.squeeze) := by
  rw [trivia, trivia, List.map_map, List.map_map]
  exact List.map_congr_left fun t ht => squeeze_token (hrun.isPiece t ht)

theorem map_joined {s : List Token} (f : Token → Token) (l : List (List Token)) :
    (joined s l).map f = joined (s.map f) (l.map (List.map f)) := by
  induction l with
  | nil => rfl
  | cons ts l ih =>
    cases l with
    | nil => rfl
    | cons us l => simp only [joined, List.map_append, List.map_cons, ih]

theorem map_squeeze_words (ws : List String) : (words ws).map Token.squeeze = words ws := by
  simp [words, map_joined, Function.comp_def]

theorem map_squeeze_wordIf (flag : Bool) (w : String) :
    (wordIf flag w).map Token.squeeze = wordIf flag w := by
  cases flag <;> simp [wordIf]

theorem map_squeeze_ofSuffix (s : Suffix) : (ofSuffix s).map Token.squeeze = ofSuffix s := by
  have hquestion : ∀ flag : Bool, (if flag then [mark "?"] else []).map Token.squeeze =
      if flag then [mark "?"] else [] := by
    intro flag
    cases flag <;> rfl
  simp [ofSuffix, List.map_flatMap, hquestion]

mutual

theorem map_squeeze_ofType : ∀ t : IdlType, (ofType t).map Token.squeeze = ofType t
  | .primitive p s => by simp [ofType, map_squeeze_words, map_squeeze_ofSuffix]
  | .named name s => by simp [ofType, map_squeeze_ofSuffix]
  | .generic name inner s => by simp [ofType, map_squeeze_ofSuffix, map_squeeze_ofType inner]
  | .union members s => by simp [ofType, map_squeeze_ofSuffix, map_squeeze_ofMembers members]

theorem map_squeeze_ofMembers : ∀ ts : List IdlType, (ofMembers ts).map Token.squeeze = ofMembers ts
  | [] => rfl
  | [t] => by rw [ofMembers, map_squeeze_ofType t]
  | t :: u :: rest => by
    simp [ofMembers, map_squeeze_ofType t, map_squeeze_ofMembers (u :: rest)]

end

theorem map_squeeze_ofDefault (o : Option Literal) :
    (ofDefault o).map Token.squeeze = ofDefault (o.map (Literal.mapString squeezeString)) := by
  cases o with
  | none => rfl
  | some l =>
    cases l with
    | boolean b => cases b <;> simp [ofDefault, ofLiteral, Literal.mapString]
    | infinity negative => cases negative <;> simp [ofDefault, ofLiteral, Literal.mapString]
    | number s => simp [ofDefault, ofLiteral, Literal.mapString, squeeze_ofNumeral]
    | _ => simp [ofDefault, ofLiteral, Literal.mapString]

theorem map_squeeze_ofValue (v : AttributeValue) : (ofValue v).map Token.squeeze = ofValue v := by
  cases v with
  | identifierList names => simp [ofValue, map_joined, Function.comp_def]
  | _ => simp [ofValue]

theorem map_squeeze_filled (hrun : Trivia.IsRun items) :
    (trivia (filled items)).map Token.squeeze = trivia (filled (items.map Trivia.squeeze)) := by
  rw [map_squeeze_trivia (isRun_filled hrun)]
  cases items <;> rfl

theorem map_squeeze_bracketed {ts : List Token} (hitems : Trivia.IsRun items) :
    (bracketed ts items).map Token.squeeze =
      bracketed (ts.map Token.squeeze) (items.map Trivia.squeeze) := by
  by_cases hts : ts = []
  · subst hts
    exact map_squeeze_trivia hitems
  · rw [bracketed_of_ne_nil hts, bracketed_of_ne_nil (by simpa using hts)]
    simp [map_squeeze_filled hitems]

theorem map_squeeze_ofAttributes {es : List ExtendedAttribute}
    (hes : ∀ e ∈ es, (ofAttribute e).map Token.squeeze = ofAttribute e.squeeze) :
    (ofAttributes es).map Token.squeeze = ofAttributes (es.map ExtendedAttribute.squeeze) := by
  cases es with
  | nil => rfl
  | cons e es =>
    obtain ⟨he, hes⟩ := List.forall_mem_cons.mp hes
    rw [List.map_cons, ofAttributes_cons, ofAttributes_cons, List.map_append, he,
      List.map_flatMap, List.flatMap_map]
    congr 1
    apply List.flatMap_congr
    intro e' he'
    simp [hes e' he']

theorem squeeze_argument (a : Argument) :
    a.squeeze =
      { a with
        extAttrs := a.extAttrs.map ExtendedAttribute.squeeze
        default := a.default.map (Literal.mapString squeezeString)
        leading := a.leading.map Trivia.squeeze
        afterAttrs := a.afterAttrs.map Trivia.squeeze
        trailing := a.trailing.map Trivia.squeeze } := by
  cases a
  rw [Argument.squeeze, Argument.map, ExtendedAttribute.mapAll_eq]
  rfl

theorem map_squeeze_argumentBody {a : Argument}
    (hes : ∀ e ∈ a.extAttrs, (ofAttribute e).map Token.squeeze = ofAttribute e.squeeze)
    (ha : a.WellFormed d) :
    (argumentBody a).map Token.squeeze = argumentBody a.squeeze := by
  obtain ⟨-, hafter, -, -, htrailing, -, -, -, -, -, -⟩ := ha
  have hpoints : (if a.variadic then [mark ".", mark ".", mark "."] else []).map Token.squeeze =
      if a.variadic then [mark ".", mark ".", mark "."] else [] := by
    cases a.variadic <;> rfl
  have hattributes := map_squeeze_ofAttributes hes
  rw [squeeze_argument]
  simp only [argumentBody, List.map_append, List.map_cons, squeeze_space, squeeze_word,
    map_squeeze_bracketed hafter.settled.1, map_squeeze_trivia htrailing.settled.1, hattributes,
    map_squeeze_wordIf, map_squeeze_ofType, map_squeeze_ofDefault, hpoints]

theorem map_squeeze_ofArguments {as : List Argument}
    (has : ∀ a ∈ as, (argumentBody a).map Token.squeeze = argumentBody a.squeeze)
    (hleading : ∀ a ∈ as, d.Keeps a.leading) :
    (ofArguments as).map Token.squeeze = ofArguments (as.map Argument.squeeze) := by
  have hlead : ∀ a : Argument, a.squeeze.leading = a.leading.map Trivia.squeeze := by
    intro a
    rw [squeeze_argument]
  cases as with
  | nil => rfl
  | cons a as =>
    obtain ⟨ha, has⟩ := List.forall_mem_cons.mp has
    obtain ⟨hfirst, hleading⟩ := List.forall_mem_cons.mp hleading
    rw [List.map_cons, ofArguments_cons, ofArguments_cons, List.map_append, List.map_append, ha,
      map_squeeze_trivia hfirst.settled.1, List.map_flatMap, List.flatMap_map, hlead]
    congr 1
    apply List.flatMap_congr
    intro a' ha'
    simp [has a' ha', map_squeeze_filled (hleading a' ha').settled.1, hlead]

mutual

theorem map_squeeze_ofAttribute : ∀ {e : ExtendedAttribute}, e.WellFormed d →
    (ofAttribute e).map Token.squeeze = ofAttribute e.squeeze
  | ⟨name, value, parameters⟩, .intro _ _ hparameters => by
    have hparameters := map_squeeze_ofParameters hparameters
    simp [ExtendedAttribute.squeeze, ExtendedAttribute.map, ofAttribute, map_squeeze_ofValue,
      hparameters]

theorem map_squeeze_ofParameters : ∀ {p : AttributeParameters}, p.WellFormed d →
    (ofParameters p).map Token.squeeze = ofParameters (p.map (List.map Trivia.squeeze) squeezeString)
  | .absent, _ => rfl
  | .arguments args, .arguments h => by
    have hargs : (ofArguments args).map Token.squeeze =
        ofArguments (args.map (Argument.map (List.map Trivia.squeeze) squeezeString)) :=
      map_squeeze_ofArguments (fun a ha => map_squeeze_ofArgument (h a ha))
        fun a ha => (h a ha).keeps_leading
    rw [AttributeParameters.map, Argument.mapAll_eq]
    simpa [ofParameters] using hargs
  | .typePair key value, _ => by
    simp [ofParameters, AttributeParameters.map, map_squeeze_ofType]

theorem map_squeeze_ofArgument : ∀ {a : Argument}, a.WellFormed d →
    (argumentBody a).map Token.squeeze = argumentBody a.squeeze
  | _, .intro hattributes hafter hbare hleading htrailing htype hname happart hdefault hrequired
      hoptional =>
    map_squeeze_argumentBody (fun e he => map_squeeze_ofAttribute (hattributes e he))
      (.intro hattributes hafter hbare hleading htrailing htype hname happart hdefault hrequired
        hoptional)

end

end Spelling

end WebIdl
