import WebIdl.Proofs.Reading.Attributes

/-!
# How written phrases are cut

The text of a well-formed tree is cut into the tokens that it is written with. A phrase is judged
in front of what follows it: a word must not be lengthened, and neither must a run of blanks. Most
marks may stand in front of anything and behind anything.
-/

namespace WebIdl.Token

open Text Numeral Lexer Spelling Grammar

variable {ts us : List Token}

/-- The marks that are never a part of something longer. -/
def punctuation : List String :=
  ["(", ")", "[", "]", "\x7b", "\x7d", "<", ">", ",", ";", ":", "=", "?"]

theorem exists_of_punctuation {m : String} (hm : m ∈ punctuation) :
    ∃ c, m.toList = [c] ∧ IsMark c := by
  simp only [punctuation, List.mem_cons, List.not_mem_nil, or_false] at hm
  rcases hm with rfl | rfl | rfl | rfl | rfl | rfl | rfl | rfl | rfl | rfl | rfl | rfl | rfl <;>
    exact ⟨_, rfl, by decide⟩

theorem Lexable.punctuation {m : String} (h : Lexable ts) (hm : m ∈ punctuation) :
    Lexable (Token.mark m :: ts) := by
  obtain ⟨c, hc, hmark⟩ := exists_of_punctuation hm
  exact h.mark hc hmark

/-- A list that starts with such a mark. -/
def Punctuated (ts : List Token) : Prop :=
  ∃ m us, m ∈ punctuation ∧ ts = mark m :: us

theorem punctuated_mark {m : String} (hm : m ∈ punctuation) (us : List Token) :
    Punctuated (mark m :: us) :=
  ⟨m, us, hm, rfl⟩

theorem Punctuated.exists_head (h : Punctuated ts) :
    ∃ c, (sourceChars ts).head? = some c ∧ IsMark c := by
  obtain ⟨m, us, hm, rfl⟩ := h
  obtain ⟨c, hc, hmark⟩ := exists_of_punctuation hm
  exact ⟨c, by simp [chars, mark, hc], hmark⟩

theorem Punctuated.stops (h : Punctuated ts) : Stops (sourceChars ts) := by
  obtain ⟨c, hc, hsymbol, hpoint, -⟩ := h.exists_head
  intro x hx
  obtain rfl : c = x := by simpa [hc] using hx
  simp only [isSymbol, Bool.and_eq_true, Bool.not_eq_true'] at hsymbol
  exact ⟨hsymbol.1.2, hpoint⟩

theorem Punctuated.clear (h : Punctuated ts) : Clear ts :=
  fun c hc => (h.stops c hc).1

theorem Punctuated.firm (h : Punctuated ts) : Firm ts := by
  obtain ⟨m, us, hm, rfl⟩ := h
  obtain ⟨c, hc, hsymbol, hpoint, -, hslash, -⟩ := exists_of_punctuation hm
  simp only [isSymbol, Bool.and_eq_true, Bool.not_eq_true'] at hsymbol
  refine ⟨fun x hx => ?_, ?_⟩
  · obtain rfl : c = x := by simpa [chars, mark, hc] using hx
    exact ⟨hsymbol.1.1, hslash⟩
  · rw [core_mark, List.head?_cons, ne_eq, Option.some.injEq, mark_inj]
    rintro rfl
    exact hpoint (by simpa using hc.symm)

theorem clear_mark {m : String} (hm : m ∈ punctuation) (us : List Token) : Clear (mark m :: us) :=
  (punctuated_mark hm us).clear

theorem firm_mark {m : String} (hm : m ∈ punctuation) (us : List Token) : Firm (mark m :: us) :=
  (punctuated_mark hm us).firm

theorem clear_point (us : List Token) : Clear (mark "." :: us) := by
  rintro c hc
  obtain rfl : '.' = c := by simpa [chars, mark] using hc
  rfl

theorem clear_space (us : List Token) : Clear (space :: us) := by
  rintro c hc
  obtain rfl : ' ' = c := by simpa [chars, space, blank] using hc
  rfl

theorem firm_word {w : String} (hname : IsName w) (us : List Token) :
    Firm (word w :: us) := by
  have hw := hname.isWord
  refine ⟨?_, by simp⟩
  rw [sourceChars_cons, show (word w).chars = w.toList from rfl]
  generalize w.toList = cs at hw
  obtain @⟨d, cs, hd, -⟩ := hw
  rintro c hc
  obtain rfl : d = c := by simpa using hc
  refine ⟨Bool.eq_false_iff.mpr fun hb => ?_, ?_⟩
  · simp only [isBlank, Bool.or_eq_true, beq_iff_eq] at hb
    rcases hb with ((rfl | rfl) | rfl) | rfl <;> exact absurd hd (by decide)
  · rintro rfl
    exact absurd hd (by decide)

theorem firm_quoted (s : String) (us : List Token) : Firm (quoted s :: us) := by
  refine ⟨fun c hc => ?_, by simp [quoted_ne_mark]⟩
  obtain rfl : '"' = c := by simpa [chars, quoted] using hc
  decide

/-- Trivia stops every word and every numeral. -/
theorem stops_trivia {items : List Trivia} (hi : Trivia.IsRun items)
    (hts : Stops (sourceChars ts)) : Stops (sourceChars (Spelling.trivia items ++ ts)) := by
  rw [sourceChars_append, sourceChars_trivia]
  cases hi with
  | nil => exact hts
  | @blanks s items hne hb _ _ =>
    obtain ⟨d, cs, hs⟩ := List.exists_cons_of_ne_nil hne
    rintro c hc
    obtain rfl : d = c := by simpa [hs] using hc
    have hd : isBlank d := hb d (by simp [hs])
    simp only [isBlank, Bool.or_eq_true, beq_iff_eq] at hd
    rcases hd with ((rfl | rfl) | rfl) | rfl <;> decide
  | line => simp [Stops]; decide
  | block => simp [Stops]; decide

theorem Lexable.space (h : Lexable ts) (hts : Firm ts) : Lexable (Spelling.space :: ts) := by
  have hrun : Trivia.IsRun [.whitespace " "] := .blanks (by simp) (by simp [isBlank]) (by simp) .nil
  exact h.trivia hrun (Or.inl trivial) hts

/-- A written word is a word. -/
theorem Lexable.isName {w : String} (h : Lexable (Token.word w :: ts)) : IsName w := by
  obtain ⟨⟨us, hcut, hspaced, -, hunescaped⟩, -⟩ := h
  have hsolids := solids_eq_of_spaced_eq hspaced
  have hlead : sourceChars (lead us) = [] := by rw [← spaced_fst, hspaced]; rfl
  cases us with
  | nil => cases hsolids
  | cons u us =>
    by_cases hu : u.isWhitespace
    · simp only [lead, List.takeWhile_cons, hu, if_true, sourceChars_cons, List.append_eq_nil_iff]
        at hlead
      exact absurd hlead.1 hcut.chars_ne_nil
    · rw [Bool.not_eq_true] at hu
      rw [solids_cons_of_solid hu] at hsolids
      obtain rfl : u = Token.word w := (List.cons.inj hsolids).1
      exact ⟨hcut.isWord rfl, (unescaped_cons.mp hunescaped).1 rfl⟩

theorem Lexable.firm (h : Lexable ts) (hopens : Opens ts) : Firm ts := by
  cases hopens with
  | word w us => exact firm_word h.isName us
  | parenthesis us => exact firm_mark (by decide) us

/-- Items in a row, of which each is cut in front of a list that `C` holds of. -/
theorem lexable_flatMap {α : Type} {C : List Token → Prop} {f : α → List Token} {l : List α}
    (hf : ∀ x ∈ l, ∀ ts, Lexable ts → C ts → Lexable (f x ++ ts) ∧ C (f x ++ ts))
    (h : Lexable ts) (hts : C ts) : Lexable (l.flatMap f ++ ts) ∧ C (l.flatMap f ++ ts) := by
  induction l with
  | nil => exact ⟨h, hts⟩
  | cons x xs ih =>
    obtain ⟨hlex, hC⟩ := ih fun y hy => hf y (List.mem_cons_of_mem x hy)
    rw [List.flatMap_cons, List.append_assoc]
    exact hf x List.mem_cons_self _ hlex hC

end WebIdl.Token

namespace WebIdl.Spelling

open Text Numeral Lexer Token Grammar

variable {ts us : List Token} {d : Dialect}

theorem clear_ofSuffix (s : Suffix) (hts : Clear ts) : Clear (ofSuffix s ++ ts) := by
  obtain ⟨_ | _, _ | ⟨_ | _, array⟩⟩ := s
  · exact hts
  all_goals exact clear_mark (by decide) _

theorem lexable_ofSuffix (s : Suffix) (h : Lexable ts) : Lexable (ofSuffix s ++ ts) := by
  have hquestion : ∀ (b : Bool) {us : List Token}, Lexable us →
      Lexable ((if b then [mark "?"] else []) ++ us) := by
    intro b us hus
    cases b with
    | true => exact hus.punctuation (by decide)
    | false => exact hus
  rw [ofSuffix, List.append_assoc]
  refine (lexable_flatMap (C := fun _ => True) (fun b _ us hus _ => ⟨?_, trivial⟩)
    (hquestion s.nullable h) trivial).1
  rw [List.append_assoc]
  exact hquestion b ((hus.punctuation (by decide)).punctuation (by decide))

/-- Items with a separator between them, each of which is cut in front of what stops a word. -/
theorem lexable_joined {α : Type} {s : List Token} {f : α → List Token} {l : List α}
    (hf : ∀ x ∈ l, ∀ us, Lexable us → Clear us → Lexable (f x ++ us))
    (hs : ∀ x ∈ l, ∀ us, Lexable (f x ++ us) →
      Lexable (s ++ (f x ++ us)) ∧ Clear (s ++ (f x ++ us)))
    (h : Lexable ts) (hts : Clear ts) : Lexable (joined s (l.map f) ++ ts) := by
  cases l with
  | nil => exact h
  | cons x xs =>
    rw [List.map_cons, joined_cons, List.append_assoc, List.flatMap_map]
    have hmore := lexable_flatMap (C := Clear) (f := fun y => s ++ f y) (l := xs)
      (fun y hy us hus hclear => ?_) h hts
    · exact hf x List.mem_cons_self _ hmore.1 hmore.2
    · have hy := List.mem_cons_of_mem x hy
      rw [List.append_assoc]
      exact hs y hy us (hf y hy us hus hclear)

theorem lexable_primitive (p : Primitive) (h : Lexable ts) (hts : Clear ts) :
    Lexable (words p.words ++ ts) := by
  have hwords : ∀ w ∈ p.words, IsName w := by
    cases p with
    | integer unsigned width => cases unsigned <;> cases width <;> decide
    | float unrestricted => cases unrestricted <;> decide
    | double unrestricted => cases unrestricted <;> decide
    | _ => decide
  exact lexable_joined (fun w hw us hus hclear => hus.word (hwords w hw) hclear)
    (fun w hw us hus => ⟨hus.space (firm_word (hwords w hw) us), clear_space _⟩) h hts

/-- The text of a type is cut into the tokens that it is written with. -/
theorem lexable_ofType {t : IdlType} (ht : t.WellFormed) (h : Lexable ts) (hts : Clear ts) :
    Lexable (ofType t ++ ts) := by
  induction ht generalizing ts with
  | primitive p s =>
    rw [ofType, List.append_assoc]
    exact lexable_primitive p (lexable_ofSuffix s h) (clear_ofSuffix s hts)
  | named hname _ =>
    rw [ofType, List.cons_append]
    exact (lexable_ofSuffix _ h).word hname.toIsName (clear_ofSuffix _ hts)
  | generic s hname _ ih =>
    rw [ofType, List.cons_append, List.cons_append, List.append_assoc]
    have hclose := (lexable_ofSuffix s h).punctuation (m := ">") (by decide)
    have hinner := ih hclose (clear_mark (by decide) _)
    exact (hinner.punctuation (by decide)).word hname.toIsName (clear_mark (by decide) _)
  | @union members s _ htwo ih =>
    obtain ⟨t, us, rfl⟩ : ∃ t us, members = t :: us :=
      List.exists_cons_of_ne_nil (by rintro rfl; simp at htwo)
    simp only [ofType, ofMembers_cons, List.cons_append, List.append_assoc]
    have hclose := (lexable_ofSuffix s h).punctuation (m := ")") (by decide)
    have hmore := lexable_flatMap (C := Clear) (f := alternative) (l := us)
      (fun u hu vs hvs hclear => ⟨?_, clear_space _⟩) hclose (clear_mark (by decide) _)
    · exact (ih t List.mem_cons_self hmore.1 hmore.2).punctuation (by decide)
    · have htype := ih u (List.mem_cons_of_mem t hu) hvs hclear
      have hor : IsName "or" := by decide
      have hspace := htype.space (htype.firm ((opens_ofType u).append _))
      exact (hspace.word hor (clear_space _)).space (firm_word hor _)

theorem lexable_ofLiteral {l : Literal} (hl : l.WellFormed) (h : Lexable ts)
    (hts : Stops (sourceChars ts)) : Lexable (ofLiteral l ++ ts) := by
  have hclear : Clear ts := fun c hc => (hts c hc).1
  have hword : ∀ {w : String}, IsName w → Lexable (word w :: ts) :=
    fun hw => h.word hw hclear
  cases l with
  | boolean b => cases b <;> exact hword (by decide)
  | null => exact hword (by decide)
  | infinity negative =>
    cases negative with
    | false => exact hword (by decide)
    | true =>
      refine (hword (w := "Infinity") (by decide)).minus ?_
      intro c hc
      obtain rfl : 'I' = c := by simpa [chars, word] using hc
      decide
  | nan => exact hword (by decide)
  | number s => exact h.numeral hl hts
  | string s => exact h.quoted hl
  | emptySequence => exact (h.punctuation (by decide)).punctuation (by decide)

theorem clear_ofDefault (o : Option Literal) (hts : Clear ts) : Clear (ofDefault o ++ ts) := by
  cases o with
  | none => exact hts
  | some l => exact clear_space _

theorem firm_ofNumeral {s : String} (hs : IsFloat s.toList ∨ IsInteger s.toList)
    (us : List Token) : Firm (ofNumeral s :: us) := by
  have hne : s.toList ≠ [] := hs.elim IsFloat.ne_nil IsInteger.ne_nil
  obtain ⟨d, cs, hcs⟩ := List.exists_cons_of_ne_nil hne
  have hhead : d.isDigit ∨ d = '.' ∨ d = '-' := by
    by_contra hnot
    simp only [not_or, Bool.not_eq_true] at hnot
    obtain ⟨hfloat, hinteger⟩ := @numeralLengths_eq_zero d cs hnot.1 hnot.2.1 hnot.2.2
    rcases hs with hs | hs
    · have hlen := floatLength_append hs stops_nil
      rw [List.append_nil, hcs, hfloat] at hlen
      cases hlen
    · have hlen := integerLength_append hs stops_nil
      rw [List.append_nil, hcs, hinteger] at hlen
      cases hlen
  refine ⟨fun c hc => ?_, ?_⟩
  · obtain rfl : d = c := by simpa [chars, ofNumeral_text, hcs] using hc
    refine ⟨Bool.eq_false_iff.mpr fun hb => ?_, ?_⟩
    · simp only [isBlank, Bool.or_eq_true, beq_iff_eq] at hb
      rcases hb with ((rfl | rfl) | rfl) | rfl <;> exact absurd hhead (by decide)
    · rintro rfl
      exact absurd hhead (by decide)
  · rw [core_ofNumeral, List.head?_cons, ne_eq, Option.some.injEq]
    intro heq
    have hkind := ofNumeral_kind s
    rw [heq] at hkind
    simp [mark] at hkind

theorem firm_ofLiteral {l : Literal} (hl : l.WellFormed) (ts : List Token) :
    Firm (ofLiteral l ++ ts) := by
  cases l with
  | boolean b => cases b <;> exact firm_word (by decide) _
  | null => exact firm_word (by decide) _
  | infinity negative =>
    cases negative with
    | false => exact firm_word (by decide) _
    | true =>
      refine ⟨fun c hc => ?_, by simp [ofLiteral]⟩
      obtain rfl : '-' = c := by simpa [ofLiteral, chars, mark] using hc
      decide
  | nan => exact firm_word (by decide) _
  | number s => exact firm_ofNumeral hl _
  | string s => exact firm_quoted s _
  | emptySequence => exact firm_mark (by decide) _

theorem lexable_ofDefault {o : Option Literal} (ho : ∀ l ∈ o, l.WellFormed) (h : Lexable ts)
    (hts : Stops (sourceChars ts)) : Lexable (ofDefault o ++ ts) := by
  cases o with
  | none => exact h
  | some l =>
    have hvalue := lexable_ofLiteral (ho l rfl) h hts
    have hspace := hvalue.space (firm_ofLiteral (ho l rfl) ts)
    exact (hspace.punctuation (by decide)).space (firm_mark (by decide) _)

/-- The name of something behind its type. -/
theorem lexable_named {t : IdlType} {name : String} (ht : t.WellFormed) (hname : IsName name)
    (h : Lexable ts) (hts : Clear ts) : Lexable (ofType t ++ space :: word name :: ts) :=
  lexable_ofType ht ((h.word hname hts).space (firm_word hname ts)) (clear_space _)

theorem lexable_wordIf {w : String} (flag : Bool) (hw : IsName w) (h : Lexable ts)
    (hts : Opens ts) : Lexable (wordIf flag w ++ ts) := by
  cases flag with
  | true => exact (h.space (h.firm hts)).word hw (clear_space _)
  | false => exact h

/-- The points of a variadic argument stand right behind its type. -/
theorem lexable_points (flag : Bool) (h : Lexable (space :: ts)) :
    Lexable ((if flag then [mark ".", mark ".", mark "."] else []) ++ space :: ts) ∧
      Clear ((if flag then [mark ".", mark ".", mark "."] else []) ++ space :: ts) := by
  have hpoint : ∀ us, ∀ c ∈ (sourceChars (mark "." :: us)).head?, c.isDigit = false := by
    intro us c hc
    obtain rfl : '.' = c := by simpa [chars, mark] using hc
    rfl
  have hspace : ∀ c ∈ (sourceChars (space :: ts)).head?, c.isDigit = false := by
    intro c hc
    obtain rfl : ' ' = c := by simpa [chars, space, blank] using hc
    rfl
  cases flag with
  | true => exact ⟨((h.point hspace).point (hpoint _)).point (hpoint _), clear_point _⟩
  | false => exact ⟨h, clear_space _⟩

theorem lexable_ofValue {v : AttributeValue} (hv : v.WellFormed) (h : Lexable ts)
    (hts : Clear ts) : Lexable (ofValue v ++ ts) := by
  cases v with
  | absent => exact h
  | identifier name => exact (h.word hv hts).punctuation (by decide)
  | identifierList names =>
    have hclose := h.punctuation (m := ")") (by decide)
    have hnames := lexable_joined (s := [mark ","]) (f := fun n => [word n]) (l := names)
      (fun n hn us hus hclear => hus.word (hv n hn) hclear)
      (fun n hn us hus => ⟨hus.punctuation (by decide), clear_mark (by decide) _⟩)
      hclose (clear_mark (by decide) _)
    simp only [ofValue, List.cons_append, List.append_assoc, List.nil_append]
    exact (hnames.punctuation (by decide)).punctuation (by decide)

theorem lexable_ofAttributes {es : List ExtendedAttribute}
    (hes : ∀ e ∈ es, ∀ us, Lexable us → Punctuated us → Lexable (ofAttribute e ++ us))
    (h : Lexable ts) (hts : Punctuated ts) : Lexable (ofAttributes es ++ ts) := by
  cases es with
  | nil => exact h
  | cons e es =>
    rw [ofAttributes_cons, List.append_assoc]
    have hmore := lexable_flatMap (C := Punctuated) (l := es)
      (f := fun e => mark "," :: space :: ofAttribute e)
      (fun e' he' us hus hpunct => ⟨?_, punctuated_mark (by decide) _⟩) h hts
    · exact hes e List.mem_cons_self _ hmore.1 hmore.2
    · have hattribute := hes e' (List.mem_cons_of_mem e he') us hus hpunct
      refine (hattribute.space ?_).punctuation (by decide)
      rw [ofAttribute_eq] at hattribute ⊢
      exact firm_word hattribute.isName _

/-- Attributes with the trivia behind them, in front of something that may stand behind trivia. -/
theorem lexable_bracketed {es : List ExtendedAttribute} {items : List Trivia}
    (hes : ∀ e ∈ es, ∀ us, Lexable us → Punctuated us → Lexable (ofAttribute e ++ us))
    (hitems : Trivia.IsRun items ∧ Trivia.Closed items) (hbare : es = [] → items = [])
    (h : Lexable ts) (hts : Firm ts) :
    Lexable (bracketed (ofAttributes es) items ++ ts) ∧
      Firm (bracketed (ofAttributes es) items ++ ts) := by
  by_cases hnil : es = []
  · subst hnil
    rw [hbare rfl]
    exact ⟨h, hts⟩
  · rw [bracketed_of_ne_nil (ofAttributes_ne_nil hnil), List.append_assoc]
    refine ⟨?_, firm_mark (by decide) _⟩
    have hafter := h.trivia (isRun_filled hitems.1) (Or.inl (closed_filled hitems.2)) hts
    have hclose := hafter.punctuation (m := "]") (by decide)
    exact (lexable_ofAttributes hes hclose (punctuated_mark (by decide) _)).punctuation (by decide)

theorem lexable_argumentBody {a : Argument}
    (hes : ∀ e ∈ a.extAttrs, ∀ us, Lexable us → Punctuated us → Lexable (ofAttribute e ++ us))
    (ha : a.WellFormed d) (h : Lexable ts) (hts : Punctuated ts) :
    Lexable (argumentBody a ++ ts) ∧ Firm (argumentBody a ++ ts) := by
  obtain ⟨-, hafter, hbare, -, htrailing, htype, hname, -, hdefault, -, -⟩ := ha
  have hbehind := h.trivia htrailing.settled.1 (Or.inl htrailing.settled.2) hts.firm
  have hstops := stops_trivia htrailing.settled.1 hts.stops
  have hdefault := lexable_ofDefault hdefault hbehind hstops
  have hnamed := hdefault.word hname (clear_ofDefault _ fun c hc => (hstops c hc).1)
  obtain ⟨hpoints, hclear⟩ := lexable_points a.variadic (hnamed.space (firm_word hname _))
  have htyped := lexable_ofType htype hpoints hclear
  have hopens := (opens_ofType a.type).append ((if a.variadic then [mark ".", mark ".", mark "."]
    else []) ++ space :: word a.name :: (ofDefault a.default ++ (trivia a.trailing ++ ts)))
  have hoptional := lexable_wordIf (w := "optional") a.optional (by decide) htyped hopens
  have hfirm := hoptional.firm (hopens.wordIf a.optional "optional")
  have hbody := lexable_bracketed hes hafter.settled hbare hoptional hfirm
  simpa only [argumentBody, List.append_assoc, List.cons_append] using hbody

theorem lexable_ofArguments {as : List Argument}
    (has : ∀ a ∈ as, ∀ us, Lexable us → Punctuated us →
      Lexable (argumentBody a ++ us) ∧ Firm (argumentBody a ++ us))
    (hleading : ∀ a ∈ as, d.Keeps a.leading) (h : Lexable ts) (hts : Punctuated ts) :
    Lexable (ofArguments as ++ ts) := by
  cases as with
  | nil => exact h
  | cons a as =>
    rw [ofArguments_cons, List.append_assoc, List.append_assoc]
    have hmore := lexable_flatMap (C := Punctuated) (l := as)
      (f := fun a => mark "," :: (trivia (filled a.leading) ++ argumentBody a))
      (fun b hb us hus hpunct => ⟨?_, punctuated_mark (by decide) _⟩) h hts
    · obtain ⟨hbody, hfirm⟩ := has a List.mem_cons_self _ hmore.1 hmore.2
      have hlead := (hleading a List.mem_cons_self).settled
      exact hbody.trivia hlead.1 (Or.inl hlead.2) hfirm
    · have hb := List.mem_cons_of_mem a hb
      obtain ⟨hbody, hfirm⟩ := has b hb us hus hpunct
      have hlead := (hleading b hb).settled
      have htrivia :=
        hbody.trivia (isRun_filled hlead.1) (Or.inl (closed_filled hlead.2)) hfirm
      simpa using htrivia.punctuation (m := ",") (by decide)

mutual

theorem lexable_ofAttribute : ∀ {e : ExtendedAttribute} {ts : List Token}, e.WellFormed d →
    Lexable ts → Punctuated ts → Lexable (ofAttribute e ++ ts)
  | e, ts, .intro hname hvalue hparameters, h, hts => by
    obtain ⟨hlex, hclear⟩ := lexable_ofParameters hparameters h hts
    rw [ofAttribute_eq, List.cons_append, List.append_assoc]
    refine (lexable_ofValue hvalue hlex hclear).word hname ?_
    cases e.value with
    | absent => exact hclear
    | identifier name => exact clear_mark (by decide) _
    | identifierList names => exact clear_mark (by decide) _

theorem lexable_ofParameters : ∀ {p : AttributeParameters} {ts : List Token}, p.WellFormed d →
    Lexable ts → Punctuated ts → Lexable (ofParameters p ++ ts) ∧ Clear (ofParameters p ++ ts)
  | .absent, _, _, h, hts => ⟨h, hts.clear⟩
  | .arguments args, ts, .arguments hargs, h, hts => by
    have hclose := h.punctuation (m := ")") (by decide)
    have hlist := lexable_ofArguments
      (fun a ha us hus hpunct => lexable_ofArgument (hargs a ha) hus hpunct)
      (fun a ha => (hargs a ha).keeps_leading) hclose (punctuated_mark (by decide) _)
    simp only [ofParameters, List.cons_append, List.append_assoc, List.nil_append]
    exact ⟨hlist.punctuation (by decide), clear_mark (by decide) _⟩
  | .typePair key value, ts, .typePair hkey hvalue, h, hts => by
    have hclose := h.punctuation (m := ")") (by decide)
    have hsecond := lexable_ofType hvalue hclose (clear_mark (by decide) _)
    have hspace := hsecond.space (hsecond.firm ((opens_ofType value).append _))
    have hcomma := hspace.punctuation (m := ",") (by decide)
    have hfirst := lexable_ofType hkey hcomma (clear_mark (by decide) _)
    simp only [ofParameters, List.cons_append, List.append_assoc, List.nil_append]
    exact ⟨hfirst.punctuation (by decide), clear_mark (by decide) _⟩

theorem lexable_ofArgument : ∀ {a : Argument} {ts : List Token}, a.WellFormed d →
    Lexable ts → Punctuated ts → Lexable (argumentBody a ++ ts) ∧ Firm (argumentBody a ++ ts)
  | _, _, .intro hattributes hafter hbare hleading htrailing htype hname happart hdefault
      hrequired hoptional, h, hts =>
    lexable_argumentBody (fun e he _ hus hpunct => lexable_ofAttribute (hattributes e he) hus hpunct)
      (.intro hattributes hafter hbare hleading htrailing htype hname happart hdefault
        hrequired hoptional) h hts

end

theorem lexable_arguments {as : List Argument} (has : ∀ a ∈ as, a.WellFormed d) (h : Lexable ts)
    (hts : Punctuated ts) : Lexable (ofArguments as ++ ts) :=
  lexable_ofArguments (fun a ha _ hus hpunct => lexable_ofArgument (has a ha) hus hpunct)
    (fun a ha => (has a ha).keeps_leading) h hts

/-- Attributes in front of a declaration. -/
theorem lexable_annotated {es : List ExtendedAttribute} {items : List Trivia}
    (hes : Annotated d es items) (h : Lexable ts) (hts : Opens ts) :
    Lexable (bracketed (ofAttributes es) items ++ ts) ∧
      Firm (bracketed (ofAttributes es) items ++ ts) :=
  lexable_bracketed (fun e he _ hus hpunct => lexable_ofAttribute (hes.attributes e he) hus hpunct)
    hes.after.settled hes.bare h (h.firm hts)

end WebIdl.Spelling
