import WebIdl.Proofs.Answers.Types

/-!
# Literals, arguments and extended attributes that are read
-/

namespace WebIdl.Grammar

open Token Cursor Spelling

variable {c : Cursor} {d : Dialect}

/-- What a constant may be, wherever the cursor stands. -/
def IsConstValue (l : Literal) (_ : Cursor) : Prop :=
  l.WellFormed ∧ l.IsConst

theorem gives_plainLiteral {w : String} {l : Literal} (hl : l.WellFormed ∧ l.IsConst) :
    Gives IsConstValue (plainLiteral w l) := by
  refine fun c hc => answers_bind (answers_keyword hc (fun c1 hc1 h1 => ?_) fun c1 hc1 _ h1 _ => ?_)
  · exact answers_pure ⟨onward_of_ahead_cons hc1 h1, by rintro _ ⟨⟩; exact hl⟩
  · exact answers_pure ⟨onward_of_ahead_eq hc1 h1, by simp⟩

theorem gives_numeral : Gives IsConstValue numeral := by
  intro c hc
  have hnumeral : ∀ (kind : TokenKind), kind = .float ∨ kind = .integer →
      ∀ {Q : Option Literal → Cursor → Prop},
      (∀ l c', Onward c c' → IsConstValue l c' → Q (some l) c') → Q none c.skip →
      Answers c.skip (mapped (fun t => .number t.text) (token kind none)) Q := by
    intro kind hkind Q hsome hnone
    refine answers_mapped (answers_token ?_ fun _ => hnone)
    rintro t rest hafter rfl -
    obtain ⟨hcut, hahead, hisCut, -⟩ := hc.step hafter
    refine hsome _ _ (onward_of_ahead_cons hcut hahead) ⟨?_, trivial⟩
    rw [unescape_of_kind (by rcases hkind with h | h <;> simp [h])]
    rcases hkind with h | h
    · exact Or.inl (hisCut.isFloat h)
    · exact Or.inr (hisCut.isInteger h)
  refine answers_bind (answers_skip (answers_firstOf ?_))
  refine hnumeral _ (Or.inl rfl) (fun l c' hon hl => ⟨?_, by simp⟩) ⟨by simp, fun _ => ?_⟩
  · rintro _ ⟨⟩
    exact ⟨hon, by simpa using hl⟩
  · refine answers_firstOf (hnumeral _ (Or.inr rfl) (fun l c' hon hl => ⟨?_, by simp⟩)
      ⟨by simp, fun _ => ?_⟩)
    · rintro _ ⟨⟩
      exact ⟨hon, by simpa using hl⟩
    · exact answers_firstOf_nil ⟨onward_of_ahead_eq hc.skip (ahead_skip c), by simp⟩

/-- The step back behind a minus that stands alone brings no more than the minus back. -/
theorem gives_negativeInfinity : Gives IsConstValue negativeInfinity := by
  refine fun c hc => answers_bind (answers_symbol hc (fun c1 hc1 h1 => ?_) fun c1 hc1 _ h1 _ => ?_)
  · refine answers_bind (answers_keyword hc1 (fun c2 hc2 h2 => ?_) fun c2 hc2 _ h2 _ => ?_)
    · refine answers_pure ⟨(onward_of_ahead_cons hc1 h1).trans (onward_of_ahead_cons hc2 h2), ?_⟩
      rintro _ ⟨⟩
      exact ⟨trivial, trivial⟩
    · refine answers_bind (answers_modify (answers_pure ⟨⟨?_, ?_⟩, by simp⟩))
      · exact hc2.of_tokens_eq (tokens_unconsume c2)
      · have hle := length_ahead_unconsume c2
        rwa [h2, ← length_ahead_of_cons h1] at hle
  · exact answers_pure ⟨onward_of_ahead_eq hc1 h1, by simp⟩

theorem gives_constValue : Gives IsConstValue constValue := by
  refine gives_firstOf ?_
  simp only [List.forall_mem_cons, List.not_mem_nil, false_implies, implies_true, and_true]
  exact ⟨gives_plainLiteral ⟨trivial, trivial⟩, gives_plainLiteral ⟨trivial, trivial⟩,
    gives_plainLiteral ⟨trivial, trivial⟩, gives_plainLiteral ⟨trivial, trivial⟩,
    gives_plainLiteral ⟨trivial, trivial⟩, gives_numeral, gives_negativeInfinity⟩

theorem gives_emptySequence : Gives (fun l _ => l.WellFormed) emptySequence := by
  refine fun c hc => answers_bind (answers_symbol hc (fun c1 hc1 h1 => ?_) fun c1 hc1 _ h1 _ => ?_)
  · refine answers_bind (answers_expectSymbol hc1 fun c2 hc2 h2 => answers_pure ⟨?_, ?_⟩)
    · exact (onward_of_ahead_cons hc1 h1).trans (onward_of_ahead_cons hc2 h2)
    · rintro _ ⟨⟩
      trivial
  · exact answers_pure ⟨onward_of_ahead_eq hc1 h1, by simp⟩

theorem gives_stringLiteral : Gives (fun l _ => l.WellFormed) stringLiteral := by
  intro c hc
  refine answers_bind (answers_skip (answers_mapped (answers_token ?_ fun _ => ?_)))
  · rintro t rest hafter hkind -
    obtain ⟨hcut, hahead, hisCut, -⟩ := hc.step hafter
    refine ⟨onward_of_ahead_cons hcut hahead, ?_⟩
    rintro _ ⟨⟩
    obtain ⟨body, hchars, hbody⟩ := hisCut.exists_body hkind
    have hquotes : '"' ∉ (String.ofList body).toList := by simpa using hbody
    have ht : t = quoted (String.ofList body) := by
      obtain ⟨kind, text⟩ := t
      obtain rfl : kind = .string := hkind
      exact congrArg (Token.mk .string) (String.ext (by simpa [chars] using hchars))
    rw [unescape_of_kind (by simp [hkind]), ht]
    show '"' ∉ (unquote (quoted (String.ofList body)).text).toList
    rw [unquote_quoted hquotes]
    exact hquotes
  · exact ⟨onward_of_ahead_eq hc.skip (ahead_skip c), by simp⟩

theorem answers_defaultValue (hc : Cut c) : Answers c defaultValue fun o c' =>
    Onward c c' ∧ (∀ l ∈ o, l.WellFormed) ∧ (o = none → Settled c') := by
  refine answers_bind (answers_symbol hc (fun c1 hc1 h1 => ?_) fun c1 hc1 hs h1 _ => ?_)
  · have hvalue : Gives (fun l _ => l.WellFormed)
        (firstOf [constValue, emptySequence, stringLiteral]) := by
      refine gives_firstOf ?_
      simp only [List.forall_mem_cons, List.not_mem_nil, false_implies, implies_true, and_true]
      refine ⟨fun c hc => ?_, gives_emptySequence, gives_stringLiteral⟩
      exact (gives_constValue c hc).mono fun o c' h => ⟨h.1, fun l hl => (h.2 l hl).1⟩
    refine answers_bind (answers_expect ((hvalue c1 hc1).mono fun o c2 h2 l hl => answers_pure ?_))
    exact ⟨(onward_of_ahead_cons hc1 h1).trans h2.1, by simpa using h2.2 l hl, by simp⟩
  · exact answers_pure ⟨onward_of_ahead_eq hc1 h1, by simp, fun _ => hs⟩

/-- Trivia at the end of an argument is settled as soon as something follows. -/
def ArgumentGiven (d : Dialect) (a : Argument) (c : Cursor) : Prop :=
  0 < c.ahead.length → a.WellFormed d

theorem ArgumentGiven.mono {a : Argument} {c' : Cursor} (h : ArgumentGiven d a c)
    (hon : Onward c c') : ArgumentGiven d a c' :=
  fun hpos => h (Nat.lt_of_lt_of_le hpos hon.length_le)

theorem gives_point : Gives (fun _ _ => True) (token .other (some ".")) := by
  refine fun c hc => answers_token (fun t rest hafter _ _ => ?_) fun _ => ?_
  · exact ⟨hc.next hafter, fun _ _ => trivial⟩
  · exact ⟨hc.onward, by simp⟩

/-- Where the points are not all there, nothing but blanks is read. -/
theorem answers_ellipsis {Q : Bool → Cursor → Prop} (hc : Cut c)
    (hyes : ∀ c', Onward c c' → Q true c')
    (hno : ∀ c', Cut c' → c'.ahead = c.ahead → Q false c') : Answers c ellipsis Q := by
  have hskip := onward_of_ahead_eq hc.skip (ahead_skip c)
  have hthird : ∀ (second : Option Token) (c2 : Cursor), Onward c c2 →
      Answers c2 (if second.isSome then token .other (some ".") else pure none) fun o c' =>
        (∀ t, o = some t → Answers c' (pure (some t).isSome) Q) ∧
          (o = none → Answers c.skip (pure (none : Option Token).isSome) Q) := by
    intro second c2 h2
    have hfalse : Q (none : Option Token).isSome c.skip := hno _ hc.skip (ahead_skip c)
    split
    · refine (gives_point c2 h2.cut).mono fun third c3 h3 => ⟨?_, fun _ => answers_pure hfalse⟩
      exact fun _ _ => answers_pure (hyes c3 (h2.trans h3.1))
    · exact answers_pure ⟨by simp, fun _ => answers_pure hfalse⟩
  refine answers_bind (answers_skip (answers_bind (answers_attempt ?_)))
  refine answers_bind ((gives_point _ hc.skip).mono fun first c1 h1 => ?_)
  have hon1 := hskip.trans h1.1
  split
  · exact answers_bind ((gives_point c1 hon1.cut).mono fun second c2 h2 =>
      hthird second c2 (hon1.trans h2.1))
  · exact answers_bind (answers_pure (hthird none c1 hon1))

/-- Attributes in brackets, or none where no bracket opens. -/
def AttributesRead (d : Dialect) (c : Cursor) (es : List ExtendedAttribute) (c' : Cursor) : Prop :=
  Onward c c' ∧ (∀ e ∈ es, e.WellFormed d) ∧ (es = [] → Settled c')

/-- Attributes with the trivia behind them. -/
theorem answers_annotation {α : Type} {attributes : Reader (List ExtendedAttribute)}
    {f : List ExtendedAttribute → List Trivia → Reader α} {Q : α → Cursor → Prop}
    (hattributes : Answers c attributes (AttributesRead d c))
    (h : ∀ es items c', Onward c c' → (0 < c'.ahead.length → Annotated d es items) →
      Answers c' (f es items) Q) :
    Answers c (do let es ← attributes; let items ← trivia d; f es items) Q := by
  refine answers_bind (hattributes.mono ?_)
  rintro es c1 ⟨h1, hes, hsettled⟩
  refine answers_bind (answers_trivia h1.cut fun items c2 hc2 _ h2 _ hkeeps hnil => ?_)
  exact h es items c2 (h1.trans (onward_of_ahead_eq hc2 h2)) fun hpos =>
    ⟨hes, hkeeps hpos, fun hnone => hnil (hsettled hnone)⟩

/-- An argument from its name on. -/
theorem answers_argumentRest {extAttrs : List ExtendedAttribute} {optional variadic : Bool}
    {type : IdlType} {leading after : List Trivia} {Q : Option Argument → Cursor → Prop}
    (hc : Cut c) (hleading : 0 < c.ahead.length → d.Keeps leading)
    (hannotated : 0 < c.ahead.length → Annotated d extAttrs after) (htype : type.WellFormed)
    (happart : ∀ name rest, c.ahead = word name :: rest → variadic = false → type.Apart name)
    (hrequired : optional = false → ¬Begins ["optional"] (ofType type))
    (hoptional : optional → variadic = false)
    (hsome : ∀ a c', Onward c c' → ArgumentGiven d a c' → Q (some a) c')
    (hnone : ∀ c', Q none c') :
    Answers c (do
      match ← identifier with
      | none => return none
      | some name =>
        let default ← if optional then defaultValue else pure none
        let trailing ← trivia d
        return some
          { extAttrs, optional, variadic, type, name, default, leading, afterAttrs := after,
            trailing }) Q := by
  refine answers_bind (answers_identifier hc (fun name c1 hc1 hname h1 => ?_) fun c1 _ _ _ =>
    answers_pure (hnone c1))
  have hpos : 0 < c.ahead.length := by rw [h1]; exact Nat.succ_pos _
  have hgiven : ∀ (default : Option Literal) (trailing : List Trivia) (c2 : Cursor),
      (∀ l ∈ default, l.WellFormed) → (optional = false → default = none) →
      (0 < c2.ahead.length → d.Keeps trailing) →
      (optional → default = none → trailing = []) → ArgumentGiven d
        { extAttrs, optional, variadic, type, name, default, leading, afterAttrs := after,
          trailing } c2 := by
    intro default trailing c2 hdefault habsent htrailing hsettled hmore
    obtain ⟨hattributes, hafter, hbare⟩ := hannotated hpos
    exact .intro hattributes hafter hbare (hleading hpos) (htrailing hmore) htype hname
      (happart name _ h1) hdefault (fun hx => ⟨habsent hx, hrequired hx⟩)
      fun hx => ⟨hoptional hx, hsettled hx⟩
  have hon1 := onward_of_ahead_cons hc1 h1
  cases optional with
  | true =>
    refine answers_bind ((answers_defaultValue hc1).mono ?_)
    rintro default c2 ⟨h2, hdefault, hsettled⟩
    refine answers_bind (answers_trivia h2.cut fun trailing c3 hc3 _ h3 _ htrailing hnil => ?_)
    refine answers_pure (hsome _ c3 ((hon1.trans h2).trans (onward_of_ahead_eq hc3 h3)) ?_)
    exact hgiven default trailing c3 hdefault (by simp) htrailing fun _ h => hnil (hsettled h)
  | false =>
    refine answers_bind (answers_pure (answers_bind ?_))
    refine answers_trivia hc1 fun trailing c3 hc3 _ h3 _ htrailing _ => answers_pure ?_
    refine hsome _ c3 (hon1.trans (onward_of_ahead_eq hc3 h3)) ?_
    exact hgiven none trailing c3 (by simp) (fun _ => rfl) htrailing (by simp)

theorem gives_argument {attributes : Reader (List ExtendedAttribute)}
    (hattributes : ∀ c, Cut c → Settled c → Answers c attributes (AttributesRead d c)) :
    Gives (ArgumentGiven d) (argument d attributes) := by
  refine fun c hc => answers_attempt ?_
  refine answers_bind (answers_trivia hc fun leading c1 hc1 hs1 h1 _ hleading _ => ?_)
  have hon1 := onward_of_ahead_eq hc1 h1
  refine answers_annotation (hattributes c1 hc1 hs1) fun extAttrs after c2 h2 hannotated => ?_
  have hbehind : ∀ c', Onward c2 c' → 0 < c'.ahead.length →
      d.Keeps leading ∧ Annotated d extAttrs after := fun c' h hpos =>
    ⟨hleading (Nat.lt_of_lt_of_le hpos (h2.trans h).length_le),
      hannotated (Nat.lt_of_lt_of_le hpos h.length_le)⟩
  have hsome : ∀ c', Onward c2 c' → ∀ a c'', Onward c' c'' → ArgumentGiven d a c'' →
      (∀ b, some a = some b → Onward c c'' ∧ ∀ b' ∈ some b, ArgumentGiven d b' c'') ∧
        (some a = none → Onward c c ∧ ∀ b' ∈ (none : Option Argument), ArgumentGiven d b' c) := by
    refine fun c' h' a c'' h'' ha => ⟨?_, by simp⟩
    rintro _ ⟨⟩
    exact ⟨((hon1.trans h2).trans h').trans h'', by rintro _ ⟨⟩; exact ha⟩
  have hnone : ∀ c' : Cursor,
      (∀ b, none = some b → Onward c c' ∧ ∀ b' ∈ some b, ArgumentGiven d b' c') ∧
        ((none : Option Argument) = none →
          Onward c c ∧ ∀ b' ∈ (none : Option Argument), ArgumentGiven d b' c) :=
    fun _ => ⟨by simp, fun _ => ⟨hc.onward, by simp⟩⟩
  refine answers_bind (answers_keyword h2.cut (fun c3 hc3 h3 => ?_) fun c3 hc3 _ h3 hoptional => ?_)
  · refine answers_bind (answers_idlType hc3 (fun type c4 h4 => ?_) fun c4 _ _ =>
      answers_pure (hnone c4))
    have hon4 := (onward_of_ahead_cons hc3 h3).trans h4.onward
    refine answers_bind (answers_pure ?_)
    exact answers_argumentRest h4.cut (fun hpos => (hbehind c4 hon4 hpos).1)
      (fun hpos => (hbehind c4 hon4 hpos).2) h4.wellFormed
      (fun name rest hname _ => h4.apart_of_ahead hname) (by simp) (fun _ => rfl)
      (hsome c4 hon4) hnone
  · refine answers_bind (answers_idlType hc3 (fun type c4 h4 => ?_) fun c4 _ _ =>
      answers_pure (hnone c4))
    have hon4 := (onward_of_ahead_eq hc3 h3).trans h4.onward
    have hnot : ¬Begins ["optional"] (ofType type) := fun hbegins => by
      have hprefix := h4.begins hbegins
      rw [h3] at hprefix
      obtain ⟨rest, hrest⟩ := hprefix
      exact hoptional (by rw [← hrest]; rfl)
    refine answers_bind (answers_ellipsis h4.cut (fun c5 h5 => ?_) fun c5 hc5 h5 => ?_)
    · have hon5 := hon4.trans h5
      exact answers_argumentRest h5.cut (fun hpos => (hbehind c5 hon5 hpos).1)
        (fun hpos => (hbehind c5 hon5 hpos).2) h4.wellFormed (by simp) (fun _ => hnot) (by simp)
        (hsome c5 hon5) hnone
    · have hon5 := hon4.trans (onward_of_ahead_eq hc5 h5)
      exact answers_argumentRest hc5 (fun hpos => (hbehind c5 hon5 hpos).1)
        (fun hpos => (hbehind c5 hon5 hpos).2) h4.wellFormed
        (fun name rest hname _ => h4.apart_of_ahead (h5 ▸ hname)) (fun _ => hnot) (by simp)
        (hsome c5 hon5) hnone

theorem gives_expect {α : Type} {R : α → Cursor → Prop} {p : Reader (Option α)} {reason : Reason}
    (hp : Gives R p) (hc : Cut c) :
    Answers c (expect reason p) fun a c' => Onward c c' ∧ R a c' :=
  answers_expect ((hp c hc).mono fun _ _ h a ha => ⟨h.1, h.2 a ha⟩)

theorem gives_argumentsWith {argument : Reader (Option Argument)}
    (hargument : Gives (ArgumentGiven d) argument) :
    Gives (fun as c' => ∀ a ∈ as, ArgumentGiven d a c') (argumentsWith argument) :=
  gives_commaSeparated (fun _ _ _ h hon => h.mono hon) hargument
    fun _ hc => gives_expect hargument hc

theorem gives_typePair :
    Gives (fun p _ => p.1.WellFormed ∧ p.2.WellFormed) typePair := by
  refine fun c hc => answers_attempt ?_
  refine answers_bind (answers_idlType hc (fun key c1 h1 => ?_) fun c1 _ _ =>
    answers_pure ⟨by simp, fun _ => ⟨hc.onward, by simp⟩⟩)
  refine answers_bind (answers_symbol h1.cut (fun c2 hc2 h2 => ?_) fun c2 _ _ _ _ =>
    answers_pure ⟨by simp, fun _ => ⟨hc.onward, by simp⟩⟩)
  refine answers_bind (answers_idlType hc2 (fun value c3 h3 => ?_) fun c3 _ _ =>
    answers_pure ⟨by simp, fun _ => ⟨hc.onward, by simp⟩⟩)
  refine answers_pure ⟨?_, by simp⟩
  rintro _ ⟨⟩
  refine ⟨(h1.onward.trans (onward_of_ahead_cons hc2 h2)).trans h3.onward, ?_⟩
  rintro _ ⟨⟩
  exact ⟨h1.wellFormed, h3.wellFormed⟩

theorem answers_attributeParameters {argument : Reader (Option Argument)}
    (hargument : Gives (ArgumentGiven d) argument) (hc : Cut c) :
    Answers c (attributeParameters argument) fun p c' => Onward c c' ∧ p.WellFormed d := by
  refine answers_bind (answers_symbol hc (fun c1 hc1 h1 => ?_) fun c1 hc1 _ h1 _ =>
    answers_pure ⟨onward_of_ahead_eq hc1 h1, .absent⟩)
  have hgives : Gives (fun (p : AttributeParameters) c' => 0 < c'.ahead.length → p.WellFormed d)
      (firstOf [mapped .arguments (argumentsWith argument),
        mapped (fun pair => .typePair pair.1 pair.2) typePair]) := by
    refine gives_firstOf ?_
    simp only [List.forall_mem_cons, List.not_mem_nil, false_implies, implies_true, and_true]
    refine ⟨fun c hc => answers_mapped ((gives_argumentsWith hargument c hc).mono ?_),
      fun c hc => answers_mapped ((gives_typePair c hc).mono ?_)⟩
    · rintro (_ | as) c' ⟨hon, has⟩
      · exact ⟨hon, by simp⟩
      · refine ⟨hon, ?_⟩
        rintro _ ⟨⟩ hpos
        exact .arguments fun a ha => has as rfl a ha hpos
    · rintro (_ | ⟨key, value⟩) c' ⟨hon, hpair⟩
      · exact ⟨hon, by simp⟩
      · refine ⟨hon, ?_⟩
        rintro _ ⟨⟩ -
        exact .typePair (hpair _ rfl).1 (hpair _ rfl).2
  refine answers_bind ((hgives c1 hc1).mono fun o c2 h2 => answers_bind ?_)
  refine answers_expectSymbol h2.1.cut fun c3 hc3 h3 => answers_pure ⟨?_, ?_⟩
  · exact ((onward_of_ahead_cons hc1 h1).trans h2.1).trans (onward_of_ahead_cons hc3 h3)
  · cases o with
    | none => exact .arguments (by simp)
    | some p => exact h2.2 p rfl (by rw [h3]; exact Nat.succ_pos _)

theorem answers_moreNames (hc : Cut c) :
    Answers c moreNames fun ns c' => Onward c c' ∧ ∀ n ∈ ns, IsName n :=
  answers_afterCommas (R := fun n _ => IsName n) (fun _ _ _ h _ => h)
    (fun _ hc => answers_expectIdentifier hc fun _ _ hc' hs h => ⟨onward_of_ahead_cons hc' h, hs⟩) hc

theorem answers_nameList (hc : Cut c) :
    Answers c nameList fun ns c' => Onward c c' ∧ ∀ n ∈ ns, IsName n := by
  have hmore : ∀ (first : Option String) (c1 : Cursor), Onward c c1 → (∀ n ∈ first, IsName n) →
      Answers c1 (do return first.toList ++ (← moreNames)) fun ns c' =>
        Onward c c' ∧ ∀ n ∈ ns, IsName n := by
    intro first c1 h1 hfirst
    refine answers_bind ((answers_moreNames h1.cut).mono fun ns c2 h2 => answers_pure ?_)
    refine ⟨h1.trans h2.1, fun n hn => ?_⟩
    rcases List.mem_append.mp hn with hn | hn
    · exact hfirst n (by simpa using hn)
    · exact h2.2 n hn
  refine answers_bind (answers_identifier hc (fun name c1 hc1 hname h1 => ?_) fun c1 hc1 _ h1 => ?_)
  · exact hmore (some name) c1 (onward_of_ahead_cons hc1 h1) (by simpa using hname)
  · exact hmore none c1 (onward_of_ahead_eq hc1 h1) (by simp)

theorem answers_attributeValue (hc : Cut c) :
    Answers c attributeValue fun v c' => Onward c c' ∧ v.WellFormed := by
  refine answers_bind (answers_symbol hc (fun c1 hc1 h1 => ?_) fun c1 hc1 _ h1 _ =>
    answers_pure ⟨onward_of_ahead_eq hc1 h1, trivial⟩)
  have hon1 := onward_of_ahead_cons hc1 h1
  refine answers_bind (answers_identifier hc1 (fun name c2 hc2 hname h2 => ?_)
    fun c2 hc2 _ h2 => ?_)
  · exact answers_pure ⟨hon1.trans (onward_of_ahead_cons hc2 h2), hname⟩
  · refine answers_bind (answers_symbol hc2 (fun c3 hc3 h3 => ?_) fun _ _ _ _ _ => answers_fail)
    refine answers_bind ((answers_nameList hc3).mono fun ns c4 h4 => answers_bind ?_)
    refine answers_expectSymbol h4.1.cut fun c5 hc5 h5 => answers_pure ⟨?_, h4.2⟩
    have hon3 := (hon1.trans (onward_of_ahead_eq hc2 h2)).trans (onward_of_ahead_cons hc3 h3)
    exact (hon3.trans h4.1).trans (onward_of_ahead_cons hc5 h5)

theorem gives_extendedAttribute {argument : Reader (Option Argument)}
    (hargument : Gives (ArgumentGiven d) argument) :
    Gives (fun e _ => e.WellFormed d) (extendedAttribute argument) := by
  refine fun c hc => answers_bind (answers_identifier hc (fun name c1 hc1 hname h1 => ?_)
    fun c1 hc1 _ h1 => answers_pure ⟨onward_of_ahead_eq hc1 h1, by simp⟩)
  refine answers_bind ((answers_attributeValue hc1).mono fun value c2 h2 => answers_bind ?_)
  refine (answers_attributeParameters hargument h2.1.cut).mono fun parameters c3 h3 => ?_
  refine answers_pure ⟨((onward_of_ahead_cons hc1 h1).trans h2.1).trans h3.1, ?_⟩
  rintro _ ⟨⟩
  exact .intro hname h2.2 h3.2

theorem answers_extendedAttributesWith {argument : Reader (Option Argument)}
    (hargument : Gives (ArgumentGiven d) argument) (hc : Cut c) :
    Answers c (extendedAttributesWith argument) (AttributesRead d c) := by
  refine answers_bind (answers_symbol hc (fun c1 hc1 h1 => ?_) fun c1 hc1 hs h1 _ =>
    answers_pure ⟨onward_of_ahead_eq hc1 h1, by simp, fun _ => hs⟩)
  have hattribute : ∀ (reason : Reason) (c : Cursor), Cut c →
      Answers c (expect reason (extendedAttribute argument)) fun e c' =>
        Onward c c' ∧ e.WellFormed d :=
    fun _ _ hc => gives_expect (gives_extendedAttribute hargument) hc
  refine answers_bind ((hattribute _ c1 hc1).mono fun e c2 h2 => answers_bind ?_)
  refine (answers_afterCommas (R := fun e _ => e.WellFormed d) (fun _ _ _ h _ => h)
    (hattribute _) h2.1.cut).mono fun es c3 h3 => answers_bind ?_
  refine answers_expectSymbol h3.1.cut fun c4 hc4 h4 => answers_pure ⟨?_, ?_, by simp⟩
  · exact (((onward_of_ahead_cons hc1 h1).trans h2.1).trans h3.1).trans
      (onward_of_ahead_cons hc4 h4)
  · simpa using ⟨h2.2, h3.2⟩

/-- No depth is too great, since the attributes of an argument are looked for behind its trivia. -/
theorem answers_extendedAttributesWithin (n : Nat) :
    ∀ c, Cut c → Settled c → Answers c (extendedAttributesWithin d n) (AttributesRead d c) := by
  induction n with
  | zero => exact fun c hc hs => answers_pure ⟨hc.onward, by simp, fun _ => hs⟩
  | succ n ih => exact fun c hc _ => answers_extendedAttributesWith (gives_argument ih) hc

theorem answers_extendedAttributes (hc : Cut c) :
    Answers c (extendedAttributes d) (AttributesRead d c) := by
  refine answers_bind (answers_get ?_)
  exact answers_extendedAttributesWith (gives_argument (answers_extendedAttributesWithin _)) hc

theorem answers_argumentList (hc : Cut c) :
    Answers c (argumentList d) fun as c' =>
      Onward c c' ∧ (0 < c'.ahead.length → ∀ a ∈ as, a.WellFormed d) := by
  have hargument := gives_argument (d := d) fun c hc _ => answers_extendedAttributes hc
  refine answers_bind ((gives_argumentsWith hargument c hc).mono ?_)
  rintro (_ | as) c' ⟨hon, has⟩
  · exact answers_pure ⟨hon, by simp⟩
  · exact answers_pure ⟨hon, fun hpos a ha => has as rfl a ha hpos⟩

end WebIdl.Grammar
