import WebIdl.Proofs.Reading.Programs
import WebIdl.Proofs.Writing.Phrases

/-!
# How written statements are cut

Members and definitions end with a semicolon, so that they are cut in front of anything.
-/

namespace WebIdl.Spelling

open Token Lexer Grammar

variable {ts : List Token} {d : Dialect}

theorem lexable_end (h : Lexable ts) : Lexable (mark ";" :: ts) ∧ Clear (mark ";" :: ts) :=
  ⟨h.punctuation (by decide), clear_mark (by decide) _⟩

/-- A keyword and what stands behind it. -/
theorem lexable_keyword {w : String} (hw : IsName w) (h : Lexable ts) (hts : Firm ts) :
    Lexable (word w :: space :: ts) :=
  (h.space hts).word hw (clear_space _)

theorem lexable_ofTypedef {t : Typedef} (ht : t.WellFormed d) (h : Lexable ts) :
    Lexable (ofTypedef t ++ ts) := by
  obtain ⟨hend, hclear⟩ := lexable_end h
  have hnamed := lexable_named ht.type ht.name hend hclear
  obtain ⟨hlex, hfirm⟩ :=
    lexable_annotated ht.annotated hnamed ((opens_ofType t.type).append _)
  simp only [ofTypedef, List.cons_append, List.append_assoc, List.nil_append]
  exact lexable_keyword (by decide) hlex hfirm

theorem lexable_ofConst {c : Const} (hc : c.WellFormed) (h : Lexable ts) :
    Lexable (ofConst c ++ ts) := by
  obtain ⟨hend, -⟩ := lexable_end h
  have hstops := (punctuated_mark (m := ";") (by decide) ts).stops
  have hvalue := lexable_ofDefault (o := some c.value) (by simpa using hc.value) hend hstops
  have hname := hvalue.word hc.name (clear_space _)
  have hspace := hname.space (firm_word hc.name _)
  have htype : Lexable (ofType c.type ++
      (space :: word c.name :: (ofDefault (some c.value) ++ mark ";" :: ts))) := by
    obtain ⟨type, name, value⟩ := c
    cases hc.type with
    | primitive p nullable => exact lexable_ofType (.primitive p _) hspace (clear_space _)
    | named nullable htype =>
      exact (lexable_ofSuffix _ hspace).word htype.toIsName (clear_ofSuffix _ (clear_space _))
  have hkeyword := lexable_keyword (w := "const") (by decide) htype
    (htype.firm ((opens_ofType c.type).append _))
  simpa only [ofConst, List.cons_append, List.append_assoc, List.nil_append] using hkeyword

theorem lexable_ofField {f : Field} (htype : f.type.WellFormed) (hname : IsName f.name)
    (hdefault : ∀ l ∈ f.default, l.WellFormed) (h : Lexable ts) :
    Lexable (ofField f ++ ts) := by
  obtain ⟨hend, hclear⟩ := lexable_end h
  have hstops := (punctuated_mark (m := ";") (by decide) ts).stops
  have hvalue := lexable_ofDefault hdefault hend hstops
  have hnamed := lexable_named htype hname hvalue (clear_ofDefault _ hclear)
  have hrequired := lexable_wordIf (w := "required") f.required (by decide) hnamed
    ((opens_ofType f.type).append _)
  simpa only [ofField, List.cons_append, List.append_assoc, List.nil_append] using hrequired

theorem lexable_ofAttributeMember {a : Attribute} (ha : a.WellFormed) (h : Lexable ts) :
    Lexable (ofAttributeMember a ++ ts) := by
  obtain ⟨hend, hclear⟩ := lexable_end h
  have hnamed := lexable_named ha.type ha.name hend hclear
  have hattribute := lexable_keyword (w := "attribute") (by decide) hnamed
    (hnamed.firm ((opens_ofType a.type).append _))
  have hopens := Opens.word "attribute" (space :: (ofType a.type ++ space :: word a.name ::
    mark ";" :: ts))
  have hreadonly := lexable_wordIf (w := "readonly") a.readonly (by decide) hattribute hopens
  have hopens := hopens.wordIf a.readonly "readonly"
  have hinherit := lexable_wordIf (w := "inherit") a.inherits (by decide) hreadonly hopens
  have hopens := hopens.wordIf a.inherits "inherit"
  have hstringifier := lexable_wordIf (w := "stringifier") a.stringifier (by decide) hinherit hopens
  have hopens := hopens.wordIf a.stringifier "stringifier"
  have hstatic := lexable_wordIf (w := "static") a.isStatic (by decide) hstringifier hopens
  simpa only [ofAttributeMember, List.cons_append, List.append_assoc, List.nil_append] using hstatic

theorem lexable_call {args : List Argument} (hargs : ∀ a ∈ args, a.WellFormed d) (h : Lexable ts) :
    Lexable (call args ts) :=
  (lexable_arguments hargs ((lexable_end h).1.punctuation (by decide))
    (punctuated_mark (by decide) _)).punctuation (by decide)

theorem lexable_signature {type : IdlType} {name : Option String} {args : List Argument}
    (hs : Signature d type name args) (h : Lexable ts) :
    Lexable (signature type name args ++ ts) := by
  rw [signature_append]
  have hcall := lexable_call hs.arguments h
  cases name with
  | none => exact lexable_ofType hs.type hcall (clear_mark (by decide) _)
  | some n => exact lexable_named hs.type (hs.name n rfl).1 hcall (clear_mark (by decide) _)

theorem opens_signature (type : IdlType) (name : Option String) (args : List Argument)
    (ts : List Token) : Opens (signature type name args ++ ts) := by
  rw [signature_append]
  exact (opens_ofType type).append _

theorem lexable_ofOperation {o : Operation} (ho : o.WellFormed d) (h : Lexable ts) :
    Lexable (ofOperation o ++ ts) := by
  have hmarked : ∀ {marks : List Special} {us : List Token}, Lexable us → Opens us →
      Lexable (marksOf marks ++ us) := by
    intro marks us hus hopens
    refine (lexable_flatMap (C := Opens) (fun s _ vs hvs hopens => ⟨?_, ?_⟩) hus hopens).1
    · exact lexable_keyword (by cases s <;> decide) hvs (hvs.firm hopens)
    · exact .word s.keyword _
  cases ho with
  | bare => exact (lexable_end h).1.word (by decide) (lexable_end h).2
  | @marked marks type name args _ hs =>
    have hrest := @hmarked marks.toList _ (lexable_signature hs h)
      (opens_signature type name args ts)
    simpa [ofOperation, wordIf, marksOf] using hrest
  | @static type name args hs =>
    have hrest := lexable_wordIf (w := "static") true (by decide) (lexable_signature hs h)
      (opens_signature type name args ts)
    simpa [ofOperation, wordIf, Specials.toList, Special.all, Specials.contains] using hrest
  | @stringifier type name args hs =>
    have hrest := lexable_wordIf (w := "stringifier") true (by decide) (lexable_signature hs h)
      (opens_signature type name args ts)
    simpa [ofOperation, wordIf, Specials.toList, Special.all, Specials.contains] using hrest
  | @plain type name args hs =>
    have hrest := lexable_signature hs h
    simpa [ofOperation, wordIf, Specials.toList, Special.all, Specials.contains] using hrest

theorem lexable_ofIterator {i : IteratorMember} (hi : i.WellFormed d) (h : Lexable ts) :
    Lexable (ofIterator i ++ ts) := by
  obtain ⟨hend, hclear⟩ := lexable_end h
  have hobject : Lexable (objectBehind i.object ++ mark ";" :: ts) ∧
      Clear (objectBehind i.object ++ mark ";" :: ts) := by
    cases hcase : i.object with
    | absent => exact ⟨hend, hclear⟩
    | object =>
      exact ⟨(hend.word (by decide) hclear).space (firm_word (by decide) _), clear_space _⟩
    | named n =>
      have hname := hi.object n hcase
      have hspace := (hend.word hname hclear).space (firm_word hname _)
      have hequals := hspace.punctuation (m := "=") (by decide)
      exact ⟨hequals.space (firm_mark (by decide) _), clear_space _⟩
  rw [ofIterator_append]
  have hword := hobject.1.word (w := "iterator") (by decide) hobject.2
  exact lexable_ofType hi.type (hword.space (firm_word (by decide) _)) (clear_space _)

theorem lexable_nameList {ns : List String} (hns : ∀ n ∈ ns, IsName n) (h : Lexable ts)
    (hts : Clear ts) : Lexable (nameList ns ++ ts) := by
  refine lexable_joined (fun n hn us hus hclear => hus.word (hns n hn) hclear)
    (fun n hn us hus => ⟨?_, clear_mark (by decide) _⟩) h hts
  exact (hus.space (firm_word (hns n hn) us)).punctuation (by decide)

theorem lexable_ofSerializer {s : Serializer} (hs : s.WellFormed d) (h : Lexable ts) :
    Lexable (ofSerializer s ++ ts) := by
  obtain ⟨hend, hclear⟩ := lexable_end h
  have hassigned : ∀ {us : List Token}, Lexable us → Firm us →
      Lexable (word "serializer" :: space :: mark "=" :: space :: us) := by
    intro us hus hfirm
    have hequals := (hus.space hfirm).punctuation (m := "=") (by decide)
    exact lexable_keyword (by decide) hequals (firm_mark (by decide) _)
  have hpattern : ∀ {ns : List String} {m n : String}, (∀ n ∈ ns, IsName n) → m ∈ punctuation →
      n ∈ punctuation → Lexable (word "serializer" :: space :: mark "=" :: space :: mark m ::
        (nameList ns ++ mark n :: mark ";" :: ts)) := by
    intro ns m n hns hm hn
    have hnames := lexable_nameList hns (hend.punctuation hn) (clear_mark hn _)
    exact hassigned (hnames.punctuation hm) (firm_mark hm _)
  cases s with
  | bare => exact hend.word (by decide) hclear
  | named name =>
    have hname : IsName name := hs
    exact hassigned (hend.word hname hclear) (firm_word hname _)
  | patternMap names =>
    have hrest := hpattern (m := "\x7b") (n := "\x7d") (PatternNames.names hs) (by decide) (by decide)
    simpa [ofSerializer] using hrest
  | patternList names =>
    have hrest := hpattern (m := "[") (n := "]") (PatternNames.names hs) (by decide) (by decide)
    simpa [ofSerializer] using hrest
  | operation type name args =>
    have hsignature := lexable_signature hs h
    exact lexable_keyword (by decide) hsignature
      (hsignature.firm (opens_signature type name args ts))

theorem lexable_ofIterable {i : Iterable} (hi : i.WellFormed) (h : Lexable ts) :
    Lexable (ofIterable i ++ ts) := by
  have hclose := (lexable_end h).1.punctuation (m := ">") (by decide)
  have htypes := lexable_joined (s := [mark ",", space]) (f := ofType) (l := i.types)
    (fun t ht us hus hclear => lexable_ofType (hi.types t ht) hus hclear)
    (fun t _ us hus => ⟨?_, clear_mark (by decide) _⟩) hclose (clear_mark (by decide) _)
  · have hkeyword : IsName i.kind.keyword := by cases i.kind <;> decide
    have hrest := (htypes.punctuation (m := "<") (by decide)).word hkeyword
      (clear_mark (by decide) _)
    have hreadonly := lexable_wordIf (w := "readonly") i.readonly (by decide) hrest
      (.word i.kind.keyword _)
    simpa only [ofIterable, List.cons_append, List.append_assoc, List.nil_append] using hreadonly
  · exact (hus.space (hus.firm ((opens_ofType t).append us))).punctuation (by decide)

theorem lexable_inInterface {k : MemberKind} (hk : k.InInterface d) (h : Lexable ts) :
    Lexable (ofMemberKind k ++ ts) := by
  cases k with
  | const c => exact lexable_ofConst hk h
  | field f => exact hk.elim
  | «attribute» a => exact lexable_ofAttributeMember hk h
  | operation o => exact lexable_ofOperation hk h
  | iterator i => exact lexable_ofIterator hk h
  | serializer s => exact lexable_ofSerializer hk h
  | iterable i => exact lexable_ofIterable hk h
  | typedef t => exact lexable_ofTypedef hk.2 h

theorem lexable_inDictionary {k : MemberKind} (hk : k.InDictionary) (h : Lexable ts) :
    Lexable (ofMemberKind k ++ ts) := by
  cases k with
  | field f => exact lexable_ofField (Field.WellFormed.type hk) hk.name hk.default h
  | _ => exact hk.elim

theorem lexable_inException {k : MemberKind} (hk : k.InException) (h : Lexable ts) :
    Lexable (ofMemberKind k ++ ts) := by
  cases k with
  | const c => exact lexable_ofConst hk h
  | field f =>
    have hf : f.IsPlain := hk
    exact lexable_ofField hf.type hf.name (by simp [hf.noDefault]) h
  | _ => exact hk.elim

section Bodies

variable {P : MemberKind → Prop}
  (hP : ∀ k, P k → ∀ us, Lexable us → Lexable (ofMemberKind k ++ us))
include hP

theorem lexable_memberBody {m : Member} (hm : m.WellFormed d P) (h : Lexable ts) :
    Lexable (memberBody m ++ ts) ∧ Firm (memberBody m ++ ts) := by
  have hkind := hP m.kind hm.kind ts h
  rw [memberBody, List.append_assoc]
  exact lexable_annotated hm.annotated hkind ((opens_ofMemberKind m.kind).append ts)

theorem lexable_members {ms : List Member} (hms : ∀ m ∈ ms, m.WellFormed d P) (h : Lexable ts) :
    Lexable (members ms ++ ts) := by
  refine (lexable_flatMap (C := fun _ => True) (fun m hm us hus _ => ⟨?_, trivial⟩) h trivial).1
  obtain ⟨hbody, hfirm⟩ := lexable_memberBody hP (hms m hm) hus
  have hlead := (hms m hm).leading.settled
  rw [ofMember_eq, List.append_assoc]
  exact hbody.trivia hlead.1 (Or.inl hlead.2) hfirm

end Bodies

theorem lexable_ofEnumValue {v : EnumValue} (hv : v.WellFormed d) (h : Lexable ts)
    (hts : Firm ts) : Lexable (ofEnumValue v ++ ts) := by
  have htrailing := h.trivia hv.trailing.settled.1 (Or.inl hv.trailing.settled.2) hts
  have hquoted := htrailing.quoted hv.value
  rw [ofEnumValue, List.append_assoc]
  exact hquoted.trivia hv.leading.settled.1 (Or.inl hv.leading.settled.2) (firm_quoted _ _)

theorem lexable_ofEnumValues {comma : Bool} {values : List EnumValue}
    (hvalues : ∀ v ∈ values, v.WellFormed d) (h : Lexable ts)
    (hts : values ≠ [] → comma = false → Firm ts) :
    Lexable (ofEnumValues comma values ++ ts) := by
  induction values with
  | nil => exact h
  | cons v values ih =>
    have hv := hvalues v List.mem_cons_self
    cases values with
    | nil =>
      rw [ofEnumValues, List.append_assoc]
      cases comma with
      | true => exact lexable_ofEnumValue hv (h.punctuation (by decide)) (firm_mark (by decide) _)
      | false => exact lexable_ofEnumValue hv h (hts (List.cons_ne_nil v []) rfl)
    | cons w rest =>
      rw [ofEnumValues, List.append_assoc]
      have hrest := ih (fun x hx => hvalues x (List.mem_cons_of_mem v hx))
        fun _ hcomma => hts (List.cons_ne_nil v _) hcomma
      exact lexable_ofEnumValue hv (hrest.punctuation (by decide)) (firm_mark (by decide) _)

/-- The closing brace of a body and the trivia in front of it. -/
theorem lexable_closing {items : List Trivia} (hitems : d.Keeps items) (h : Lexable ts) :
    Lexable (trivia items ++ mark "\x7d" :: mark ";" :: ts) := by
  have hbrace := (lexable_end h).1.punctuation (m := "\x7d") (by decide)
  exact hbrace.trivia hitems.settled.1 (Or.inl hitems.settled.2) (firm_mark (by decide) _)

/-- A header in front of a body. -/
theorem lexable_header {keywords : List String} {name : String} {isPartial : Bool}
    {inheritance : Option String} {es : List Token} {items : List Trivia}
    (hkeywords : ∀ w ∈ keywords, IsName w) (hne : keywords ≠ []) (hname : IsName name)
    (hbase : ∀ b ∈ inheritance, IsName b)
    (h : Lexable (es ++ (trivia items ++ mark "\x7d" :: mark ";" :: ts))) :
    Lexable (header keywords name isPartial inheritance ++ block es items ++ ts) := by
  have hbrace := (h.punctuation (m := "\x7b") (by decide)).space (firm_mark (by decide) _)
  have hbehind : Lexable (baseBehind inheritance ++ braced es items ts) ∧
      Clear (baseBehind inheritance ++ braced es items ts) := by
    cases inheritance with
    | none => exact ⟨hbrace, clear_space _⟩
    | some base =>
      have hword := hbase base rfl
      have hspace := (hbrace.word hword (clear_space _)).space (firm_word hword _)
      have hcolon := hspace.punctuation (m := ":") (by decide)
      exact ⟨hcolon.space (firm_mark (by decide) _), clear_space _⟩
  have hnamed := (hbehind.1.word hname hbehind.2).space (firm_word hname _)
  have hwords := lexable_joined (s := [space]) (f := fun w => [word w]) (l := keywords)
    (fun w hw us hus hclear => hus.word (hkeywords w hw) hclear)
    (fun w hw us hus => ⟨hus.space (firm_word (hkeywords w hw) us), clear_space _⟩)
    hnamed (clear_space _)
  obtain ⟨w, ws, rfl⟩ := List.exists_cons_of_ne_nil hne
  rw [header_block_append]
  exact lexable_wordIf isPartial (by decide) hwords (opens_words.append _)

theorem lexable_ofInterface {keywords : List String} {i : Interface}
    (hkeywords : ∀ w ∈ keywords, IsName w) (hne : keywords ≠ []) (hi : i.WellFormed d)
    (h : Lexable ts) : Lexable (ofInterface keywords i ++ ts) :=
  lexable_header hkeywords hne hi.headed.name hi.headed.base
    (lexable_members (fun _ hk _ hus => lexable_inInterface hk hus) hi.body.members
      (lexable_closing hi.body.closing h))

theorem lexable_ofDefinitionKind {k : DefinitionKind} (hk : k.WellFormed d) (h : Lexable ts) :
    Lexable (ofDefinitionKind k ++ ts) := by
  cases k with
  | interface i => exact lexable_ofInterface (by decide) (by decide) hk h
  | «class» i => exact lexable_ofInterface (by decide) (by decide) hk.2 h
  | callbackInterface i => exact lexable_ofInterface (by decide) (by decide) hk.2 h
  | callback x =>
    have hx : x.WellFormed d := hk
    have hsignature := lexable_signature hx.signature h
    have hassigned := (hsignature.space (hsignature.firm (opens_signature _ _ _ _))).punctuation
      (m := "=") (by decide)
    have hname := (hassigned.space (firm_mark (by decide) _)).word hx.name (clear_space _)
    exact lexable_keyword (by decide) hname (firm_word hx.name _)
  | dictionary b =>
    have hb : b.WellFormed d := hk
    exact lexable_header (by decide) (by decide) hb.headed.name hb.headed.base
      (lexable_members (fun _ hk _ hus => lexable_inDictionary hk hus) hb.body.members
        (lexable_closing hb.body.closing h))
  | exception e =>
    have he : e.WellFormed d := hk
    exact lexable_header (by decide) (by decide) he.headed.name he.headed.base
      (lexable_members (fun _ hk _ hus => lexable_inException hk hus) he.body.members
        (lexable_closing he.body.closing h))
  | enum e =>
    have he : e.WellFormed d := hk
    refine lexable_header (by decide) (by decide) he.name (by simp) ?_
    refine lexable_ofEnumValues he.values (lexable_closing he.closing h) fun hne hcomma => ?_
    rw [he.noComma hne hcomma]
    exact firm_mark (by decide) _
  | typedef t => exact lexable_ofTypedef hk h
  | implements i =>
    have hi : i.WellFormed d := hk
    obtain ⟨hend, hclear⟩ := lexable_end h
    have hmixin := hend.word hi.mixin hclear
    have hkeyword := lexable_keyword (w := "implements") (by decide) hmixin
      (firm_word hi.mixin _)
    exact lexable_keyword hi.target hkeyword (firm_word (by decide) _)

theorem closed_brokenLine {items : List Trivia} (h : Trivia.Closed items) :
    Trivia.Closed (brokenLine items) := by
  cases items with
  | nil => trivial
  | cons t items => exact h

section Entries

variable {f g : List Trivia → List Trivia}

/-- Definitions are settled behind any trivia that is settled because theirs is. -/
theorem settled_of_mem_cons
    (hf : ∀ items, Trivia.IsRun items ∧ Trivia.Closed items →
      Trivia.IsRun (f items) ∧ Trivia.Closed (f items))
    (hg : ∀ items, Trivia.IsRun items ∧ Trivia.Closed items →
      Trivia.IsRun (g items) ∧ Trivia.Closed (g items))
    {x : Definition} {xs : List Definition} (hxs : ∀ y ∈ x :: xs, y.WellFormed d)
    {e : List Trivia × Definition}
    (he : e ∈ (f x.leading, x) :: xs.map fun y => (g y.leading, y)) :
    (Trivia.IsRun e.1 ∧ Trivia.Closed e.1) ∧ e.2.WellFormed d := by
  obtain ⟨hx, hxs⟩ := List.forall_mem_cons.mp hxs
  rcases List.mem_cons.mp he with rfl | he
  · exact ⟨hf _ hx.leading.settled, hx⟩
  · obtain ⟨y, hy, rfl⟩ := List.mem_map.mp he
    exact ⟨hg _ (hxs y hy).leading.settled, hxs y hy⟩

theorem settled_of_mem_entries {xs : List Definition} (hxs : ∀ x ∈ xs, x.WellFormed d)
    {e : List Trivia × Definition} (he : e ∈ entries xs) :
    (Trivia.IsRun e.1 ∧ Trivia.Closed e.1) ∧ e.2.WellFormed d := by
  cases xs with
  | nil => cases he
  | cons x xs =>
    exact settled_of_mem_cons (f := id) (fun _ h => h)
      (fun _ h => ⟨isRun_brokenLine h.1, closed_brokenLine h.2⟩) hxs he

/-- Definitions behind settled trivia are cut one by one, whatever each is written with. -/
theorem lexable_entries {f : DefinitionKind → List Token} {l : List (List Trivia × Definition)}
    {trailing : List Trivia} (hf : ∀ k, k.WellFormed d →
      Opens (f k) ∧ ∀ us, Lexable us → Lexable (f k ++ us))
    (hl : ∀ e ∈ l, (Trivia.IsRun e.1 ∧ Trivia.Closed e.1) ∧ e.2.WellFormed d)
    (htrailing : Trivia.IsRun trailing) :
    Lexable (l.flatMap (fun e => trivia e.1 ++
      (bracketed (ofAttributes e.2.extAttrs) e.2.afterAttrs ++ f e.2.kind)) ++
        trivia trailing) := by
  have hend : Lexable (trivia trailing ++ []) :=
    lexable_nil.trivia htrailing (Or.inr rfl) ⟨by simp, by simp⟩
  rw [List.append_nil] at hend
  refine (lexable_flatMap (C := fun _ => True) (fun e he us hus _ => ⟨?_, trivial⟩) hend trivial).1
  obtain ⟨hitems, hx⟩ := hl e he
  obtain ⟨hopens, hkind⟩ := hf e.2.kind hx.kind
  obtain ⟨hbody, hfirm⟩ := lexable_annotated hx.annotated (hkind us hus) (hopens.append us)
  rw [List.append_assoc, List.append_assoc]
  exact hbody.trivia hitems.1 (Or.inl hitems.2) hfirm

/-- The text of a program is cut into the tokens that it is written with. -/
theorem lexable_program {xs : List Definition} {trailing : List Trivia}
    (hxs : ∀ x ∈ xs, x.WellFormed d) (htrailing : Trivia.IsRun trailing) :
    Lexable ((entries xs).flatMap entryTokens ++ trivia trailing) :=
  lexable_entries (fun k hk => ⟨opens_ofDefinitionKind k, fun _ h => lexable_ofDefinitionKind hk h⟩)
    (fun _ he => settled_of_mem_entries hxs he) htrailing

end Entries

end WebIdl.Spelling
