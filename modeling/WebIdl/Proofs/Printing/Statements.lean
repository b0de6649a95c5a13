import WebIdl.Proofs.Printing.Shapes

/-!
# Written statements are balanced

A member and a definition end with a semicolon. In front of it no semicolon stands outside of
brackets, and neither does a brace in a definition without a body. So this is where the printer cuts.
-/

namespace WebIdl

open Token Text Lexer Grammar

namespace Token

variable {b : Bool} {W : List Char} {t : Token} {ts us : List Token}

theorem Tame.bare (h : Tame t) (hsolid : t.isWhitespace = false) (cs : List Char) :
    Layout.Bare (t.chars ++ cs) := by
  cases h with
  | solid _ _ hne ht =>
    obtain ⟨c, tail, hchars⟩ := List.exists_cons_of_ne_nil hne
    obtain ⟨hwhite, hslash⟩ := ht c (by simp [hchars])
    rw [hchars]
    exact ⟨begun_cons hwhite _, by simpa using hslash⟩
  | @quoted s hs =>
    have hchars : (Spelling.quoted s).chars = '"' :: (s.toList ++ ['"']) := by
      simp [chars, Spelling.quoted]
    rw [hchars]
    exact ⟨begun_cons rfl _, by simp⟩
  | trivia => cases hsolid

theorem Tame.ended (h : Tame t) (hsolid : t.isWhitespace = false) : Ended t.chars := by
  cases h with
  | solid _ _ hne ht => exact ended_of_forall hne fun c hc => (ht c hc).1
  | @quoted s hs =>
    have hchars : (Spelling.quoted s).chars = ('"' :: s.toList) ++ ['"'] := by
      simp [chars, Spelling.quoted]
    rw [hchars]
    exact ended_concat rfl _
  | trivia => cases hsolid

/-- A balanced list that starts with a word or a mark has neither white space nor a comment at its
start. -/
theorem Balanced.bare (h : Balanced b W ts) (hts : ∃ t ∈ ts.head?, t.isWhitespace = false)
    (cs : List Char) : Layout.Bare (sourceChars ts ++ cs) := by
  obtain ⟨t, ht, hsolid⟩ := hts
  obtain ⟨us, rfl⟩ := List.head?_eq_some_iff.mp ht
  rw [sourceChars_cons, List.append_assoc]
  exact (h.tame t List.mem_cons_self).bare hsolid _

theorem Balanced.ended (h : Balanced b W ts) (hts : Finished ts) : Ended (sourceChars ts) := by
  obtain ⟨t, ht, hsolid⟩ := hts
  obtain ⟨us, rfl⟩ := List.getLast?_eq_some_iff.mp ht
  rw [sourceChars_append, sourceChars_cons, sourceChars_nil, List.append_nil]
  exact ((h.tame t (by simp)).ended hsolid).append_left _

/-- The list ends with a semicolon, in front of which it is balanced. -/
def Stated (comments : Bool) (W : List Char) (ts : List Token) : Prop :=
  ∃ us, ts = us ++ [mark ";"] ∧ Balanced comments W us ∧ Finished us

theorem Stated.finished (h : Stated b W ts) : Finished ts := by
  obtain ⟨us, rfl, -⟩ := h
  exact finished_concat rfl us

theorem Clause.stated (h : Clause W ts) (hts : ∀ t ∈ ts, t.Fits b) : Stated b W ts := by
  obtain ⟨us, rfl, hus, hfinished⟩ := h
  exact ⟨us, rfl, hus.balanced (List.forall_mem_append.mp hts).1, hfinished⟩

end Token

namespace Spelling

variable {d : Dialect} {b : Bool}

theorem pieced_ofTypedef {t : Typedef} (ht : t.WellFormed d) :
    Pieced d.keepTrivia (ofTypedef t) := by
  simp [ofTypedef, pieced_annotated ht.annotated]

theorem pieced_signature {type : IdlType} {name : Option String} {args : List Argument}
    (hargs : ∀ a ∈ args, a.WellFormed d) : Pieced d.keepTrivia (signature type name args) := by
  have hlist := pieced_ofArguments fun a ha => pieced_ofArgument (hargs a ha)
  simp [signature, hlist]

theorem pieced_ofOperation {o : Operation} (ho : o.WellFormed d) :
    Pieced d.keepTrivia (ofOperation o) := by
  have hargs : ∀ a ∈ o.arguments, a.WellFormed d := by
    cases ho with
    | bare => simp
    | marked _ hs | static hs | stringifier hs | plain hs => exact hs.arguments
  rw [ofOperation]
  split
  · simp
  · simp [pieced_signature hargs]

@[simp] theorem pieced_ofIterator (i : IteratorMember) : Pieced b (ofIterator i) := by
  rw [ofIterator]
  cases i.object <;> simp

@[simp] theorem pieced_nameList (names : List String) : Pieced b (nameList names) :=
  pieced_joined (by simp) (by simp)

theorem pieced_ofSerializer {s : Serializer} (hs : s.WellFormed d) :
    Pieced d.keepTrivia (ofSerializer s) := by
  cases s with
  | operation type name args => simp [ofSerializer, pieced_signature (Signature.arguments hs)]
  | _ => simp [ofSerializer]

@[simp] theorem pieced_ofIterable (i : Iterable) : Pieced b (ofIterable i) := by
  have htypes : Pieced b (joined [mark ",", space] (i.types.map ofType)) :=
    pieced_joined (by simp) (by simp)
  simp [ofIterable, htypes]

theorem pieced_inInterface {k : MemberKind} (hk : k.InInterface d) :
    Pieced d.keepTrivia (ofMemberKind k) := by
  cases k with
  | operation o => exact pieced_ofOperation hk
  | serializer s => exact pieced_ofSerializer hk
  | typedef t => exact pieced_ofTypedef hk.2
  | iterator i => exact pieced_ofIterator i
  | iterable i => exact pieced_ofIterable i
  | const c => simp [ofMemberKind, ofConst]
  | «attribute» a => simp [ofMemberKind, ofAttributeMember]
  | field f => exact hk.elim

theorem pieced_inDictionary {k : MemberKind} (hk : k.InDictionary) : Pieced b (ofMemberKind k) := by
  cases k with
  | field f => simp [ofMemberKind, ofField]
  | _ => exact hk.elim

theorem pieced_inException {k : MemberKind} (hk : k.InException) : Pieced b (ofMemberKind k) := by
  cases k with
  | const c => simp [ofMemberKind, ofConst]
  | field f => simp [ofMemberKind, ofField]
  | _ => exact hk.elim

@[simp] theorem pieced_header (keywords : List String) (name : String) (isPartial : Bool)
    (inheritance : Option String) : Pieced b (header keywords name isPartial inheritance) := by
  simp [header]

theorem pieced_block {entries : List Token} {closing : List Trivia}
    (hentries : Pieced d.keepTrivia entries) (hclosing : d.Keeps closing) :
    Pieced d.keepTrivia (block entries closing) := by
  simp [block, hentries, pieced_trivia hclosing]

theorem pieced_body {P : MemberKind → Prop} {ms : List Member} {closing : List Trivia}
    (hP : ∀ k, P k → Pieced d.keepTrivia (ofMemberKind k)) (hbody : Body d P ms closing) :
    Pieced d.keepTrivia (block (members ms) closing) := by
  refine pieced_block (pieced_flatMap.mpr fun m hm => ?_) hbody.closing
  obtain ⟨hannotated, hleading, hkind⟩ := hbody.members m hm
  simp [ofMember, pieced_trivia hleading, pieced_annotated hannotated, hP m.kind hkind]

theorem pieced_ofEnumValues {comma : Bool} {values : List EnumValue}
    (hvalues : ∀ v ∈ values, v.WellFormed d) :
    Pieced d.keepTrivia (ofEnumValues comma values) := by
  rw [ofEnumValues_eq, pieced_flatMap]
  intro v hv
  have hmem : v.1 ∈ values := by
    rw [← map_fst_withCommas comma values]
    exact List.mem_map_of_mem hv
  have hcomma : Pieced d.keepTrivia (if v.2 then [mark ","] else []) := by
    split <;> simp
  simp [valueBody, pieced_trivia (hvalues _ hmem).leading, pieced_trivia (hvalues _ hmem).trailing,
    hcomma]

theorem pieced_ofInterface {keywords : List String} {i : Interface} (hi : i.WellFormed d) :
    Pieced d.keepTrivia (ofInterface keywords i) :=
  pieced_append.mpr ⟨pieced_header _ _ _ _, pieced_body (fun _ hk => pieced_inInterface hk) hi.body⟩

theorem pieced_ofDefinitionKind {k : DefinitionKind} (hk : k.WellFormed d) :
    Pieced d.keepTrivia (ofDefinitionKind k) := by
  cases k with
  | interface i => exact pieced_ofInterface hk
  | «class» i => exact pieced_ofInterface hk.2
  | callbackInterface i => exact pieced_ofInterface hk.2
  | dictionary x =>
    exact pieced_append.mpr ⟨pieced_header _ _ _ _,
      pieced_body (fun _ hk => pieced_inDictionary hk) (Dictionary.WellFormed.body hk)⟩
  | exception e =>
    exact pieced_append.mpr ⟨pieced_header _ _ _ _,
      pieced_body (fun _ hk => pieced_inException hk) (Exception.WellFormed.body hk)⟩
  | enum e =>
    exact pieced_append.mpr ⟨pieced_header _ _ _ _,
      pieced_block (pieced_ofEnumValues (Enum.WellFormed.values hk)) (Enum.WellFormed.closing hk)⟩
  | callback c =>
    have hsignature := Callback.WellFormed.signature hk
    simp [ofDefinitionKind, ofCallback, pieced_signature hsignature.arguments]
  | typedef t => exact pieced_ofTypedef hk
  | implements i => simp [ofDefinitionKind, ofImplements]

/-- All tokens that a well-formed definition is written with fit. -/
theorem fits_definitionBody {x : Definition} (hx : x.WellFormed d) :
    ∀ t ∈ definitionBody x, t.Fits d.keepTrivia := by
  have hkind := lexable_ofDefinitionKind hx.kind lexable_nil
  obtain ⟨hlex, -⟩ := lexable_annotated hx.annotated hkind
    ((opens_ofDefinitionKind x.kind).append [])
  rw [← List.append_assoc] at hlex
  exact hlex.fits (pieced_append.mpr
    ⟨pieced_annotated hx.annotated, pieced_ofDefinitionKind hx.kind⟩)

theorem stated_definitionBody {x : Definition} (hx : x.WellFormed d) :
    Stated d.keepTrivia [';'] (definitionBody x) :=
  (sentence_definitionBody x).clause.stated (fits_definitionBody hx)

theorem finished_header (keywords : List String) (name : String) (isPartial : Bool)
    (inheritance : Option String) : Finished (header keywords name isPartial inheritance) := by
  rw [header]
  cases inheritance with
  | none => exact Finished.append_left ⟨word name, rfl, rfl⟩ _
  | some base => exact Finished.append_left ⟨word base, rfl, rfl⟩ _

end Spelling

end WebIdl
