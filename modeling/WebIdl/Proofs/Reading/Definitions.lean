import WebIdl.Proofs.Reading.Bodies

/-!
# Reading written definitions and programs

Each kind of definition is told by its first word, and the productions tried before it leave the
text alone. A program is read definition by definition, whatever the tokens of each.
-/

namespace WebIdl.Spelling

open Token

/-- A base behind the name of a definition. -/
def baseBehind (inheritance : Option String) : List Token :=
  inheritance.toList.flatMap fun base => [space, mark ":", space, word base]

/-- A body from its brace on, blanks aside. -/
def braced (entries : List Token) (closing : List Trivia) (us : List Token) : List Token :=
  space :: mark "\x7b" :: (entries ++ (trivia closing ++ mark "\x7d" :: mark ";" :: us))

theorem header_block_append (keywords : List String) (name : String) (isPartial : Bool)
    (inheritance : Option String) (entries : List Token) (closing : List Trivia)
    (us : List Token) :
    header keywords name isPartial inheritance ++ block entries closing ++ us =
      wordIf isPartial "partial" ++ (words keywords ++ space :: word name ::
        (baseBehind inheritance ++ braced entries closing us)) := by
  simp [header, block, baseBehind, braced]

end WebIdl.Spelling

namespace WebIdl.Spelling

theorem map_fst_withCommas (comma : Bool) (values : List EnumValue) :
    (withCommas comma values).map Prod.fst = values := by
  induction values with
  | nil => rfl
  | cons v values ih =>
    cases values with
    | nil => rfl
    | cons w rest => rw [withCommas, List.map_cons, ih]

theorem getLast?_withCommas (comma : Bool) (values : List EnumValue) :
    ((withCommas comma values).getLast?.map Prod.snd).getD false =
      (comma && !values.isEmpty) := by
  induction values with
  | nil => simp [withCommas]
  | cons v values ih =>
    cases values with
    | nil => simp [withCommas]
    | cons w rest =>
      have hne : withCommas comma (w :: rest) ≠ [] := by cases rest <;> simp [withCommas]
      obtain ⟨x, xs, hxs⟩ := List.exists_cons_of_ne_nil hne
      rw [withCommas, hxs, List.getLast?_cons_cons, ← hxs, ih]
      rfl

/-- The comma behind the last value is told by the values. -/
theorem getLast?_withCommas_eq {comma : Bool} {values : List EnumValue}
    (h : values = [] → comma = false) :
    ((withCommas comma values).getLast?.map Prod.snd).getD false = comma := by
  rw [getLast?_withCommas]
  cases values with
  | nil => rw [h rfl]; rfl
  | cons v values => simp

/-- Only behind the last value a comma may be missing. -/
theorem eq_nil_of_withCommas {comma : Bool} {values : List EnumValue} {v : EnumValue × Bool}
    {vs : List (EnumValue × Bool)} (h : v :: vs <:+ withCommas comma values) (hv : v.2 = false) :
    vs = [] ∧ values ≠ [] ∧ comma = false := by
  induction values with
  | nil => exact absurd (List.suffix_nil.mp h) (List.cons_ne_nil v vs)
  | cons w values ih =>
    cases values with
    | nil =>
      rw [withCommas, List.suffix_cons_iff] at h
      rcases h with heq | h
      · obtain ⟨rfl, rfl⟩ := List.cons.inj heq
        exact ⟨rfl, List.cons_ne_nil _ _, hv⟩
      · exact absurd (List.suffix_nil.mp h) (List.cons_ne_nil v vs)
    | cons x rest =>
      rw [withCommas, List.suffix_cons_iff] at h
      rcases h with heq | h
      · obtain ⟨rfl, rfl⟩ := List.cons.inj heq
        cases hv
      · obtain ⟨hvs, -, hcomma⟩ := ih h
        exact ⟨hvs, List.cons_ne_nil _ _, hcomma⟩

end WebIdl.Spelling

namespace WebIdl.Grammar

open Token Cursor Spelling

variable {γ : Type} {exact : Bool} {d : Dialect} {c : Cursor} {ts us : List Token}

/-- A definition that was read for another one. -/
structure SameDefinitionKind (exact : Bool) (k k' : DefinitionKind) : Prop where
  erase : k'.erase = k.erase
  written : exact → ofDefinitionKind k' = ofDefinitionKind k

theorem reads_extendsKeyword_none {Q : Bool → Cursor → Prop} (hc : Near exact c ts)
    (hts : (core ts).head? ≠ some (word "extends")) (h : ∀ c', Near exact c' ts → Q false c') :
    Reads c (extendsKeyword d) Q := by
  rw [extendsKeyword]
  split
  · exact reads_keyword_none hc hts fun c' hc' => h c' hc'.near
  · exact reads_pure.mpr (h c hc)

/-- A base is always written behind a colon. -/
theorem reads_inheritanceUnless {isPartial : Bool} {inheritance : Option String}
    {entries : List Token} {closing : List Trivia} {Q : Option String → Cursor → Prop}
    (hbase : ∀ b ∈ inheritance, IsName b) (hpartial : isPartial → inheritance = none)
    (hc : Near exact c (baseBehind inheritance ++ braced entries closing us))
    (h : ∀ c', Near exact c' (braced entries closing us) → Q inheritance c') :
    Reads c (inheritanceUnless isPartial d) Q := by
  cases isPartial with
  | true =>
    obtain rfl := hpartial rfl
    exact reads_pure.mpr (h c hc)
  | false =>
    rw [inheritanceUnless, if_neg Bool.false_ne_true, Grammar.inheritance, reads_bind]
    cases inheritance with
    | none =>
      refine reads_symbol_none hc (by simp [baseBehind, braced]) fun c1 hc1 => reads_bind.mpr ?_
      refine reads_extendsKeyword_none hc1.near (by simp [baseBehind, braced]) fun c2 hc2 => ?_
      exact reads_pure.mpr (h c2 hc2)
    | some b =>
      refine reads_symbol hc rfl fun c1 hc1 => reads_bind.mpr ?_
      refine reads_expectIdentifier hc1.toNear rfl (hbase b rfl).unescape_word fun c2 hc2 => ?_
      exact reads_pure.mpr (h c2 hc2.toNear)

theorem reads_headedBody {α : Type} (hd : exact → d.keepTrivia) {P : MemberKind → Prop}
    {kind : Reader MemberKind} {noName noBody unfinished : Reason}
    {f : String → Option String → List Member → List Trivia → α} {Q : α → Cursor → Prop}
    {name : String} {isPartial : Bool} {base : Option String} {ms : List Member}
    {closing : List Trivia} (hheaded : Headed name isPartial base) (hbody : Body d P ms closing)
    (hkind : ∀ k, P k → ReadsKind exact kind k)
    (hc : Near exact c (word name :: (baseBehind base ++ braced (members ms) closing us)))
    (h : ∀ ms' items c', SameMembers exact ms ms' → (exact → items = closing) → At exact c' us →
      Q (f name base ms' items) c') :
    Reads c (headedBody d isPartial noName noBody unfinished kind f) Q := by
  rw [headedBody, reads_bind]
  refine reads_expectIdentifier hc rfl hheaded.name.unescape_word fun c1 hc1 => reads_bind.mpr ?_
  refine reads_inheritanceUnless hheaded.base hheaded.baseless hc1.toNear fun c2 hc2 => ?_
  refine reads_bind.mpr (reads_expectSymbol hc2 rfl fun c3 hc3 => reads_bind.mpr ?_)
  refine reads_members hd hbody hkind hc3 fun ms' items c4 hms hitems hc4 => ?_
  refine reads_bind.mpr (reads_expectSymbol hc4.toNear rfl fun c5 hc5 => reads_pure.mpr ?_)
  exact h ms' items c5 hms hitems hc5

theorem reads_interfaceRest (hd : exact → d.keepTrivia) {i : Interface}
    {Q : Interface → Cursor → Prop} (hi : i.WellFormed d)
    (hc : Near exact c (word i.name :: (baseBehind i.inheritance ++
      braced (members i.members) i.closing us)))
    (h : ∀ ms items c', SameMembers exact i.members ms → (exact → items = i.closing) →
      At exact c' us → Q { i with members := ms, closing := items } c') :
    Reads c (interfaceRest d i.isPartial) Q := by
  rw [interfaceRest_eq]
  refine reads_headedBody hd hi.headed hi.body (fun k hk c us hc => ?_) hc h
  exact reads_interfaceMember hd hk hc fun k' c' hk' hc' => ⟨hk', hc'⟩

theorem sameInterface {f : Interface → DefinitionKind} {keywords : List String}
    (herase : ∀ i, (f i).erase = f i.erase)
    (hwritten : ∀ i, ofDefinitionKind (f i) = ofInterface keywords i) {i : Interface}
    {ms : List Member} {items : List Trivia} (hms : SameMembers exact i.members ms)
    (hitems : exact → items = i.closing) :
    SameDefinitionKind exact (f i) (f { i with members := ms, closing := items }) := by
  refine ⟨?_, fun hx => ?_⟩
  · simp only [herase, Interface.erase, hms.erase]
  · simp only [hwritten, ofInterface, hms.written hx, hitems hx]

section Kinds

variable {Q : Option DefinitionKind → Cursor → Prop}

/-- The tokens of an interface, a class or a callback interface behind its keyword. -/
def interfaceBehind (i : Interface) (us : List Token) : List Token :=
  space :: word i.name :: (baseBehind i.inheritance ++ braced (members i.members) i.closing us)

theorem ofInterface_append (keywords : List String) (i : Interface) (us : List Token) :
    ofInterface keywords i ++ us =
      wordIf i.isPartial "partial" ++ (words keywords ++ interfaceBehind i us) :=
  header_block_append keywords i.name i.isPartial i.inheritance (members i.members) i.closing us

theorem reads_interface (hd : exact → d.keepTrivia) {i : Interface} (hi : i.WellFormed d)
    (hc : Near exact c (word "interface" :: interfaceBehind i us))
    (h : ∀ k c', SameDefinitionKind exact (.interface i) k → At exact c' us → Q (some k) c') :
    Reads c (interface d i.isPartial) Q := by
  rw [interface, reads_bind]
  refine reads_keyword hc rfl fun c1 hc1 => reads_bind.mpr ?_
  refine reads_interfaceRest hd hi hc1.toNear.of_space fun ms items c2 hms hitems hc2 => ?_
  exact reads_pure.mpr
    (h _ c2 (sameInterface (fun _ => rfl) (fun _ => rfl) hms hitems) hc2)

theorem reads_class (hd : exact → d.keepTrivia) (hclass : d.allowClass) {i : Interface}
    (hi : i.WellFormed d) (hc : Near exact c (word "class" :: interfaceBehind i us))
    (h : ∀ k c', SameDefinitionKind exact (.class i) k → At exact c' us → Q (some k) c') :
    Reads c (interface d i.isPartial) Q := by
  rw [interface, reads_bind]
  refine reads_keyword_none hc (by simp) fun c1 hc1 => reads_bind.mpr ?_
  rw [classKeyword, if_pos hclass]
  refine reads_keyword hc1.near rfl fun c2 hc2 => reads_bind.mpr ?_
  refine reads_interfaceRest hd hi hc2.toNear.of_space fun ms items c3 hms hitems hc3 => ?_
  exact reads_pure.mpr
    (h _ c3 (sameInterface (fun _ => rfl) (fun _ => rfl) hms hitems) hc3)

theorem reads_classKeyword_none {Q : Bool → Cursor → Prop} (hc : Near exact c ts)
    (hts : d.allowClass → (core ts).head? ≠ some (word "class"))
    (h : ∀ c', Near exact c' ts → Q false c') : Reads c (classKeyword d) Q := by
  rw [classKeyword]
  split
  · next hclass => exact reads_keyword_none hc (hts hclass) fun c' hc' => h c' hc'.near
  · exact reads_pure.mpr (h c hc)

theorem reads_interface_none {isPartial : Bool} (hc : Near exact c ts)
    (hinterface : (core ts).head? ≠ some (word "interface"))
    (hclass : d.allowClass → (core ts).head? ≠ some (word "class"))
    (h : ∀ c', Near exact c' ts → Q none c') : Reads c (interface d isPartial) Q := by
  rw [interface, reads_bind]
  refine reads_keyword_none hc hinterface fun c1 hc1 => reads_bind.mpr ?_
  exact reads_classKeyword_none hc1.near hclass fun c2 hc2 => reads_pure.mpr (h c2 hc2)

theorem reads_callback (hd : exact → d.keepTrivia) {x : Callback} (hx : x.WellFormed d)
    (hc : Near exact c (ofCallback x ++ us))
    (h : ∀ k c', SameDefinitionKind exact (.callback x) k → At exact c' us → Q (some k) c') :
    Reads c (callback d) Q := by
  obtain ⟨name, type, args⟩ := x
  obtain ⟨hname, hinterface, hclass, hs⟩ := hx
  rw [ofCallback, List.append_assoc, signature_append] at hc
  rw [callback, reads_bind]
  refine reads_keyword hc rfl fun c1 hc1 => reads_bind.mpr ?_
  refine reads_keyword_none hc1.toNear (by simpa using hinterface) fun c2 hc2 => reads_bind.mpr ?_
  refine reads_classKeyword_none hc2.near (fun ha => by simpa using hclass ha) fun c3 hc3 => ?_
  refine reads_bind.mpr (reads_bind.mpr ?_)
  refine reads_expectIdentifier hc3 rfl hname.unescape_word fun c4 hc4 => reads_bind.mpr ?_
  refine reads_expectSymbol hc4.toNear rfl fun c5 hc5 => reads_bind.mpr ?_
  refine reads_returnType hs.type hc5.toNear.of_space (precedes_mark (by decide) _)
    fun c6 hc6 => reads_bind.mpr ?_
  refine reads_expectSymbol hc6.near rfl fun c7 hc7 => reads_bind.mpr ?_
  refine reads_argumentList hd hs.arguments hc7 fun args' c8 hsame hc8 => reads_bind.mpr ?_
  refine reads_expectSymbol hc8 rfl fun c9 hc9 => reads_bind.mpr ?_
  refine reads_expectSymbol hc9.toNear rfl fun c10 hc10 => reads_pure.mpr (reads_pure.mpr ?_)
  refine h _ c10 ⟨?_, fun hx => ?_⟩ hc10
  · simp only [DefinitionKind.erase, Callback.erase, hsame.erase]
  · simp only [ofDefinitionKind, ofCallback, signature, hsame.written hx]

theorem reads_callbackInterface (hd : exact → d.keepTrivia) {i : Interface} (hi : i.WellFormed d)
    (hpartial : i.isPartial = false)
    (hc : Near exact c (word "callback" :: space :: word "interface" :: interfaceBehind i us))
    (h : ∀ k c', SameDefinitionKind exact (.callbackInterface i) k → At exact c' us →
      Q (some k) c') : Reads c (callback d) Q := by
  obtain ⟨name, isPartial, inheritance, members, closing⟩ := i
  obtain rfl : isPartial = false := hpartial
  rw [callback, reads_bind]
  refine reads_keyword hc rfl fun c1 hc1 => reads_bind.mpr ?_
  refine reads_keyword hc1.toNear rfl fun c2 hc2 => reads_bind.mpr ?_
  refine reads_interfaceRest hd hi hc2.toNear.of_space fun ms items c3 hms hitems hc3 => ?_
  exact reads_pure.mpr
    (h _ c3 (sameInterface (fun _ => rfl) (fun _ => rfl) hms hitems) hc3)

theorem reads_dictionary (hd : exact → d.keepTrivia) {b : Dictionary} (hb : b.WellFormed d)
    (hc : Near exact c (word "dictionary" :: space :: word b.name :: (baseBehind b.inheritance ++
      braced (members b.members) b.closing us)))
    (h : ∀ k c', SameDefinitionKind exact (.dictionary b) k → At exact c' us → Q (some k) c') :
    Reads c (dictionary d b.isPartial) Q := by
  rw [dictionary_eq, reads_bind]
  refine reads_keyword hc rfl fun c1 hc1 => ?_
  rw [if_pos rfl]
  refine reads_headedBody hd hb.headed hb.body (fun k hk c us hc => ?_) hc1.toNear.of_space
    fun ms items c2 hms hitems hc2 => ?_
  · cases k with
    | field f => exact reads_dictionaryField hk hc fun c' hc' => ⟨SameKind.refl _, hc'⟩
    | _ => exact hk.elim
  refine h _ c2 ⟨?_, fun hx => ?_⟩ hc2
  · simp only [DefinitionKind.erase, Dictionary.erase, hms.erase]
  · simp only [ofDefinitionKind, ofDictionary, hms.written hx, hitems hx]

theorem reads_exception (hd : exact → d.keepTrivia) {e : Exception} (he : e.WellFormed d)
    (hc : Near exact c (ofException e ++ us))
    (h : ∀ k c', SameDefinitionKind exact (.exception e) k → At exact c' us → Q (some k) c') :
    Reads c (exception d) Q := by
  rw [ofException, header_block_append] at hc
  rw [exception_eq, reads_bind]
  refine reads_keyword hc rfl fun c1 hc1 => ?_
  rw [if_pos rfl]
  refine reads_headedBody hd he.headed he.body (fun k hk c us hc => ?_) hc1.toNear.of_space
    fun ms items c2 hms hitems hc2 => ?_
  · exact reads_exceptionMember hk hc fun c' hc' => ⟨SameKind.refl _, hc'⟩
  refine h _ c2 ⟨?_, fun hx => ?_⟩ hc2
  · simp only [DefinitionKind.erase, Exception.erase, hms.erase]
  · simp only [ofDefinitionKind, ofException, hms.written hx, hitems hx]

/-- An enum whatever the commas between its values. -/
theorem reads_enum (hd : exact → d.keepTrivia) {name : String} {vs : List (EnumValue × Bool)}
    {closing : List Trivia} (hname : IsName name) (hvs : ∀ v ∈ vs, v.1.WellFormed d)
    (hclosing : d.Keeps closing)
    (hcommas : exact → ∀ v vs', v :: vs' <:+ vs → v.2 = false → vs' = [] ∧ closing = [])
    (hc : Near exact c (word "enum" :: space :: word name ::
      braced (vs.flatMap fun v => Spelling.trivia v.1.leading ++ valueBody v) closing us))
    (h : ∀ ws items c', List.Forall₂ (SameValue exact) vs ws → (exact → items = closing) →
      At exact c' us → Q (some (.enum
        { name, values := ws.map Prod.fst,
          trailingComma := (ws.getLast?.map Prod.snd).getD false, closing := items })) c') :
    Reads c (enum d) Q := by
  rw [enum, reads_bind]
  refine reads_keyword hc rfl fun c1 hc1 => reads_bind.mpr ?_
  refine reads_expectIdentifier hc1.toNear rfl hname.unescape_word fun c2 hc2 => reads_bind.mpr ?_
  refine reads_expectSymbol hc2.toNear rfl fun c3 hc3 => reads_bind.mpr ?_
  refine reads_enumValues hd hvs hclosing hcommas hc3 fun ws items c4 hws hitems hc4 => ?_
  refine reads_bind.mpr (reads_expectSymbol hc4.toNear rfl fun c5 hc5 => reads_pure.mpr ?_)
  exact h ws items c5 hws hitems hc5

theorem reads_implements {i : Implements} (hi : i.WellFormed d)
    (hc : Near exact c (ofImplements i ++ us))
    (h : ∀ c', At exact c' us → Q (some (.implements i)) c') : Reads c implements Q := by
  refine reads_attempt (reads_bind.mpr ?_)
  refine reads_identifier hc rfl hi.target.unescape_word fun c1 hc1 => reads_bind.mpr ?_
  refine reads_keyword hc1.toNear rfl fun c2 hc2 => reads_bind.mpr ?_
  refine reads_expectIdentifier hc2.toNear rfl hi.mixin.unescape_word fun c3 hc3 => ?_
  refine reads_bind.mpr (reads_expectSymbol hc3.toNear rfl fun c4 hc4 => ?_)
  exact reads_pure.mpr ⟨_, rfl, h c4 hc4⟩

end Kinds

end WebIdl.Grammar
