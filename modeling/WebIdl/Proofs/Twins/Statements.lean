import WebIdl.Proofs.Twins.Phrases

/-!
# Members and definitions side by side

A member or a definition ends with its `;`. Up to there the cursors stay paired, and behind it they
are paired again if the pairing tells what comes behind a `;`.
-/

namespace WebIdl.Grammar

open Token Cursor

variable {K : Pairing}

section Members

theorem twins_typedef (d : Dialect) :
    Twins K K.rel (fun o => o.elim K.Settled fun _ => K.past) (Option.map Typedef.erase) (typedef d)
      (typedef d.plain) := by
  refine twins_bind (twins_keyword _) fun begun => ?_
  cases begun with
  | false => exact twins_pure rfl fun _ _ h => h
  | true =>
    refine twins_seq (steady_extendedAttributes d) fun es => twins_seq (steady_trivia d) fun _ => ?_
    refine twins_seq (twins_expect offer_idlType) fun type => ?_
    exact twins_seq steady_expectIdentifier fun name => twins_closed rfl fun _ _ h => h

theorem offer_typedef (d : Dialect) : Offer K K.past Typedef.erase (typedef d) (typedef d.plain) := by
  refine (twins_typedef d).mono (fun _ _ h => h) fun o _ _ h => ?_
  cases o with
  | none => exact h.rel
  | some t => exact h

theorem offer_const : Offer K K.past id const const := by
  refine twins_seq (steady_keyword _) fun begun => offer_ite ?_
  refine twins_seq steady_constType fun type => twins_seq steady_expectIdentifier fun name => ?_
  refine twins_seq (steady_expectSymbol (by decide)) fun _ => ?_
  have hvalue : Steady K id (expect .noConstValue constValue) (expect .noConstValue constValue) := by
    refine twins_bind twins_constValue fun o => ?_
    cases o with
    | none => exact twins_fail_of_stuck
    | some l => exact steady_pure rfl
  exact twins_seq hvalue fun value => twins_closed rfl fun _ _ h => h

theorem offer_attributeMember : Offer K K.past id attributeMember attributeMember := by
  refine offer_attempt (twins_seq (steady_keyword _) fun isStatic => ?_)
  have hstringifier : Steady K id (if isStatic then pure false else keyword "stringifier")
      (if isStatic then pure false else keyword "stringifier") := by
    cases isStatic with
    | true => exact steady_pure rfl
    | false => exact steady_keyword _
  refine twins_choice hstringifier fun stringifier => twins_seq (steady_keyword _) fun inherits => ?_
  refine twins_ite twins_fail (twins_seq (steady_keyword _) fun readonly => ?_)
  refine twins_seq (steady_keyword _) fun begun => offer_ite ?_
  refine twins_seq (twins_expect offer_idlType) fun type => twins_ite twins_fail ?_
  exact twins_seq steady_expectIdentifier fun name => twins_closed rfl fun _ _ h => h

theorem sealed_operationRest (d : Dialect) :
    Sealed K (fun r => (r.1, r.2.map Argument.erase)) (operationRest d) (operationRest d.plain) := by
  refine twins_seq (steady_of_offer offer_identifier) fun name => ?_
  refine twins_seq (steady_expectSymbol (by decide)) fun _ => ?_
  refine twins_seq (steady_argumentList d) fun args => ?_
  refine twins_seq (steady_expectSymbol (by decide)) fun _ => ?_
  rw [Option.map_id]
  exact twins_closed rfl fun _ _ h => h

theorem sealed_markedOperation (d : Dialect) (marks : Specials) (isStatic stringifier : Bool) :
    Sealed K MemberKind.erase (markedOperation d marks isStatic stringifier)
      (markedOperation d.plain marks isStatic stringifier) := by
  refine twins_seq steady_returnType fun type => ?_
  exact twins_bind (sealed_operationRest d) fun r => twins_pure rfl fun _ _ h => h

theorem sealed_stringifierRest (d : Dialect) :
    Sealed K MemberKind.erase (stringifierRest d) (stringifierRest d.plain) := by
  refine twins_bind twins_semicolon fun bare => ?_
  cases bare with
  | true => exact twins_pure rfl fun _ _ h => h
  | false => exact sealed_markedOperation d {} false true

theorem offer_special (s : Special) : Offer K K.rel id (special s) (special s) := by
  refine twins_seq (steady_keyword _) fun found => ?_
  cases found with
  | true => exact offer_some rfl
  | false => exact offer_none

theorem steady_specials : Steady K id specials specials := by
  have hspecials : ∀ l : List Special,
      Offer K K.rel id (firstOf (l.map special)) (firstOf (l.map special)) := by
    intro l
    induction l with
    | nil => exact offer_firstOf_nil
    | cons s l ih => exact offer_firstOf_cons (offer_special s) ih
  refine twins_seq (steady_many (hspecials Special.all)) fun marks => ?_
  exact steady_pure (by rw [List.map_id]; rfl)

theorem steady_iteratorObject : Steady K id iteratorObject iteratorObject := by
  refine twins_seq (steady_keyword _) fun object => ?_
  cases object with
  | true => exact steady_pure rfl
  | false =>
    refine twins_seq (steady_symbol (by decide)) fun assigned => ?_
    cases assigned with
    | true => exact twins_seq steady_expectIdentifier fun name => steady_pure rfl
    | false => exact steady_pure rfl

theorem sealed_iteratorRest (type : IdlType) :
    Sealed K MemberKind.erase (iteratorRest type) (iteratorRest type) :=
  twins_seq steady_iteratorObject fun _ => twins_closed rfl fun _ _ h => h

/-- Looking for a call leaves both runs where they are. -/
theorem steady_callAhead : Steady K id callAhead callAhead := by
  intro c c' hc
  have hlook : Steady K id (do
        let _ ← identifier
        let isCall ← symbol "("
        set c
        return isCall) (do
        let _ ← identifier
        let isCall ← symbol "("
        set c'
        return isCall) := by
    refine twins_seq (steady_of_offer offer_identifier) fun _ => ?_
    refine twins_seq (steady_symbol (by decide)) fun isCall _ _ _ => ⟨?_, ?_⟩
    · rintro _ _ ⟨⟩
      exact ⟨c', rfl, hc⟩
    · rintro - _ ⟨⟩
  exact hlook c c' hc

theorem offer_plainOperation (d : Dialect) :
    Offer K K.past MemberKind.erase (plainOperation d) (plainOperation d.plain) := by
  refine offer_attempt (twins_option offer_idlType (fun type => ?_) offer_none)
  refine twins_seq (steady_keyword _) fun iterator => ?_
  cases iterator with
  | true => exact offer_of_twins (sealed_iteratorRest type)
  | false =>
    refine twins_seq steady_callAhead fun call => offer_ite ?_
    exact twins_bind (sealed_operationRest d) fun r => twins_pure rfl fun _ _ h => h

theorem offer_operation (d : Dialect) :
    Offer K K.past MemberKind.erase (operation d) (operation d.plain) := by
  refine twins_seq steady_specials fun marks => ?_
  refine twins_ite (offer_of_twins (sealed_markedOperation d marks false false)) ?_
  refine twins_seq (steady_keyword _) fun isStatic => ?_
  refine twins_ite (offer_of_twins (sealed_markedOperation d {} true false)) ?_
  refine twins_seq (steady_keyword _) fun stringifier => ?_
  exact twins_ite (offer_of_twins (sealed_stringifierRest d)) (offer_plainOperation d)

theorem steady_patternNames (inheritMore : Bool) :
    Steady K id (patternNames inheritMore) (patternNames inheritMore) := by
  refine twins_option offer_identifier (fun first => ?_) (steady_pure rfl)
  refine twins_ite (steady_pure rfl) ?_
  exact twins_seq steady_moreNames fun names => steady_pure (by rw [List.map_id]; rfl)

theorem steady_serializerPattern : Steady K Serializer.erase serializerPattern serializerPattern := by
  refine twins_seq (steady_symbol (by decide)) fun isMap => ?_
  cases isMap with
  | true =>
    refine twins_seq (steady_patternNames true) fun names => ?_
    exact twins_seq (steady_expectSymbol (by decide)) fun _ => steady_pure rfl
  | false =>
    refine twins_seq (steady_symbol (by decide)) fun isList => ?_
    cases isList with
    | true =>
      refine twins_seq (steady_patternNames false) fun names => ?_
      exact twins_seq (steady_expectSymbol (by decide)) fun _ => steady_pure rfl
    | false => exact twins_seq steady_expectIdentifier fun name => steady_pure rfl

theorem offer_serializer (d : Dialect) :
    Offer K K.past Serializer.erase (serializer d) (serializer d.plain) := by
  refine twins_seq (steady_keyword _) fun begun => offer_ite ?_
  refine twins_bind twins_semicolon fun bare => ?_
  cases bare with
  | true => exact twins_pure rfl fun _ _ h => h
  | false =>
    refine twins_seq (steady_symbol (by decide)) fun assigned => ?_
    cases assigned with
    | true => exact twins_seq steady_serializerPattern fun p => twins_closed rfl fun _ _ h => h
    | false =>
      refine twins_seq steady_returnType fun type => ?_
      exact twins_bind (sealed_operationRest d) fun r => twins_pure rfl fun _ _ h => h

theorem offer_iterableKind (readonly : Bool) :
    Offer K K.rel id (iterableKind readonly) (iterableKind readonly) := by
  have hkeyword (kind : IterableKind) :
      Offer K K.rel id (iterableKeyword kind) (iterableKeyword kind) := by
    refine twins_seq (steady_keyword _) fun found => ?_
    cases found with
    | true => exact offer_some rfl
    | false => exact offer_none
  have hkinds : ∀ l : List IterableKind,
      Offer K K.rel id (firstOf (l.map iterableKeyword)) (firstOf (l.map iterableKeyword)) := by
    intro l
    induction l with
    | nil => exact offer_firstOf_nil
    | cons kind l ih => exact offer_firstOf_cons (hkeyword kind) ih
  exact hkinds _

theorem steady_secondType (kind : IterableKind) :
    Steady K id (secondType kind) (secondType kind) := by
  by_cases hallows : kind.allowsSecond
  · simp only [secondType, if_pos hallows]
    refine twins_seq (steady_symbol (by decide)) fun comma => ?_
    have hsecond : Steady K (Option.map id) (if comma then idlType else pure none)
        (if comma then idlType else pure none) := by
      cases comma with
      | true => exact steady_of_offer offer_idlType
      | false => exact steady_pure rfl
    refine twins_choice hsecond fun second => ?_
    rw [Option.map_id]
    exact twins_ite twins_fail (steady_pure rfl)
  · simp only [secondType, if_neg hallows]
    exact steady_pure rfl

theorem offer_iterable : Offer K K.past id iterable iterable := by
  refine offer_attempt (twins_seq (steady_keyword _) fun readonly => ?_)
  refine twins_option (offer_iterableKind readonly) (fun kind => offer_of_twins ?_) offer_none
  refine twins_seq (steady_expectSymbol (by decide)) fun _ => ?_
  refine twins_seq (twins_expect offer_idlType) fun first => ?_
  refine twins_seq (steady_secondType kind) fun second => ?_
  exact twins_seq (steady_expectSymbol (by decide)) fun _ => twins_closed rfl fun _ _ h => h

theorem offer_nestedTypedef (d : Dialect) :
    Offer K K.past Typedef.erase (nestedTypedef d) (nestedTypedef d.plain) := by
  rw [nestedTypedef, nestedTypedef, show d.plain.allowNestedTypedefs = d.allowNestedTypedefs from rfl]
  split
  · exact offer_typedef d
  · exact offer_none

theorem sealed_interfaceMember (d : Dialect) :
    Sealed K MemberKind.erase (interfaceMember d) (interfaceMember d.plain) := by
  refine twins_expect ?_
  refine offer_firstOf_cons (offer_mapped offer_const fun _ => rfl) ?_
  refine offer_firstOf_cons (offer_mapped (offer_nestedTypedef d) fun _ => rfl) ?_
  refine offer_firstOf_cons (offer_mapped offer_iterable fun _ => rfl) ?_
  refine offer_firstOf_cons (offer_mapped (offer_serializer d) fun _ => rfl) ?_
  refine offer_firstOf_cons (offer_mapped offer_attributeMember fun _ => rfl) ?_
  exact offer_firstOf_cons (offer_operation d) offer_firstOf_nil

theorem sealed_exceptionMember : Sealed K MemberKind.erase exceptionMember exceptionMember := by
  refine twins_option offer_const (fun c => twins_pure rfl fun _ _ h => h) ?_
  refine twins_bind offer_idlType fun type => ?_
  cases type with
  | none => exact twins_seq (steady_of_offer offer_identifier) fun name => twins_fail
  | some type =>
    refine twins_option offer_identifier (fun name => ?_) twins_fail
    exact twins_closed rfl fun _ _ h => h

theorem sealed_dictionaryField : Sealed K MemberKind.erase dictionaryField dictionaryField := by
  refine twins_seq (steady_keyword _) fun required => ?_
  refine twins_seq (twins_expect offer_idlType) fun type => ?_
  refine twins_seq steady_expectIdentifier fun name => ?_
  refine twins_seq (steady_of_offer offer_defaultValue) fun default => ?_
  rw [Option.map_id]
  exact twins_ite twins_fail (twins_closed rfl fun _ _ h => h)

theorem sealed_member (d : Dialect) {kind kind' : Reader MemberKind}
    (h : Sealed K MemberKind.erase kind kind') (leading : List Trivia) :
    Sealed K Member.erase (member d kind leading) (member d.plain kind' []) := by
  refine twins_seq (steady_extendedAttributes d) fun es => twins_seq (steady_trivia d) fun _ => ?_
  exact twins_bind h fun kind => twins_pure rfl fun _ _ h => h

end Members

section Definitions

theorem steady_extendsKeyword (d : Dialect) :
    Steady K id (extendsKeyword d) (extendsKeyword d.plain) := by
  rw [extendsKeyword, extendsKeyword, show d.plain.allowExtends = d.allowExtends from rfl]
  split
  · exact steady_keyword _
  · exact steady_pure rfl

theorem steady_inheritance (d : Dialect) :
    Steady K id (inheritance d) (inheritance d.plain) := by
  refine twins_seq (steady_symbol (by decide)) fun colon => ?_
  cases colon with
  | true => exact twins_seq steady_expectIdentifier fun base => steady_pure rfl
  | false =>
    refine twins_seq (steady_extendsKeyword d) fun isExtends => ?_
    cases isExtends with
    | true => exact twins_seq steady_expectIdentifier fun base => steady_pure rfl
    | false => exact steady_pure rfl

theorem steady_inheritanceUnless (isPartial : Bool) (d : Dialect) :
    Steady K id (inheritanceUnless isPartial d) (inheritanceUnless isPartial d.plain) := by
  cases isPartial with
  | true => exact steady_pure rfl
  | false => exact steady_inheritance d

theorem twins_memberEntry (d : Dialect) {kind kind' : Reader MemberKind}
    (h : Sealed K MemberKind.erase kind kind') (leading : List Trivia) :
    Twins K K.Settled (fun _ => K.past) Member.erase (member d kind leading)
      (member d.plain kind' []) :=
  (sealed_member d h leading).mono (fun _ _ h => h.rel) fun _ _ _ h => h

theorem twins_headedBody (d : Dialect) {isPartial : Bool} {noName noBody unfinished : Reason}
    {kind kind' : Reader MemberKind} [Consuming kind] [Consuming kind']
    {f : String → Option String → List Member → List Trivia → α}
    {f' : String → Option String → List Member → List Trivia → β} {e : α → β}
    {post : α → Cursor → Cursor → Prop} (hkind : Sealed K MemberKind.erase kind kind')
    (hf : ∀ name base ms closing,
      f' name base (ms.map Member.erase) [] = e (f name base ms closing))
    (hpost : ∀ name base ms closing c c', K.past c c' → post (f name base ms closing) c c') :
    Twins K K.rel post e (headedBody d isPartial noName noBody unfinished kind f)
      (headedBody d.plain isPartial noName noBody unfinished kind' f') := by
  refine twins_seq steady_expectIdentifier fun name => ?_
  refine twins_seq (steady_inheritanceUnless isPartial d) fun base => ?_
  refine twins_seq (steady_expectSymbol (by decide)) fun _ => ?_
  refine twins_body (twins_memberEntry d hkind) (fun r => ?_) fun r c h => ?_
  · exact twins_closed (hf name base r.1 r.2) (hpost name base r.1 r.2)
  · exact answers_semicolon_of_not_mem h

theorem sealed_interfaceRest (d : Dialect) (isPartial : Bool) :
    Sealed K Interface.erase (interfaceRest d isPartial) (interfaceRest d.plain isPartial) := by
  rw [interfaceRest_eq, interfaceRest_eq]
  exact twins_headedBody d (sealed_interfaceMember d) (fun _ _ _ _ => rfl)
    fun _ _ _ _ _ _ h => h

theorem steady_classKeyword (d : Dialect) :
    Steady K id (classKeyword d) (classKeyword d.plain) := by
  rw [classKeyword, classKeyword, show d.plain.allowClass = d.allowClass from rfl]
  split
  · exact steady_keyword _
  · exact steady_pure rfl

theorem offer_interface (d : Dialect) (isPartial : Bool) :
    Offer K K.past DefinitionKind.erase (interface d isPartial) (interface d.plain isPartial) := by
  have hrest := @sealed_interfaceRest K d isPartial
  refine twins_seq (steady_keyword _) fun isInterface => ?_
  cases isInterface with
  | true => exact twins_bind hrest fun i => twins_pure rfl fun _ _ h => h
  | false =>
    refine twins_seq (steady_classKeyword d) fun isClass => offer_ite ?_
    exact twins_bind hrest fun i => twins_pure rfl fun _ _ h => h

theorem sealed_callbackRest (d : Dialect) :
    Sealed K Callback.erase (callbackRest d) (callbackRest d.plain) := by
  refine twins_seq steady_expectIdentifier fun name => ?_
  refine twins_seq (steady_expectSymbol (by decide)) fun _ => ?_
  refine twins_seq steady_returnType fun type => ?_
  refine twins_seq (steady_expectSymbol (by decide)) fun _ => ?_
  refine twins_seq (steady_argumentList d) fun args => ?_
  exact twins_seq (steady_expectSymbol (by decide)) fun _ => twins_closed rfl fun _ _ h => h

theorem offer_callback (d : Dialect) :
    Offer K K.past DefinitionKind.erase (callback d) (callback d.plain) := by
  refine twins_seq (steady_keyword _) fun begun => offer_ite ?_
  refine twins_seq (steady_keyword _) fun isInterface => ?_
  cases isInterface with
  | true =>
    exact twins_bind (sealed_interfaceRest d false) fun i => twins_pure rfl fun _ _ h => h
  | false =>
    refine twins_seq (steady_classKeyword d) fun isClass => ?_
    cases isClass with
    | true => exact twins_fail
    | false => exact twins_bind (sealed_callbackRest d) fun c => twins_pure rfl fun _ _ h => h

theorem offer_dictionary (d : Dialect) (isPartial : Bool) :
    Offer K K.past DefinitionKind.erase (dictionary d isPartial) (dictionary d.plain isPartial) := by
  rw [dictionary_eq, dictionary_eq]
  refine twins_seq (steady_keyword _) fun begun => offer_ite ?_
  exact twins_headedBody d sealed_dictionaryField (fun _ _ _ _ => rfl)
    fun _ _ _ _ _ _ h => h

theorem offer_partialDefinition (d : Dialect) :
    Offer K K.past DefinitionKind.erase (partialDefinition d) (partialDefinition d.plain) := by
  refine twins_seq (steady_keyword _) fun begun => offer_ite ?_
  exact offer_of_twins (twins_expect (offer_firstOf_cons (offer_dictionary d true)
    (offer_firstOf_cons (offer_interface d true) offer_firstOf_nil)))

theorem offer_exception (d : Dialect) :
    Offer K K.past DefinitionKind.erase (exception d) (exception d.plain) := by
  rw [exception_eq, exception_eq]
  refine twins_seq (steady_keyword _) fun begun => offer_ite ?_
  exact twins_headedBody d sealed_exceptionMember (fun _ _ _ _ => rfl)
    fun _ _ _ _ _ _ h => h

/-- The string of an enum value has to come next: the blanks have been skipped already. -/
theorem twins_enumValue (d : Dialect) (leading : List Trivia) :
    Twins K K.Settled (fun _ => K.past) (Prod.map EnumValue.erase id) (enumValue d leading)
      (enumValue d.plain []) := by
  have hliteral : Twins K K.Settled (fun _ => K.rel) id
      (expect .unexpectedEnumValue (token .string none))
      (expect .unexpectedEnumValue (token .string none)) := by
    refine twins_bind (twins_lexeme (by decide) fun h => absurd h (by decide)) fun o => ?_
    cases o with
    | none => exact twins_fail.mono (fun _ _ h => h.rel) fun _ _ _ h => h
    | some t => exact steady_pure rfl
  refine twins_bind hliteral fun literal => twins_seq (steady_trivia d) fun trailing => ?_
  exact twins_seq (steady_symbol (by decide)) fun comma => twins_pure rfl fun _ _ => K.forget

theorem offer_enum (d : Dialect) :
    Offer K K.past DefinitionKind.erase (enum d) (enum d.plain) := by
  refine twins_seq (steady_keyword _) fun begun => offer_ite ?_
  refine twins_seq steady_expectIdentifier fun name => ?_
  refine twins_seq (steady_expectSymbol (by decide)) fun _ => ?_
  refine twins_body (twins_enumValue d) (fun r => ?_) fun r c h => ?_
  · have hcomma : ((r.1.map (Prod.map EnumValue.erase id)).getLast?.map Prod.snd).getD false =
        (r.1.getLast?.map Prod.snd).getD false := by
      rw [List.getLast?_map, Option.map_map]
      rfl
    refine twins_closed ?_ fun _ _ h => h
    simp only [hcomma, List.map_map, Option.map_some, DefinitionKind.erase, Enum.erase]
    rfl
  · exact answers_semicolon_of_not_mem h

theorem twins_implements :
    Twins K K.Settled (fun o => o.elim K.Settled fun _ => K.past)
      (Option.map DefinitionKind.erase) implements implements := by
  refine twins_attempt (Twins.mono (?_ : Offer K K.past DefinitionKind.erase _ _)
    (fun _ _ h => h.rel) fun _ _ _ h => h)
  refine twins_option offer_identifier (fun target => ?_) offer_none
  refine twins_seq (steady_keyword _) fun begun => offer_ite ?_
  exact twins_seq steady_expectIdentifier fun mixin => twins_closed rfl fun _ _ h => h

/-- Where no definition begins, both runs stand in front of the same token or at the end. -/
theorem twins_definitionKind (d : Dialect) :
    Twins K K.rel (fun o => o.elim K.Settled fun _ => K.past) (Option.map DefinitionKind.erase)
      (definitionKind d) (definitionKind d.plain) := by
  have htypedef : Twins K K.rel (fun o => o.elim K.Settled fun _ => K.past)
      (Option.map DefinitionKind.erase) (firstOf [mapped .typedef (typedef d), implements])
      (firstOf [mapped .typedef (typedef d.plain), implements]) := by
    have hmapped : Twins K K.rel (fun o => o.elim K.Settled fun _ => K.past)
        (Option.map DefinitionKind.erase) (mapped .typedef (typedef d))
        (mapped .typedef (typedef d.plain)) := by
      refine twins_bind (twins_typedef d) fun o => ?_
      cases o with
      | none => exact twins_pure rfl fun _ _ h => h
      | some t => exact twins_pure rfl fun _ _ h => h
    refine twins_bind hmapped fun o => ?_
    cases o with
    | some kind => exact twins_pure rfl fun _ _ h => h
    | none =>
      refine twins_bind twins_implements fun o => ?_
      cases o with
      | none => exact twins_pure rfl fun _ _ h => h
      | some kind => exact twins_pure rfl fun _ _ h => h
  refine twins_firstOf_cons (offer_callback d) (fun _ _ _ h => h) ?_
  refine twins_firstOf_cons (offer_interface d false) (fun _ _ _ h => h) ?_
  refine twins_firstOf_cons (offer_partialDefinition d) (fun _ _ _ h => h) ?_
  refine twins_firstOf_cons (offer_dictionary d false) (fun _ _ _ h => h) ?_
  refine twins_firstOf_cons (offer_exception d) (fun _ _ _ h => h) ?_
  exact twins_firstOf_cons (offer_enum d) (fun _ _ _ h => h) htypedef

theorem twins_programEntry (d : Dialect) :
    Twins K K.rel (fun r => r.elim (fun _ => K.past) fun _ => K.Settled)
      (Sum.map Definition.erase fun _ => []) (programEntry d) (programEntry d.plain) := by
  refine twins_seq (steady_trivia d) fun leading => ?_
  refine twins_seq (steady_extendedAttributes d) fun es => twins_seq (steady_trivia d) fun _ => ?_
  refine twins_bind (twins_definitionKind d) fun o => ?_
  cases o with
  | some kind => exact twins_pure rfl fun _ _ h => h
  | none =>
    rw [List.isEmpty_map]
    by_cases hempty : es.isEmpty
    · simp only [if_pos hempty]
      exact twins_pure rfl fun _ _ h => h
    · simp only [if_neg hempty]
      exact twins_fail.mono (fun _ _ h => h.rel) fun _ _ _ h => h

/-- Where the cursors behind a `;` are paired, whole programs are read alike. -/
theorem twins_program (d : Dialect) (hpast : ∀ c c', K.past c c' → K.rel c c') :
    Twins K K.rel (fun _ _ _ => True) Program.erase (program d) (program d.plain) := by
  have hrounds (n : Nat) :
      Twins K K.rel (fun _ => K.Settled) (fun r => (r.1.map Definition.erase, []))
        (untilWithin (programEntry d) n) (untilWithin (programEntry d.plain) n) := by
    induction n with
    | zero => exact twins_fail
    | succ n ih =>
      refine twins_bind (twins_programEntry d) fun r => ?_
      cases r with
      | inl x =>
        refine (twins_bind ih fun r => ?_).mono hpast fun _ _ _ h => h
        exact twins_pure rfl fun _ _ h => h
      | inr trailing => exact twins_pure rfl fun _ _ h => h
  refine twins_bind (twins_bounded (stable_untilWithin (gains_programEntry d))
    (stable_untilWithin (gains_programEntry d.plain)) hrounds) fun r c c' hc => ?_
  have hend : c'.atEnd = c.atEnd := by
    have hhead := hc.head?
    rw [atEnd, atEnd]
    cases hafter : c.after <;> cases hafter' : c'.after <;> simp_all
  have hdone (atEnd : Bool) : Steady K Program.erase
      (if atEnd then pure ⟨r.1, r.2⟩ else fail .unrecognised)
      (if atEnd then pure ⟨r.1.map Definition.erase, []⟩ else fail .unrecognised) := by
    cases atEnd with
    | true => exact steady_pure rfl
    | false => exact twins_fail
  show Outcomes K _ Program.erase
    ((if c.atEnd then pure ⟨r.1, r.2⟩ else fail .unrecognised : Reader Program) c)
    ((if c'.atEnd then pure ⟨r.1.map Definition.erase, []⟩ else fail .unrecognised :
      Reader Program) c')
  rw [hend]
  exact (hdone c.atEnd).mono (fun _ _ h => h) (fun _ _ _ _ => trivial) c c' hc.rel

end Definitions

end WebIdl.Grammar
