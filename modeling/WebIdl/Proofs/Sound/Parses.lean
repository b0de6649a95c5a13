import WebIdl.Grammar.Definitions
import WebIdl.Proofs.Answers.Rules
import WebIdl.Proofs.Sound.Trees

/-!
# Every parse is sound

Each production answers only sound trees, wherever it starts and whatever tokens it finds there.
The productions of types, arguments and attributes are taken a layer at a time, so that what is
nested in a layer is sound by induction on the depth that is left.
-/

namespace WebIdl.Grammar

variable {α β σ : Type} {P : α → Prop} {Q : β → Prop}

/-- `P` holds of whatever the reader answers, wherever it starts. -/
def Yields (P : α → Prop) (r : Reader α) : Prop :=
  ∀ c, Answers c r fun a _ => P a

/-- `P` holds of what the production answers where it matches. -/
def Offers (P : α → Prop) (p : Reader (Option α)) : Prop :=
  Yields (fun o => ∀ a ∈ o, P a) p

section Rules

theorem yields_trivial (r : Reader α) : Yields (fun _ => True) r :=
  fun _ _ _ _ => trivial

theorem Yields.mono {R : α → Prop} {r : Reader α} (h : Yields P r) (hPR : ∀ a, P a → R a) :
    Yields R r :=
  fun c => (h c).mono fun a _ ha => hPR a ha

theorem yields_pure {a : α} (h : P a) : Yields P (pure a) :=
  fun _ => answers_pure h

theorem yields_fail {reason : Reason} : Yields P (fail reason) :=
  fun _ => answers_fail

theorem yields_bind {r : Reader α} {f : α → Reader β} (hr : Yields P r)
    (hf : ∀ a, P a → Yields Q (f a)) : Yields Q (r >>= f) :=
  fun c => answers_bind ((hr c).mono fun a c' ha => hf a ha c')

/-- What the first reader answers does not matter. -/
theorem yields_seq {r : Reader α} {f : α → Reader β} (hf : ∀ a, Yields Q (f a)) :
    Yields Q (r >>= f) :=
  yields_bind (yields_trivial r) fun a _ => hf a

/-- A choice between two readers with one reader behind them. -/
theorem yields_choice {b : Bool} {r r' : Reader α} {f : α → Reader β}
    (h : Yields P (if b then r else r')) (hf : ∀ a, P a → Yields Q (f a)) :
    Yields Q (if b then r >>= f else r' >>= f) := by
  cases b with
  | true => exact yields_bind h hf
  | false => exact yields_bind h hf

theorem yields_ite {c : Prop} [Decidable c] {r r' : Reader α} (h : Yields P r) (h' : Yields P r') :
    Yields P (if c then r else r') := by
  split
  · exact h
  · exact h'

/-- Behind a check that has to fail. -/
theorem yields_unless {c : Prop} [Decidable c] {reason : Reason} {r : Reader α}
    (h : ¬c → Yields P r) : Yields P (if c then fail reason else r) := by
  split
  · exact yields_fail
  · next hc => exact h hc

theorem offers_none : Offers P (pure none) :=
  yields_pure (by simp)

theorem offers_some {a : α} (h : P a) : Offers P (pure (some a)) :=
  yields_pure (by simpa using h)

/-- What stands behind a mark or a word that may be missing. -/
theorem offers_ite {c : Prop} [Decidable c] {p : Reader (Option α)} (h : Offers P p) :
    Offers P (if c then p else pure none) :=
  yields_ite h offers_none

/-- The reader behind what has already matched. -/
theorem offers_of_yields {r : Reader α} (h : Yields P r) :
    Offers P (r >>= fun a => pure (some a)) :=
  yields_bind h fun _ ha => offers_some ha

theorem yields_expect {p : Reader (Option α)} {reason : Reason} (h : Offers P p) :
    Yields P (expect reason p) :=
  fun c => answers_expect ((h c).mono fun _ _ ho a ha => ho a ha)

theorem offers_attempt {p : Reader (Option α)} (h : Offers P p) : Offers P (attempt p) := by
  refine fun c => answers_attempt ((h c).mono fun o c' ho => ⟨?_, by simp⟩)
  rintro a rfl
  exact ho

theorem offers_firstOf {ps : List (Reader (Option α))} (h : ∀ p ∈ ps, Offers P p) :
    Offers P (firstOf ps) := by
  induction ps with
  | nil => exact offers_none
  | cons p ps ih =>
    refine yields_bind (h p List.mem_cons_self) fun o ho => ?_
    cases o with
    | none => exact ih fun q hq => h q (List.mem_cons_of_mem p hq)
    | some a => exact offers_some (ho a rfl)

theorem offers_mapped {p : Reader (Option α)} {f : α → β} (hp : Offers P p)
    (hf : ∀ a, P a → Q (f a)) : Offers Q (mapped f p) :=
  yields_bind hp fun _ ho => yields_pure (by simpa using fun a ha => hf a (ho a ha))

theorem yields_bounded {p : Nat → Reader α} (h : ∀ n, Yields P (p n)) : Yields P (bounded p) :=
  fun c => answers_bounded fun n => h n c

theorem yields_untilDone {step : Reader (α ⊕ β)}
    (h : Yields (Sum.elim P fun _ => True) step) :
    Yields (fun r => ∀ a ∈ r.1, P a) (untilDone step) := by
  refine fun c => answers_untilDone (I := fun as _ => ∀ a ∈ as, P a)
    (Q := fun as _ _ => ∀ a ∈ as, P a) (by simp) fun as c has => (h c).mono fun r _ hr => ⟨?_, ?_⟩
  · rintro a rfl b hb
    rcases List.mem_append.mp hb with hb | hb
    · exact has b hb
    · obtain rfl : b = a := by simpa using hb
      exact hr
  · exact fun _ _ => has

theorem yields_many {step : Reader (Option α)} (h : Offers P step) :
    Yields (fun as => ∀ a ∈ as, P a) (many step) := by
  refine yields_bind (yields_untilDone (yields_bind h fun o ho => ?_)) fun r hr => yields_pure hr
  cases o with
  | none => exact yields_pure trivial
  | some a => exact yields_pure (ho a rfl)

theorem yields_afterCommas {item : Reader α} (h : Yields P item) :
    Yields (fun as => ∀ a ∈ as, P a) (afterCommas item) := by
  refine yields_many (yields_seq fun comma => offers_ite ?_)
  exact offers_of_yields h

theorem offers_commaSeparated {first : Reader (Option α)} {next : Reader α} (hfirst : Offers P first)
    (hnext : Yields P next) : Offers (fun as => ∀ a ∈ as, P a) (commaSeparated first next) := by
  refine yields_bind hfirst fun o ho => ?_
  cases o with
  | none => exact offers_none
  | some a =>
    refine yields_bind (yields_afterCommas hnext) fun as has => offers_some ?_
    simpa using ⟨ho a rfl, has⟩

theorem yields_body {d : Dialect} {entry : List Trivia → Reader α}
    (h : ∀ leading, Yields P (entry leading)) :
    Yields (fun r => ∀ a ∈ r.1, P a) (body d entry) := by
  refine yields_untilDone (yields_seq fun leading => yields_seq fun closed => ?_)
  cases closed with
  | true => exact yields_pure trivial
  | false => exact yields_bind (h leading) fun a ha => yields_pure ha

end Rules

section Types

theorem yields_namedType {inner : Reader (Option IdlType)} (hinner : Offers IdlType.Sound inner)
    (name : String) : Yields IdlType.Sound (namedType inner name) := by
  refine yields_seq fun generic => ?_
  cases generic with
  | true =>
    refine yields_bind (yields_expect hinner) fun t ht => yields_seq fun _ => ?_
    exact yields_seq fun s => yields_pure (.generic ht)
  | false =>
    refine yields_seq fun s => ?_
    -- The suffixes are known as a whole by now, so `any?[]` passes and `any[]?` does too.
    refine yields_unless fun hany => yields_pure (.named ?_)
    exact fun hname hnullable harray => hany ⟨hname, hnullable, harray⟩

theorem offers_singleType {inner : Reader (Option IdlType)} (hinner : Offers IdlType.Sound inner) :
    Offers IdlType.Sound (singleType inner) := by
  refine yields_seq fun primitive => ?_
  cases primitive with
  | some p => exact yields_seq fun s => offers_some (.primitive p.spelling_mem)
  | none =>
    refine yields_seq fun name => ?_
    cases name with
    | none => exact offers_none
    | some name => exact offers_of_yields (yields_namedType hinner name)

theorem offers_unionType {inner : Reader (Option IdlType)} (hinner : Offers IdlType.Sound inner) :
    Offers IdlType.Sound (unionType inner) := by
  refine yields_seq fun opened => offers_ite ?_
  refine yields_bind (yields_expect hinner) fun first hfirst => ?_
  have hothers : Offers IdlType.Sound (do
      if ← keyword "or" then
        return some (← expect .noUnionMember inner)
      else
        return none) := by
    refine yields_seq fun more => offers_ite ?_
    exact offers_of_yields (yields_expect hinner)
  refine yields_bind (yields_many hothers) fun others h => yields_seq fun _ => ?_
  cases others with
  | nil => exact yields_fail
  | cons second more =>
    refine yields_seq fun s => offers_some (.union (by simp) ?_)
    simpa using ⟨hfirst, by simpa using h⟩

theorem offers_idlTypeWithin (n : Nat) : Offers IdlType.Sound (idlTypeWithin n) := by
  induction n with
  | zero => exact offers_none
  | succ n ih =>
    exact offers_firstOf (by simpa using ⟨offers_singleType ih, offers_unionType ih⟩)

theorem offers_idlType : Offers IdlType.Sound idlType :=
  yields_bounded offers_idlTypeWithin

theorem yields_returnType : Yields IdlType.Sound returnType :=
  yields_expect offers_idlType

theorem yields_constType : Yields IdlType.SoundConst constType := by
  refine yields_seq fun primitive => ?_
  cases primitive with
  | some p => exact yields_seq fun nullable => yields_pure (.primitive nullable p.spelling_mem)
  | none =>
    exact yields_seq fun name => yields_seq fun nullable => yields_pure (.named name nullable)

end Types

section Attributes

theorem offers_argument {d : Dialect} {attributes : Reader (List ExtendedAttribute)}
    (h : Yields (fun es => ∀ e ∈ es, e.Sound) attributes) :
    Offers Argument.Sound (argument d attributes) := by
  refine offers_attempt (yields_seq fun leading => yields_bind h fun es hes => ?_)
  refine yields_seq fun afterAttrs => yields_seq fun optional => ?_
  refine yields_bind offers_idlType fun o ho => ?_
  cases o with
  | none => exact offers_none
  | some type =>
    -- An ellipsis is looked for only where `optional` does not stand, and a default where it does.
    have hvariadic : Yields (fun variadic : Bool => ¬(optional ∧ variadic))
        (if optional then pure false else ellipsis) := by
      cases optional with
      | true => exact yields_pure (by simp)
      | false => exact (yields_trivial ellipsis).mono (by simp)
    have hdefault : Yields (fun default : Option Literal => default.isSome → optional)
        (if optional then defaultValue else pure none) := by
      cases optional with
      | true => exact (yields_trivial defaultValue).mono (by simp)
      | false => exact yields_pure (by simp)
    refine yields_choice hvariadic fun variadic hv => yields_seq fun name => ?_
    cases name with
    | none => exact offers_none
    | some name =>
      refine yields_choice hdefault fun default hd => yields_seq fun trailing => ?_
      exact offers_some (.intro hes (ho type rfl) hd hv)

theorem offers_argumentsWith {argument : Reader (Option Argument)}
    (h : Offers Argument.Sound argument) :
    Offers (fun as => ∀ a ∈ as, a.Sound) (argumentsWith argument) :=
  offers_commaSeparated h (yields_expect h)

theorem offers_typePair :
    Offers (fun p : IdlType × IdlType => p.1.Sound ∧ p.2.Sound) typePair := by
  refine offers_attempt (yields_bind offers_idlType fun o ho => ?_)
  cases o with
  | none => exact offers_none
  | some key =>
    refine yields_seq fun comma => offers_ite ?_
    refine yields_bind offers_idlType fun o' ho' => yields_pure ?_
    simpa using fun value hvalue => ⟨ho key rfl, ho' value hvalue⟩

theorem yields_attributeParameters {argument : Reader (Option Argument)}
    (h : Offers Argument.Sound argument) :
    Yields AttributeParameters.Sound (attributeParameters argument) := by
  refine yields_seq fun opened => ?_
  cases opened with
  | false => exact yields_pure .absent
  | true =>
    refine yields_bind (?_ : Offers AttributeParameters.Sound _)
      fun parameters hps => yields_seq fun _ => yields_pure ?_
    · refine offers_firstOf (List.forall_mem_cons.mpr ⟨?_, List.forall_mem_singleton.mpr ?_⟩)
      · exact offers_mapped (offers_argumentsWith h) fun _ has => .arguments has
      · exact offers_mapped offers_typePair fun _ hp => .typePair hp.1 hp.2
    cases parameters with
    | none => exact .arguments (by simp)
    | some parameters => exact hps parameters rfl

theorem offers_extendedAttribute {argument : Reader (Option Argument)}
    (h : Offers Argument.Sound argument) :
    Offers ExtendedAttribute.Sound (extendedAttribute argument) := by
  refine yields_seq fun name => ?_
  cases name with
  | none => exact offers_none
  | some name =>
    refine yields_seq fun value => yields_bind (yields_attributeParameters h) fun _ hps => ?_
    exact offers_some (.intro hps)

theorem yields_extendedAttributesWith {argument : Reader (Option Argument)}
    (h : Offers Argument.Sound argument) :
    Yields (fun es => ∀ e ∈ es, e.Sound) (extendedAttributesWith argument) := by
  refine yields_seq fun opened => ?_
  cases opened with
  | false => exact yields_pure (by simp)
  | true =>
    have hattribute := offers_extendedAttribute h
    refine yields_bind (yields_expect hattribute) fun first hfirst => ?_
    refine yields_bind (yields_afterCommas (yields_expect hattribute)) fun others hothers => ?_
    exact yields_seq fun _ => yields_pure (by simpa using ⟨hfirst, hothers⟩)

theorem yields_extendedAttributesWithin (d : Dialect) (n : Nat) :
    Yields (fun es => ∀ e ∈ es, e.Sound) (extendedAttributesWithin d n) := by
  induction n with
  | zero => exact yields_pure (by simp)
  | succ n ih => exact yields_extendedAttributesWith (offers_argument ih)

theorem yields_extendedAttributes (d : Dialect) :
    Yields (fun es => ∀ e ∈ es, e.Sound) (extendedAttributes d) :=
  yields_bounded (yields_extendedAttributesWithin d)

theorem yields_argumentList (d : Dialect) :
    Yields (fun as => ∀ a ∈ as, a.Sound) (argumentList d) := by
  have hargument := offers_argument (d := d) (yields_extendedAttributes d)
  refine yields_bind (offers_argumentsWith hargument) fun o ho => yields_pure ?_
  cases o with
  | none => simp
  | some as => exact ho as rfl

end Attributes

section Members

theorem offers_typedef (d : Dialect) : Offers Typedef.Sound (typedef d) := by
  refine yields_seq fun begun => offers_ite ?_
  refine yields_bind (yields_extendedAttributes d) fun es hes => yields_seq fun _ => ?_
  refine yields_bind (yields_expect offers_idlType) fun type htype => ?_
  exact yields_seq fun name => yields_seq fun _ => offers_some ⟨hes, htype⟩

theorem offers_plainLiteral (w : String) {l : Literal} (h : l.SoundConst) :
    Offers Literal.SoundConst (plainLiteral w l) := by
  refine yields_seq fun found => ?_
  cases found with
  | false => exact offers_none
  | true => exact offers_some h

theorem offers_numeral : Offers Literal.SoundConst numeral := by
  refine yields_seq fun _ => offers_firstOf ?_
  have htoken (kind : TokenKind) : Offers Literal.SoundConst
      (mapped (fun t : Token => .number t.text) (token kind none)) :=
    yields_seq fun o => yields_pure (by simp [Literal.SoundConst])
  simpa using ⟨htoken .float, htoken .integer⟩

theorem offers_negativeInfinity : Offers Literal.SoundConst negativeInfinity := by
  refine yields_seq fun minus => offers_ite ?_
  refine yields_seq fun infinity => ?_
  cases infinity with
  | true => exact offers_some trivial
  | false => exact yields_seq fun _ => offers_none

theorem offers_constValue : Offers Literal.SoundConst constValue := by
  refine offers_firstOf ?_
  simp only [List.forall_mem_cons, List.not_mem_nil, false_implies, implies_true, and_true]
  exact ⟨offers_plainLiteral _ trivial, offers_plainLiteral _ trivial,
    offers_plainLiteral _ trivial, offers_plainLiteral _ trivial, offers_plainLiteral _ trivial,
    offers_numeral, offers_negativeInfinity⟩

theorem offers_const : Offers Const.Sound const := by
  refine yields_seq fun begun => offers_ite ?_
  refine yields_bind yields_constType fun type htype => yields_seq fun name => ?_
  refine yields_seq fun _ => yields_bind (yields_expect offers_constValue) fun value hvalue => ?_
  exact yields_seq fun _ => offers_some ⟨htype, hvalue⟩

theorem offers_attributeMember : Offers Attribute.Sound attributeMember := by
  refine offers_attempt (yields_seq fun isStatic => ?_)
  have hstringifier : Yields (fun stringifier : Bool => ¬(isStatic ∧ stringifier))
      (if isStatic then pure false else keyword "stringifier") := by
    cases isStatic with
    | true => exact yields_pure (by simp)
    | false => exact (yields_trivial _).mono (by simp)
  refine yields_choice hstringifier fun stringifier hs => yields_seq fun inherits => ?_
  refine yields_unless fun hinherits => yields_seq fun readonly => yields_seq fun begun => ?_
  refine offers_ite (yields_bind (yields_expect offers_idlType) fun type htype => ?_)
  refine yields_unless fun hsequence => yields_seq fun name => yields_seq fun _ => ?_
  refine offers_some ⟨htype, ?_, hs, ?_⟩
  · simpa using hsequence
  · simpa using hinherits

/-- What follows the type of an operation. -/
theorem yields_operationRest (d : Dialect) :
    Yields (fun r => ∀ a ∈ r.2, a.Sound) (operationRest d) := by
  refine yields_seq fun name => yields_seq fun _ => ?_
  refine yields_bind (yields_argumentList d) fun args hargs => ?_
  exact yields_seq fun _ => yields_seq fun _ => yields_pure hargs

theorem yields_markedOperation (d : Dialect) {specials : Specials} {isStatic stringifier : Bool}
    (h : [!specials.isEmpty, isStatic, stringifier].count true ≤ 1) :
    Yields MemberKind.Sound (markedOperation d specials isStatic stringifier) := by
  refine yields_bind yields_returnType fun type htype => ?_
  refine yields_bind (yields_operationRest d) fun r hr => yields_pure (.operation ?_)
  exact ⟨by simpa using htype, hr, h, by simp [Operation.bare]⟩

theorem operation_bare_sound : Operation.bare.Sound :=
  ⟨by simp [Operation.bare], by simp [Operation.bare], by decide, by simp [Operation.bare]⟩

theorem yields_stringifierRest (d : Dialect) : Yields MemberKind.Sound (stringifierRest d) := by
  refine yields_seq fun bare => ?_
  cases bare with
  | true => exact yields_pure (.operation operation_bare_sound)
  | false => exact yields_markedOperation d (by decide)

theorem offers_plainOperation (d : Dialect) : Offers MemberKind.Sound (plainOperation d) := by
  refine offers_attempt (yields_bind offers_idlType fun o ho => ?_)
  cases o with
  | none => exact offers_none
  | some type =>
    refine yields_seq fun iterator => ?_
    cases iterator with
    | true =>
      refine offers_of_yields (yields_seq fun produced => yields_seq fun _ => ?_)
      exact yields_pure (.iterator (ho type rfl))
    | false =>
      refine yields_seq fun call => offers_ite ?_
      refine yields_bind (yields_operationRest d) fun r hr => offers_some (.operation ?_)
      exact ⟨by simpa using ho type rfl, hr, Nat.zero_le 1, by simp [Operation.bare]⟩

/-- An operation carries the marks of the branch that it is read on. -/
theorem offers_operation (d : Dialect) : Offers MemberKind.Sound (operation d) := by
  refine yields_seq fun specials => ?_
  cases hspecials : !specials.isEmpty with
  | true => exact offers_of_yields (yields_markedOperation d (by simp [hspecials]))
  | false =>
    refine yields_seq fun isStatic => ?_
    cases isStatic with
    | true => exact offers_of_yields (yields_markedOperation d (by decide))
    | false =>
      refine yields_seq fun stringifier => ?_
      cases stringifier with
      | true => exact offers_of_yields (yields_stringifierRest d)
      | false => exact offers_plainOperation d

theorem yields_serializerPattern : Yields Serializer.Sound serializerPattern := by
  refine yields_seq fun isMap => ?_
  cases isMap with
  | true => exact yields_seq fun names => yields_seq fun _ => yields_pure (.patternMap names)
  | false =>
    refine yields_seq fun isList => ?_
    cases isList with
    | true => exact yields_seq fun names => yields_seq fun _ => yields_pure (.patternList names)
    | false => exact yields_seq fun name => yields_pure (.named name)

theorem offers_serializer (d : Dialect) : Offers Serializer.Sound (serializer d) := by
  refine yields_seq fun begun => offers_ite ?_
  refine yields_seq fun bare => ?_
  cases bare with
  | true => exact offers_some .bare
  | false =>
    refine yields_seq fun assigned => ?_
    cases assigned with
    | true =>
      refine yields_bind yields_serializerPattern fun pattern hpattern => ?_
      exact yields_seq fun _ => offers_some hpattern
    | false =>
      refine yields_bind yields_returnType fun type htype => ?_
      exact yields_bind (yields_operationRest d) fun r hr => offers_some (.operation htype hr)

theorem offers_iterableKind (readonly : Bool) :
    Offers (fun kind => readonly → kind = .maplike ∨ kind = .setlike) (iterableKind readonly) := by
  have hkeyword (kind : IterableKind) (h : readonly → kind = .maplike ∨ kind = .setlike) :
      Offers (fun kind => readonly → kind = .maplike ∨ kind = .setlike) (iterableKeyword kind) := by
    refine yields_seq fun found => ?_
    cases found with
    | false => exact offers_none
    | true => exact offers_some h
  refine offers_firstOf fun p hp => ?_
  obtain ⟨kind, hkind, rfl⟩ := List.mem_map.mp hp
  refine hkeyword kind fun hreadonly => ?_
  simpa [hreadonly] using hkind

/-- The types behind the first are as many as the kind allows. -/
theorem yields_secondType (kind : IterableKind) :
    Yields (fun ts => (∀ t ∈ ts, t.Sound) ∧ ts.length + 1 ∈ kind.typeCounts) (secondType kind) := by
  by_cases hallows : kind.allowsSecond
  · simp only [secondType, if_pos hallows]
    refine yields_seq fun comma => yields_choice (offers_ite offers_idlType) fun second hs => ?_
    refine yields_unless fun hmissing => yields_pure ⟨by simpa using hs, ?_⟩
    cases kind <;> cases second <;>
      simp_all [IterableKind.typeCounts, IterableKind.allowsSecond, IterableKind.requiresSecond]
  · simp only [secondType, if_neg hallows]
    refine yields_pure ⟨by simp, ?_⟩
    cases kind <;> simp_all [IterableKind.typeCounts, IterableKind.allowsSecond]

theorem offers_iterable : Offers Iterable.Sound iterable := by
  refine offers_attempt (yields_seq fun readonly => ?_)
  refine yields_bind (offers_iterableKind readonly) fun o ho => ?_
  cases o with
  | none => exact offers_none
  | some kind =>
    refine offers_of_yields (yields_seq fun _ => ?_)
    refine yields_bind (yields_expect offers_idlType) fun first hfirst => ?_
    refine yields_bind (yields_secondType kind) fun second hsecond => ?_
    refine yields_seq fun _ => yields_seq fun _ => yields_pure ⟨?_, hsecond.2, ho kind rfl⟩
    simpa using ⟨hfirst, hsecond.1⟩

theorem yields_interfaceMember (d : Dialect) : Yields MemberKind.Sound (interfaceMember d) := by
  have hnested : Offers Typedef.Sound (nestedTypedef d) := by
    rw [nestedTypedef]
    split
    · exact offers_typedef d
    · exact offers_none
  refine yields_expect (offers_firstOf ?_)
  simp only [List.forall_mem_cons, List.not_mem_nil, false_implies, implies_true, and_true]
  exact ⟨offers_mapped offers_const fun _ => .const, offers_mapped hnested fun _ => .typedef,
    offers_mapped offers_iterable fun _ => .iterable,
    offers_mapped (offers_serializer d) fun _ => .serializer,
    offers_mapped offers_attributeMember fun _ => .attribute, offers_operation d⟩

theorem yields_exceptionMember : Yields MemberKind.Sound exceptionMember := by
  refine yields_bind offers_const fun o ho => ?_
  cases o with
  | some c => exact yields_pure (.const (ho c rfl))
  | none =>
    refine yields_bind offers_idlType fun type htype => yields_seq fun name => ?_
    cases type with
    | none => exact yields_fail
    | some type =>
      cases name with
      | none => exact yields_fail
      | some name => exact yields_seq fun _ => yields_pure (.field ⟨htype type rfl, by simp⟩)

theorem yields_dictionaryField : Yields MemberKind.Sound dictionaryField := by
  refine yields_seq fun required => yields_bind (yields_expect offers_idlType) fun type htype => ?_
  refine yields_seq fun name => yields_seq fun default => yields_unless fun hrequired => ?_
  exact yields_seq fun _ => yields_pure (.field ⟨htype, by simpa using hrequired⟩)

theorem yields_member (d : Dialect) {kind : Reader MemberKind} (h : Yields MemberKind.Sound kind)
    (leading : List Trivia) : Yields Member.Sound (member d kind leading) := by
  refine yields_bind (yields_extendedAttributes d) fun es hes => yields_seq fun _ => ?_
  exact yields_bind h fun kind hkind => yields_pure ⟨hes, hkind⟩

end Members

section Definitions

theorem yields_inheritanceUnless (isPartial : Bool) (d : Dialect) :
    Yields (fun base => isPartial → base = none) (inheritanceUnless isPartial d) := by
  cases isPartial with
  | true => exact yields_pure (by simp)
  | false => exact (yields_trivial _).mono (by simp)

theorem yields_headedBody {R : Member → Prop} {isPartial : Bool} {noName noBody unfinished : Reason}
    {kind : Reader MemberKind} {f : String → Option String → List Member → List Trivia → α}
    (hmember : ∀ leading, Yields R (member d kind leading))
    (h : ∀ name base ms closing, (isPartial → base = none) → (∀ m ∈ ms, R m) →
      P (f name base ms closing)) :
    Yields P (headedBody d isPartial noName noBody unfinished kind f) := by
  refine yields_seq fun name => yields_bind (yields_inheritanceUnless isPartial d) fun base hbase => ?_
  refine yields_seq fun _ => yields_bind (yields_body hmember) fun r hr => ?_
  exact yields_seq fun _ => yields_pure (h name base r.1 r.2 hbase hr)

theorem yields_interfaceRest (d : Dialect) (isPartial : Bool) :
    Yields (fun i => i.Sound ∧ i.isPartial = isPartial) (interfaceRest d isPartial) := by
  rw [interfaceRest_eq]
  exact yields_headedBody (yields_member d (yields_interfaceMember d))
    fun _ _ _ _ hbase hms => ⟨⟨hms, hbase⟩, rfl⟩

theorem offers_interface (d : Dialect) (isPartial : Bool) :
    Offers DefinitionKind.Sound (interface d isPartial) := by
  have hrest := yields_interfaceRest d isPartial
  refine yields_seq fun isInterface => ?_
  cases isInterface with
  | true => exact yields_bind hrest fun i hi => offers_some (.interface hi.1)
  | false =>
    refine yields_seq fun isClass => offers_ite ?_
    exact yields_bind hrest fun i hi => offers_some (.class hi.1)

theorem yields_callbackRest (d : Dialect) : Yields Callback.Sound (callbackRest d) := by
  refine yields_seq fun name => yields_seq fun _ => ?_
  refine yields_bind yields_returnType fun type htype => yields_seq fun _ => ?_
  refine yields_bind (yields_argumentList d) fun args hargs => ?_
  exact yields_seq fun _ => yields_seq fun _ => yields_pure ⟨htype, hargs⟩

theorem offers_callback (d : Dialect) : Offers DefinitionKind.Sound (callback d) := by
  refine yields_seq fun begun => offers_ite ?_
  refine yields_seq fun isInterface => ?_
  cases isInterface with
  | true =>
    refine yields_bind (yields_interfaceRest d false) fun i hi => ?_
    exact offers_some (.callbackInterface hi.1 hi.2)
  | false =>
    refine yields_seq fun isClass => ?_
    cases isClass with
    | true => exact yields_fail
    | false => exact yields_bind (yields_callbackRest d) fun c hc => offers_some (.callback hc)

theorem offers_dictionary (d : Dialect) (isPartial : Bool) :
    Offers DefinitionKind.Sound (dictionary d isPartial) := by
  rw [dictionary_eq]
  refine yields_seq fun begun => offers_ite ?_
  refine yields_headedBody (yields_member d yields_dictionaryField) fun _ _ _ _ hbase hms => ?_
  rintro _ ⟨⟩
  exact .dictionary ⟨hms, hbase⟩

theorem offers_partialDefinition (d : Dialect) :
    Offers DefinitionKind.Sound (partialDefinition d) := by
  refine yields_seq fun begun => offers_ite ?_
  refine offers_of_yields (yields_expect (offers_firstOf ?_))
  simpa using ⟨offers_dictionary d true, offers_interface d true⟩

theorem offers_exception (d : Dialect) : Offers DefinitionKind.Sound (exception d) := by
  rw [exception_eq]
  refine yields_seq fun begun => offers_ite ?_
  refine yields_headedBody (yields_member d yields_exceptionMember) fun _ _ _ _ _ hms => ?_
  rintro _ ⟨⟩
  exact .exception hms

theorem yields_enumValue (d : Dialect) (leading : List Trivia) :
    Yields (fun r => '"' ∉ r.1.value.toList) (enumValue d leading) :=
  yields_seq fun literal => yields_seq fun trailing => yields_seq fun comma =>
    yields_pure (by simp)

theorem offers_enum (d : Dialect) : Offers DefinitionKind.Sound (enum d) := by
  refine yields_seq fun begun => offers_ite ?_
  refine yields_seq fun name => yields_seq fun _ => ?_
  refine yields_bind (yields_body (yields_enumValue d)) fun r hr => yields_seq fun _ => ?_
  refine offers_some (.enum fun v hv => ?_)
  obtain ⟨⟨v, comma⟩, hmem, rfl⟩ := List.mem_map.mp hv
  exact hr _ hmem

theorem offers_implements : Offers DefinitionKind.Sound implements := by
  refine offers_attempt (yields_seq fun target => ?_)
  cases target with
  | none => exact offers_none
  | some target =>
    refine yields_seq fun begun => offers_ite ?_
    exact yields_seq fun mixin => yields_seq fun _ => offers_some (.implements _)

theorem offers_definitionKind (d : Dialect) :
    Offers DefinitionKind.Sound (definitionKind d) := by
  refine offers_firstOf ?_
  simp only [List.forall_mem_cons, List.not_mem_nil, false_implies, implies_true, and_true]
  exact ⟨offers_callback d, offers_interface d false, offers_partialDefinition d,
    offers_dictionary d false, offers_exception d, offers_enum d,
    offers_mapped (offers_typedef d) fun _ => .typedef, offers_implements⟩

theorem yields_programEntry (d : Dialect) :
    Yields (Sum.elim Definition.Sound fun _ => True) (programEntry d) := by
  refine yields_seq fun leading => yields_bind (yields_extendedAttributes d) fun es hes => ?_
  refine yields_seq fun _ => yields_bind (offers_definitionKind d) fun o ho => ?_
  cases o with
  | some kind => exact yields_pure ⟨hes, ho kind rfl⟩
  | none => exact yields_ite (yields_pure trivial) yields_fail

theorem yields_program (d : Dialect) : Yields Program.Sound (program d) := by
  refine yields_bind (yields_untilDone (yields_programEntry d)) fun r hr => yields_seq fun c => ?_
  exact yields_ite (yields_pure hr) yields_fail

end Definitions

end WebIdl.Grammar

namespace WebIdl

/-- Whatever tokens a program was read from, and in whatever dialect, it is sound throughout. -/
theorem sound_of_parse {d : Dialect} {tokens : List Token} {p : Program}
    (h : parse d tokens = .ok p) : p.Sound := by
  obtain ⟨c, hrun⟩ := parse_eq_ok_iff.mp h
  exact Grammar.yields_program d _ p c hrun

/-- A name with a blank in it is in no text, but in a token list it may be. -/
theorem sound_of_parse_names :
    ∃ p, parse {} [.word "typedef", .word "any", .mark "?", .mark "[", .mark "]", .word "x y",
        .mark ";"] = .ok p ∧
      writeDefinitions p.definitions = "typedef any?[] x y;" ∧ p.Sound := by
  obtain ⟨p, hp, hwritten⟩ := @exists_of_map_eq_ok _ _ _
    (fun p : Program => writeDefinitions p.definitions)
    (parse {} [.word "typedef", .word "any", .mark "?", .mark "[", .mark "]", .word "x y",
      .mark ";"]) "typedef any?[] x y;" (by decide +kernel)
  exact ⟨p, hp, hwritten, sound_of_parse hp⟩

end WebIdl
