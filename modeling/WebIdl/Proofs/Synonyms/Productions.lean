import WebIdl.Proofs.Synonyms.Rules

/-!
# The statements of the grammar over lists in step

Every production that is used inside of a statement, or inside of a list of attributes, is followed
by itself, and those that make up a statement take its `;` last. None of them reads a `:`. A string
is read as a default only, so that a `=` or a minus stands in front of it.
-/

namespace WebIdl.Grammar

open Token Cursor

variable {α : Type} {S : List Token → List Token → Prop}

set_option synthInstance.maxSize 1024

section Types

instance keeps_integerType : Keeps S (integerType : Reader _) := by
  unfold integerType
  infer_instance

instance keeps_floatType : Keeps S (floatType : Reader _) := by
  unfold floatType
  infer_instance

instance keeps_plainType (w : String) (p : Primitive) : Keeps S (plainType w p : Reader _) := by
  unfold plainType
  infer_instance

instance keeps_primitiveType : Keeps S (primitiveType : Reader _) := by
  unfold primitiveType
  infer_instance

instance keeps_moreSuffix (s : Suffix) : Keeps S (moreSuffix s : Reader _) := by
  unfold moreSuffix
  infer_instance

instance keeps_suffixes : Keeps S (suffixes : Reader _) := by
  unfold suffixes
  infer_instance

instance keeps_namedType {inner : Reader (Option IdlType)} [Keeps S inner] (name : String) :
    Keeps S (namedType inner name) := by
  unfold namedType
  infer_instance

instance keeps_singleType {inner : Reader (Option IdlType)} [Keeps S inner] :
    Keeps S (singleType inner) := by
  unfold singleType
  infer_instance

instance keeps_unionType {inner : Reader (Option IdlType)} [Productive inner] [Keeps S inner] :
    Keeps S (unionType inner) := by
  unfold unionType
  infer_instance

instance keeps_idlTypeWithin (n : Nat) : Keeps S (idlTypeWithin n : Reader _) := by
  induction n with
  | zero => exact keeps_pure none
  | succ n ih =>
    unfold idlTypeWithin idlTypeWith
    infer_instance

instance keeps_idlType : Keeps S (idlType : Reader _) :=
  moves_bounded stable_idlTypeWithin

instance keeps_returnType : Keeps S (returnType : Reader _) := by
  unfold returnType
  infer_instance

end Types

section Literals

instance keeps_plainLiteral (w : String) (l : Literal) : Keeps S (plainLiteral w l : Reader _) := by
  unfold plainLiteral
  infer_instance

instance keeps_numeral : Keeps S (numeral : Reader _) := by
  have := @keeps_token S .float none (by decide) (by decide)
  have := @keeps_token S .integer none (by decide) (by decide)
  unfold numeral
  infer_instance

/-- The step back behind a minus leads both runs to the same place. -/
instance keeps_negativeInfinity : Keeps S (negativeInfinity : Reader _) := by
  constructor
  intro n
  apply follows_bind (follows_symbol "-" n)
  intro minus
  cases minus with
  | false => exact follows_pure fun _ _ h => h
  | true =>
    have hword : Follows (Read S n "-")
        (fun found => cond found (Cursor.InStep S (some n)) fun c c' =>
          c.unconsume.InStep S (some n) c'.unconsume)
        (keyword "Infinity") (keyword "Infinity") := by
      apply follows_bind (R := fun _ c c' => c.InStep S (some n) c' ∧
        c.unconsume.InStep S (some n) c'.unconsume)
      · rintro _ _ h
        apply answers_skip
        refine ⟨_, rfl, (h.inStep (by decide)).skip, ?_⟩
        obtain ⟨h, hafter, hafter'⟩ := h
        exact h.minus hafter hafter'
      · intro
        apply follows_bind (R := fun o c c' => o.elim (c.InStep S (some n) c' ∧
          c.unconsume.InStep S (some n) c'.unconsume) fun _ => c.InStep S (some n) c')
        · apply follows_token
          · exact fun c c' hc => hc.1.head?
          · intro c c' t rest rest' hc hafter hafter' ht _
            exact hc.1.next_of_kind hafter hafter' (by simp [ht]) (by simp [ht])
          · exact fun c c' hc => hc
        · intro o
          cases o with
          | none => exact follows_pure fun _ _ h => h.2
          | some t => exact follows_pure fun _ _ h => h
    apply follows_bind hword
    intro found
    cases found with
    | true => exact follows_pure fun _ _ h => h
    | false =>
      rintro c c' h _ _ ⟨⟩
      exact ⟨c'.unconsume, rfl, h⟩

instance keeps_constValue : Keeps S (constValue : Reader _) := by
  unfold constValue
  infer_instance

instance keeps_emptySequence : Keeps S (emptySequence : Reader _) := by
  unfold emptySequence
  infer_instance

/-- What was read last is a `=`, or a minus that no value follows. -/
def Awaiting (c : Cursor) : Prop :=
  c.behind = some (mark "=") ∨ c.behind = some (mark "-")

/-- Where the production does not match, a value is awaited still. -/
class Waits (p : Reader (Option α)) : Prop where
  answers : ∀ c, Awaiting c → Answers c p fun o c1 => o = none → Awaiting c1

theorem Awaiting.skip {c : Cursor} (h : Awaiting c) : Awaiting c.skip := by
  rwa [Awaiting, behind_skip]

instance waits_token (kind : TokenKind) (text : Option String) :
    Waits (token kind text : Reader (Option Token)) :=
  ⟨fun _ hc => answers_token (fun _ _ _ _ _ h => absurd h (by simp)) fun _ _ => hc⟩

instance waits_mapped {β : Type} {g : α → β} {p : Reader (Option α)} [hp : Waits p] :
    Waits (mapped g p) := by
  constructor
  intro c hc
  apply answers_bind
  intro o c1 hrun
  apply answers_pure
  simpa using hp.answers c hc o c1 hrun

instance waits_firstOf_nil : Waits (firstOf [] : Reader (Option α)) :=
  ⟨fun _ hc => answers_pure fun _ => hc⟩

instance waits_firstOf {p : Reader (Option α)} {ps : List (Reader (Option α))} [hp : Waits p]
    [hps : Waits (firstOf ps)] : Waits (firstOf (p :: ps)) := by
  constructor
  intro c hc
  apply answers_bind
  intro o c1 hrun
  cases o with
  | none => exact hps.answers c1 (hp.answers c hc none c1 hrun rfl)
  | some a => exact answers_pure (by simp)

theorem answers_symbol_waiting {c : Cursor} {m : String} (hc : Awaiting c) :
    Answers c (symbol m) fun found c1 => if found then
      ∃ u rest, Awaiting u ∧ c1 = u.next (mark m) rest else Awaiting c1 := by
  apply answers_bind
  apply answers_skip
  apply answers_bind
  apply answers_token
  · intro t rest hafter ht htext
    obtain rfl : t = mark m := eq_of_asked ht htext
    exact answers_pure ⟨c.skip, rest, hc.skip, rfl⟩
  · exact fun _ => answers_pure hc.skip

instance waits_plainLiteral (w : String) (l : Literal) : Waits (plainLiteral w l : Reader _) := by
  constructor
  intro c hc
  apply answers_bind
  apply answers_bind
  apply answers_skip
  apply answers_bind
  intro o c1 hrun
  apply answers_pure
  apply answers_pure
  cases o with
  | none => exact fun _ => (waits_token _ _).answers c.skip hc.skip none c1 hrun rfl
  | some t => simp

instance waits_numeral : Waits (numeral : Reader _) := by
  constructor
  intro c hc
  apply answers_bind
  apply answers_skip
  exact waits_firstOf.answers c.skip hc.skip

instance waits_negativeInfinity : Waits (negativeInfinity : Reader _) := by
  constructor
  intro c hc
  apply answers_bind
  intro minus c1 hrun
  have h1 := answers_symbol_waiting hc minus c1 hrun
  cases minus with
  | false => exact answers_pure fun _ => h1
  | true =>
    obtain ⟨u, rest, hu, rfl⟩ := h1
    apply answers_bind
    apply answers_bind
    apply answers_skip
    apply answers_bind
    apply answers_token
    · exact fun _ _ _ _ _ => answers_pure (answers_pure (by simp))
    · intro
      apply answers_pure
      apply answers_bind
      apply answers_modify
      apply answers_pure
      intro
      have hminus : (mark "-").isWhitespace = false := rfl
      rcases stepBack u hminus rest with ⟨-, hbehind, -⟩ | ⟨_, -, -, hbehind, -⟩
      · rwa [Awaiting, hbehind]
      · exact .inr hbehind

instance waits_emptySequence : Waits (emptySequence : Reader _) := by
  constructor
  intro c hc
  apply answers_bind
  intro opened c1 hrun
  have h1 := answers_symbol_waiting hc opened c1 hrun
  cases opened with
  | false => exact answers_pure fun _ => h1
  | true => exact answers_bind fun _ _ _ => answers_pure (by simp)

instance waits_constValue : Waits (constValue : Reader _) := by
  unfold constValue
  infer_instance

/-- A value is awaited at cursors in step. -/
def Awaits (S : List Token → List Token → Prop) (n : Nat) (c c' : Cursor) : Prop :=
  c.InStep S (some n) c' ∧ Awaiting c

theorem follows_waits {n : Nat} {p : Reader (Option α)} [hp : Keeps S p] [hwaits : Waits p] :
    Follows (Awaits S n) (fun o => o.elim (Awaits S n) fun _ => Cursor.InStep S (some n)) p p := by
  rintro c c' ⟨hc, hawaiting⟩ o c1 hrun
  obtain ⟨c1', hrun', h1⟩ := hp.follows n c c' hc o c1 hrun
  refine ⟨c1', hrun', ?_⟩
  cases o with
  | none => exact ⟨h1, hwaits.answers c hawaiting none c1 hrun rfl⟩
  | some a => exact h1

/-- The string of a default is no wall. -/
theorem follows_stringLiteral {n : Nat} :
    Follows (Awaits S n) (fun o => o.elim (Awaits S n) fun _ => Cursor.InStep S (some n))
      stringLiteral stringLiteral := by
  apply follows_bind (follows_skip fun _ _ h => ⟨h.1.skip, h.2.skip⟩)
  intro
  apply follows_bind (R := fun o => o.elim (Awaits S n) fun _ => Cursor.InStep S (some n))
  · apply follows_token
    · exact fun c c' hc => hc.1.head?
    · rintro c c' t rest rest' ⟨hc, hawaiting⟩ hafter hafter' ht -
      show (c.next t rest).InStep S (some n) (c'.next t rest')
      have hdepth : t.depth n = some n := depth_of_kind (by simp [ht])
      rw [← hdepth]
      apply hc.next hafter hafter'
      rintro (rfl | ⟨-, u, hu, hkind⟩)
      · exact TokenKind.noConfusion ht
      · rcases hawaiting with hbehind | hbehind
        · obtain rfl := Option.some.inj (hbehind.symm.trans hu)
          exact absurd hkind (by decide)
        · obtain rfl := Option.some.inj (hbehind.symm.trans hu)
          exact absurd hkind (by decide)
    · exact fun c c' hc => hc
  · intro o
    cases o with
    | none => exact follows_pure fun _ _ h => h
    | some t => exact follows_pure fun _ _ h => h

instance keeps_defaultValue : Keeps S (defaultValue : Reader _) := by
  constructor
  intro n
  have hvalue : Follows (Awaits S n)
      (fun o => o.elim (Awaits S n) fun _ => Cursor.InStep S (some n))
      (firstOf [constValue, emptySequence, stringLiteral])
      (firstOf [constValue, emptySequence, stringLiteral]) := by
    apply follows_firstOf
    simp only [List.forall_mem_cons]
    exact ⟨follows_waits, follows_waits, follows_stringLiteral, by simp⟩
  apply follows_bind (follows_symbol "=" n)
  intro equals
  cases equals with
  | false => exact follows_pure fun _ _ h => h
  | true =>
    apply follows_bind (R := fun _ => Cursor.InStep S (some n))
    · apply follows_bind (R := fun o => o.elim (Awaits S n) fun _ => Cursor.InStep S (some n))
      · intro c c' hc
        apply hvalue
        refine ⟨hc.inStep (by decide), ?_⟩
        cases hc
        exact .inl (behind_next _ _ _)
      · intro o
        cases o with
        | none => exact follows_fail
        | some a => exact follows_pure fun _ _ h => h
    · exact fun _ => follows_pure fun _ _ h => h

end Literals

section Attributes

instance keeps_ellipsis : Keeps S (ellipsis : Reader _) := by
  unfold ellipsis
  infer_instance

instance keeps_argument {d : Dialect} {attributes : Reader (List ExtendedAttribute)}
    [Keeps S attributes] : Keeps S (argument d attributes) := by
  unfold argument
  infer_instance

instance keeps_argumentsWith {argument : Reader (Option Argument)} [Productive argument]
    [Keeps S argument] : Keeps S (argumentsWith argument) := by
  unfold argumentsWith
  infer_instance

instance keeps_typePair : Keeps S (typePair : Reader _) := by
  unfold typePair
  infer_instance

instance keeps_moreNames : Keeps S (moreNames : Reader _) := by
  unfold moreNames
  infer_instance

instance keeps_nameList : Keeps S (nameList : Reader _) := by
  unfold nameList
  infer_instance

instance keeps_attributeValue : Keeps S (attributeValue : Reader _) := by
  unfold attributeValue
  infer_instance

instance keeps_attributeParameters {argument : Reader (Option Argument)} [Productive argument]
    [Keeps S argument] : Keeps S (attributeParameters argument) := by
  unfold attributeParameters
  infer_instance

instance keeps_extendedAttribute {argument : Reader (Option Argument)} [Productive argument]
    [Keeps S argument] : Keeps S (extendedAttribute argument) := by
  unfold extendedAttribute
  infer_instance

instance keeps_extendedAttributesWith {argument : Reader (Option Argument)} [Productive argument]
    [Keeps S argument] : Keeps S (extendedAttributesWith argument) := by
  unfold extendedAttributesWith
  infer_instance

instance keeps_extendedAttributesWithin (d : Dialect) (n : Nat) :
    Keeps S (extendedAttributesWithin d n : Reader _) := by
  induction n with
  | zero => exact keeps_pure []
  | succ n ih =>
    unfold extendedAttributesWithin
    infer_instance

instance keeps_extendedAttributes (d : Dialect) : Keeps S (extendedAttributes d : Reader _) :=
  moves_bounded (stable_extendedAttributesWithin d)

instance keeps_argumentList (d : Dialect) : Keeps S (argumentList d : Reader _) := by
  unfold argumentList
  infer_instance

end Attributes

section Members

instance tries_typedef (d : Dialect) : Tries S (typedef d : Reader _) := by
  unfold typedef
  infer_instance

instance keeps_constType : Keeps S (constType : Reader _) := by
  unfold constType
  infer_instance

instance tries_const : Tries S (const : Reader _) := by
  unfold const
  infer_instance

instance tries_attributeMember : Tries S (attributeMember : Reader _) := by
  unfold attributeMember
  infer_instance

instance closes_operationRest (d : Dialect) : Closes S (operationRest d : Reader _) := by
  unfold operationRest
  infer_instance

instance keeps_special (s : Special) : Keeps S (special s : Reader _) := by
  unfold special
  infer_instance

instance keeps_specials : Keeps S (specials : Reader _) := by
  have := @keeps_firstOf_map Special Special S special Special.all _
  unfold specials
  infer_instance

instance closes_markedOperation (d : Dialect) (marks : Specials) (isStatic stringifier : Bool) :
    Closes S (markedOperation d marks isStatic stringifier : Reader _) := by
  unfold markedOperation
  infer_instance

instance closes_stringifierRest (d : Dialect) : Closes S (stringifierRest d : Reader _) := by
  unfold stringifierRest
  infer_instance

instance keeps_iteratorObject : Keeps S (iteratorObject : Reader _) := by
  unfold iteratorObject
  infer_instance

instance closes_iteratorRest (type : IdlType) : Closes S (iteratorRest type : Reader _) := by
  unfold iteratorRest
  infer_instance

/-- Both runs look ahead and are back at their starts. -/
instance keeps_callAhead : Keeps S (callAhead : Reader _) := by
  constructor
  intro n c c' hc
  have hlook : Follows (Cursor.InStep S (some n)) (fun _ => Cursor.InStep S (some n))
      (identifier >>= fun _ => symbol "(" >>= fun isCall => set c >>= fun _ => pure isCall)
      (identifier >>= fun _ => symbol "(" >>= fun isCall => set c' >>= fun _ => pure isCall) := by
    apply follows_bind (keeps_identifier.follows n)
    intro
    apply follows_bind ((keeps_symbol "(").follows n)
    rintro isCall _ _ - _ _ ⟨⟩
    exact ⟨c', rfl, hc⟩
  exact hlook c c' hc

instance tries_plainOperation (d : Dialect) : Tries S (plainOperation d : Reader _) := by
  unfold plainOperation
  infer_instance

instance tries_operation (d : Dialect) : Tries S (operation d : Reader _) := by
  unfold operation
  infer_instance

instance keeps_patternNames (inheritMore : Bool) :
    Keeps S (patternNames inheritMore : Reader _) := by
  unfold patternNames
  infer_instance

instance keeps_serializerPattern : Keeps S (serializerPattern : Reader _) := by
  unfold serializerPattern
  infer_instance

instance tries_serializer (d : Dialect) : Tries S (serializer d : Reader _) := by
  unfold serializer
  infer_instance

instance keeps_iterableKeyword (kind : IterableKind) :
    Keeps S (iterableKeyword kind : Reader _) := by
  unfold iterableKeyword
  infer_instance

instance keeps_iterableKind (readonly : Bool) : Keeps S (iterableKind readonly : Reader _) :=
  keeps_firstOf_map _

instance keeps_secondType (kind : IterableKind) : Keeps S (secondType kind : Reader _) := by
  unfold secondType
  infer_instance

instance closes_iterableRest (readonly : Bool) (kind : IterableKind) :
    Closes S (iterableRest readonly kind : Reader _) := by
  unfold iterableRest
  infer_instance

instance tries_iterable : Tries S (iterable : Reader _) := by
  unfold iterable
  infer_instance

instance tries_nestedTypedef (d : Dialect) : Tries S (nestedTypedef d : Reader _) := by
  unfold nestedTypedef
  infer_instance

instance closes_interfaceMember (d : Dialect) : Closes S (interfaceMember d : Reader _) := by
  unfold interfaceMember
  infer_instance

instance closes_exceptionField : Closes S (exceptionField : Reader _) := by
  unfold exceptionField
  infer_instance

instance closes_exceptionMember : Closes S (exceptionMember : Reader _) := by
  unfold exceptionMember
  infer_instance

instance closes_dictionaryField : Closes S (dictionaryField : Reader _) := by
  unfold dictionaryField
  infer_instance

instance closes_member {d : Dialect} {kind : Reader MemberKind} [Closes S kind]
    (leading : List Trivia) : Closes S (member d kind leading) := by
  unfold member
  infer_instance

instance closes_callbackRest (d : Dialect) : Closes S (callbackRest d : Reader _) := by
  unfold callbackRest
  infer_instance

end Members

end WebIdl.Grammar
