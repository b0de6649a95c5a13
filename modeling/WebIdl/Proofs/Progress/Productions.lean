import WebIdl.Proofs.Progress.Bounds
import WebIdl.Proofs.Progress.Watched

/-!
# Progress of a parse

At every point of a parse the cursor stands inside the token list and its line agrees with the
blanks behind it. A production never ends in front of its start, and one that has found something
ends behind a token that is not blank. So a loop goes on for no more rounds than there are tokens,
and a type or an argument inside another one starts strictly behind the start of the outer one.
Nothing is assumed of the tokens.
-/

namespace WebIdl.Cursor

open Token

/-- The cursor stands in the list, its line counts the line feeds of the blanks behind it, and a
step back does not lead in front of the first line. -/
structure Sane (ts : List Token) (c : Cursor) : Prop where
  tokens_eq : c.tokens = ts
  position_le : c.position ≤ ts.length
  line_eq : c.line = 1 + lineFeeds ((ts.take c.position).filter isWhitespace)
  newlines_lt : ∀ t ∈ c.before.head?, t.isWhitespace → t.newlines < c.line

/-- Between the cursors stand these tokens. -/
structure Between (c c' : Cursor) (read : List Token) : Prop where
  after_eq : c.after = read ++ c'.after
  before_eq : c'.before = read.reverse ++ c.before

variable {ts : List Token} {c c' : Cursor}

theorem newlines_le_lineFeeds {t : Token} (h : t ∈ ts) : t.newlines ≤ lineFeeds ts := by
  induction ts with
  | nil => cases h
  | cons u us ih =>
    rcases List.mem_cons.mp h with rfl | h
    · exact Nat.le_add_right ..
    · exact Nat.le_trans (ih h) (Nat.le_add_left ..)

theorem sane_of_reaches (h : Reaches (ofTokens ts) c) : Sane ts c := by
  obtain ⟨read, hafter, hbefore, hline, -⟩ := h
  have hts : ts = read ++ c.after := hafter
  have hread : c.before.reverse = read := by
    rw [hbefore]
    simp [ofTokens]
  have hposition : c.position = read.length := by
    rw [position, ← hread, List.length_reverse]
  have htake : ts.take c.position = read := by
    rw [hposition, hts, List.take_left]
  constructor
  · rw [tokens, hread, hts]
  · rw [hposition, hts, List.length_append]
    exact Nat.le_add_right ..
  · rw [htake]
    exact hline
  · intro t ht hblank
    have hmem : t ∈ read.filter isWhitespace := by
      rw [← hread]
      exact List.mem_filter.mpr ⟨List.mem_reverse.mpr (List.mem_of_mem_head? ht), hblank⟩
    have hle := newlines_le_lineFeeds hmem
    have hstart : (ofTokens ts).line = 1 := rfl
    omega

theorem Reaches.exists_between (h : Reaches c c') : ∃ read, Between c c' read := by
  obtain ⟨read, hafter, hbefore, -⟩ := h
  exact ⟨read, hafter, hbefore⟩

theorem Clears.exists_solid {read : List Token} (h : Clears c c') (hread : Between c c' read) :
    ∃ t ∈ read, t.isWhitespace = false := by
  have hlt := h.length_lt
  have happend : c.ahead = solids read ++ c'.ahead := by
    rw [ahead, hread.after_eq, solids, List.filter_append]
    rfl
  have hpos : 0 < (solids read).length := by
    rw [happend, List.length_append] at hlt
    omega
  obtain ⟨t, ht⟩ := List.exists_mem_of_length_pos hpos
  obtain ⟨hmem, hsolid⟩ := List.mem_filter.mp ht
  exact ⟨t, hmem, by simpa using hsolid⟩

/-- Where each step passes a token that is not blank, there are no more steps than tokens. -/
theorem length_le_of_isChain {turn : Cursor → Cursor → Prop}
    (hturn : ∀ c c', turn c c' → Clears c c') {cs : List Cursor}
    (h : List.IsChain turn (c :: cs)) : cs.length ≤ c.ahead.length := by
  induction cs generalizing c with
  | nil => exact Nat.zero_le _
  | cons c1 cs ih =>
    obtain ⟨hfirst, hrest⟩ := List.isChain_cons_cons.mp h
    exact Nat.lt_of_le_of_lt (ih hrest) (hturn c c1 hfirst).length_lt

theorem length_ahead_le (c : Cursor) : c.ahead.length ≤ c.tokens.length := by
  rw [tokens, List.length_append]
  exact Nat.le_trans (List.length_filter_le ..) (Nat.le_add_left ..)

end WebIdl.Cursor

namespace WebIdl.Grammar

open Token Cursor

variable {α β σ : Type} {d : Dialect}

theorem gains_untilDone {step : Reader (α ⊕ β)} (hstep : Gains (fun r => r.isLeft) step) :
    Gains (fun r => r.1 ≠ []) (untilDone step) := by
  have hforward : Forward step := hstep.forward
  rw [untilDone_eq hstep]
  refine gains_bind hstep (fun r _ => ?_) fun r hr => ?_
  · cases r with
    | inl a => exact gains_behind
    | inr b => exact forward_pure _
  · cases r with
    | inl a => exact absurd rfl hr
    | inr b => exact gains_pure (by simp)

/-- A loop that ends with a token has read one. -/
theorem consuming_untilDone {step : Reader (α ⊕ β)} [hstep : Consuming step] :
    Consuming (untilDone step) := by
  have hleft : Gains (fun r => r.isLeft) step :=
    ⟨fun c => (hstep.answers c).mono fun _ _ h => ⟨h.1, fun _ => h.2 trivial⟩⟩
  rw [untilDone_eq hleft]
  refine gains_bind hstep (fun r _ => ?_) fun r hr => absurd trivial hr
  cases r with
  | inl a => exact gains_behind
  | inr b => exact forward_pure _

instance gains_many {step : Reader (Option α)} [Productive step] :
    Gains (fun as => as ≠ []) (many step) := by
  refine gains_bind (gains_untilDone gains_round) (fun _ _ => forward_pure _) fun r hr => ?_
  exact gains_pure hr

instance productive_comma {item : Reader α} [Forward item] : Productive (do
    if ← symbol "," then return some (← item) else return none) :=
  gains_ifSymbol

instance gains_afterCommas {item : Reader α} [Forward item] :
    Gains (fun as => as ≠ []) (afterCommas item) := by
  rw [afterCommas]
  infer_instance

instance consuming_body {entry : List Trivia → Reader α} [∀ leading, Consuming (entry leading)] :
    Consuming (body d entry) := by
  have hround : Consuming (bodyRound d entry) := by
    refine gains_bind (forward_trivia d) (fun _ => False.elim) fun leading _ => ?_
    refine gains_bind (gains_symbol _) (fun closed hclosed => ?_) fun closed hclosed => ?_
    · subst hclosed
      exact forward_pure _
    · rw [if_neg hclosed]
      exact gains_front
  exact @consuming_untilDone _ _ (bodyRound d entry) hround

instance gains_specials : Gains (fun s => !s.isEmpty) specials := by
  refine gains_bind gains_many (fun _ _ => forward_pure _) fun marks hmarks => ?_
  obtain rfl : marks = [] := by simpa using hmarks
  exact gains_pure (by decide)

/-- A state that has changed has been changed by a production that matched. -/
theorem gains_iterate {step : σ → Reader (Option σ)} [hstep : ∀ s, Productive (step s)] (s : σ) :
    Gains (fun t => t ≠ s) (iterate step s) := by
  have hrounds (n : Nat) : Gains (fun t => t ≠ s) (iterateWithin step n s) := by
    cases n with
    | zero => exact gains_pure (by simp)
    | succ n =>
      refine gains_bind (hstep s) (fun o _ => ?_) fun o ho => ?_
      · cases o with
        | none => exact forward_pure s
        | some t => exact forward_iterateWithin n t
      · cases o with
        | none => exact gains_pure (by simp)
        | some t => exact absurd rfl ho
  exact gains_bounded

instance gains_suffixes : Gains (fun s => s ≠ {}) suffixes :=
  gains_iterate _

instance gains_moreNames : Gains (fun names => names ≠ []) moreNames :=
  gains_afterCommas

instance gains_nameList : Gains (fun names => names ≠ []) nameList := by
  refine gains_bind productive_identifier (fun _ _ => inferInstance) fun first hfirst => ?_
  obtain rfl : first = none := by simpa using hfirst
  refine gains_bind gains_moreNames (fun _ _ => forward_pure _) fun names hnames => ?_
  exact gains_pure hnames

instance gains_ellipsis : Gains (fun dots => dots = true) ellipsis := by
  have hdot : Productive (token .other (some ".")) := productive_mark "."
  have hdots : Productive (do
      let first ← token .other (some ".")
      let second ← if first.isSome then token .other (some ".") else pure none
      if second.isSome then token .other (some ".") else return none : Reader (Option Token)) := by
    refine gains_bind hdot.forward (fun _ => False.elim) fun first _ => ?_
    infer_instance
  refine gains_bind forward_skip (fun _ => False.elim) fun _ _ => ?_
  refine gains_bind (@productive_attempt _ _ hdots) (fun _ _ => forward_pure _) fun dots hno => ?_
  exact gains_pure hno

instance gains_attributeValue : Gains (fun value => value ≠ .absent) attributeValue := by
  have habsent : Gains (fun value => value ≠ .absent) (pure AttributeValue.absent) :=
    gains_pure (by simp)
  rw [attributeValue]
  infer_instance

instance gains_attributeParameters {argument : Reader (Option Argument)} [Productive argument] :
    Gains (fun parameters => parameters ≠ .absent) (attributeParameters argument) := by
  have habsent : Gains (fun parameters => parameters ≠ .absent) (pure AttributeParameters.absent) :=
    gains_pure (by simp)
  rw [attributeParameters]
  infer_instance

instance gains_extendedAttributesWith {argument : Reader (Option Argument)}
    [Productive argument] : Gains (fun attributes => attributes ≠ [])
      (extendedAttributesWith argument) := by
  have hnone : Gains (fun attributes => attributes ≠ []) (pure ([] : List ExtendedAttribute)) :=
    gains_pure (by simp)
  rw [extendedAttributesWith]
  infer_instance

instance gains_extendedAttributesWithin (d : Dialect) (n : Nat) :
    Gains (fun attributes => attributes ≠ []) (extendedAttributesWithin d n) := by
  cases n with
  | zero => exact gains_pure (by simp)
  | succ n => exact gains_extendedAttributesWith

instance gains_extendedAttributes (d : Dialect) :
    Gains (fun attributes => attributes ≠ []) (extendedAttributes d) :=
  gains_bounded

instance gains_argumentList (d : Dialect) :
    Gains (fun arguments => arguments ≠ []) (argumentList d) := by
  have hargument : Productive (argument d (extendedAttributes d)) := productive_argument
  refine gains_bind productive_argumentsWith (fun _ _ => forward_pure _) fun o ho => ?_
  obtain rfl : o = none := by simpa using ho
  exact gains_pure (by simp)

instance gains_iteratorObject : Gains (fun produced => produced ≠ .absent) iteratorObject := by
  have habsent : Gains (fun produced => produced ≠ .absent) (pure IteratorObject.absent) :=
    gains_pure (by simp)
  rw [iteratorObject]
  infer_instance

instance gains_patternNames (inheritMore : Bool) :
    Gains (fun names => names ≠ []) (patternNames inheritMore) := by
  have hnone : Gains (fun names => names ≠ []) (pure ([] : List String)) := gains_pure (by simp)
  rw [patternNames]
  infer_instance

instance gains_secondType (kind : IterableKind) :
    Gains (fun types => types ≠ []) (secondType kind) := by
  have hnone : Gains (fun types => types ≠ []) (pure ([] : List IdlType)) := gains_pure (by simp)
  have hsecond : Gains (fun types => types ≠ []) (pure (none : Option IdlType) >>= fun second =>
      if second.isNone && kind.requiresSecond then fail (.noSecondType kind)
      else pure second.toList) := by
    rw [pure_bind, Option.toList_none]
    infer_instance
  rw [secondType]
  infer_instance

instance productive_inheritance (d : Dialect) : Productive (inheritance d) := by
  have hextends : Gains (fun b => b = true) (extendsKeyword d) := by
    rw [extendsKeyword]
    split
    · exact gains_keyword _
    · exact gains_pure (by simp)
  refine gains_bind (gains_symbol ":") (fun b hb => ?_) fun b hb => ?_
  · infer_instance
  · rw [if_neg hb]
    refine gains_bind hextends (fun b hb => ?_) fun b hb => ?_
    · infer_instance
    · rw [if_neg hb]
      infer_instance

instance gains_program (d : Dialect) : Gains (fun p => p.definitions ≠ []) (program d) := by
  have hget : Forward (get : Reader Cursor) :=
    ⟨fun c => answers_get ⟨reaches_refl c, False.elim⟩⟩
  rw [program]
  refine gains_bind (gains_untilDone (gains_programEntry d)) (fun _ _ => inferInstance) fun r hr => ?_
  refine gains_bind hget (fun _ => False.elim) fun c _ => ?_
  split
  · exact gains_pure hr
  · infer_instance

/-- The productions, each with what makes its answer a node. Where `P` is never met the production
only looks ahead. -/
inductive Production (d : Dialect) : {α : Type} → (α → Prop) → Reader α → Prop
  | program : Production d (fun p => p.definitions ≠ []) (program d)
  | programEntry : Production d (fun r => r.isLeft) (programEntry d)
  | definitionKind : Production d (fun o => o.isSome) (definitionKind d)
  | callback : Production d (fun o => o.isSome) (callback d)
  | callbackRest : Production d (fun _ => True) (callbackRest d)
  | interface (isPartial : Bool) : Production d (fun o => o.isSome) (interface d isPartial)
  | interfaceRest (isPartial : Bool) : Production d (fun _ => True) (interfaceRest d isPartial)
  | partialDefinition : Production d (fun o => o.isSome) (partialDefinition d)
  | dictionary (isPartial : Bool) : Production d (fun o => o.isSome) (dictionary d isPartial)
  | exception : Production d (fun o => o.isSome) (exception d)
  | enum : Production d (fun o => o.isSome) (enum d)
  | enumValue (leading : List Trivia) : Production d (fun _ => True) (enumValue d leading)
  | typedef : Production d (fun o => o.isSome) (typedef d)
  | nestedTypedef : Production d (fun o => o.isSome) (nestedTypedef d)
  | implements : Production d (fun o => o.isSome) implements
  | inheritance : Production d (fun o => o.isSome) (inheritance d)
  | interfaceBody : Production d (fun _ => True) (body d (member d (interfaceMember d)))
  | dictionaryBody : Production d (fun _ => True) (body d (member d dictionaryField))
  | exceptionBody : Production d (fun _ => True) (body d (member d exceptionMember))
  | enumBody : Production d (fun _ => True) (body d (enumValue d))
  | interfaceMember (leading : List Trivia) :
      Production d (fun _ => True) (member d (interfaceMember d) leading)
  | dictionaryMember (leading : List Trivia) :
      Production d (fun _ => True) (member d dictionaryField leading)
  | exceptionMember (leading : List Trivia) :
      Production d (fun _ => True) (member d exceptionMember leading)
  | memberKind : Production d (fun _ => True) (Grammar.interfaceMember d)
  | dictionaryField : Production d (fun _ => True) dictionaryField
  | exceptionField : Production d (fun _ => True) exceptionField
  | const : Production d (fun o => o.isSome) const
  | constType : Production d (fun _ => True) constType
  | attributeMember : Production d (fun o => o.isSome) attributeMember
  | operation : Production d (fun o => o.isSome) (operation d)
  | plainOperation : Production d (fun o => o.isSome) (plainOperation d)
  | markedOperation (marks : Specials) (isStatic stringifier : Bool) :
      Production d (fun _ => True) (markedOperation d marks isStatic stringifier)
  | stringifierRest : Production d (fun _ => True) (stringifierRest d)
  | operationRest : Production d (fun _ => True) (operationRest d)
  | special (s : Special) : Production d (fun o => o.isSome) (special s)
  | specials : Production d (fun s => !s.isEmpty) specials
  | callAhead : Production d (fun _ => False) callAhead
  | iteratorRest (type : IdlType) : Production d (fun _ => True) (iteratorRest type)
  | iteratorObject : Production d (fun produced => produced ≠ .absent) iteratorObject
  | serializer : Production d (fun o => o.isSome) (serializer d)
  | serializerPattern : Production d (fun _ => True) serializerPattern
  | patternNames (inheritMore : Bool) :
      Production d (fun names => names ≠ []) (patternNames inheritMore)
  | iterable : Production d (fun o => o.isSome) iterable
  | iterableKind (readonly : Bool) : Production d (fun o => o.isSome) (iterableKind readonly)
  | iterableRest (readonly : Bool) (kind : IterableKind) :
      Production d (fun _ => True) (iterableRest readonly kind)
  | secondType (kind : IterableKind) : Production d (fun types => types ≠ []) (secondType kind)
  | integerType : Production d (fun o => o.isSome) integerType
  | floatType : Production d (fun o => o.isSome) floatType
  | primitiveType : Production d (fun o => o.isSome) primitiveType
  | moreSuffix (s : Suffix) : Production d (fun o => o.isSome) (moreSuffix s)
  | suffixes : Production d (fun s => s ≠ {}) suffixes
  | singleType (n : Nat) : Production d (fun o => o.isSome) (singleType (idlTypeWithin n))
  | namedType (n : Nat) (name : String) :
      Production d (fun _ => False) (namedType (idlTypeWithin n) name)
  | unionType (n : Nat) : Production d (fun o => o.isSome) (unionType (idlTypeWithin n))
  | idlTypeWithin (n : Nat) : Production d (fun o => o.isSome) (idlTypeWithin n)
  | idlType : Production d (fun o => o.isSome) idlType
  | returnType : Production d (fun _ => True) returnType
  | constValue : Production d (fun o => o.isSome) constValue
  | numeral : Production d (fun o => o.isSome) numeral
  | negativeInfinity : Production d (fun o => o.isSome) negativeInfinity
  | stringLiteral : Production d (fun o => o.isSome) stringLiteral
  | emptySequence : Production d (fun o => o.isSome) emptySequence
  | defaultValue : Production d (fun o => o.isSome) defaultValue
  | ellipsis : Production d (fun dots => dots = true) ellipsis
  | argument (n : Nat) :
      Production d (fun o => o.isSome) (argument d (extendedAttributesWithin d n))
  | argumentList : Production d (fun arguments => arguments ≠ []) (argumentList d)
  | typePair : Production d (fun o => o.isSome) typePair
  | moreNames : Production d (fun names => names ≠ []) moreNames
  | nameList : Production d (fun names => names ≠ []) nameList
  | attributeValue : Production d (fun value => value ≠ .absent) attributeValue
  | attributeParameters (n : Nat) : Production d (fun parameters => parameters ≠ .absent)
      (attributeParameters (Grammar.argument d (extendedAttributesWithin d n)))
  | extendedAttribute (n : Nat) : Production d (fun o => o.isSome)
      (extendedAttribute (Grammar.argument d (extendedAttributesWithin d n)))
  | extendedAttributesWithin (n : Nat) :
      Production d (fun attributes => attributes ≠ []) (extendedAttributesWithin d n)
  | extendedAttributes :
      Production d (fun attributes => attributes ≠ []) (extendedAttributes d)

theorem Production.gains {P : α → Prop} {r : Reader α} (h : Production d P r) : Gains P r := by
  cases h <;> infer_instance

/-- The reader answers with `P` and stands at the second cursor then. -/
def Goes (P : α → Prop) (r : Reader α) (c c' : Cursor) : Prop :=
  ∃ a, r c = .ok (a, c') ∧ P a

/-- One round of `many`. -/
def round (step : Reader (Option α)) : Reader (α ⊕ Unit) := do
  match ← step with
  | some a => return .inl a
  | none => return .inr ()

/-- An item behind a comma. -/
def commaItem (item : Reader α) : Reader (Option α) := do
  if ← symbol "," then
    return some (← item)
  else
    return none

/-- One more member of a union. -/
def unionMember (inner : Reader (Option IdlType)) : Reader (Option IdlType) := do
  if ← keyword "or" then
    return some (← expect .noUnionMember inner)
  else
    return none

/-- The rounds of the loops that gather what they read. -/
inductive Round (d : Dialect) : {α β : Type} → Reader (α ⊕ β) → Prop
  | definitions : Round d (programEntry d)
  | interfaceMembers : Round d (bodyRound d (member d (interfaceMember d)))
  | dictionaryMembers : Round d (bodyRound d (member d dictionaryField))
  | exceptionMembers : Round d (bodyRound d (member d exceptionMember))
  | enumValues : Round d (bodyRound d (enumValue d))
  | specials : Round d (round (firstOf (Special.all.map special)))
  | unionMembers (n : Nat) : Round d (round (unionMember (idlTypeWithin n)))
  | names : Round d (round (commaItem (expectIdentifier .trailingNameComma)))
  | arguments (n : Nat) : Round d (round (commaItem (expect .trailingArgumentComma
      (argument d (extendedAttributesWithin d n)))))
  | attributes (n : Nat) : Round d (round (commaItem (expect .trailingAttributeComma
      (extendedAttribute (argument d (extendedAttributesWithin d n))))))

/-- The loops: when a round goes on to the next one, and the loop under a bound on its rounds. -/
inductive Loop (d : Dialect) : {α : Type} → (Cursor → Cursor → Prop) → (Nat → Reader α) → Prop
  | gathering {γ δ : Type} {step : Reader (γ ⊕ δ)} :
      Round d step → Loop d (Goes (fun r => r.isLeft) step) (untilWithin step)
  | suffixes (s : Suffix) : Loop d (fun c c' => ∃ s, Goes (fun o => o.isSome) (moreSuffix s) c c')
      fun n => iterateWithin moreSuffix n s

theorem Gains.clears {P : α → Prop} {r : Reader α} {c c' : Cursor} (h : Gains P r)
    (hgoes : Goes P r c c') : Clears c c' := by
  obtain ⟨a, hrun, ha⟩ := hgoes
  exact (h.answers c a c' hrun).2 ha

theorem Round.gains {step : Reader (α ⊕ β)} (h : Round d step) :
    Gains (fun r => r.isLeft) step := by
  cases h with
  | definitions => infer_instance
  | interfaceMembers | dictionaryMembers | exceptionMembers | enumValues => exact gains_bodyRound
  | specials => exact gains_round
  | unionMembers n => exact @gains_round _ _ gains_ifKeyword
  | names | arguments n | attributes n => exact @gains_round _ _ productive_comma

theorem Loop.clears {turn : Cursor → Cursor → Prop} {p : Nat → Reader α} (h : Loop d turn p)
    {c c' : Cursor} (hturn : turn c c') : Clears c c' := by
  cases h with
  | gathering hround => exact hround.gains.clears hturn
  | suffixes s =>
    obtain ⟨s, hgoes⟩ := hturn
    exact (productive_moreSuffix s).clears hgoes

theorem Loop.stable {turn : Cursor → Cursor → Prop} {p : Nat → Reader α} (h : Loop d turn p) :
    Stable p := by
  cases h with
  | gathering hround => exact stable_untilWithin hround.gains
  | suffixes s => exact stable_iterateWithin productive_moreSuffix s

/-- What a reader does behind the start decides what it does where fewer tokens are ahead. -/
theorem agree_of_clears {r r' : Reader α} {c : Cursor} (h : ∀ c', Clears c c' → r c' = r' c') :
    Agree c c.ahead.length r r' :=
  fun c' hreaches hlt => h c' ⟨hreaches, hlt⟩

/-- The types inside a type start strictly behind its start. -/
theorem idlTypeWith_congr {inner inner' : Reader (Option IdlType)} (hinner : Productive inner)
    {c : Cursor} (h : ∀ c', Clears c c' → inner c' = inner' c') :
    idlTypeWith inner c = idlTypeWith inner' c := by
  have hagree := agree_of_clears h
  exact agree_idlTypeWith hagree c (reaches_refl c) (Nat.lt_succ_self _)

/-- The arguments inside the attributes of an argument start strictly behind its start. -/
theorem argument_congr {inner inner' : Reader (Option Argument)} (hinner : Productive inner)
    {c : Cursor} (h : ∀ c', Clears c c' → inner c' = inner' c') :
    argument d (extendedAttributesWith inner) c = argument d (extendedAttributesWith inner') c :=
  agree_argument (agree_extendedAttributesWith (agree_of_clears h)) c (reaches_refl c)
    (Nat.lt_succ_self _)

/-- The cursors that a parse of the list passes. -/
def points (d : Dialect) (ts : List Token) : List Cursor :=
  ofTokens ts :: ((program d : Watched Program) (ofTokens ts)).2

/-- A parse goes forward. Its cursors stay within the list, and a production that matches has passed
a token that is not blank. So a loop ends with the tokens at the latest, and what is nested in a type
or in an argument is read behind its start. -/
theorem program_progresses (d : Dialect) (ts : List Token) :
    ((program d : Watched Program) (ofTokens ts)).1 = (program d : Reader Program) (ofTokens ts) ∧
    (∀ c ∈ points d ts, Sane ts c) ∧
    (∀ (α : Type) (P : α → Prop) (r : Reader α), Production d P r → ∀ c a c',
      r c = .ok (a, c') → ∃ read, Between c c' read ∧ (P a → ∃ t ∈ read, t.isWhitespace = false)) ∧
    (∀ (α : Type) turn (p : Nat → Reader α), Loop d turn p → ∀ c,
      (∀ cs, List.IsChain turn (c :: cs) → cs.length ≤ c.tokens.length) ∧
      ∀ n, c.tokens.length < n → bounded p c = p n c) ∧
    (∀ inner inner' : Reader (Option IdlType), Productive inner → ∀ c,
      (∀ c', Clears c c' → inner c' = inner' c') → idlTypeWith inner c = idlTypeWith inner' c) ∧
    (∀ inner inner' : Reader (Option Argument), Productive inner → ∀ c,
      (∀ c', Clears c c' → inner c' = inner' c') →
        argument d (extendedAttributesWith inner) c =
          argument d (extendedAttributesWith inner') c) := by
  have hwatched := (seen_program d).honest (ofTokens ts)
  refine ⟨hwatched.result, ?_, ?_, ?_, ?_, ?_⟩
  · intro c hc
    exact sane_of_reaches (hwatched.reaches c hc)
  · intro α P r hr c a c' hrun
    obtain ⟨hreaches, hclears⟩ := hr.gains.answers c a c' hrun
    obtain ⟨read, hread⟩ := hreaches.exists_between
    exact ⟨read, hread, fun ha => (hclears ha).exists_solid hread⟩
  · intro α turn p hloop c
    have hahead := length_ahead_le c
    constructor
    · intro cs hcs
      exact Nat.le_trans (length_le_of_isChain (fun _ _ => hloop.clears) hcs) hahead
    · intro n hn
      exact bounded_eq hloop.stable (Nat.lt_of_le_of_lt hahead hn)
  · intro inner inner' hinner c h
    exact idlTypeWith_congr hinner h
  · intro inner inner' hinner c h
    exact argument_congr hinner h

end WebIdl.Grammar
