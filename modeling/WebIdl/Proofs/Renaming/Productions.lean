import WebIdl.Proofs.Renaming.Rules

/-!
# The grammar and the names behind escape marks

Every production of the grammar comes to the same end over renamed tokens. Most of them never look
at a name. Three look at names that have been read, and there the telling names are kept apart: a
type named `any` takes no `?` of its own, an attribute has no `sequence` type, and the patterns of
serializers end behind `getter` and `inherit`.
-/

namespace WebIdl

open Token

variable {ρ : Renaming} {α β : Type}

set_option synthInstance.maxSize 1024

/-- The words that productions ask for. -/
abbrev askedWords : List String :=
  ["unsigned", "short", "long", "unrestricted", "float", "double", "boolean", "byte", "octet",
    "or", "true", "false", "null", "Infinity", "NaN", "optional", "typedef", "const", "static",
    "stringifier", "inherit", "readonly", "attribute", "object", "iterator", "serializer",
    "required", "extends", "class", "interface", "callback", "dictionary", "partial", "exception",
    "enum", "implements"]

/-- The word is in the list. -/
class Among (w : String) (ws : List String) : Prop where
  mem : w ∈ ws

instance among_head (w : String) (ws : List String) : Among w (w :: ws) :=
  ⟨List.mem_cons_self⟩

instance among_tail (w v : String) (ws : List String) [h : Among w ws] : Among w (v :: ws) :=
  ⟨List.mem_cons_of_mem v h.mem⟩

theorem unmarked_of_mem {w : String} (hw : w ∈ askedWords) : Unmarked w :=
  (show ∀ w ∈ askedWords, Unmarked w by decide) w hw

namespace Grammar

variable [Compared α] [Compared β]

theorem blind_keyword_of_unmarked {w : String} (hw : Unmarked w) :
    Blind ρ (keyword w : Reader Bool) := by
  have hword := @blind_word ρ w hw
  unfold keyword
  infer_instance

instance blind_keyword (w : String) [hw : Among w askedWords] :
    Blind ρ (keyword w : Reader Bool) :=
  blind_keyword_of_unmarked (unmarked_of_mem hw.mem)

instance blind_symbol (m : String) : Blind ρ (symbol m : Reader Bool) := by
  unfold symbol
  infer_instance

instance blind_identifier : Blind ρ (identifier : Reader (Option String)) := by
  unfold identifier
  infer_instance

instance parallel_expectSymbol (m : String) {reason reason' : Reason} [Akin ρ reason reason'] :
    Parallel ρ (expectSymbol m reason : Reader Unit) (expectSymbol m reason') := by
  unfold expectSymbol
  infer_instance

instance blind_expectIdentifier (reason : Reason) :
    Blind ρ (expectIdentifier reason : Reader String) :=
  parallel_expect

instance parallel_afterCommas {item item' : Reader α} [Parallel ρ item item'] :
    Parallel ρ (afterCommas item) (afterCommas item') := by
  unfold afterCommas
  infer_instance

instance parallel_commaSeparated {first first' : Reader (Option α)} {next next' : Reader α}
    [Parallel ρ first first'] [Parallel ρ next next'] :
    Parallel ρ (commaSeparated first next) (commaSeparated first' next') := by
  unfold commaSeparated
  infer_instance

instance blind_body {d : Dialect} {entry : List Trivia → Reader α}
    [∀ leading, Blind ρ (entry leading)] : Blind ρ (body d entry) := by
  unfold body
  infer_instance

instance blind_integerType : Blind ρ (integerType : Reader _) := by
  unfold integerType
  infer_instance

instance blind_floatType : Blind ρ (floatType : Reader _) := by
  unfold floatType
  infer_instance

instance blind_plainType (w : String) [Among w askedWords] (p : Primitive) :
    Blind ρ (plainType w p : Reader _) := by
  unfold plainType
  infer_instance

instance blind_primitiveType : Blind ρ (primitiveType : Reader _) := by
  unfold primitiveType
  infer_instance

instance blind_moreSuffix (s : Suffix) : Blind ρ (moreSuffix s : Reader _) := by
  unfold moreSuffix
  infer_instance

instance blind_suffixes : Blind ρ (suffixes : Reader _) := by
  unfold suffixes
  infer_instance

/-- Both types are named `any` or neither is. -/
instance parallel_namedType {inner inner' : Reader (Option IdlType)} [Parallel ρ inner inner']
    {name name' : String} [hname : Akin ρ name name'] :
    Parallel ρ (namedType inner name) (namedType inner' name') := by
  have hany : name = "any" ↔ name' = "any" := hname.agree.eq_iff (by decide)
  have hplain (s : Suffix) : Parallel ρ
      (if name = "any" ∧ s.nullable ∧ s.array = [] then fail .nullableAny
        else pure (.named name s) : Reader IdlType)
      (if name' = "any" ∧ s.nullable ∧ s.array = [] then fail .nullableAny
        else pure (.named name' s)) :=
    parallel_ite_of_iff (and_congr_left fun _ => hany) parallel_fail parallel_pure
  unfold namedType
  infer_instance

instance parallel_singleType {inner inner' : Reader (Option IdlType)} [Parallel ρ inner inner'] :
    Parallel ρ (singleType inner) (singleType inner') := by
  unfold singleType
  infer_instance

instance parallel_unionType {inner inner' : Reader (Option IdlType)} [Parallel ρ inner inner'] :
    Parallel ρ (unionType inner) (unionType inner') := by
  unfold unionType
  infer_instance

instance blind_idlTypeWithin (n : Nat) : Blind ρ (idlTypeWithin n : Reader _) := by
  induction n with
  | zero => exact parallel_pure
  | succ n ih =>
    unfold idlTypeWithin idlTypeWith
    infer_instance

instance blind_idlType : Blind ρ (idlType : Reader _) := by
  unfold idlType
  infer_instance

instance blind_returnType : Blind ρ (returnType : Reader _) := by
  unfold returnType
  infer_instance

instance blind_plainLiteral (w : String) [Among w askedWords] (l : Literal) :
    Blind ρ (plainLiteral w l : Reader _) := by
  unfold plainLiteral
  infer_instance

instance blind_numeral : Blind ρ (numeral : Reader _) := by
  unfold numeral
  infer_instance

instance blind_negativeInfinity : Blind ρ (negativeInfinity : Reader _) := by
  have hback : Blind ρ (modify Cursor.unconsume : Reader PUnit) :=
    ⟨fun _ _ hc => .ok rfl hc.unconsume⟩
  unfold negativeInfinity
  infer_instance

instance blind_constValue : Blind ρ (constValue : Reader _) := by
  unfold constValue
  infer_instance

instance blind_emptySequence : Blind ρ (emptySequence : Reader _) := by
  unfold emptySequence
  infer_instance

instance blind_stringLiteral : Blind ρ (stringLiteral : Reader _) := by
  unfold stringLiteral
  infer_instance

instance blind_defaultValue : Blind ρ (defaultValue : Reader _) := by
  unfold defaultValue
  infer_instance

instance blind_ellipsis : Blind ρ (ellipsis : Reader _) := by
  unfold ellipsis
  infer_instance

instance parallel_argument {d : Dialect}
    {attributes attributes' : Reader (List ExtendedAttribute)} [Parallel ρ attributes attributes'] :
    Parallel ρ (argument d attributes) (argument d attributes') := by
  unfold argument
  infer_instance

instance parallel_argumentsWith {argument argument' : Reader (Option Argument)}
    [Parallel ρ argument argument'] :
    Parallel ρ (argumentsWith argument) (argumentsWith argument') := by
  unfold argumentsWith
  infer_instance

instance blind_typePair : Blind ρ (typePair : Reader _) := by
  unfold typePair
  infer_instance

instance blind_moreNames : Blind ρ (moreNames : Reader _) := by
  unfold moreNames
  infer_instance

instance blind_nameList : Blind ρ (nameList : Reader _) := by
  unfold nameList
  infer_instance

instance blind_attributeValue : Blind ρ (attributeValue : Reader _) := by
  unfold attributeValue
  infer_instance

instance parallel_attributeParameters {argument argument' : Reader (Option Argument)}
    [Parallel ρ argument argument'] :
    Parallel ρ (attributeParameters argument) (attributeParameters argument') := by
  unfold attributeParameters
  infer_instance

instance parallel_extendedAttribute {argument argument' : Reader (Option Argument)}
    [Parallel ρ argument argument'] :
    Parallel ρ (extendedAttribute argument) (extendedAttribute argument') := by
  unfold extendedAttribute
  infer_instance

instance parallel_extendedAttributesWith {argument argument' : Reader (Option Argument)}
    [Parallel ρ argument argument'] :
    Parallel ρ (extendedAttributesWith argument) (extendedAttributesWith argument') := by
  unfold extendedAttributesWith
  infer_instance

instance blind_extendedAttributesWithin (d : Dialect) (n : Nat) :
    Blind ρ (extendedAttributesWithin d n : Reader _) := by
  induction n with
  | zero => exact parallel_pure
  | succ n ih =>
    unfold extendedAttributesWithin
    infer_instance

instance blind_extendedAttributes (d : Dialect) : Blind ρ (extendedAttributes d : Reader _) := by
  unfold extendedAttributes
  infer_instance

instance blind_argumentList (d : Dialect) : Blind ρ (argumentList d : Reader _) := by
  unfold argumentList
  infer_instance

instance blind_typedef (d : Dialect) : Blind ρ (typedef d : Reader _) := by
  unfold typedef
  infer_instance

instance blind_constType : Blind ρ (constType : Reader _) := by
  unfold constType
  infer_instance

instance blind_const : Blind ρ (const : Reader _) := by
  unfold const
  infer_instance

instance blind_attributeMember : Blind ρ (attributeMember : Reader _) := by
  unfold attributeMember
  infer_instance

instance blind_operationRest (d : Dialect) : Blind ρ (operationRest d : Reader _) := by
  unfold operationRest
  infer_instance

instance blind_special (s : Special) : Blind ρ (special s : Reader _) := by
  have hword : Blind ρ (keyword s.keyword : Reader Bool) :=
    blind_keyword_of_unmarked (by cases s <;> decide)
  unfold special
  infer_instance

instance blind_specials : Blind ρ (specials : Reader _) := by
  have hspecial := @blind_firstOf_map ρ Special _ _ special Special.all _
  unfold specials
  infer_instance

instance blind_markedOperation (d : Dialect) (marks : Specials) (isStatic stringifier : Bool) :
    Blind ρ (markedOperation d marks isStatic stringifier : Reader _) := by
  unfold markedOperation
  infer_instance

instance blind_stringifierRest (d : Dialect) : Blind ρ (stringifierRest d : Reader _) := by
  unfold stringifierRest
  infer_instance

instance blind_iteratorObject : Blind ρ (iteratorObject : Reader _) := by
  unfold iteratorObject
  infer_instance

instance parallel_iteratorRest (type type' : IdlType) :
    Parallel ρ (iteratorRest type) (iteratorRest type') := by
  unfold iteratorRest
  infer_instance

/-- Both runs look ahead and are back at their starts. -/
instance blind_callAhead : Blind ρ (callAhead : Reader _) := by
  refine ⟨fun c c' hc => ?_⟩
  show Alike ρ
    ((identifier >>= fun _ => symbol "(" >>= fun isCall => set c >>= fun _ => pure isCall :
      Reader Bool) c)
    ((identifier >>= fun _ => symbol "(" >>= fun isCall => set c' >>= fun _ => pure isCall :
      Reader Bool) c')
  refine alike_bind (blind_identifier.alike c c' hc) fun _ _ c1 c1' _ hc1 => ?_
  refine alike_bind ((blind_symbol "(").alike c1 c1' hc1) fun isCall isCall' _ _ hcall _ => ?_
  exact .ok hcall hc

instance blind_plainOperation (d : Dialect) : Blind ρ (plainOperation d : Reader _) := by
  unfold plainOperation
  infer_instance

instance blind_operation (d : Dialect) : Blind ρ (operation d : Reader _) := by
  unfold operation
  infer_instance

/-- The first name is `getter` in both patterns or in neither, and so with `inherit`. -/
instance blind_patternNames (inheritMore : Bool) :
    Blind ρ (patternNames inheritMore : Reader _) := by
  have hnames (n : Agreeing ρ String) : Parallel ρ
      (if n.left = "getter" ∨ (n.left = "inherit" ∧ !inheritMore) then pure [n.left]
        else moreNames >>= fun names => pure (n.left :: names) : Reader (List String))
      (if n.right = "getter" ∨ (n.right = "inherit" ∧ !inheritMore) then pure [n.right]
        else moreNames >>= fun names => pure (n.right :: names)) := by
    have hgetter : n.left = "getter" ↔ n.right = "getter" := n.agree.eq_iff (by decide)
    have hinherit : n.left = "inherit" ↔ n.right = "inherit" := n.agree.eq_iff (by decide)
    exact parallel_ite_of_iff (or_congr hgetter (and_congr_left fun _ => hinherit)) parallel_pure
      parallel_bind
  unfold patternNames
  infer_instance

instance blind_serializerPattern : Blind ρ (serializerPattern : Reader _) := by
  unfold serializerPattern
  infer_instance

instance blind_serializer (d : Dialect) : Blind ρ (serializer d : Reader _) := by
  unfold serializer
  infer_instance

instance blind_iterableKeyword (kind : IterableKind) :
    Blind ρ (iterableKeyword kind : Reader _) := by
  have hword : Blind ρ (keyword kind.keyword : Reader Bool) :=
    blind_keyword_of_unmarked (by cases kind <;> decide)
  unfold iterableKeyword
  infer_instance

instance blind_iterableKind (readonly : Bool) : Blind ρ (iterableKind readonly : Reader _) :=
  blind_firstOf_map _

instance blind_secondType (kind : IterableKind) : Blind ρ (secondType kind : Reader _) := by
  unfold secondType
  infer_instance

instance blind_iterableRest (readonly : Bool) (kind : IterableKind) :
    Blind ρ (iterableRest readonly kind : Reader _) := by
  unfold iterableRest
  infer_instance

instance blind_iterable : Blind ρ (iterable : Reader _) := by
  unfold iterable
  infer_instance

instance blind_nestedTypedef (d : Dialect) : Blind ρ (nestedTypedef d : Reader _) := by
  unfold nestedTypedef
  infer_instance

instance blind_interfaceMember (d : Dialect) : Blind ρ (interfaceMember d : Reader _) := by
  unfold interfaceMember
  infer_instance

instance blind_exceptionField : Blind ρ (exceptionField : Reader _) := by
  unfold exceptionField
  infer_instance

instance blind_exceptionMember : Blind ρ (exceptionMember : Reader _) := by
  unfold exceptionMember
  infer_instance

instance blind_dictionaryField : Blind ρ (dictionaryField : Reader _) := by
  unfold dictionaryField
  infer_instance

instance parallel_member {d : Dialect} {kind kind' : Reader MemberKind}
    [Parallel ρ kind kind'] (leading : List Trivia) :
    Parallel ρ (member d kind leading) (member d kind' leading) := by
  unfold member
  infer_instance

instance blind_extendsKeyword (d : Dialect) : Blind ρ (extendsKeyword d : Reader _) := by
  unfold extendsKeyword
  infer_instance

instance blind_inheritance (d : Dialect) : Blind ρ (inheritance d : Reader _) := by
  unfold inheritance
  infer_instance

instance blind_inheritanceUnless (isPartial : Bool) (d : Dialect) :
    Blind ρ (inheritanceUnless isPartial d : Reader _) := by
  unfold inheritanceUnless
  infer_instance

instance blind_interfaceRest (d : Dialect) (isPartial : Bool) :
    Blind ρ (interfaceRest d isPartial : Reader _) := by
  unfold interfaceRest
  infer_instance

instance blind_classKeyword (d : Dialect) : Blind ρ (classKeyword d : Reader _) := by
  unfold classKeyword
  infer_instance

instance blind_interface (d : Dialect) (isPartial : Bool) :
    Blind ρ (interface d isPartial : Reader _) := by
  unfold interface
  infer_instance

instance blind_callbackRest (d : Dialect) : Blind ρ (callbackRest d : Reader _) := by
  unfold callbackRest
  infer_instance

instance blind_callback (d : Dialect) : Blind ρ (callback d : Reader _) := by
  unfold callback
  infer_instance

instance blind_dictionary (d : Dialect) (isPartial : Bool) :
    Blind ρ (dictionary d isPartial : Reader _) := by
  unfold dictionary
  infer_instance

instance blind_partialDefinition (d : Dialect) : Blind ρ (partialDefinition d : Reader _) := by
  unfold partialDefinition
  infer_instance

instance blind_exception (d : Dialect) : Blind ρ (exception d : Reader _) := by
  unfold exception
  infer_instance

instance blind_enumValue (d : Dialect) (leading : List Trivia) :
    Blind ρ (enumValue d leading : Reader _) := by
  unfold enumValue
  infer_instance

instance blind_enum (d : Dialect) : Blind ρ (enum d : Reader _) := by
  unfold enum
  infer_instance

instance blind_implements : Blind ρ (implements : Reader _) := by
  unfold implements
  infer_instance

instance blind_definitionKind (d : Dialect) : Blind ρ (definitionKind d : Reader _) := by
  unfold definitionKind
  infer_instance

instance blind_programEntry (d : Dialect) : Blind ρ (programEntry d : Reader _) := by
  unfold programEntry
  infer_instance

instance blind_program (d : Dialect) : Blind ρ (program d : Reader _) := by
  have hentries : Blind ρ (untilDone (programEntry d) : Reader _) := inferInstance
  refine ⟨fun c c' hc => alike_bind (hentries.alike c c' hc) fun r r' c1 c1' _ hc1 => ?_⟩
  show Alike ρ
    ((if c1.atEnd then pure ⟨r.1, r.2⟩ else fail .unrecognised : Reader Program) c1)
    ((if c1'.atEnd then pure ⟨r'.1, r'.2⟩ else fail .unrecognised : Reader Program) c1')
  rw [← hc1.atEnd]
  exact parallel_ite.alike c1 c1' hc1

end Grammar

end WebIdl
