import WebIdl.IterableKind
import WebIdl.Token

/-!
# Parse errors

Why a parse stopped, and where. The first failure of a production that has committed itself is
the answer of the whole parse.
-/

namespace WebIdl

/-- What a production missed or could not accept. -/
inductive Reason where
  | incompleteInteger
  | incompleteFloat
  | nullableTwice
  | unclosedArray
  | genericArgument (name : String)
  | unclosedGeneric (name : String)
  | nullableAny
  | emptyUnion
  | noUnionMember
  | unclosedUnion
  | lonelyUnionMember
  | noReturnType
  | filledSequence
  | noDefault
  | trailingArgumentComma
  | trailingNameComma
  | unclosedAttributeParameters
  | noAttributeValue
  | emptyAttributes
  | trailingAttributeComma
  | unclosedAttributes
  | noConstType
  | noConstName
  | noConstAssignment
  | noConstValue
  | unfinishedConst
  | inheritStaticOrStringifier
  | noAttributeType
  | sequenceAttribute
  | noAttributeName
  | unfinishedAttribute
  | invalidOperation
  | unfinishedOperation
  | noIteratorName
  | unfinishedIterator
  | unclosedSerializerMap
  | unclosedSerializerList
  | invalidSerializer
  | unfinishedSerializer
  | iterableDeclaration (kind : IterableKind)
  | noSecondType (kind : IterableKind)
  | unclosedIterable (kind : IterableKind)
  | unfinishedIterable (kind : IterableKind)
  | unknownMember
  | noBase
  | callbackClass
  | noCallbackName
  | noCallbackAssignment
  | noCallbackArguments
  | unfinishedCallback
  | noInterfaceName
  | noInterfaceBody
  | unfinishedInterface
  | lonelyPartial
  | noDictionaryName
  | noDictionaryBody
  | noFieldType
  | noFieldName
  | requiredWithDefault
  | unfinishedField
  | unfinishedDictionary
  | noExceptionName
  | noExceptionBody
  | unknownExceptionMember
  | unfinishedException
  | noEnumName
  | noEnumBody
  | unexpectedEnumValue
  | unfinishedEnum
  | noTypedefType
  | noTypedefName
  | unfinishedTypedef
  | incompleteImplements
  | unfinishedImplements
  | strayAttributes
  | unrecognised
  /-- The reason of a caller who drives a cursor by hand. -/
  | custom (text : String)
deriving DecidableEq, Repr

namespace Reason

def text : Reason → String
  | incompleteInteger => "Failed to parse integer type"
  | incompleteFloat => "Failed to parse float type"
  | nullableTwice => "Can't nullable more than once"
  | unclosedArray => "Unterminated array type"
  | genericArgument name => "Error parsing generic type " ++ name
  | unclosedGeneric name => "Unterminated generic type " ++ name
  | nullableAny => "Type any cannot be made nullable"
  | emptyUnion => "Union type with no content"
  | noUnionMember => "No type after 'or' in union type"
  | unclosedUnion => "Unterminated union type"
  | lonelyUnionMember => "Union type needs at least two member types"
  | noReturnType => "No return type"
  | filledSequence => "Default sequence value must be empty"
  | noDefault => "No value for default"
  | trailingArgumentComma => "Trailing comma in arguments list"
  | trailingNameComma => "Trailing comma in identifiers list"
  | unclosedAttributeParameters =>
    "Unexpected token in extended attribute argument list or type pair"
  | noAttributeValue => "No right hand side to extended attribute assignment"
  | emptyAttributes => "Extended attribute with not content"
  | trailingAttributeComma => "Trailing comma in extended attribute"
  | unclosedAttributes => "No end of extended attribute"
  | noConstType => "No type for const"
  | noConstName => "No name for const"
  | noConstAssignment => "No value assignment for const"
  | noConstValue => "No value for const"
  | unfinishedConst => "Unterminated const"
  | inheritStaticOrStringifier => "Cannot have a static or stringifier inherit"
  | noAttributeType => "No type in attribute"
  | sequenceAttribute => "Attributes cannot accept sequence types"
  | noAttributeName => "No name in attribute"
  | unfinishedAttribute => "Unterminated attribute"
  | invalidOperation => "Invalid operation"
  | unfinishedOperation => "Unterminated operation"
  | noIteratorName => "No right hand side in iterator"
  | unfinishedIterator => "Unterminated iterator"
  | unclosedSerializerMap => "Unterminated serializer pattern map"
  | unclosedSerializerList => "Unterminated serializer pattern list"
  | invalidSerializer => "Invalid serializer"
  | unfinishedSerializer => "Unterminated serializer"
  | iterableDeclaration kind => "Error parsing " ++ kind.keyword ++ " declaration"
  | noSecondType kind => "Missing second type argument in " ++ kind.keyword ++ " declaration"
  | unclosedIterable kind => "Unterminated " ++ kind.keyword ++ " declaration"
  | unfinishedIterable kind => "Missing semicolon after " ++ kind.keyword ++ " declaration"
  | unknownMember => "Unknown member"
  | noBase => "No type in inheritance"
  | callbackClass => "No such thing as callback class"
  | noCallbackName => "No name for callback"
  | noCallbackAssignment => "No assignment in callback"
  | noCallbackArguments => "No arguments in callback"
  | unfinishedCallback => "Unterminated callback"
  | noInterfaceName => "No name for interface"
  | noInterfaceBody => "Bodyless interface"
  | unfinishedInterface => "Missing semicolon after interface"
  | lonelyPartial => "Partial doesn't apply to anything"
  | noDictionaryName => "No name for dictionary"
  | noDictionaryBody => "Bodyless dictionary"
  | noFieldType => "No type for dictionary member"
  | noFieldName => "No name for dictionary member"
  | requiredWithDefault => "Required member must not have a default"
  | unfinishedField => "Unterminated dictionary member"
  | unfinishedDictionary => "Missing semicolon after dictionary"
  | noExceptionName => "No name for exception"
  | noExceptionBody => "Bodyless exception"
  | unknownExceptionMember => "Unknown member in exception body"
  | unfinishedException => "Missing semicolon after exception"
  | noEnumName => "No name for enum"
  | noEnumBody => "No curly for enum"
  | unexpectedEnumValue => "Unexpected value in enum"
  | unfinishedEnum => "No semicolon after enum"
  | noTypedefType => "No type in typedef"
  | noTypedefName => "No name in typedef"
  | unfinishedTypedef => "Unterminated typedef"
  | incompleteImplements => "Incomplete implements statement"
  | unfinishedImplements => "No terminating ; for implements statement"
  | strayAttributes => "Stray extended attributes"
  | unrecognised => "Unrecognised tokens"
  | custom text => text

end Reason

/-- The reason, the line on which it arose, and the tokens that were pending there. -/
structure ParseError where
  reason : Reason
  line : Nat
  tokens : List Token
deriving DecidableEq, Repr

namespace ParseError

/-- The pending tokens as they stand in the source. -/
def input (e : ParseError) : String :=
  Token.source e.tokens

def message (e : ParseError) : String :=
  e.reason.text ++ ", line " ++ toString e.line ++ " (tokens: '" ++ e.input ++ "')"

end ParseError

end WebIdl
