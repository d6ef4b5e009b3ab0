import SchemaStore.Integer
import SchemaStore.Json.Writer

/-!
# What can be wrong with a text

A `Problem` is the cause for which a JSON text, or a JSON tree, is no value of the wanted type: the
text is cut off, it is malformed, or it spells something else than the type asks for. `Problem.kind`
sorts the causes and `Problem.message` words them. A `Complaint` is a problem with the line and
column where it was noticed, if it has a place.
-/

namespace SchemaStore

/-- A value met where another was expected. -/
inductive Found
  | null
  | bool (b : Bool)
  | int (n : Int)
  | double (x : FiniteBinary .double)
  | text (s : String)
  | sequence
  | map
  | unitVariant
deriving DecidableEq

/-- What a reader expected. -/
inductive Expected
  | boolean
  | integer (k : IntKind)
  | float (p : Precision)
  | character
  | text
  | unit
  | sequence
  | array (n : Nat)
  | pair
  | map
  | record (name : String)
  | recordOf (name : String) (n : Nat)
  | tupleVariant (path : String)
  | tupleVariantOf (path : String) (n : Nat)
  | recordVariant (path : String)
  | recordVariantOf (path : String) (n : Nat)
  | anyNewtypeVariant
  | anyTupleVariant
  | anyRecordVariant
  | textOrMap
  | singleKey
  | fewerItems
deriving DecidableEq

/-- The cause for which a text or a tree is refused. -/
inductive Problem
  | endInList
  | endInObject
  | endInString
  | endInValue
  | noColon
  | noListEnd
  | noObjectEnd
  | noLiteral
  | noValue
  | noQuote
  | badEscape
  | badNumber
  | numberOutOfRange
  | loneSurrogate
  | halfSurrogate
  | controlCharacter
  | keyNotText
  | keyNotNumber
  | trailingComma
  | trailingCharacters
  | tooDeep
  | invalidType (found : Found) (expected : Expected)
  | invalidValue (found : Found) (expected : Expected)
  | invalidLength (n : Nat) (expected : Expected)
  | unknownVariant (name : String) (variants : List String)
  | missingField (name : String)
  | duplicateField (name : String)
deriving DecidableEq

/-- The three sorts of problems. -/
inductive Problem.Kind
  /-- The text ends too early. -/
  | truncated
  /-- The text is no JSON. -/
  | malformed
  /-- The text is JSON of another shape. -/
  | mismatched
deriving DecidableEq

/-- The sort of a problem. -/
def Problem.kind : Problem → Problem.Kind
  | .endInList | .endInObject | .endInString | .endInValue => .truncated
  | .invalidType .. | .invalidValue .. | .invalidLength .. | .unknownVariant .. | .missingField ..
  | .duplicateField .. => .mismatched
  | _ => .malformed

/-- A number of things. -/
def Text.counted (n : Nat) : String :=
  String.ofList (Nat.toDigits 10 n) ++ if n = 1 then " element" else " elements"

/-- A found value in words. -/
def Found.words : Found → String
  | .null => "null"
  | .bool true => "boolean `true`"
  | .bool false => "boolean `false`"
  | .int n => "integer `" ++ String.ofList (Text.decimal n) ++ "`"
  | .double x => "floating point `" ++ String.ofList (Layout.jsonDouble.text x) ++ "`"
  | .text s => "string " ++ Text.quoted s
  | .sequence => "sequence"
  | .map => "map"
  | .unitVariant => "unit variant"

/-- The name of a float type in messages. -/
def Precision.name : Precision → String
  | .single => "f32"
  | .double => "f64"

/-- An expectation in words. -/
def Expected.words : Expected → String
  | .boolean => "a boolean"
  | .integer k => k.name
  | .float p => p.name
  | .character => "a character"
  | .text => "a string"
  | .unit => "unit"
  | .sequence => "a sequence"
  | .array n => "an array of length " ++ String.ofList (Nat.toDigits 10 n)
  | .pair => "a tuple of size 2"
  | .map => "a map"
  | .record name => "struct " ++ name
  | .recordOf name n => "struct " ++ name ++ " with " ++ Text.counted n
  | .tupleVariant path => "tuple variant " ++ path
  | .tupleVariantOf path n => "tuple variant " ++ path ++ " with " ++ Text.counted n
  | .recordVariant path => "struct variant " ++ path
  | .recordVariantOf path n => "struct variant " ++ path ++ " with " ++ Text.counted n
  | .anyNewtypeVariant => "newtype variant"
  | .anyTupleVariant => "tuple variant"
  | .anyRecordVariant => "struct variant"
  | .textOrMap => "string or map"
  | .singleKey => "map with a single key"
  | .fewerItems => "fewer elements in array"

/-- The names a variant may have, in words. -/
def Text.alternatives (names : List String) : String :=
  let ticked := names.map fun n => "`" ++ n ++ "`"
  match ticked with
  | [] => "there are no variants"
  | [a] => "expected " ++ a
  | [a, b] => "expected " ++ a ++ " or " ++ b
  | _ => "expected one of " ++ ", ".intercalate ticked

/-- A problem in words. -/
def Problem.message : Problem → String
  | .endInList => "EOF while parsing a list"
  | .endInObject => "EOF while parsing an object"
  | .endInString => "EOF while parsing a string"
  | .endInValue => "EOF while parsing a value"
  | .noColon => "expected `:`"
  | .noListEnd => "expected `,` or `]`"
  | .noObjectEnd => "expected `,` or `\x7d`"
  | .noLiteral => "expected ident"
  | .noValue => "expected value"
  | .noQuote => "expected `\"`"
  | .badEscape => "invalid escape"
  | .badNumber => "invalid number"
  | .numberOutOfRange => "number out of range"
  | .loneSurrogate => "lone leading surrogate in hex escape"
  | .halfSurrogate => "unexpected end of hex escape"
  | .controlCharacter => "control character (\\u0000-\\u001F) found while parsing a string"
  | .keyNotText => "key must be a string"
  | .keyNotNumber => "invalid value: expected key to be a number in quotes"
  | .trailingComma => "trailing comma"
  | .trailingCharacters => "trailing characters"
  | .tooDeep => "recursion limit exceeded"
  | .invalidType found expected => "invalid type: " ++ found.words ++ ", expected " ++ expected.words
  | .invalidValue found expected => "invalid value: " ++ found.words ++ ", expected " ++ expected.words
  | .invalidLength n expected =>
    "invalid length " ++ String.ofList (Nat.toDigits 10 n) ++ ", expected " ++ expected.words
  | .unknownVariant name variants =>
    "unknown variant `" ++ name ++ "`, " ++ Text.alternatives variants
  | .missingField name => "missing field `" ++ name ++ "`"
  | .duplicateField name => "duplicate field `" ++ name ++ "`"

/-- A place in a text: the line, counted from one, and the bytes of it before the place. -/
structure Position where
  line : Nat
  column : Nat
deriving DecidableEq

/-- A problem, with its place if it has one. -/
structure Complaint where
  problem : Problem
  place : Option Position
deriving DecidableEq

/-- A complaint in words. -/
def Complaint.message (c : Complaint) : String :=
  match c.place with
  | none => c.problem.message
  | some p => c.problem.message ++ " at line " ++ String.ofList (Nat.toDigits 10 p.line) ++
      " column " ++ String.ofList (Nat.toDigits 10 p.column)

end SchemaStore
