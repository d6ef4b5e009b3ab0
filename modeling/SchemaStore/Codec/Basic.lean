import SchemaStore.Event
import SchemaStore.Shape.OfDocument
import SchemaStore.Shape.Write

/-!
# Stored texts

A store holds texts. A value whose JSON form is a string is stored as that string, without quotes;
every other value is stored as its JSON text. Reading has to tell the two apart. JSON text as written
here is never padded with blanks and never starts with a quote, so a text that is or does can only be
a bare string and is read as one first; any other text is read as JSON first. When the first attempt
fails the second one is made, and when both fail the first complaint is reported.
-/

namespace SchemaStore.Codec

/-- The string that a JSON text is a literal of. -/
def unquote (cs : List Char) : Except Complaint String := Shape.text.parse cs

/-- The text a value is stored as: its JSON text, or the string that this text is a literal of. -/
def encode (s : Shape) (v : s.Val) : Except Complaint String :=
  match s.toJson v with
  | .ok j => if j.text.head? = some '"' then unquote j.text else .ok j.render
  | .error p => .error p.unplaced

/-- The two ways to read a stored text. -/
inductive Attempt
  /-- The text is a string written without quotes. -/
  | bare
  /-- The text is JSON. -/
  | json
deriving DecidableEq

namespace Attempt

/-- The way that is tried first. -/
def first (raw : String) : Attempt :=
  if raw.toList.head? = some '"' ∨ Text.isPadded raw.toList then .bare else .json

/-- The way that is tried when the other one has failed. -/
def other : Attempt → Attempt
  | .bare => .json
  | .json => .bare

/-- Read a stored text in one of the two ways. -/
def read (s : Shape) (raw : String) : Attempt → Except Complaint s.Val
  | .bare => s.ofDocument (Document.ofText raw)
  | .json => s.parse raw.toList

/-- What is reported when this way was tried first and failed. -/
def failed : Attempt → Complaint → Event
  | .bare => Event.fellBack "bare text rejected, trying JSON"
  | .json => Event.fellBack "not JSON of the expected shape, trying raw text"

end Attempt

/-- The value a stored text stands for. -/
def decode (s : Shape) (raw : String) : Except Complaint s.Val :=
  match (Attempt.first raw).read s raw with
  | .ok v => .ok v
  | .error e =>
    match (Attempt.first raw).other.read s raw with
    | .ok v => .ok v
    | .error _ => .error e

/-- What is reported while a stored text is decoded. -/
def decodeEvents (s : Shape) (raw : String) : List Event :=
  match (Attempt.first raw).read s raw with
  | .ok _ => []
  | .error e => [(Attempt.first raw).failed e]

end SchemaStore.Codec
