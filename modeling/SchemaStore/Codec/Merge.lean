import SchemaStore.Codec.Basic

/-!
# Merging stored texts

A merge adds the fields of one JSON object to another. `shallowMerge` is the rule a store applies to
the text it holds and the text it is given; `encodeComposite` prepares the text for a value, and
refuses a value that is no object and no array.
-/

namespace SchemaStore.Codec

/-- The fields of the object a text spells. -/
def objectOf? (text : String) : Option (SortedMap String Document) :=
  match Document.parse text.toList with
  | .ok d =>
    match d.view with
    | .fields fs => some fs
    | _ => none
  | .error _ => none

/-- Combine the text a store holds with an incoming text. Of two objects the incoming fields are
added to the stored ones, replacing those of the same name; in every other case the incoming text
replaces the stored one. -/
def shallowMerge (existing : Option String) (incoming : String) : String :=
  match existing with
  | none => incoming
  | some existing =>
    match objectOf? existing, objectOf? incoming with
    | some base, some update => (Document.ofFields (base.union update)).json.render
    | _, _ => incoming

/-- The sorts of JSON text that cannot be merged. -/
inductive Unmergeable
  | null
  | boolean
  | text
  | number
  | nothing
deriving DecidableEq

/-- The sort in words. -/
def Unmergeable.words : Unmergeable → String
  | .null => "null"
  | .boolean => "a boolean"
  | .text => "a string"
  | .number => "a number"
  | .nothing => "nothing"

/-- The sort of a JSON text that cannot be merged, by its first character. -/
def Unmergeable.ofFirst : Option Char → Unmergeable
  | some 'n' => .null
  | some 't' | some 'f' => .boolean
  | some '"' => .text
  | some _ => .number
  | none => .nothing

/-- Why a value cannot be merged. -/
inductive Refusal
  /-- The value has no JSON form. -/
  | unwritable (c : Complaint)
  /-- Its JSON form is no object and no array. -/
  | unmergeable (found : Unmergeable)
deriving DecidableEq

/-- The text that is merged for a value, by the first character of its JSON text. -/
def encodeComposite (s : Shape) (v : s.Val) : Except Refusal String :=
  match s.toJson v with
  | .error p => .error (.unwritable p.unplaced)
  | .ok j =>
    match j.text.head? with
    | some '\x7b' | some '[' => .ok j.render
    | first => .error (.unmergeable (.ofFirst first))

end SchemaStore.Codec
