import SchemaStore.Json.Basic
import SchemaStore.Integer

/-!
# Shapes of values

A `Shape` is the declared type of a value and `Shape.Val` the Lean type of its values: every
invariant of the declared type (integer ranges, ascending keys, fixed lengths, known labels) is part
of that type. A `Scalar` has an order, so scalars are the elements of sets and, alone or in pairs,
the keys of maps. Records and choices are flat: their members are scalars and floats.
-/

namespace SchemaStore

/-- The names of the values of an enumeration. -/
structure Labels where
  names : List String
  distinct : names.Nodup

/-- A type of single, ordered values. -/
inductive Scalar
  | bool
  | int (k : IntKind)
  | char
  | text
  | label (l : Labels)

namespace Scalar

/-- The values of a scalar type; a label is a position in the list of names. -/
def Val : Scalar → Type
  | .bool => Bool
  | .int k => k.Val
  | .char => Char
  | .text => String
  | .label l => Fin l.names.length

/-- The order of scalars: `false` first, numbers by size, characters and texts by code point, labels
as declared. -/
def cmp : (s : Scalar) → s.Val → s.Val → Ordering
  | .bool => fun a b => compare (α := Bool) a b
  | .int _ => compareOn (β := Int) fun n => n.val
  | .char => fun a b => compare (α := Char) a b
  | .text => fun a b => compare (α := String) a b
  | .label l => fun a b => compare (α := Fin l.names.length) a b

instance : (s : Scalar) → Std.TransCmp s.cmp
  | .bool => inferInstanceAs (Std.TransOrd Bool)
  | .int _ => inferInstanceAs (Std.TransCmp (compareOn _))
  | .char => inferInstanceAs (Std.TransOrd Char)
  | .text => inferInstanceAs (Std.TransOrd String)
  | .label l => inferInstanceAs (Std.TransOrd (Fin l.names.length))

instance (s : Scalar) : Ord s.Val := ⟨s.cmp⟩

instance (s : Scalar) : Std.TransOrd s.Val := inferInstanceAs (Std.TransCmp s.cmp)

end Scalar

/-- The keys of a map: scalars, or pairs of scalars. -/
inductive KeyShape
  | scalar (s : Scalar)
  | pair (s t : Scalar)

namespace KeyShape

/-- The keys of a key shape. -/
def Val : KeyShape → Type
  | .scalar s => s.Val
  | .pair s t => s.Val × t.Val

/-- The order of keys; pairs compare by their first member, then by their second. -/
def cmp : (k : KeyShape) → k.Val → k.Val → Ordering
  | .scalar s => s.cmp
  | .pair s t =>
    compareLex (α := s.Val × t.Val) (compareOn Prod.fst) (compareOn Prod.snd)

instance : (k : KeyShape) → Std.TransCmp k.cmp
  | .scalar s => inferInstanceAs (Std.TransCmp s.cmp)
  | .pair s t => inferInstanceAs
    (Std.TransCmp (compareLex (α := s.Val × t.Val) (compareOn Prod.fst) (compareOn Prod.snd)))

instance (k : KeyShape) : Ord k.Val := ⟨k.cmp⟩

instance (k : KeyShape) : Std.TransOrd k.Val := inferInstanceAs (Std.TransCmp k.cmp)

end KeyShape

/-- A type of single values: a scalar or a float. -/
inductive Leaf
  | scalar (s : Scalar)
  | float (p : Precision)

/-- The values of a leaf type. -/
def Leaf.Val : Leaf → Type
  | .scalar s => s.Val
  | .float p => Binary p

/-- How a field may be absent. -/
inductive Presence
  /-- The field has a value and must be there. -/
  | required
  /-- The field may have no value. It is left out then, and reads as absent when left out by
  name. -/
  | omitted
  /-- The field may have no value. It is written as null then, and reads as absent when it is not
  there. -/
  | nullable
deriving DecidableEq

/-- A field of a record. -/
structure Field where
  name : String
  leaf : Leaf
  presence : Presence

/-- The values of a field. -/
def Field.Val (f : Field) : Type :=
  match f.presence with
  | .required => f.leaf.Val
  | .omitted => Option f.leaf.Val
  | .nullable => Option f.leaf.Val

/-- Fields under distinct names. -/
structure Fields where
  list : List Field
  distinct : (list.map (·.name)).Nodup

/-- One value for each field, in order. -/
def Fields.Vals : List Field → Type
  | [] => Unit
  | f :: rest => f.Val × Vals rest

/-- One value for each leaf, in order. -/
def Leaf.Vals : List Leaf → Type
  | [] => Unit
  | l :: rest => l.Val × Vals rest

/-- A named record. -/
structure Record where
  name : String
  fields : Fields

/-- What a variant of a choice carries. -/
inductive Payload
  | unit
  | single (l : Leaf)
  | tuple (ls : List Leaf)
  | record (fs : Fields)

/-- The values of a payload. -/
def Payload.Val : Payload → Type
  | .unit => Unit
  | .single l => l.Val
  | .tuple ls => Leaf.Vals ls
  | .record fs => Fields.Vals fs.list

/-- A variant of a choice. -/
structure Variant where
  name : String
  payload : Payload

/-- A named choice between variants of distinct names. -/
structure Choice where
  name : String
  variants : List Variant
  distinct : (variants.map (·.name)).Nodup

/-- A variant and what it carries. -/
def Choice.Val (c : Choice) : Type :=
  (i : Fin c.variants.length) × (c.variants.get i).payload.Val

/-- The declared type of a value. -/
inductive Shape
  | leaf (l : Leaf)
  | unit
  | option (s : Shape)
  | list (s : Shape)
  | set (s : Scalar)
  | array (n : Nat) (s : Shape)
  | pair (s t : Shape)
  | map (k : KeyShape) (s : Shape)
  | record (r : Record)
  | choice (c : Choice)
  | json
  | object

namespace Shape

/-- The shape of booleans. -/
abbrev bool : Shape := .leaf (.scalar .bool)

/-- The shape of the integers of a type. -/
abbrev int (k : IntKind) : Shape := .leaf (.scalar (.int k))

/-- The shape of characters. -/
abbrev char : Shape := .leaf (.scalar .char)

/-- The shape of texts. -/
abbrev text : Shape := .leaf (.scalar .text)

/-- The shape of the labels of an enumeration. -/
abbrev label (l : Labels) : Shape := .leaf (.scalar (.label l))

/-- The shape of the floats of a precision. -/
abbrev float (p : Precision) : Shape := .leaf (.float p)

end Shape

/-- The values of a shape. -/
def Shape.Val : Shape → Type
  | .leaf l => l.Val
  | .unit => Unit
  | .option s => Option s.Val
  | .list s => List s.Val
  | .set s => SortedSet s.Val
  | .array n s => { l : List s.Val // l.length = n }
  | .pair s t => s.Val × t.Val
  | .map k s => SortedMap k.Val s.Val
  | .record r => Fields.Vals r.fields.list
  | .choice c => c.Val
  | .json => Document
  | .object => SortedMap String Document

end SchemaStore
