import SchemaStore.Json.Problem
import SchemaStore.Shape.Basic

/-!
# The JSON form of a value

`Shape.toJson` gives the tree a value is written as. Numbers, booleans and lists stand for
themselves; characters, texts and labels become strings; a record becomes an object with its fields
as declared; a variant becomes its name, alone or as the only field of an object. A float that is not
finite has no JSON number and becomes null. The keys of a map become texts, which pairs cannot: a map
with such a key is refused.
-/

namespace SchemaStore

/-- The JSON form of a scalar. -/
def Scalar.toJson : (s : Scalar) → s.Val → Json
  | .bool, b => .bool b
  | .int _, n => .num (.int n.val)
  | .char, c => .str (String.singleton c)
  | .text, s => .str s
  | .label l, i => .str (l.names.get i)

/-- The text of a scalar that is a key. -/
def Scalar.toKey : (s : Scalar) → s.Val → String
  | .bool, b => cond b "true" "false"
  | .int _, n => String.ofList (Text.decimal n.val)
  | .char, c => String.singleton c
  | .text, s => s
  | .label l, i => l.names.get i

/-- The text of a key, which a pair does not have. -/
def KeyShape.toKey : (k : KeyShape) → k.Val → Except Problem String
  | .scalar s, v => .ok (s.toKey v)
  | .pair _ _, _ => .error .keyNotText

/-- The JSON number of a finite float. -/
def FiniteBinary.number : {p : Precision} → FiniteBinary p → Number
  | .single, x => .single x
  | .double, x => .double x

/-- The JSON form of a float. -/
def Binary.toJson {p : Precision} : Binary p → Json
  | .finite x => .num x.number
  | .infinite _ => .null
  | .nan => .null

/-- The JSON form of a leaf. -/
def Leaf.toJson : (l : Leaf) → l.Val → Json
  | .scalar s, v => s.toJson v
  | .float _, x => Binary.toJson x

/-- The JSON forms of some leaves. -/
def Leaf.toItems : (ls : List Leaf) → Leaf.Vals ls → List Json
  | [], _ => []
  | l :: rest, (v, vs) => l.toJson v :: toItems rest vs

/-- The field of an object that a field is written as, if it is written. -/
def Field.toEntry? : (f : Field) → f.Val → Option (String × Json)
  | ⟨name, leaf, .required⟩, v => some (name, leaf.toJson v)
  | ⟨name, leaf, .omitted⟩, v => Option.map (fun v => (name, leaf.toJson v)) v
  | ⟨name, leaf, .nullable⟩, v => some (name, Option.elim v Json.null leaf.toJson)

/-- The fields of an object that some fields are written as. -/
def Fields.toEntries : (fs : List Field) → Fields.Vals fs → List (String × Json)
  | [], _ => []
  | f :: rest, (v, vs) => (f.toEntry? v).toList ++ toEntries rest vs

/-- The JSON form of a variant: its name if it carries nothing, and else an object with the name as
its only field. -/
def Payload.toJson (name : String) : (p : Payload) → p.Val → Json
  | .unit, _ => .str name
  | .single l, v => .obj [(name, l.toJson v)]
  | .tuple ls, vs => .obj [(name, .arr (Leaf.toItems ls vs))]
  | .record fs, vs => .obj [(name, .obj (Fields.toEntries fs.list vs))]

/-- The JSON form of a choice. -/
def Choice.toJson (c : Choice) (v : c.Val) : Json :=
  Payload.toJson (c.variants.get v.1).name (c.variants.get v.1).payload v.2

/-- The JSON form of a value. -/
def Shape.toJson : (s : Shape) → s.Val → Except Problem Json
  | .leaf l, v => .ok (l.toJson v)
  | .unit, _ => .ok .null
  | .option _, none => .ok .null
  | .option s, some v => s.toJson v
  | .list s, vs => (List.mapM s.toJson vs).map .arr
  | .set s, vs => .ok (.arr (vs.keys.map s.toJson))
  | .array _ s, vs => (List.mapM s.toJson vs.val).map .arr
  | .pair s t, (v, w) => do
    let j ← s.toJson v
    let k ← t.toJson w
    return .arr [j, k]
  | .map k s, m =>
    (SortedMap.entries m |>.mapM fun (e : k.Val × s.Val) => do
      let name ← k.toKey e.1
      let j ← s.toJson e.2
      return (name, j)).map .obj
  | .record r, vs => .ok (.obj (Fields.toEntries r.fields.list vs))
  | .choice c, v => .ok (c.toJson v)
  | .json, d => .ok d.json
  | .object, fs => .ok (Document.ofFields fs).json

end SchemaStore
