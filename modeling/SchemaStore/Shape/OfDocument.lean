import SchemaStore.Shape.Read

/-!
# Reading a value from a document

`Shape.ofDocument` reads a value of a shape from a JSON tree. It accepts what `Shape.read` accepts
in a text that spells the tree, and differs in its complaints: they have no place, a list that is too
long is refused by its length, and the key of an integer-keyed map is a text of its own.
-/

namespace SchemaStore

/-- A complaint without a place. -/
def Problem.unplaced (p : Problem) : Complaint := ⟨p, none⟩

namespace Document

/-- Refuse a document where something else was expected. -/
def refuse {α : Type} (expected : Expected) (d : Document) : Except Complaint α :=
  .error (Problem.invalidType d.found expected).unplaced

/-- The boolean a document is. -/
def toBool (d : Document) : Except Complaint Bool :=
  match d.view with
  | .bool b => .ok b
  | _ => d.refuse .boolean

/-- The integer of a type that a document is. -/
def toInteger (k : IntKind) (d : Document) : Except Complaint k.Val :=
  match d.view with
  | .int n _ =>
    match k.ofInt? n with
    | some v => .ok v
    | none => .error (Problem.invalidValue (.int n) (.integer k)).unplaced
  | _ => d.refuse (.integer k)

/-- The float a document is. -/
def toFloat (p : Precision) (d : Document) : Except Complaint (Binary p) :=
  match d.view with
  | .int n _ => .ok (.ofInt p n)
  | .double x => .ok (p.ofDouble x)
  | _ => d.refuse (.float p)

/-- The text a document is. -/
def toText (expected : Expected) (d : Document) : Except Complaint String :=
  match d.view with
  | .text s => .ok s
  | _ => d.refuse expected

/-- Check that a document is null. -/
def toUnit (d : Document) : Except Complaint Unit :=
  match d.view with
  | .null => .ok ()
  | _ => d.refuse .unit

/-- The items of a document that is an array. -/
def toItems (expected : Expected) (d : Document) : Except Complaint (List Document) :=
  match d.view with
  | .items ds => .ok ds
  | _ => d.refuse expected

/-- The fields of a document that is an object. -/
def toFields (expected : Expected) (d : Document) : Except Complaint (SortedMap String Document) :=
  match d.view with
  | .fields fs => .ok fs
  | _ => d.refuse expected

/-- The variant a document is: a text names it, an object names it and holds what it carries. -/
def toVariant {α : Type} (names : List String) (bare : Fin names.length → Except Problem α)
    (carried : Fin names.length → Document → Except Complaint α) (d : Document) :
    Except Complaint α :=
  match d.view with
  | .text s =>
    match Token.variantIndex names s with
    | .ok i => (bare i).mapError Problem.unplaced
    | .error p => .error p.unplaced
  | .fields ⟨[(s, d)], _⟩ =>
    match Token.variantIndex names s with
    | .ok i => carried i d
    | .error p => .error p.unplaced
  | .fields _ => .error (Problem.invalidValue .map .singleKey).unplaced
  | _ => d.refuse .textOrMap

/-- The value of a list whose first `read` items it takes; no item may be left over. -/
def exhausted {α : Type} (all left : List Document) (a : α) : Except Complaint α :=
  match left with
  | [] => .ok a
  | _ :: _ => .error (Problem.invalidLength all.length .fewerItems).unplaced

end Document

/-- The scalar a document is. -/
def Scalar.ofDocument : (s : Scalar) → Document → Except Complaint s.Val
  | .bool, d => d.toBool
  | .int k, d => d.toInteger k
  | .char, d => d.toText .character >>= fun s => (Text.toChar s).mapError Problem.unplaced
  | .text, d => d.toText .text
  | .label l, d => d.toVariant l.names .ok fun i d => d.toUnit.map fun _ => i

/-- The integer a key is. -/
def IntKind.ofKey (k : IntKind) (key : String) : Except Complaint k.Val :=
  let cs := key.toList
  if Text.startsWithDigit cs ∨ cs.head? = some '-' then
    match Token.integer k cs with
    | .error e => .error (e.complaint cs)
    | .ok (n, []) => .ok n
    | .ok (_, _ :: _) => .error Problem.keyNotNumber.unplaced
  else .error Problem.keyNotNumber.unplaced

/-- The boolean a key is. -/
def Text.boolOfKey (key : String) : Except Problem Bool :=
  if key = "true" then .ok true
  else if key = "false" then .ok false
  else .error (.invalidType (.text key) .boolean)

/-- The scalar a key is. -/
def Scalar.ofKey : (s : Scalar) → String → Except Complaint s.Val
  | .bool, key => (Text.boolOfKey key).mapError Problem.unplaced
  | .int k, key => k.ofKey key
  | .char, key => (Text.toChar key).mapError Problem.unplaced
  | .text, key => .ok key
  | .label l, key => (Token.variantIndex l.names key).mapError Problem.unplaced

/-- The key of a map a text is. -/
def KeyShape.ofKey : (k : KeyShape) → String → Except Complaint k.Val
  | .scalar s, key => s.ofKey key
  | .pair _ _, key => .error (Problem.invalidType (.text key) .pair).unplaced

/-- The leaf a document is. -/
def Leaf.ofDocument : (l : Leaf) → Document → Except Complaint l.Val
  | .scalar s, d => s.ofDocument d
  | .float p, d => d.toFloat p

/-- Null, or the value a document is. -/
def Document.toOption {α : Type} (read : Document → Except Complaint α) (d : Document) :
    Except Complaint (Option α) :=
  match d.view with
  | .null => .ok none
  | _ => (read d).map some

/-- The value of a field that a document is. -/
def Field.ofDocument : (f : Field) → Document → Except Complaint f.Val
  | ⟨_, leaf, .required⟩, d => leaf.ofDocument d
  | ⟨_, leaf, .omitted⟩, d => d.toOption leaf.ofDocument
  | ⟨_, leaf, .nullable⟩, d => d.toOption leaf.ofDocument

/-- Put a document into the slot of its field. A field of another name is ignored. -/
def Slots.put (name : String) (d : Document) :
    (fs : List Field) → Slots fs → Except Complaint (Slots fs)
  | [], _ => .ok ()
  | f :: rest, (slot, slots) =>
    if f.name = name then (f.ofDocument d).map fun v => (some v, slots)
    else (put name d rest slots).map fun slots => (slot, slots)

namespace Fields

/-- The fields an object holds. -/
def ofFields (fs : List Field) (entries : SortedMap String Document) :
    Except Complaint (Vals fs) := do
  let slots ← entries.entries.foldlM (fun slots e => Slots.put e.1 e.2 fs slots) (Slots.empty fs)
  (Slots.finish fs slots).mapError Problem.unplaced

/-- The fields the first items of a list are, and the items after them; `n` items came before. -/
def ofItems (expected : Expected) :
    (fs : List Field) → Nat → List Document → Except Complaint (Vals fs × List Document)
  | [], _, ds => .ok ((), ds)
  | f :: rest, n, [] =>
    match f.cutOff? with
    | none => .error (Problem.invalidLength n expected).unplaced
    | some v => (ofItems expected rest (n + 1) []).map fun vs => ((v, vs.1), vs.2)
  | f :: rest, n, d :: ds => do
    let v ← f.ofDocument d
    let vs ← ofItems expected rest (n + 1) ds
    return ((v, vs.1), vs.2)

end Fields

/-- The leaves the first items of a list are, and the items after them; `n` items came before. -/
def Leaf.ofItems (expected : Expected) :
    (ls : List Leaf) → Nat → List Document → Except Complaint (Leaf.Vals ls × List Document)
  | [], _, ds => .ok ((), ds)
  | _ :: _, n, [] => .error (Problem.invalidLength n expected).unplaced
  | l :: rest, n, d :: ds => do
    let v ← l.ofDocument d
    let vs ← ofItems expected rest (n + 1) ds
    return ((v, vs.1), vs.2)

/-- The record a document is. -/
def Record.ofDocument (r : Record) (d : Document) : Except Complaint (Fields.Vals r.fields.list) :=
  match d.view with
  | .items ds => do
    let vs ← Fields.ofItems (.recordOf r.name r.fields.list.length) r.fields.list 0 ds
    Document.exhausted ds vs.2 vs.1
  | .fields fs => Fields.ofFields r.fields.list fs
  | _ => d.refuse (.record r.name)

/-- What a variant carries in a document; `path` names the variant in messages. -/
def Payload.ofDocument (path : String) : (p : Payload) → Document → Except Complaint p.Val
  | .unit, d => d.toUnit
  | .single l, d => l.ofDocument d
  | .tuple ls, d => do
    let ds ← d.toItems .anyTupleVariant
    if ds.isEmpty then .error (Problem.invalidType .null (.tupleVariant path)).unplaced
    else
      let vs ← Leaf.ofItems (.tupleVariantOf path ls.length) ls 0 ds
      Document.exhausted ds vs.2 vs.1
  | .record fs, d => do
    let entries ← d.toFields .anyRecordVariant
    Fields.ofFields fs.list entries

/-- The choice a document is. -/
def Choice.ofDocument (c : Choice) (d : Document) : Except Complaint c.Val :=
  d.toVariant c.names (fun i => (c.payload i).bare.map (c.close i))
    fun i d => ((c.payload i).ofDocument (c.path i) d).map (c.close i)

namespace Container

/-- Read the first `n` items of a list and return the items after them. -/
def exactlyOf {α : Type} (item : Document → Except Complaint α) (total : Nat) :
    (n : Nat) → List Document → Except Complaint ({ l : List α // l.length = n } × List Document)
  | 0, ds => .ok (⟨[], rfl⟩, ds)
  | n + 1, [] => .error (Problem.invalidLength (total - (n + 1)) (.array total)).unplaced
  | n + 1, d :: ds => do
    let a ← item d
    let (l, ds) ← exactlyOf item total n ds
    return (⟨a :: l.val, by simp [l.property]⟩, ds)

/-- Read the first item of a list, at position `n` of a pair, and return the items after it. -/
def memberOf {α : Type} (item : Document → Except Complaint α) (n : Nat) :
    List Document → Except Complaint (α × List Document)
  | [] => .error (Problem.invalidLength n .pair).unplaced
  | d :: ds => (item d).map fun a => (a, ds)

/-- Read the entries of a map in order. -/
def mapOf {κ α : Type} [Ord κ] [Std.TransOrd κ] (key : String → Except Complaint κ)
    (value : Document → Except Complaint α) (entries : SortedMap String Document) :
    Except Complaint (SortedMap κ α) :=
  entries.entries.foldlM (fun (m : SortedMap κ α) e => do
    let k ← key e.1
    let v ← value e.2
    return m.insert k v) SortedMap.empty

end Container

/-- The value of a shape that a document is. -/
def Shape.ofDocument : (s : Shape) → Document → Except Complaint s.Val
  | .leaf l, d => l.ofDocument d
  | .unit, d => d.toUnit
  | .option s, d => d.toOption s.ofDocument
  | .list s, d => d.toItems .sequence >>= List.mapM s.ofDocument
  | .set s, d => do
    let ds ← d.toItems .sequence
    let vs ← ds.mapM s.ofDocument
    return SortedMap.ofList (vs.map fun v => (v, ()))
  | .array n s, d => do
    let ds ← d.toItems (.array n)
    let (l, left) ← Container.exactlyOf s.ofDocument n n ds
    Document.exhausted ds left l
  | .pair s t, d => do
    let ds ← d.toItems .pair
    let (v, left) ← Container.memberOf s.ofDocument 0 ds
    let (w, left) ← Container.memberOf t.ofDocument 1 left
    Document.exhausted ds left (v, w)
  | .map k s, d => d.toFields .map >>= Container.mapOf k.ofKey s.ofDocument
  | .record r, d => r.ofDocument d
  | .choice c, d => c.ofDocument d
  | .json, d => .ok d
  | .object, d => d.toFields .map

end SchemaStore
