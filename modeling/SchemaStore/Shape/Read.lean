import SchemaStore.Json.Skip
import SchemaStore.Shape.ReadLeaf

/-!
# Reading a value from text

`Shape.read` reads a value of a shape straight from JSON text, without a tree in between. A record
is read from an object, whose fields may come in any order and may include unknown ones, or from a
list of its members; `Slots` holds the fields read so far. The first argument of a reader is how
many containers may still be opened.
-/

namespace SchemaStore

namespace Container

/-- Read what a list holds, or refuse what else is there. -/
def list {α : Type} (expected : Expected) (contents : Nat → List Char → Read α) (depth : Nat)
    (cs : List Char) : Read α :=
  Token.value cs fun c rest =>
    if c = '[' then
      match depth with
      | 0 => .error (.next .tooDeep (c :: rest))
      | depth + 1 => enclose closeList (contents depth rest)
    else Token.mismatch expected (c :: rest)

/-- Read what an object holds, or refuse what else is there. -/
def object {α : Type} (expected : Expected) (contents : Nat → List Char → Read α) (depth : Nat)
    (cs : List Char) : Read α :=
  Token.value cs fun c rest =>
    if c = '\x7b' then
      match depth with
      | 0 => .error (.next .tooDeep (c :: rest))
      | depth + 1 => enclose closeObject (contents depth rest)
    else Token.mismatch expected (c :: rest)

/-- Read what a list or an object holds, or refuse what else is there. -/
def either {α : Type} (expected : Expected) (ofList ofObject : Nat → List Char → Read α)
    (depth : Nat) (cs : List Char) : Read α :=
  if (Text.skipBlanks cs).head? = some '[' then list expected ofList depth cs
  else object expected ofObject depth cs

/-- Read exactly `n` items; `total` is the length that was asked for. -/
def exactly {α : Type} (item : List Char → Read α) (total : Nat) :
    (n : Nat) → Bool → List Char → Read { l : List α // l.length = n }
  | 0, _, cs => .ok (⟨[], rfl⟩, cs)
  | n + 1, first, cs =>
    match nextItem first cs with
    | .error e => .error e
    | .ok none => .error (.floating (.invalidLength (total - (n + 1)) (.array total)) cs)
    | .ok (some cs) =>
      (item cs).andThen fun a rest =>
        (exactly item total n false rest).map fun l => ⟨a :: l.val, by simp [l.property]⟩

/-- Read one of the two members of a pair, at position `n`. -/
def member {α : Type} (item : List Char → Read α) (n : Nat) (cs : List Char) : Read α :=
  match nextItem (n == 0) cs with
  | .error e => .error e
  | .ok none => .error (.floating (.invalidLength n .pair) cs)
  | .ok (some cs) => item cs

end Container

/-- Read a field's value. -/
def Field.read : (f : Field) → Nat → List Char → Read f.Val
  | ⟨_, leaf, .required⟩, depth, cs => leaf.read depth cs
  | ⟨_, leaf, .omitted⟩, depth, cs => Token.option (leaf.read depth) cs
  | ⟨_, leaf, .nullable⟩, depth, cs => Token.option (leaf.read depth) cs

/-- The value of a field that is not there by name, if it may be absent. -/
def Field.absent? : (f : Field) → Option f.Val
  | ⟨_, _, .required⟩ => none
  | ⟨_, _, .omitted⟩ => some (none : Option _)
  | ⟨_, _, .nullable⟩ => some (none : Option _)

/-- The value of a field that a list of members ends before, if it may be missing there. -/
def Field.cutOff? : (f : Field) → Option f.Val
  | ⟨_, _, .required⟩ => none
  | ⟨_, _, .omitted⟩ => none
  | ⟨_, _, .nullable⟩ => some (none : Option _)

/-- The fields read so far. -/
def Slots : List Field → Type
  | [] => Unit
  | f :: rest => Option f.Val × Slots rest

namespace Slots

/-- No field has been read. -/
def empty : (fs : List Field) → Slots fs
  | [] => ()
  | _ :: rest => (none, empty rest)

/-- Read a field into its slot, from the colon on; nothing if no field has the name. -/
def fill (name : String) (depth : Nat) (cs : List Char) :
    (fs : List Field) → Slots fs → Option (Read (Slots fs))
  | [], _ => none
  | f :: rest, (slot, slots) =>
    if f.name = name then
      match slot, Container.colon cs with
      | some _, _ => some (.error (.floating (.duplicateField name) cs))
      | none, .error e => some (.error e)
      | none, .ok cs => some ((f.read depth cs).map fun v => (some v, slots))
    else (fill name depth cs rest slots).map fun r => r.map fun slots => (slot, slots)

/-- Read one entry of an object into the slots. A field of another name is skipped. -/
def entry (fs : List Field) (depth : Nat) (slots : Slots fs) (cs : List Char) : Read (Slots fs) :=
  (Token.string cs).andThen fun name rest =>
    match fill name depth rest fs slots with
    | some r => r
    | none =>
      match Container.colon rest with
      | .error e => .error e
      | .ok rest =>
        match Skip.value rest with
        | .error e => .error e
        | .ok rest => .ok (slots, rest)

/-- The values of all fields, once the object has ended. -/
def finish : (fs : List Field) → Slots fs → Except Problem (Fields.Vals fs)
  | [], _ => .ok ()
  | f :: rest, (slot, slots) =>
    match slot <|> f.absent? with
    | some v => (finish rest slots).map fun vs => (v, vs)
    | none => .error (.missingField f.name)

end Slots

namespace Fields

/-- Read fields from the entries of an object. -/
def readNamed (fs : List Field) (depth : Nat) (cs : List Char) : Read (Vals fs) :=
  (Container.foldEntries (Slots.entry fs depth) (Slots.empty fs) cs).check (Slots.finish fs)

/-- Read fields from the items of a list, of which `n` have been read. -/
def readListed (expected : Expected) (depth : Nat) :
    (fs : List Field) → Nat → List Char → Read (Vals fs)
  | [], _, cs => .ok ((), cs)
  | f :: rest, n, cs =>
    match Container.nextItem (n == 0) cs with
    | .error e => .error e
    | .ok none =>
      match f.cutOff? with
      | none => .error (.floating (.invalidLength n expected) cs)
      | some v => (readListed expected depth rest (n + 1) cs).map fun vs => (v, vs)
    | .ok (some cs) =>
      (f.read depth cs).andThen fun v cs =>
        (readListed expected depth rest (n + 1) cs).map fun vs => (v, vs)

/-- Read fields from an object or a list. `whole` is what was expected, `filled` what a list that
is too short fails. -/
def read (whole filled : Expected) (fs : List Field) (depth : Nat) (cs : List Char) :
    Read (Vals fs) :=
  Container.either whole (fun depth => readListed filled depth fs 0) (readNamed fs) depth cs

end Fields

/-- Read leaves from the items of a list, of which `n` have been read. -/
def Leaf.readListed (expected : Expected) (depth : Nat) :
    (ls : List Leaf) → Nat → List Char → Read (Leaf.Vals ls)
  | [], _, cs => .ok ((), cs)
  | l :: rest, n, cs =>
    match Container.nextItem (n == 0) cs with
    | .error e => .error e
    | .ok none => .error (.floating (.invalidLength n expected) cs)
    | .ok (some cs) =>
      (l.read depth cs).andThen fun v cs =>
        (readListed expected depth rest (n + 1) cs).map fun vs => (v, vs)

/-- Read a record. -/
def Record.read (r : Record) (depth : Nat) (cs : List Char) : Read (Fields.Vals r.fields.list) :=
  Fields.read (.record r.name) (.recordOf r.name r.fields.list.length) r.fields.list depth cs

namespace Payload

/-- What a payload stands for when its variant's name stands alone. -/
def bare : (p : Payload) → Except Problem p.Val
  | .unit => .ok ()
  | .single _ => .error (.invalidType .unitVariant .anyNewtypeVariant)
  | .tuple _ => .error (.invalidType .unitVariant .anyTupleVariant)
  | .record _ => .error (.invalidType .unitVariant .anyRecordVariant)

/-- Read what a variant carries; `path` names the variant in messages. -/
def read (path : String) : (p : Payload) → Nat → List Char → Read p.Val
  | .unit, _, cs => Token.unit cs
  | .single l, depth, cs => l.read depth cs
  | .tuple ls, depth, cs =>
    Container.list (.tupleVariant path)
      (fun depth => Leaf.readListed (.tupleVariantOf path ls.length) depth ls 0) depth cs
  | .record fs, depth, cs =>
    Fields.read (.recordVariant path) (.recordVariantOf path fs.list.length) fs.list depth cs

end Payload

namespace Choice

/-- The names of the variants. -/
def names (c : Choice) : List String := c.variants.map (·.name)

/-- The variant at a position of the list of names. -/
def index (c : Choice) (i : Fin c.names.length) : Fin c.variants.length :=
  i.cast (by simp [names])

/-- The payload of the variant at a position of the list of names. -/
def payload (c : Choice) (i : Fin c.names.length) : Payload := (c.variants.get (c.index i)).payload

/-- A variant in messages. -/
def path (c : Choice) (i : Fin c.names.length) : String := c.name ++ "::" ++ c.names.get i

/-- The value of a variant with what it carries. -/
def close (c : Choice) (i : Fin c.names.length) (v : (c.payload i).Val) : c.Val := ⟨c.index i, v⟩

/-- Read a choice. -/
def read (c : Choice) (depth : Nat) (cs : List Char) : Read c.Val :=
  Token.variant c.names (fun i => (c.payload i).bare.map (c.close i))
    (fun i depth cs => ((c.payload i).read (c.path i) depth cs).map (c.close i)) depth cs

end Choice

/-- Read the fields of an object that may have any. -/
def Document.readFields (depth : Nat) (cs : List Char) : Read (SortedMap String Document) :=
  Container.object .map (fun depth => Container.foldEntries
    (Container.mapEntry Token.string (Document.read depth)) SortedMap.empty) depth cs

namespace Shape

/-- Read a value of a shape. -/
def read : (s : Shape) → Nat → List Char → Read s.Val
  | .leaf l, depth, cs => l.read depth cs
  | .unit, _, cs => Token.unit cs
  | .option s, depth, cs => Token.option (s.read depth) cs
  | .list s, depth, cs =>
    Container.list .sequence (fun depth => Container.listOf (s.read depth)) depth cs
  | .set s, depth, cs =>
    (Container.list .sequence (fun depth => Container.listOf (s.read depth)) depth cs).map
      fun vs => SortedMap.ofList (vs.map fun v => (v, ()))
  | .array n s, depth, cs =>
    Container.list (.array n) (fun depth => Container.exactly (s.read depth) n n true) depth cs
  | .pair s t, depth, cs =>
    Container.list .pair (fun depth cs =>
      (Container.member (s.read depth) 0 cs).andThen fun v rest =>
        (Container.member (t.read depth) 1 rest).map fun w => (v, w)) depth cs
  | .map k s, depth, cs =>
    Container.object .map (fun depth => Container.foldEntries
      (Container.mapEntry k.readKey (s.read depth)) SortedMap.empty) depth cs
  | .record r, depth, cs => r.read depth cs
  | .choice c, depth, cs => c.read depth cs
  | .json, depth, cs => Document.read depth cs
  | .object, depth, cs => Document.readFields depth cs

/-- Read a value of a shape from the whole of a text. -/
def parse (s : Shape) (text : List Char) : Except Complaint s.Val :=
  Read.whole (s.read maxDepth) text

end Shape

end SchemaStore
