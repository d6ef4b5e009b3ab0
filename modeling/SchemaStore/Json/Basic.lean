import SchemaStore.Binary.Layout
import SchemaStore.SortedMap

/-!
# JSON values

`Json` is the tree a JSON text spells. Values of a declared type are written through it, so it has
room for integers of any size and for both float precisions. A `Document` is a tree a reader with no
declared type can produce: integers of 64 bits, floats of double precision, and objects whose names
strictly ascend, so that two documents with the same fields are equal. `Document.view` opens one
level of a document and `Document.ofItems` and `Document.ofFields` close it again.
-/

namespace SchemaStore

/-- A number of a JSON tree. -/
inductive Number
  | int (n : Int)
  | single (x : FiniteBinary .single)
  | double (x : FiniteBinary .double)
deriving DecidableEq

/-- A JSON tree. -/
inductive Json
  | null
  | bool (b : Bool)
  | num (n : Number)
  | str (s : String)
  | arr (items : List Json)
  | obj (fields : List (String × Json))

/-- The integers that fit a signed or an unsigned 64-bit word. -/
def FitsWord (n : Int) : Prop := -9223372036854775808 ≤ n ∧ n < 18446744073709551616

instance (n : Int) : Decidable (FitsWord n) := inferInstanceAs (Decidable (_ ∧ _))

/-- A number an untyped reader can produce. -/
def Number.IsDynamic : Number → Prop
  | .int n => FitsWord n
  | .single _ => False
  | .double _ => True

namespace Json

mutual

/-- Integers have 64 bits, floats are double, and the names of every object strictly ascend. -/
def Canonical : Json → Prop
  | .null => True
  | .bool _ => True
  | .num n => n.IsDynamic
  | .str _ => True
  | .arr items => CanonicalItems items
  | .obj fields => Ascending fields ∧ CanonicalFields fields

/-- Every item is canonical. -/
def CanonicalItems : List Json → Prop
  | [] => True
  | j :: rest => Canonical j ∧ CanonicalItems rest

/-- Every field holds a canonical tree. -/
def CanonicalFields : List (String × Json) → Prop
  | [] => True
  | (_, j) :: rest => Canonical j ∧ CanonicalFields rest

end

mutual

/-- How many arrays and objects are nested at most. -/
def depth : Json → Nat
  | .arr items => depthItems items + 1
  | .obj fields => depthFields fields + 1
  | _ => 0

/-- The greatest depth of the items. -/
def depthItems : List Json → Nat
  | [] => 0
  | j :: rest => Nat.max (depth j) (depthItems rest)

/-- The greatest depth of the field values. -/
def depthFields : List (String × Json) → Nat
  | [] => 0
  | (_, j) :: rest => Nat.max (depth j) (depthFields rest)

end

end Json

/-- A canonical JSON tree. -/
structure Document where
  json : Json
  canonical : json.Canonical

namespace Document

theorem ext {a b : Document} (h : a.json = b.json) : a = b := by
  cases a; cases b; cases h; rfl

/-- The document `null`. -/
def null : Document := ⟨.null, trivial⟩

/-- A boolean document. -/
def ofBool (b : Bool) : Document := ⟨.bool b, trivial⟩

/-- A string document. -/
def ofText (s : String) : Document := ⟨.str s, trivial⟩

/-- An integer document. -/
def ofInt (n : Int) (h : FitsWord n) : Document := ⟨.num (.int n), h⟩

/-- A float document. -/
def ofDouble (x : FiniteBinary .double) : Document := ⟨.num (.double x), trivial⟩

theorem canonicalItems_map : ∀ items : List Document,
    Json.CanonicalItems (items.map (·.json))
  | [] => trivial
  | d :: rest => ⟨d.canonical, canonicalItems_map rest⟩

theorem canonicalFields_map : ∀ fields : List (String × Document),
    Json.CanonicalFields (fields.map fun f => (f.1, f.2.json))
  | [] => trivial
  | (_, d) :: rest => ⟨d.canonical, canonicalFields_map rest⟩

/-- The array of some documents. -/
def ofItems (items : List Document) : Document :=
  ⟨.arr (items.map fun d => d.json), by rw [Json.Canonical]; exact canonicalItems_map items⟩

/-- The object of some named documents. -/
def ofFields (fields : SortedMap String Document) : Document :=
  ⟨.obj (fields.entries.map fun f => (f.1, f.2.json)), by
    rw [Json.Canonical]
    exact ⟨List.pairwise_map.2 fields.ascending, canonicalFields_map fields.entries⟩⟩

/-- One level of a document. -/
inductive View
  | null
  | bool (b : Bool)
  | int (n : Int) (fits : FitsWord n)
  | double (x : FiniteBinary .double)
  | text (s : String)
  | items (ds : List Document)
  | fields (fs : SortedMap String Document)

/-- The items of a canonical array as documents. -/
def items : (js : List Json) → Json.CanonicalItems js → List Document
  | [], _ => []
  | j :: rest, h => ⟨j, h.1⟩ :: items rest h.2

/-- The fields of a canonical object as documents. -/
def fields : (fs : List (String × Json)) → Json.CanonicalFields fs → List (String × Document)
  | [], _ => []
  | (name, j) :: rest, h => (name, ⟨j, h.1⟩) :: fields rest h.2

theorem map_json_items : ∀ (js : List Json) (h : Json.CanonicalItems js),
    (items js h).map (·.json) = js
  | [], _ => rfl
  | j :: rest, h => by simp only [items, List.map_cons, map_json_items rest h.2]

theorem map_json_fields : ∀ (fs : List (String × Json)) (h : Json.CanonicalFields fs),
    ((fields fs h).map fun f => (f.1, f.2.json)) = fs
  | [], _ => rfl
  | (name, j) :: rest, h => by simp only [fields, List.map_cons, map_json_fields rest h.2]

theorem ascending_fields {fs : List (String × Json)} (h : Json.CanonicalFields fs)
    (ha : Ascending fs) : Ascending (fields fs h) := by
  rw [← map_json_fields fs h] at ha
  exact List.pairwise_map.1 ha

/-- Open one level of a document. -/
def view : Document → View
  | ⟨.null, _⟩ => .null
  | ⟨.bool b, _⟩ => .bool b
  | ⟨.num (.int n), h⟩ => .int n h
  | ⟨.num (.single _), h⟩ => h.elim
  | ⟨.num (.double x), _⟩ => .double x
  | ⟨.str s, _⟩ => .text s
  | ⟨.arr js, h⟩ => .items (items js h)
  | ⟨.obj fs, h⟩ => .fields ⟨fields fs h.2, ascending_fields h.2 h.1⟩

/-- Close one level of a document. -/
def ofView : View → Document
  | .null => null
  | .bool b => ofBool b
  | .int n h => ofInt n h
  | .double x => ofDouble x
  | .text s => ofText s
  | .items ds => ofItems ds
  | .fields fs => ofFields fs

theorem ofView_view (d : Document) : ofView d.view = d := by
  obtain ⟨j, h⟩ := d
  cases j with
  | null => rfl
  | bool b => rfl
  | num n =>
    cases n with
    | int n => rfl
    | single x => exact h.elim
    | double x => rfl
  | str s => rfl
  | arr js => exact ext (congrArg Json.arr (map_json_items js h))
  | obj fs => exact ext (congrArg Json.obj (map_json_fields fs h.2))

end Document

end SchemaStore
