import SchemaStore.Shape.Basic
import SchemaStore.Text.Utf8

/-!
# Schemas

A schema declares the keys a facade gives access to: a name, the shape of the values under it, and
whether those values may be merged. Key names are distinct, so a key is its position in the list;
they are compared byte by byte.
-/

namespace SchemaStore

/-- The bytes agree one by one, and neither list goes on where the other ends. -/
def sameBytes : Bytes → Bytes → Bool
  | [], [] => true
  | b :: bs, c :: cs => b == c && sameBytes bs cs
  | _, _ => false

/-- The names have the same bytes. -/
def sameName (name other : String) : Bool := sameBytes (Utf8.encode name) (Utf8.encode other)

/-- No two positions of a list hold the same key: none is found again among those after it. -/
def keysAreUnique : List String → Bool
  | [] => true
  | key :: rest => !rest.any (sameName key) && keysAreUnique rest

/-- A declared key. -/
structure KeyDecl where
  name : String
  shape : Shape
  /-- Values under the key may be merged. -/
  composite : Bool

/-- The keys of a facade, in the order in which they are declared. -/
structure Schema where
  title : String
  decls : List KeyDecl
  distinct : keysAreUnique (decls.map (·.name)) = true

namespace Schema

variable (S : Schema)

/-- A key of a schema. -/
abbrev Key : Type := Fin S.decls.length

variable {S}

/-- The declaration of a key. -/
def decl (k : S.Key) : KeyDecl := S.decls.get k

/-- The name a key has in the store. -/
def name (k : S.Key) : String := (S.decl k).name

/-- The shape of the values under a key. -/
def shape (k : S.Key) : Shape := (S.decl k).shape

/-- The values under a key. -/
abbrev Val (k : S.Key) : Type := (S.shape k).Val

variable (S)

/-- A key whose values may be merged. -/
abbrev MergeKey : Type := { k : S.Key // (S.decl k).composite = true }

/-- A key with a value for it. -/
abbrev Entry : Type := (k : S.Key) × S.Val k

/-- A key whose values may be merged, with a value for it. -/
abbrev MergeEntry : Type := (k : S.MergeKey) × S.Val k.val

/-- The names of all keys, as declared. -/
def names : List String := S.decls.map (·.name)

/-- The key of a name. -/
def key? (name : String) : Option S.Key := S.decls.findFinIdx? fun d => d.name == name

end Schema

end SchemaStore
