/-!
# TOML tables

A TOML document is a table that is filled line by line: a header selects a table, a key and a value
add to the selected one. What may be added where depends on how a table came to be (`Origin`): a
table with a header of its own is not opened twice, one that a dotted key made is only extended by
dotted keys of the same table, and one written inline is closed. `Table.define`, `Table.openTable`
and `Table.openElement` are the three steps; each returns nothing when the document is in conflict
with itself.
-/

namespace SchemaStore.Toml

/-- How a table came to be. -/
inductive Origin
  /-- It has a header, is the root, or is an element of an array of tables. -/
  | header
  /-- A longer header passes through it. -/
  | passage
  /-- A dotted key passes through it. -/
  | dotted
  /-- It is written as a value. -/
  | inline
deriving DecidableEq

/-- A value of a document. Numbers and dates keep the text they were written as. -/
inductive Value
  | text (s : String)
  | bool (b : Bool)
  | number (literal : String)
  | date (literal : String)
  | array (items : List Value)
  | table (origin : Origin) (fields : List (String × Value))
  | tables (elements : List (List (String × Value)))

/-- The fields of a table. -/
abbrev Table : Type := List (String × Value)

namespace Table

/-- Put a value under a key, in place of the one that is there. -/
def put (key : String) (v : Value) : Table → Table
  | [] => [(key, v)]
  | (k, w) :: rest => if k = key then (key, v) :: rest else (k, w) :: put key v rest

/-- Act on the table at the end of a path. Missing tables on the way are made, with `made` as their
origin; a table with a header cannot be entered by a dotted key, an inline table not at all, and an
array of tables is entered at its last element. -/
def enter (made : Origin) (act : Origin → Table → Option Table) :
    List String → Origin → Table → Option Table
  | [], origin, t => act origin t
  | key :: path, _, t =>
    match t.lookup key with
    | none => (enter made act path made []).map fun sub => put key (.table made sub) t
    | some (.table .inline _) => none
    | some (.table origin sub) =>
      if made = .dotted ∧ origin = .header then none
      else (enter made act path origin sub).map fun sub => put key (.table origin sub) t
    | some (.tables elements) =>
      match elements.getLast? with
      | none => none
      | some last =>
        (enter made act path .header last).map fun last =>
          put key (.tables (elements.dropLast ++ [last])) t
    | some _ => none

/-- Add a key and a value, unless the key is there. `dotted` says whether a dotted key led to this
table, which must then have been made by one. -/
def add (dotted : Bool) (key : String) (v : Value) (origin : Origin) (t : Table) : Option Table :=
  if (origin == .dotted) != dotted then none
  else if (t.lookup key).isSome then none
  else some (t ++ [(key, v)])

/-- Add a value under a dotted key. -/
def define (path : List String) (key : String) (v : Value) (origin : Origin) (t : Table) :
    Option Table :=
  enter .dotted (add (!path.isEmpty) key v) path origin t

/-- Open the table of a header. Only a table that longer headers passed through may be there. -/
def openTable (key : String) (_ : Origin) (t : Table) : Option Table :=
  match t.lookup key with
  | none => some (t ++ [(key, .table .header [])])
  | some (.table .passage sub) => some (put key (.table .header sub) t)
  | some _ => none

/-- Open a new element of an array of tables. -/
def openElement (key : String) (_ : Origin) (t : Table) : Option Table :=
  match t.lookup key with
  | none => some (t ++ [(key, .tables [[]])])
  | some (.tables elements) => some (put key (.tables (elements ++ [[]])) t)
  | some _ => none

end Table

end SchemaStore.Toml
