import SchemaStore.Toml.Basic
import SchemaStore.Toml.Scalar
import SchemaStore.Toml.Text

/-!
# Reading TOML

`Table.parse?` reads a whole document into its root table, or nothing if it is no TOML. A line holds
a header, a key with a value, or nothing, and may end in a comment. Arrays and inline tables may
extend over lines, may end in a comma, and nest up to a limit, as do the tables of a dotted key.
-/

namespace SchemaStore.Toml

/-- How many arrays and inline tables may be nested, and how many parts a key may have. -/
def maxNesting : Nat := 80

/-- Skip a comment if there is one. Its characters end at a line end or at the end of the text. -/
def skipComment : List Char → List Char
  | '#' :: rest => rest.dropWhile isPlain
  | cs => cs

/-- Skip blanks, comments and line ends. The first argument bounds the number of lines. -/
def skipLines : Nat → List Char → List Char
  | 0, cs => cs
  | n + 1, cs =>
    let cs := skipComment (skipSpaces cs)
    match lineEnd? cs with
    | some rest => skipLines n rest
    | none => cs

/-- Skip blanks, comments and line ends. -/
def skipBlankLines (cs : List Char) : List Char := skipLines (cs.length + 1) cs

/-- Read the end of a line: blanks, a comment, and a line end or the end of the text. -/
def endOfLine? (cs : List Char) : Option (List Char) :=
  match skipComment (skipSpaces cs) with
  | [] => some []
  | cs => lineEnd? cs

/-- A character of a key without quotes. -/
def isBareChar (c : Char) : Bool := c.isAlphanum || c == '_' || c == '-'

/-- Read one part of a key. -/
def simpleKey? (cs : List Char) : Option (String × List Char) :=
  match cs with
  | '"' :: rest => (basic? 0 rest).map fun (s, rest) => (String.ofList s, rest)
  | '\'' :: rest => (literal? rest).map fun (s, rest) => (String.ofList s, rest)
  | cs =>
    match cs.takeWhile isBareChar with
    | [] => none
    | name => some (String.ofList name, cs.dropWhile isBareChar)

/-- Read a dotted key: the parts before the last, and the last. Blanks around the dots and after the
key are skipped. The first argument bounds the number of parts. -/
def dottedKey? : Nat → List Char → Option ((List String × String) × List Char)
  | 0, _ => none
  | n + 1, cs => do
    let (name, rest) ← simpleKey? (skipSpaces cs)
    match skipSpaces rest with
    | '.' :: rest =>
      let ((path, last), rest) ← dottedKey? n rest
      return ((name :: path, last), rest)
    | rest => return (([], name), rest)

/-- Read a dotted key. -/
def key? (cs : List Char) : Option ((List String × String) × List Char) := dottedKey? maxNesting cs

/-- Read a dotted key and the equals sign after it. What may be skipped on both sides of the sign
depends on where the key stands: blanks, or in an inline table whole lines too. -/
def assignment? (skip : List Char → List Char) (cs : List Char) :
    Option ((List String × String) × List Char) := do
  let (key, rest) ← key? cs
  match skip rest with
  | '=' :: rest => return (key, skip rest)
  | _ => none

/-- The value of a word. -/
def wordValue? (word : List Char) : Option Value :=
  if word = ['t', 'r', 'u', 'e'] then some (.bool true)
  else if word = ['f', 'a', 'l', 's', 'e'] then some (.bool false)
  else if isInteger word || isFloat word then some (.number (String.ofList word))
  else if isDate word then some (.date (String.ofList word))
  else none

/-- Read the items of an array and its closing bracket. The first argument bounds their number. -/
def items? (value : List Char → Option (Value × List Char)) :
    Nat → List Char → Option (List Value × List Char)
  | 0, _ => none
  | n + 1, cs =>
    match skipBlankLines cs with
    | ']' :: rest => some ([], rest)
    | cs => do
      let (v, rest) ← value cs
      match skipBlankLines rest with
      | ',' :: rest =>
        let (vs, rest) ← items? value n rest
        return (v :: vs, rest)
      | ']' :: rest => return ([v], rest)
      | _ => none

/-- Read the fields of an inline table and its closing brace into a table. The first argument bounds
their number. -/
def fields? (value : List Char → Option (Value × List Char)) :
    Nat → Table → List Char → Option (Table × List Char)
  | 0, _, _ => none
  | n + 1, t, cs =>
    match skipBlankLines cs with
    | '\x7d' :: rest => some (t, rest)
    | cs => do
      let ((path, name), rest) ← assignment? skipBlankLines cs
      let (v, rest) ← value rest
      let t ← t.define path name v .inline
      match skipBlankLines rest with
      | ',' :: rest => fields? value n t rest
      | '\x7d' :: rest => return (t, rest)
      | _ => none

/-- Read a value in which so many arrays and inline tables may be nested. -/
def value? : Nat → List Char → Option (Value × List Char)
  | depth, cs =>
    match cs with
    | '"' :: _ => (string? cs).map fun (s, rest) => (.text s, rest)
    | '\'' :: _ => (string? cs).map fun (s, rest) => (.text s, rest)
    | '[' :: rest =>
      match depth with
      | 0 => none
      | depth + 1 =>
        (items? (value? depth) (rest.length + 1) rest).map fun (vs, rest) => (.array vs, rest)
    | '\x7b' :: rest =>
      match depth with
      | 0 => none
      | depth + 1 =>
        (fields? (value? depth) (rest.length + 1) [] rest).map fun (t, rest) =>
          (.table .inline t, rest)
    | cs =>
      let (word, rest) := spanWord cs
      (wordValue? word).map fun v => (v, rest)

/-- A document that is being read: the root table and the path to the table a header selected. -/
structure Draft where
  root : Table
  selected : List String

namespace Draft

/-- Select a table by its header. -/
def select (d : Draft) (step : String → Origin → Table → Option Table) (path : List String)
    (name : String) : Option Draft :=
  (Table.enter .passage (step name) path .header d.root).map fun root => ⟨root, path ++ [name]⟩

/-- Add a value to the selected table. -/
def define (d : Draft) (path : List String) (name : String) (v : Value) : Option Draft :=
  (Table.enter .passage (Table.define path name v) d.selected .header d.root).map fun root =>
    { d with root := root }

/-- Read one line, up to its end. -/
def line? (d : Draft) (cs : List Char) : Option (Draft × List Char) :=
  match cs with
  | '[' :: '[' :: rest => do
    let ((path, name), rest) ← key? rest
    let ']' :: ']' :: rest := rest | none
    return (← d.select Table.openElement path name, rest)
  | '[' :: rest => do
    let ((path, name), rest) ← key? rest
    let ']' :: rest := rest | none
    return (← d.select Table.openTable path name, rest)
  | cs => do
    let ((path, name), rest) ← assignment? skipSpaces cs
    let (v, rest) ← value? maxNesting rest
    return (← d.define path name v, rest)

/-- Read all lines. The first argument bounds their number. -/
def lines? : Nat → Draft → List Char → Option Draft
  | 0, _, _ => none
  | n + 1, d, cs =>
    match skipBlankLines cs with
    | [] => some d
    | cs => do
      let (d, rest) ← d.line? cs
      lines? n d (← endOfLine? rest)

end Draft

/-- Read a document. A byte order mark in front is skipped. -/
def Table.parse? (text : String) : Option Table :=
  let cs := match text.toList with
    | '\uFEFF' :: rest => rest
    | cs => cs
  (Draft.lines? (cs.length + 1) ⟨[], []⟩ cs).map (·.root)

end SchemaStore.Toml
