import SchemaStore.Json.Token

/-!
# Arrays and objects

The punctuation of containers, apart from what they hold. `listOf` and `foldEntries` read the
contents after an opening bracket with a reader for one item or one entry, `closeList` and
`closeObject` read the closing bracket, and `enclose` joins the two: the closing step runs even if
the contents were refused, since a refusal without a place is placed where the container ends.
-/

namespace SchemaStore

/-- How many containers may be nested in one text. -/
def maxDepth : Nat := 127

namespace Container

/-- Close a list. Returns the characters left and what was wrong, if anything. -/
def closeList (cs : List Char) : List Char × Option Fault :=
  match Text.skipBlanks cs with
  | [] => ([], some (.next .endInList []))
  | ']' :: rest => (rest, none)
  | ',' :: rest =>
    let rest := Text.skipBlanks rest
    (rest, some (.next (if rest.head? = some ']' then .trailingComma else .trailingCharacters) rest))
  | rest => (rest, some (.next .trailingCharacters rest))

/-- Close an object. Returns the characters left and what was wrong, if anything. -/
def closeObject (cs : List Char) : List Char × Option Fault :=
  match Text.skipBlanks cs with
  | [] => ([], some (.next .endInObject []))
  | '\x7d' :: rest => (rest, none)
  | ',' :: rest => (',' :: rest, some (.next .trailingComma (',' :: rest)))
  | rest => (rest, some (.next .trailingCharacters rest))

/-- Close a container after its contents. The fault of the contents comes first, and one that
floats is placed after the closing step. -/
def enclose {α : Type} (close : List Char → List Char × Option Fault) (contents : Read α) : Read α :=
  match contents with
  | .ok (a, rest) =>
    match close rest with
    | (rest, none) => .ok (a, rest)
    | (_, some e) => .error e
  | .error (.placed problem left) => .error (.placed problem left)
  | .error (.floating problem rest) => .error (.here problem (close rest).1)

/-- Go to the next item of a list, unless the list ends here. -/
def nextItem (first : Bool) (cs : List Char) : Except Fault (Option (List Char)) :=
  match Text.skipBlanks cs with
  | [] => .error (.next .endInList [])
  | ']' :: _ => .ok none
  | c :: rest =>
    if first then .ok (some (c :: rest))
    else if c = ',' then
      match Text.skipBlanks rest with
      | [] => .error (.next .endInValue [])
      | ']' :: rest => .error (.next .trailingComma (']' :: rest))
      | rest => .ok (some rest)
    else .error (.next .noListEnd (c :: rest))

/-- Go to the next key of an object, past its opening quote, unless the object ends here. -/
def nextKey (first : Bool) (cs : List Char) : Except Fault (Option (List Char)) :=
  match Text.skipBlanks cs with
  | [] => .error (.next .endInObject [])
  | '\x7d' :: _ => .ok none
  | c :: rest =>
    if first then
      if c = '"' then .ok (some rest) else .error (.next .keyNotText (c :: rest))
    else if c = ',' then
      match Text.skipBlanks rest with
      | [] => .error (.next .endInValue [])
      | '"' :: rest => .ok (some rest)
      | '\x7d' :: rest => .error (.next .trailingComma ('\x7d' :: rest))
      | rest => .error (.next .keyNotText rest)
    else .error (.next .noObjectEnd (c :: rest))

/-- Read the colon after a key. -/
def colon (cs : List Char) : Except Fault (List Char) :=
  match Text.skipBlanks cs with
  | [] => .error (.next .endInObject [])
  | ':' :: rest => .ok rest
  | rest => .error (.next .noColon rest)

/-- Read the items of a list up to its end. The first argument bounds their number; every item but
the first takes a comma, so the length of the text is a bound. -/
def items {α : Type} (item : List Char → Read α) : Nat → Bool → List Char → Read (List α)
  | 0, _, cs => .error (.next .endInList cs)
  | n + 1, first, cs =>
    match nextItem first cs with
    | .error e => .error e
    | .ok none => .ok ([], cs)
    | .ok (some cs) =>
      (item cs).andThen fun a rest => (items item n false rest).map (a :: ·)

/-- Read all items of a list after its opening bracket. -/
def listOf {α : Type} (item : List Char → Read α) (cs : List Char) : Read (List α) :=
  items item (cs.length + 1) true cs

/-- Read the entries of an object up to its end, each starting after the opening quote of its key.
The first argument bounds their number. -/
def entries {σ : Type} (entry : σ → List Char → Read σ) : Nat → Bool → σ → List Char → Read σ
  | 0, _, _, cs => .error (.next .endInObject cs)
  | n + 1, first, state, cs =>
    match nextKey first cs with
    | .error e => .error e
    | .ok none => .ok (state, cs)
    | .ok (some cs) => (entry state cs).andThen fun state rest => entries entry n false state rest

/-- Read all entries of an object after its opening brace. -/
def foldEntries {σ : Type} (entry : σ → List Char → Read σ) (state : σ) (cs : List Char) : Read σ :=
  entries entry (cs.length + 1) true state cs

/-- Read one entry of a map into the map: a key after its opening quote, a colon and a value. -/
def mapEntry {κ α : Type} [Ord κ] [Std.TransOrd κ] (key : List Char → Read κ)
    (value : List Char → Read α) (m : SortedMap κ α) (cs : List Char) : Read (SortedMap κ α) :=
  (key cs).andThen fun k rest =>
    match colon rest with
    | .error e => .error e
    | .ok rest => (value rest).map fun v => m.insert k v

end Container

/-- Read a document in which so many containers may still be opened. -/
def Document.read : Nat → List Char → Read Document
  | depth, cs =>
    match Text.skipBlanks cs with
    | [] => .error (.next .endInValue [])
    | 'n' :: rest => Token.literalAs "ull" Document.null rest
    | 't' :: rest => Token.literalAs "rue" (Document.ofBool true) rest
    | 'f' :: rest => Token.literalAs "alse" (Document.ofBool false) rest
    | '-' :: rest => (Token.number true rest).map Document.ofNumber
    | '"' :: rest => (Token.string rest).map Document.ofText
    | '[' :: rest =>
      match depth with
      | 0 => .error (.next .tooDeep ('[' :: rest))
      | depth + 1 =>
        (Container.enclose Container.closeList
          (Container.listOf (Document.read depth) rest)).map Document.ofItems
    | '\x7b' :: rest =>
      match depth with
      | 0 => .error (.next .tooDeep ('\x7b' :: rest))
      | depth + 1 =>
        (Container.enclose Container.closeObject
          (Container.foldEntries (Container.mapEntry Token.string (Document.read depth))
            SortedMap.empty rest)).map Document.ofFields
    | c :: rest =>
      if c.isDigit then (Token.number false (c :: rest)).map Document.ofNumber
      else .error (.next .noValue (c :: rest))

/-- Read a document from the whole of a text. -/
def Document.parse (text : List Char) : Except Complaint Document :=
  Read.whole (Document.read maxDepth) text

end SchemaStore
