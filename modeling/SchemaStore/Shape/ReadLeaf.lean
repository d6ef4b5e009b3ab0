import SchemaStore.Json.Container
import SchemaStore.Shape.Basic

/-!
# Reading single values from text

Readers of scalars and floats from JSON text, and of scalars that are keys of an object. A token of
another kind is read to its end before it is refused, so that a malformed token is reported as such
and a well-formed one by what it is.
-/

namespace SchemaStore

/-- What a number is found to be. -/
def WordNumber.found (n : WordNumber) : Found :=
  match n with
  | ⟨.int n, _⟩ => .int n
  | ⟨.single _, h⟩ => h.elim
  | ⟨.double x, _⟩ => .double x

/-- What a document is found to be. -/
def Document.found (d : Document) : Found :=
  match d.view with
  | .null => .null
  | .bool b => .bool b
  | .int n _ => .int n
  | .double x => .double x
  | .text s => .text s
  | .items _ => .sequence
  | .fields _ => .map

/-- The position of a name in a list of names. -/
def Labels.indexOf? (name : String) : (names : List String) → Option (Fin names.length)
  | [] => none
  | n :: rest => if n = name then some ⟨0, Nat.succ_pos _⟩ else (indexOf? name rest).map Fin.succ

/-- The only character of a text. -/
def Text.single? (s : String) : Option Char :=
  match s.toList with
  | [c] => some c
  | _ => none

/-- The value of a number as an integer type has it. -/
def IntKind.ofNumber (k : IntKind) (n : WordNumber) : Except Problem k.Val :=
  match n with
  | ⟨.int n, _⟩ =>
    match k.ofInt? n with
    | some v => .ok v
    | none => .error (.invalidValue (.int n) (.integer k))
  | ⟨.single _, h⟩ => h.elim
  | ⟨.double x, _⟩ => .error (.invalidType (.double x) (.integer k))

/-- A double as a precision has it. -/
def Precision.ofDouble : (p : Precision) → FiniteBinary .double → Binary p
  | .single, x => x.round .single
  | .double, x => .finite x

/-- The value of a number as a float type has it. -/
def Precision.ofNumber (p : Precision) (n : WordNumber) : Binary p :=
  match n with
  | ⟨.int n, _⟩ => .ofInt p n
  | ⟨.single _, h⟩ => h.elim
  | ⟨.double x, _⟩ => p.ofDouble x

/-- The value of a text as a character. -/
def Text.toChar (s : String) : Except Problem Char :=
  match Text.single? s with
  | some c => .ok c
  | none => .error (.invalidValue (.text s) .character)

namespace Token

/-- Refuse what was found where something else was expected. -/
def refuse {α : Type} (expected : Expected) : Read Found → Read α
  | .ok (found, rest) => .error (.here (.invalidType found expected) rest)
  | .error e => .error e

/-- Refuse the value that starts here. Containers are refused at their bracket, other values after
they have been read. -/
def mismatch {α : Type} (expected : Expected) (cs : List Char) : Read α :=
  match cs with
  | 'n' :: rest => refuse expected (literalAs "ull" .null rest)
  | 't' :: rest => refuse expected (literalAs "rue" (.bool true) rest)
  | 'f' :: rest => refuse expected (literalAs "alse" (.bool false) rest)
  | '-' :: rest => refuse expected ((number true rest).map WordNumber.found)
  | '"' :: rest => refuse expected ((string rest).map .text)
  | '[' :: rest => refuse expected (.ok (.sequence, '[' :: rest))
  | '\x7b' :: rest => refuse expected (.ok (.map, '\x7b' :: rest))
  | cs =>
    if Text.startsWithDigit cs then refuse expected ((number false cs).map WordNumber.found)
    else .error (.next .noValue cs)

/-- Read a value that must be there: its first character, after blanks, decides how. -/
def value {α : Type} (cs : List Char) (read : Char → List Char → Read α) : Read α :=
  match Text.skipBlanks cs with
  | [] => .error (.next .endInValue [])
  | c :: rest => read c rest

/-- Read null or some value. -/
def option {α : Type} (read : List Char → Read α) (cs : List Char) : Read (Option α) :=
  match Text.skipBlanks cs with
  | 'n' :: rest => literalAs "ull" none rest
  | cs => (read cs).map some

/-- Read null. -/
def unit (cs : List Char) : Read Unit :=
  value cs fun c rest => if c = 'n' then literalAs "ull" () rest else mismatch .unit (c :: rest)

/-- Read a boolean. -/
def bool (cs : List Char) : Read Bool :=
  value cs fun c rest =>
    if c = 't' then literalAs "rue" true rest
    else if c = 'f' then literalAs "alse" false rest
    else mismatch .boolean (c :: rest)

/-- Read a number of 64 bits or a double. -/
def anyNumber (expected : Expected) (cs : List Char) : Read WordNumber :=
  value cs fun c rest =>
    if c = '-' then number true rest
    else if c.isDigit then number false (c :: rest)
    else mismatch expected (c :: rest)

/-- Read an integer of more than 64 bits. -/
def wide (k : IntKind) (cs : List Char) : Read k.Val :=
  value cs fun c rest =>
    if c = '-' ∧ k.signed = false then .error (.next .numberOutOfRange (c :: rest))
    else
      (if c = '-' then wideInteger true rest else wideInteger false (c :: rest)).andThen
        fun n rest =>
          match k.ofInt? n with
          | some v => .ok (v, rest)
          | none => .error (.here .numberOutOfRange rest)

/-- Read an integer. -/
def integer (k : IntKind) (cs : List Char) : Read k.Val :=
  if k.isWide then wide k cs else ((anyNumber (.integer k) cs).check k.ofNumber).settle

/-- Read a float. -/
def float (p : Precision) (cs : List Char) : Read (Binary p) :=
  (anyNumber (.float p) cs).map p.ofNumber

/-- Read a text, or refuse what else is there. -/
def textFor (expected : Expected) (cs : List Char) : Read String :=
  value cs fun c rest => if c = '"' then string rest else mismatch expected (c :: rest)

/-- Read a character. -/
def char (cs : List Char) : Read Char := ((textFor .character cs).check Text.toChar).settle

/-- Look a name up among the names of variants. -/
def variantIndex (names : List String) (name : String) : Except Problem (Fin names.length) :=
  match Labels.indexOf? name names with
  | some i => .ok i
  | none => .error (.unknownVariant name names)

/-- Read a variant after the opening brace: its name, a colon, what it carries, and the closing
brace. -/
def variantEntry {α : Type} (names : List String)
    (carried : Fin names.length → List Char → Read α) (cs : List Char) : Read α :=
  match Text.skipBlanks cs with
  | [] => .error (.next .endInObject [])
  | '"' :: rest =>
    (((string rest).check (variantIndex names)).settle).andThen fun i rest =>
      match Container.colon rest with
      | .error e => .error e
      | .ok rest =>
        (carried i rest).andThen fun a rest =>
          match Text.skipBlanks rest with
          | [] => .error (.here .endInObject [])
          | '\x7d' :: rest => .ok (a, rest)
          | rest => .error (.here .noValue rest)
  | '\x7d' :: rest => .error (.next .noValue ('\x7d' :: rest))
  | rest => .error (.next .keyNotText rest)

/-- Read a variant: a name alone, for which `bare` says what it stands for, or an object with the
name as its only field. A name that cannot stand alone is refused without a place. -/
def variant {α : Type} (names : List String) (bare : Fin names.length → Except Problem α)
    (carried : Fin names.length → Nat → List Char → Read α) (depth : Nat) (cs : List Char) :
    Read α :=
  value cs fun c rest =>
    if c = '"' then (((string rest).check (variantIndex names)).settle).check bare
    else if c = '\x7b' then
      match depth with
      | 0 => .error (.next .tooDeep (c :: rest))
      | depth + 1 => variantEntry names (fun i => carried i depth) rest
    else .error (.next .noValue (c :: rest))

/-- Read a label, which carries nothing. -/
def label (l : Labels) (depth : Nat) (cs : List Char) : Read (Fin l.names.length) :=
  variant l.names .ok (fun i _ cs => (unit cs).map fun _ => i) depth cs

/-- Read a boolean that is a key, after its opening quote. -/
def boolKey (cs : List Char) : Read Bool :=
  match cs with
  | [] => .error (.next .endInValue [])
  | 't' :: rest => literalAs "rue\"" true rest
  | 'f' :: rest => literalAs "alse\"" false rest
  | _ :: rest => refuse .boolean ((string rest).map .text)

/-- Read an integer that is a key, after its opening quote. -/
def integerKey (k : IntKind) (cs : List Char) : Read k.Val :=
  if Text.startsWithDigit cs ∨ cs.head? = some '-' then
    (integer k cs).andThen fun n rest =>
      match rest with
      | '"' :: rest => .ok (n, rest)
      | rest => .error (.next .noQuote rest)
  else .error (.here .keyNotNumber cs)

end Token

/-- Read a scalar. -/
def Scalar.read : (s : Scalar) → Nat → List Char → Read s.Val
  | .bool, _, cs => Token.bool cs
  | .int k, _, cs => Token.integer k cs
  | .char, _, cs => Token.char cs
  | .text, _, cs => Token.textFor .text cs
  | .label l, depth, cs => Token.label l depth cs

/-- Read a scalar that is a key, after its opening quote. -/
def Scalar.readKey : (s : Scalar) → List Char → Read s.Val
  | .bool, cs => Token.boolKey cs
  | .int k, cs => Token.integerKey k cs
  | .char, cs => (Token.string cs).check Text.toChar
  | .text, cs => Token.string cs
  | .label l, cs => ((Token.string cs).check (Token.variantIndex l.names)).settle

/-- Read a key after its opening quote. A pair has no text, so any key is refused. -/
def KeyShape.readKey : (k : KeyShape) → List Char → Read k.Val
  | .scalar s, cs => s.readKey cs
  | .pair _ _, cs => (Token.string cs).check fun s => .error (.invalidType (.text s) .pair)

/-- Read a leaf. -/
def Leaf.read : (l : Leaf) → Nat → List Char → Read l.Val
  | .scalar s, depth, cs => s.read depth cs
  | .float p, _, cs => Token.float p cs

end SchemaStore
