import SchemaStore.Json.Container

/-!
# Skipping a value

A field that a record does not know is skipped without being kept. Skipping follows the grammar but
not its limits: containers nest without bound, so the open ones are kept on a list, numbers have any
magnitude, and escapes are checked for shape alone.
-/

namespace SchemaStore.Skip

/-- A container that is open. -/
inductive Bracket
  | list
  | object
deriving DecidableEq

/-- Skip an exponent after its letter. -/
def exponentPart (cs : List Char) : Except Fault (List Char) :=
  let cs := match cs with
    | '+' :: rest => rest
    | '-' :: rest => rest
    | rest => rest
  if Text.startsWithDigit cs then .ok (Text.spanDigits cs).2 else .error (.next .badNumber cs)

/-- Skip an exponent if there is one. -/
def exponentPart? (cs : List Char) : Except Fault (List Char) :=
  match cs with
  | c :: rest => if Token.isExponentMark c then exponentPart rest else .ok cs
  | [] => .ok []

/-- Skip a fraction or an exponent if there is one. -/
def afterWhole (cs : List Char) : Except Fault (List Char) :=
  match cs with
  | '.' :: rest =>
    if Text.startsWithDigit rest then exponentPart? (Text.spanDigits rest).2
    else .error (.next .badNumber rest)
  | cs => exponentPart? cs

/-- Skip a number after its sign. -/
def number (cs : List Char) : Except Fault (List Char) :=
  match cs with
  | '0' :: rest =>
    if Text.startsWithDigit rest then .error (.next .badNumber rest) else afterWhole rest
  | cs =>
    if Text.startsWithDigit cs then afterWhole (Text.spanDigits cs).2
    else .error (.next .badNumber cs)

/-- Skip an escape after its backslash. -/
def escape (cs : List Char) : Except Fault (List Char) :=
  match cs with
  | [] => .error (.here .endInString [])
  | 'u' :: rest =>
    match Token.hexEscape rest with
    | .ok (_, rest) => .ok rest
    | .error e => .error e
  | c :: rest =>
    if c ∈ ['"', '\\', '/', 'b', 'f', 'n', 'r', 't'] then .ok rest
    else .error (.next .badEscape (c :: rest))

/-- Skip a string after its opening quote. The first argument counts the characters that an escape
has taken already. -/
def stringBody : Nat → List Char → Except Fault (List Char)
  | _, [] => .error (.here .endInString [])
  | taken + 1, _ :: rest => stringBody taken rest
  | 0, c :: rest =>
    if c = '"' then .ok rest
    else if c = '\\' then
      match escape rest with
      | .error e => .error e
      | .ok tail => stringBody (rest.length - tail.length) rest
    else if c.toNat < 32 then .error (.here .controlCharacter (c :: rest))
    else stringBody 0 rest

/-- Skip a key and its colon. -/
def key (cs : List Char) : Except Fault (List Char) :=
  match Text.skipBlanks cs with
  | [] => .error (.next .endInObject [])
  | '"' :: rest =>
    match stringBody 0 rest with
    | .ok rest => Container.colon rest
    | .error e => .error e
  | rest => .error (.next .keyNotText rest)

/-- Skip the token that starts a value. An opening bracket is returned. -/
def start (cs : List Char) : Except Fault (Option Bracket × List Char) :=
  let plain (r : Except Fault (List Char)) : Except Fault (Option Bracket × List Char) :=
    r.map fun rest => (none, rest)
  match Text.skipBlanks cs with
  | [] => .error (.next .endInValue [])
  | 'n' :: rest => plain (Token.literal "ull".toList rest)
  | 't' :: rest => plain (Token.literal "rue".toList rest)
  | 'f' :: rest => plain (Token.literal "alse".toList rest)
  | '-' :: rest => plain (number rest)
  | '"' :: rest => plain (stringBody 0 rest)
  | '[' :: rest => .ok (some .list, rest)
  | '\x7b' :: rest => .ok (some .object, rest)
  | c :: rest =>
    if c.isDigit then plain (number (c :: rest)) else .error (.next .noValue (c :: rest))

/-- Where skipping stands: before a value, or inside the innermost open container, right after its
opening bracket or after an element. -/
inductive Stage
  | value
  | opened
  | element
deriving DecidableEq

/-- Skip up to the end of the outermost open value. The first argument bounds the number of tokens,
the list holds the open containers from the inside out. -/
def run : Nat → Stage → List Bracket → List Char → Except Fault (List Char)
  | 0, _, _, cs => .error (.next .endInValue cs)
  | n + 1, .value, stack, cs =>
    match start cs with
    | .error e => .error e
    | .ok (some b, rest) => run n .opened (b :: stack) rest
    | .ok (none, rest) => run n .element stack rest
  | _ + 1, _, [], cs => .ok cs
  | n + 1, stage, b :: stack, cs =>
    match Text.skipBlanks cs with
    | [] => .error (.next (if b = .list then .endInList else .endInObject) [])
    | c :: rest =>
      if (c = ']' ∧ b = .list) ∨ (c = '\x7d' ∧ b = .object) then run n .element stack rest
      else if stage = .element ∧ c ≠ ',' then
        .error (.next (if b = .list then .noListEnd else .noObjectEnd) (c :: rest))
      else
        let cs := if stage = .element then rest else c :: rest
        if b = .list then run n .value (b :: stack) cs
        else
          match key cs with
          | .error e => .error e
          | .ok cs => run n .value (b :: stack) cs

/-- Skip one value. -/
def value (cs : List Char) : Except Fault (List Char) := run (2 * cs.length + 2) .value [] cs

end SchemaStore.Skip
