import SchemaStore.Json.Basic
import SchemaStore.Text.Quoted

/-!
# JSON text

The compact text of a tree: no blank between tokens, short escapes where JSON has them, other
control characters as four hexadecimal digits, and everything else verbatim. Floats are written with
the fewest digits that read back at their own precision; very large and very small ones have an
exponent.
-/

namespace SchemaStore

/-- Doubles are written positionally from `0.00001` to sixteen places before the point. -/
def Layout.jsonDouble : Layout := ⟨.even, some (-5, 15), true⟩

/-- Singles are written positionally from `0.000001` to thirteen places before the point. -/
def Layout.jsonSingle : Layout := ⟨.even, some (-6, 12), true⟩

/-- Decimal digits of an integer, with a minus sign below zero. -/
def Text.decimal (n : Int) : List Char :=
  if n < 0 then '-' :: Nat.toDigits 10 n.natAbs else Nat.toDigits 10 n.natAbs

/-- The text of a number. -/
def Number.text : Number → List Char
  | .int n => Text.decimal n
  | .single x => Layout.jsonSingle.text x
  | .double x => Layout.jsonDouble.text x

namespace Json

/-- A character as it stands between the quotes of a JSON string. -/
def escapedChar (c : Char) : List Char :=
  match c with
  | '"' => ['\\', '"']
  | '\\' => ['\\', '\\']
  | '\x08' => ['\\', 'b']
  | '\x0c' => ['\\', 'f']
  | '\n' => ['\\', 'n']
  | '\r' => ['\\', 'r']
  | '\t' => ['\\', 't']
  | c =>
    if c.toNat < 32 then
      ['\\', 'u', '0', '0', Nat.digitChar (c.toNat / 16), Nat.digitChar (c.toNat % 16)]
    else [c]

/-- The JSON text of a string. -/
def stringText (s : List Char) : List Char := '"' :: s.flatMap escapedChar ++ ['"']

mutual

/-- The compact text of a tree. -/
def text : Json → List Char
  | .null => ['n', 'u', 'l', 'l']
  | .bool true => ['t', 'r', 'u', 'e']
  | .bool false => ['f', 'a', 'l', 's', 'e']
  | .num n => n.text
  | .str s => stringText s.toList
  | .arr [] => ['[', ']']
  | .arr (j :: rest) => '[' :: text j ++ textItems rest
  | .obj [] => ['\x7b', '\x7d']
  | .obj ((name, j) :: rest) => '\x7b' :: stringText name.toList ++ ':' :: text j ++ textFields rest

/-- The items after the first, each after a comma, and the closing bracket. -/
def textItems : List Json → List Char
  | [] => [']']
  | j :: rest => ',' :: text j ++ textItems rest

/-- The fields after the first, each after a comma, and the closing brace. -/
def textFields : List (String × Json) → List Char
  | [] => ['\x7d']
  | (name, j) :: rest => ',' :: stringText name.toList ++ ':' :: text j ++ textFields rest

end

/-- The text as a string. -/
def render (j : Json) : String := String.ofList j.text

end Json

end SchemaStore
