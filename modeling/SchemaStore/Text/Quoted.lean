import SchemaStore.Text.Printable

/-!
# Quoted text in diagnostics

A message that shows a piece of data writes it in double quotes. The quote, the backslash, NUL, tab
and the line ends have short escapes; any other character that would not show as itself is written
as its code point in braces.
-/

namespace SchemaStore.Text

/-- Lowercase hexadecimal digits of a number, without leading zeros. -/
def hex (n : Nat) : List Char := Nat.toDigits 16 n

/-- A character as a diagnostic shows it between double quotes. -/
def quotedChar (c : Char) : List Char :=
  match c with
  | '"' => ['\\', '"']
  | '\\' => ['\\', '\\']
  | '\n' => ['\\', 'n']
  | '\r' => ['\\', 'r']
  | '\t' => ['\\', 't']
  | '\x00' => ['\\', '0']
  | c => if isPrintable c then [c] else ['\\', 'u', '\x7b'] ++ hex c.toNat ++ ['\x7d']

/-- Text in double quotes, as a diagnostic shows it. -/
def quoted (s : String) : String :=
  String.ofList ('"' :: s.toList.flatMap quotedChar ++ ['"'])

/-- A list of texts as a diagnostic shows it: each quoted, with commas, in brackets. -/
def quotedList (ss : List String) : String :=
  "[" ++ ", ".intercalate (ss.map quoted) ++ "]"

end SchemaStore.Text
