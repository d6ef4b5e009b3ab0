import SchemaStore.Json.Token

/-!
# Strings in TOML

The four sorts of strings: in double quotes with escapes or in single quotes without, and each in
tripled quotes over several lines. A control character other than a tab stands in none of them, a
line end only in the last two, where it is kept as it is written; the first one after the opening
quotes is dropped.
-/

namespace SchemaStore.Toml

/-- A character that may stand in a comment or a string: no control character but the tab. -/
def isPlain (c : Char) : Bool := c == '\t' || (32 ≤ c.toNat && c.toNat != 127)

/-- Read a line end. -/
def lineEnd? : List Char → Option (List Char)
  | '\n' :: rest => some rest
  | '\r' :: '\n' :: rest => some rest
  | _ => none

/-- A blank within a line. -/
def isSpace (c : Char) : Bool := c == ' ' || c == '\t'

/-- Drop the blanks in front, but no line end. -/
def skipSpaces (cs : List Char) : List Char := cs.dropWhile isSpace

/-- The character of so many hexadecimal digits, which must be a code point. -/
def codePoint? (digits : Nat) (cs : List Char) : Option (Char × List Char) := do
  let ds ← (cs.take digits).mapM Token.hexDigit?
  if ds.length = digits then
    let n := ds.foldl (fun n d => 16 * n + d) 0
    if n < 0xD800 ∨ (0xDFFF < n ∧ n ≤ 0x10FFFF) then some (Char.ofNat n, cs.drop digits) else none
  else none

/-- Read an escape after its backslash. -/
def escape? : List Char → Option (Char × List Char)
  | 'b' :: rest => some ('\x08', rest)
  | 't' :: rest => some ('\t', rest)
  | 'n' :: rest => some ('\n', rest)
  | 'f' :: rest => some ('\x0c', rest)
  | 'r' :: rest => some ('\r', rest)
  | 'e' :: rest => some ('\x1b', rest)
  | '"' :: rest => some ('"', rest)
  | '\\' :: rest => some ('\\', rest)
  | 'x' :: rest => codePoint? 2 rest
  | 'u' :: rest => codePoint? 4 rest
  | 'U' :: rest => codePoint? 8 rest
  | _ => none

/-- Put a character in front of a string that was read. -/
def withChar (c : Char) (r : Option (List Char × List Char)) : Option (List Char × List Char) :=
  r.map fun (s, rest) => (c :: s, rest)

/-- Read a string in double quotes, after the opening one. The first argument counts the characters
that an escape has taken already. -/
def basic? : Nat → List Char → Option (List Char × List Char)
  | _, [] => none
  | taken + 1, _ :: rest => basic? taken rest
  | 0, c :: rest =>
    if c = '"' then some ([], rest)
    else if c = '\\' then
      match escape? rest with
      | some (x, tail) => withChar x (basic? (rest.length - tail.length) rest)
      | none => none
    else if isPlain c then withChar c (basic? 0 rest)
    else none

/-- Read a string in single quotes, after the opening one. -/
def literal? : List Char → Option (List Char × List Char)
  | [] => none
  | c :: rest =>
    if c = '\'' then some ([], rest)
    else if isPlain c then withChar c (literal? rest)
    else none

/-- End a string in tripled quotes: up to two quotes more belong to it. -/
def closeTripled (quote : Char) : List Char → List Char × List Char
  | a :: b :: rest =>
    if a = quote ∧ b = quote then ([a, b], rest)
    else if a = quote then ([a], b :: rest)
    else ([], a :: b :: rest)
  | [a] => if a = quote then ([a], []) else ([], [a])
  | [] => ([], [])

/-- Skip blanks and line ends. The first argument bounds the number of lines. -/
def skipFolded : Nat → List Char → List Char
  | 0, cs => cs
  | n + 1, cs =>
    let cs := skipSpaces cs
    match lineEnd? cs with
    | some rest => skipFolded n rest
    | none => cs

/-- Skip the line end after a backslash, with all blanks and line ends that follow. -/
def foldedLine? (cs : List Char) : Option (List Char) :=
  (lineEnd? (skipSpaces cs)).map fun rest => skipFolded (rest.length + 1) rest

/-- Three quotes stand in front. -/
def startsTripled (quote : Char) : List Char → Bool
  | a :: b :: c :: _ => a == quote && b == quote && c == quote
  | _ => false

/-- Read a string in tripled quotes, after the opening ones. The first argument counts the
characters that are taken already; `escapes` says whether a backslash is special. -/
def tripled? (quote : Char) (escapes : Bool) : Nat → List Char → Option (List Char × List Char)
  | _, [] => none
  | taken + 1, _ :: rest => tripled? quote escapes taken rest
  | 0, c :: rest =>
    if startsTripled quote (c :: rest) then some (closeTripled quote (rest.drop 2))
    else if c = '\\' ∧ escapes = true then
      match foldedLine? rest with
      | some tail => tripled? quote escapes (rest.length - tail.length) rest
      | none =>
        match escape? rest with
        | some (x, tail) => withChar x (tripled? quote escapes (rest.length - tail.length) rest)
        | none => none
    else if isPlain c ∨ (lineEnd? (c :: rest)).isSome then
      withChar c (tripled? quote escapes 0 rest)
    else none

/-- Drop a line end in front. -/
def dropLineEnd (cs : List Char) : List Char := (lineEnd? cs).getD cs

/-- Read a string of any sort, from its opening quotes on. -/
def string? (cs : List Char) : Option (String × List Char) :=
  let read := match cs with
    | '"' :: '"' :: '"' :: rest => tripled? '"' true 0 (dropLineEnd rest)
    | '\'' :: '\'' :: '\'' :: rest => tripled? '\'' false 0 (dropLineEnd rest)
    | '"' :: rest => basic? 0 rest
    | '\'' :: rest => literal? rest
    | _ => none
  read.map fun (s, rest) => (String.ofList s, rest)

end SchemaStore.Toml
