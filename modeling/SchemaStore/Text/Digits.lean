/-!
# Decimal digits

Runs of ASCII digits: splitting one off the front of a text, its value, and the longest start of a
run whose value stays under a limit.
-/

namespace SchemaStore.Text

/-- The value of a digit. -/
def digitValue (c : Char) : Nat := c.toNat - 48

/-- The value of a run of digits. -/
def digitsValue (ds : List Char) : Nat := ds.foldl (fun n d => 10 * n + digitValue d) 0

/-- Split off the digits in front. -/
def spanDigits (cs : List Char) : List Char × List Char :=
  (cs.takeWhile Char.isDigit, cs.dropWhile Char.isDigit)

/-- Append digits to a number as long as it stays at most `limit`, and return what is left. -/
def absorbDigits (limit : Nat) : Nat → List Char → Nat × List Char
  | n, [] => (n, [])
  | n, c :: rest =>
    if c.isDigit ∧ 10 * n + digitValue c ≤ limit then absorbDigits limit (10 * n + digitValue c) rest
    else (n, c :: rest)

/-- The text starts with a digit. -/
def startsWithDigit (cs : List Char) : Bool := cs.head?.any Char.isDigit

end SchemaStore.Text
