import SchemaStore.Binary.Shortest

/-!
# Layouts of a decimal

The digits and the exponent of a number say what it is; a `Layout` says how it is written: which
way a tie between two shortest decimals goes, for which exponents the digits are written out
positionally, and whether a whole number keeps a fractional digit.
-/

namespace SchemaStore

/-- The choices in writing a number. -/
structure Layout where
  /-- Which of two equally near shortest decimals is written. -/
  tie : Tie
  /-- The exponents of the first digit for which all places are written out, both ends included;
  nothing when they always are. -/
  positional : Option (Int × Int)
  /-- A whole number written positionally ends in `.0`. -/
  keepsPoint : Bool

namespace Layout

/-- The number is written without an exponent. -/
def isPositional (l : Layout) (lead : Int) : Bool :=
  match l.positional with
  | none => true
  | some (low, high) => low ≤ lead && lead ≤ high

/-- Digits written out around the point, where the first digit counts `10 ^ lead`. -/
def positionalText (l : Layout) (digits : List Char) (lead : Int) : List Char :=
  if lead < 0 then '0' :: '.' :: List.replicate (-lead - 1).toNat '0' ++ digits
  else
    let whole := lead.toNat + 1
    if digits.length ≤ whole then
      digits ++ List.replicate (whole - digits.length) '0' ++ (if l.keepsPoint then ['.', '0'] else [])
    else digits.take whole ++ '.' :: digits.drop whole

/-- Digits with a point after the first and an exponent that always has a sign. -/
def scientificText (digits : List Char) (lead : Int) : List Char :=
  let mantissa := match digits with
    | d :: e :: rest => d :: '.' :: e :: rest
    | short => short
  mantissa ++ 'e' :: (if lead < 0 then '-' else '+') :: Nat.toDigits 10 lead.natAbs

/-- A decimal as the layout writes it. -/
def decimalText (l : Layout) (d : Decimal) : List Char :=
  let digits := Nat.toDigits 10 d.digits
  let lead := (digits.length : Int) - 1 + d.exponent
  if l.isPositional lead then l.positionalText digits lead else scientificText digits lead

/-- A finite number as the layout writes it: its sign, zero included, and its shortest decimal. -/
def text (l : Layout) {p : Precision} (x : FiniteBinary p) : List Char :=
  let body :=
    if x.magnitude.val = 0 then l.positionalText ['0'] 0 else l.decimalText (x.magnitude.shortest l.tie)
  if x.negative then '-' :: body else body

end Layout

end SchemaStore
