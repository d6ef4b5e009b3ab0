import SchemaStore.Binary.Basic
import SchemaStore.Text.Digits

/-!
# Reading a number exactly

`Binary.parse?` reads the decimal notation of a floating-point number: an optional sign, digits
with at most one point and at least one digit, an optional exponent, or one of the words `inf`,
`infinity` and `nan` in any case. The result is the number nearest to the decimal that is written,
however many digits there are.
-/

namespace SchemaStore

namespace Text

/-- Split off one sign in front: whether it is a minus, and what follows. -/
def spanSign : List Char → Bool × List Char
  | '+' :: rest => (false, rest)
  | '-' :: rest => (true, rest)
  | rest => (false, rest)

/-- The exponent at the end of a number: nothing, or `e`, an optional sign and digits. -/
def exponent? : List Char → Option Int
  | [] => some 0
  | c :: rest =>
    if c = 'e' ∨ c = 'E' then
      let (negative, rest) := spanSign rest
      match spanDigits rest with
      | (d :: ds, []) =>
        let n : Int := (digitsValue (d :: ds) : Nat)
        some (if negative then -n else n)
      | _ => none
    else none

/-- A decimal without sign: its digits as one number, and the power of ten they count. -/
def decimal? (cs : List Char) : Option (Nat × Int) :=
  let (whole, rest) := spanDigits cs
  let (fraction, rest) := match rest with
    | '.' :: rest => spanDigits rest
    | rest => ([], rest)
  let digits := whole ++ fraction
  if digits.isEmpty then none
  else (exponent? rest).map fun e => (digitsValue digits, e - (fraction.length : Int))

end Text

namespace Binary

/-- The number nearest to `n · 10 ^ e`. A decimal whose first digit lies beyond the range of the
format, on either side, is decided without computing the power. -/
def ofDecimal (p : Precision) (negative : Bool) (n : Nat) (e : Int) : Binary p :=
  let bound : Int := (Nat.pow 2 p.format.exponentBits : Nat)
  let lead := ((Nat.toDigits 10 n).length : Int) + e
  if n = 0 ∨ lead < -bound then ofRatio p negative ⟨0, 1⟩
  else if bound < lead then .infinite negative
  else ofRatio p negative (Ratio.ofDecimal n e)

/-- Read a number from the whole of a text. -/
def parse? (p : Precision) (cs : List Char) : Option (Binary p) :=
  let (negative, rest) := Text.spanSign cs
  let word := rest.map Char.toLower
  if word = ['i', 'n', 'f'] ∨ word = ['i', 'n', 'f', 'i', 'n', 'i', 't', 'y'] then
    some (.infinite negative)
  else if word = ['n', 'a', 'n'] then some .nan
  else (Text.decimal? rest).map fun (n, e) => ofDecimal p negative n e

end Binary

end SchemaStore
