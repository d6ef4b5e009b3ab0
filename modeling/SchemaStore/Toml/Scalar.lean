import SchemaStore.Binary.Parse
import SchemaStore.Integer
import SchemaStore.Json.Token

/-!
# Numbers and dates in TOML

Which words are numbers, dates and times. A run of digits may have single underscores inside; a
decimal integer has no leading zero; a number in another base has no sign. An integer has at most 128
bits, signed or unsigned, and a float that is no word for infinity is finite in double precision.
Dates exist in the calendar, and the seconds of a time may be missing.
-/

namespace SchemaStore.Toml

/-- Digits of a class, with single underscores between them. -/
def isDigitRun (digit : Char → Bool) : List Char → Bool
  | [] => false
  | [c] => digit c
  | c :: '_' :: rest => digit c && isDigitRun digit rest
  | c :: rest => digit c && isDigitRun digit rest

/-- Decimal digits without a leading zero. -/
def isWhole (cs : List Char) : Bool :=
  isDigitRun Char.isDigit cs && (cs.head? != some '0' || cs.length == 1)

/-- Drop one sign in front. -/
def dropSign : List Char → List Char
  | '+' :: rest => rest
  | '-' :: rest => rest
  | cs => cs

/-- The underscores between digits left out. -/
def withoutMarks (cs : List Char) : List Char := cs.filter (· != '_')

/-- The number a run of digits of a base denotes. -/
def digitRun? (base : Nat) (cs : List Char) : Option Int :=
  let digit := fun c => (Token.hexDigit? c).filter (· < base)
  if isDigitRun (fun c => (digit c).isSome) cs then
    some ((withoutMarks cs).foldl (fun n c => base * n + (digit c).getD 0) 0 : Nat)
  else none

/-- The number a whole number with an optional sign denotes. -/
def signed? (cs : List Char) : Option Int :=
  if isWhole (dropSign cs) then
    let n : Int := (Text.digitsValue (withoutMarks (dropSign cs)) : Nat)
    some (if cs.head? = some '-' then -n else n)
  else none

/-- The number an integer denotes: decimal with an optional sign, or in base 16, 8 or 2 without. -/
def integer? : List Char → Option Int
  | '0' :: 'x' :: rest => digitRun? 16 rest
  | '0' :: 'o' :: rest => digitRun? 8 rest
  | '0' :: 'b' :: rest => digitRun? 2 rest
  | cs => signed? cs

/-- An integer that fits a signed or an unsigned word of 128 bits. -/
def isInteger (cs : List Char) : Bool :=
  (integer? cs).any fun n => IntKind.i128.least ≤ n && n < IntKind.u128.bound

/-- Split at the first exponent mark. -/
def splitExponent (cs : List Char) : List Char × Option (List Char) :=
  let mark := fun c => c == 'e' || c == 'E'
  match cs.dropWhile fun c => !mark c with
  | [] => (cs, none)
  | _ :: rest => (cs.takeWhile fun c => !mark c, some (dropSign rest))

/-- The notation of a float with digits: a whole part with a fraction, an exponent or both. -/
def isFloatNotation (cs : List Char) : Bool :=
  let (mantissa, exponent) := splitExponent (dropSign cs)
  let whole := mantissa.takeWhile (· != '.')
  let exponentFits := (exponent.map (isDigitRun Char.isDigit)).getD true
  match mantissa.dropWhile (· != '.') with
  | [] => exponent.isSome && isWhole whole && exponentFits
  | _ :: fraction => isWhole whole && isDigitRun Char.isDigit fraction && exponentFits

/-- The text denotes a finite double. -/
def denotesFinite (cs : List Char) : Bool :=
  match Binary.parse? .double cs with
  | some (.finite _) => true
  | _ => false

/-- A float: an infinity, a NaN, or a number that is finite in double precision. -/
def isFloat (cs : List Char) : Bool :=
  dropSign cs = ['i', 'n', 'f'] || dropSign cs = ['n', 'a', 'n'] ||
    isFloatNotation cs && denotesFinite (withoutMarks cs)

/-- Two digits as a number. -/
def twoDigits? : List Char → Option (Nat × List Char)
  | a :: b :: rest =>
    if a.isDigit && b.isDigit then some (Text.digitValue a * 10 + Text.digitValue b, rest) else none
  | _ => none

/-- The days of a month. -/
def daysOf (year month : Nat) : Nat :=
  if month = 2 then
    if year % 4 = 0 ∧ (year % 100 ≠ 0 ∨ year % 400 = 0) then 29 else 28
  else if month = 4 ∨ month = 6 ∨ month = 9 ∨ month = 11 then 30
  else 31

/-- Read a date of the calendar and return what follows it. -/
def date? (cs : List Char) : Option (List Char) := do
  let (century, cs) ← twoDigits? cs
  let (year, cs) ← twoDigits? cs
  let '-' :: cs := cs | none
  let (month, cs) ← twoDigits? cs
  let '-' :: cs := cs | none
  let (day, cs) ← twoDigits? cs
  if 1 ≤ month ∧ month ≤ 12 ∧ 1 ≤ day ∧ day ≤ daysOf (century * 100 + year) month then some cs
  else none

/-- Read the seconds of a time, if there are any, and return what follows. -/
def seconds? : List Char → Option (List Char)
  | ':' :: cs => do
    let (second, cs) ← twoDigits? cs
    if second ≤ 60 then
      match cs with
      | '.' :: cs => if Text.startsWithDigit cs then some (Text.spanDigits cs).2 else none
      | cs => some cs
    else none
  | cs => some cs

/-- Read a time and return what follows it. -/
def time? (cs : List Char) : Option (List Char) := do
  let (hour, cs) ← twoDigits? cs
  let ':' :: cs := cs | none
  let (minute, cs) ← twoDigits? cs
  if hour ≤ 23 ∧ minute ≤ 59 then seconds? cs else none

/-- An offset from universal time, or nothing. -/
def isOffset : List Char → Bool
  | [] => true
  | ['Z'] => true
  | ['z'] => true
  | c :: cs =>
    if c = '+' ∨ c = '-' then
      match twoDigits? cs with
      | some (hour, ':' :: cs) =>
        match twoDigits? cs with
        | some (minute, []) => hour ≤ 23 && minute ≤ 59
        | _ => false
      | _ => false
    else false

/-- A date, a time, or both with an optional offset. -/
def isDate (cs : List Char) : Bool :=
  match date? cs with
  | some [] => true
  | some (c :: rest) =>
    if c = 'T' ∨ c = 't' ∨ c = ' ' then ((time? rest).map isOffset).getD false else false
  | none => time? cs == some []

/-- The characters a number or a date is made of. -/
def isWordChar (c : Char) : Bool :=
  c.isAlphanum || c == '+' || c == '-' || c == '_' || c == '.' || c == ':'

/-- Split off a number, a date or a literal word. A date and a time may have a space between. -/
def spanWord (cs : List Char) : List Char × List Char :=
  let word := cs.takeWhile isWordChar
  let rest := cs.dropWhile isWordChar
  match rest with
  | ' ' :: more =>
    if date? word == some [] && Text.startsWithDigit more then
      (word ++ ' ' :: more.takeWhile isWordChar, more.dropWhile isWordChar)
    else (word, rest)
  | rest => (word, rest)

end SchemaStore.Toml
