import SchemaStore.Json.Fault
import SchemaStore.Text.Digits

/-!
# Literals, numbers and strings

Readers of the JSON tokens that hold a value. An integer that fits 64 bits stays an integer; every
other number becomes a double. The conversion takes as many digits as fit an unsigned 64-bit
significand, rounds that to a double and scales it by a rounded power of ten, so it is not always
the double nearest to the decimal that is written.
-/

namespace SchemaStore

/-- The greatest unsigned 64-bit integer. -/
def maxWord : Nat := 18446744073709551615

/-- A number an untyped reader can produce. -/
abbrev WordNumber := { n : Number // n.IsDynamic }

/-- The document of a number. -/
def Document.ofNumber (n : WordNumber) : Document := ⟨.num n.1, n.2⟩

namespace Magnitude

variable {f : Format}

/-- The rounded product, unless it is infinite. -/
def mul? (a b : Magnitude f) : Option (Magnitude f) := ofRatio? f (a.ratio.mul b.ratio)

/-- The rounded quotient, unless it is infinite. -/
def div? (a b : Magnitude f) : Option (Magnitude f) := ofRatio? f (a.ratio.div b.ratio)

/-- The magnitude nearest to a power of ten. -/
def powerOfTen? (f : Format) (n : Nat) : Option (Magnitude f) := ofRatio? f ⟨Nat.pow 10 n, 1⟩

/-- Scale by a power of ten, in one rounded step if its exponent is at most 308 and in several
otherwise. Three divisions take every 64-bit significand to zero, and zero is not scaled. -/
def scaleByTen? : Nat → Magnitude f → Int → Option (Magnitude f)
  | steps, m, e =>
    if e.natAbs ≤ 308 then
      (powerOfTen? f e.natAbs).bind fun p => if 0 ≤ e then m.mul? p else m.div? p
    else if m.val = 0 then some m
    else if 0 ≤ e then none
    else
      match steps with
      | 0 => none
      | steps + 1 =>
        ((powerOfTen? f 308).bind m.div?).bind fun m => scaleByTen? steps m (e + 308)

end Magnitude

namespace Token

/-- Read the letters of a literal. -/
def literal : List Char → List Char → Except Fault (List Char)
  | [], cs => .ok cs
  | _ :: _, [] => .error (.here .endInValue [])
  | e :: es, c :: cs => if c = e then literal es cs else .error (.next .noLiteral (c :: cs))

/-- Read the letters of a literal that stands for `value`. -/
def literalAs {α : Type} (letters : String) (value : α) (cs : List Char) : Read α :=
  match literal letters.toList cs with
  | .ok rest => .ok (value, rest)
  | .error e => .error e

/-- The number of a sign and a 64-bit significand: an integer if it fits, and otherwise, as for a
zero with a minus sign, a double. -/
def wordNumber (negative : Bool) (significand : Nat) (rest : List Char) : Read WordNumber :=
  let n : Int := if negative then -(significand : Int) else (significand : Int)
  if h : FitsWord n ∧ ¬ (negative = true ∧ significand = 0) then .ok (⟨.int n, h.1⟩, rest)
  else
    match Magnitude.ofRatio? Precision.double.format ⟨significand, 1⟩ with
    | some m => .ok (⟨.double ⟨negative, m⟩, trivial⟩, rest)
    | none => .error (.here .numberOutOfRange rest)

/-- The double of a significand and a decimal exponent. -/
def scaledNumber (negative : Bool) (significand : Nat) (e : Int) (rest : List Char) :
    Read WordNumber :=
  match (Magnitude.ofRatio? Precision.double.format ⟨significand, 1⟩).bind fun m =>
      m.scaleByTen? 3 e with
  | some m => .ok (⟨.double ⟨negative, m⟩, trivial⟩, rest)
  | none => .error (.here .numberOutOfRange rest)

/-- The letter before an exponent. -/
def isExponentMark (c : Char) : Bool := c == 'e' || c == 'E'

/-- Read the digits of an exponent after its sign. One of more than 31 bits makes the number zero or
infinite. -/
def exponentDigits (negative : Bool) (significand : Nat) (e : Int) (down : Bool) (cs : List Char) :
    Read WordNumber :=
  if cs.isEmpty then .error (.here .endInValue [])
  else if !Text.startsWithDigit cs then .error (.next .badNumber cs)
  else
    let (n, rest) := Text.absorbDigits 2147483647 0 cs
    if Text.startsWithDigit rest then
      if significand ≠ 0 ∧ down = false then .error (.here .numberOutOfRange rest.tail)
      else scaledNumber negative 0 0 (Text.spanDigits rest).2
    else scaledNumber negative significand (if down then e - (n : Int) else e + (n : Int)) rest

/-- Read an exponent after its letter: an optional sign and digits. -/
def exponentPart (negative : Bool) (significand : Nat) (e : Int) (cs : List Char) :
    Read WordNumber :=
  match cs with
  | '+' :: rest => exponentDigits negative significand e false rest
  | '-' :: rest => exponentDigits negative significand e true rest
  | rest => exponentDigits negative significand e false rest

/-- Read an exponent if there is one. -/
def exponentPart? (negative : Bool) (significand : Nat) (e : Int) (cs : List Char) :
    Read WordNumber :=
  match cs with
  | c :: rest =>
    if isExponentMark c then exponentPart negative significand e rest
    else scaledNumber negative significand e cs
  | [] => scaledNumber negative significand e []

/-- Read a fraction after its point. Digits beyond a 64-bit significand are skipped. -/
def fractionPart (negative : Bool) (significand : Nat) (e : Int) (cs : List Char) :
    Read WordNumber :=
  let (significand, rest) := Text.absorbDigits maxWord significand cs
  let (_, tail) := Text.spanDigits rest
  if tail.length = cs.length then
    .error (.next (if cs.isEmpty then .endInValue else .badNumber) cs)
  else exponentPart? negative significand (e - ((cs.length - rest.length : Nat) : Int)) tail

/-- Read what may follow the digits before the point, of which `extra` did not fit the
significand. -/
def afterWhole (negative : Bool) (significand extra : Nat) (cs : List Char) : Read WordNumber :=
  match cs with
  | '.' :: rest => fractionPart negative significand (extra : Int) rest
  | c :: rest =>
    if isExponentMark c then exponentPart negative significand (extra : Int) rest
    else if extra = 0 then wordNumber negative significand cs
    else scaledNumber negative significand (extra : Int) cs
  | [] =>
    if extra = 0 then wordNumber negative significand []
    else scaledNumber negative significand (extra : Int) []

/-- Read a number after its sign. -/
def number (negative : Bool) (cs : List Char) : Read WordNumber :=
  match cs with
  | [] => .error (.here .endInValue [])
  | '0' :: rest =>
    if Text.startsWithDigit rest then .error (.next .badNumber rest)
    else afterWhole negative 0 0 rest
  | c :: _ =>
    if c.isDigit then
      let (significand, rest) := Text.absorbDigits maxWord 0 cs
      let (extra, rest) := Text.spanDigits rest
      afterWhole negative significand extra.length rest
    else .error (.next .badNumber cs)

/-- Read an integer of any size after its sign. -/
def wideInteger (negative : Bool) (cs : List Char) : Read Int :=
  let signed (n : Nat) : Int := if negative then -(n : Int) else (n : Int)
  match cs with
  | [] => .error (.here .badNumber [])
  | '0' :: rest =>
    if Text.startsWithDigit rest then .error (.next .badNumber rest) else .ok (0, rest)
  | c :: _ =>
    if c.isDigit then
      let (digits, rest) := Text.spanDigits cs
      .ok (signed (Text.digitsValue digits), rest)
    else .error (.next .badNumber cs)

/-- The value of a hexadecimal digit. -/
def hexDigit? (c : Char) : Option Nat :=
  if c.isDigit then some (c.toNat - 48)
  else if 'a' ≤ c ∧ c ≤ 'f' then some (c.toNat - 87)
  else if 'A' ≤ c ∧ c ≤ 'F' then some (c.toNat - 55)
  else none

/-- The value of four hexadecimal digits in front. -/
def hexValue? : List Char → Option Nat
  | a :: b :: c :: d :: _ =>
    match hexDigit? a, hexDigit? b, hexDigit? c, hexDigit? d with
    | some a, some b, some c, some d => some (((a * 16 + b) * 16 + c) * 16 + d)
    | _, _, _, _ => none
  | _ => none

/-- Read the four hexadecimal digits of an escape. Four bytes are taken whatever they are. -/
def hexEscape (cs : List Char) : Read Nat :=
  if Text.byteCount cs < 4 then .error (.placed .endInString 0)
  else
    match hexValue? cs with
    | some n => .ok (n, cs.drop 4)
    | none => .error (.placed .badEscape (Text.byteCount cs - 4))

/-- Read one given character of a surrogate pair. -/
def pairMark (mark : Char) (cs : List Char) : Except Fault (List Char) :=
  match cs with
  | [] => .error (.here .endInString [])
  | c :: rest => if c = mark then .ok rest else .error (.next .halfSurrogate (c :: rest))

/-- Read the second half of a surrogate pair. -/
def lowSurrogate (high : Nat) (cs : List Char) : Read Char :=
  match pairMark '\\' cs with
  | .error e => .error e
  | .ok cs =>
    match pairMark 'u' cs with
    | .error e => .error e
    | .ok cs =>
      (hexEscape cs).andThen fun low rest =>
        if 0xDC00 ≤ low ∧ low ≤ 0xDFFF then
          .ok (Char.ofNat ((high - 0xD800) * 1024 + (low - 0xDC00) + 0x10000), rest)
        else .error (.here .loneSurrogate rest)

/-- Read the code point of an escape: one code unit, or the two of a surrogate pair. -/
def unicodeEscape (cs : List Char) : Read Char :=
  (hexEscape cs).andThen fun n rest =>
    if 0xDC00 ≤ n ∧ n ≤ 0xDFFF then .error (.here .loneSurrogate rest)
    else if 0xD800 ≤ n ∧ n ≤ 0xDBFF then lowSurrogate n rest
    else .ok (Char.ofNat n, rest)

/-- Read an escape after its backslash. -/
def escape (cs : List Char) : Read Char :=
  match cs with
  | [] => .error (.here .endInString [])
  | 'u' :: rest => unicodeEscape rest
  | '"' :: rest => .ok ('"', rest)
  | '\\' :: rest => .ok ('\\', rest)
  | '/' :: rest => .ok ('/', rest)
  | 'b' :: rest => .ok ('\x08', rest)
  | 'f' :: rest => .ok ('\x0c', rest)
  | 'n' :: rest => .ok ('\n', rest)
  | 'r' :: rest => .ok ('\r', rest)
  | 't' :: rest => .ok ('\t', rest)
  | cs => .error (.next .badEscape cs)

/-- Read a string after its opening quote. The first argument counts the characters that an escape
has taken already. -/
def stringBody : Nat → List Char → Read (List Char)
  | _, [] => .error (.here .endInString [])
  | taken + 1, _ :: rest => stringBody taken rest
  | 0, c :: rest =>
    if c = '"' then .ok ([], rest)
    else if c = '\\' then
      match escape rest with
      | .error e => .error e
      | .ok (x, tail) => (stringBody (rest.length - tail.length) rest).map (x :: ·)
    else if c.toNat < 32 then .error (.next .controlCharacter (c :: rest))
    else (stringBody 0 rest).map (c :: ·)

/-- Read a string after its opening quote. -/
def string (cs : List Char) : Read String := (stringBody 0 cs).map String.ofList

end Token

end SchemaStore
