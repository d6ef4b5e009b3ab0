import SchemaStore.Binary.Parse
import SchemaStore.Codec.Basic

/-!
# Texts written without the codec

Older entries hold texts that no codec wrote. `parseLegacy` guesses what such a text means: a number
if the number prints back as exactly that text, the JSON value of a text in braces or brackets, and
otherwise the text itself.
-/

namespace SchemaStore.Codec

/-- Numbers in legacy texts have all their places and no point without a fraction. -/
def legacyLayout : Layout := ⟨.up, none, false⟩

/-- The integer a text denotes: an optional sign and digits. -/
def integer? (cs : List Char) : Option Int :=
  let (negative, digits) := Text.spanSign cs
  if digits.isEmpty ∨ !digits.all Char.isDigit then none
  else
    let n := Text.digitsValue digits
    some (if negative then -(n : Int) else (n : Int))

/-- The float a text denotes, if it is how that float prints. -/
def legacyFloat? (cs : List Char) : Option WordNumber :=
  match Binary.parse? .double cs with
  | some (.finite x) => if legacyLayout.text x = cs then some ⟨.double x, trivial⟩ else none
  | _ => none

/-- The number a text denotes, if it is how that number prints. A text that denotes an integer of 64
bits is not tried as a float. -/
def legacyNumber? (cs : List Char) : Option WordNumber :=
  match integer? cs with
  | some n =>
    if h : FitsWord n then if Text.decimal n = cs then some ⟨.int n, h⟩ else none
    else legacyFloat? cs
  | none => legacyFloat? cs

/-- The text stands in braces or in brackets. -/
def isBracketed (cs : List Char) : Bool :=
  (cs.head? == some '\x7b' && cs.getLast? == some '\x7d') ||
    (cs.head? == some '[' && cs.getLast? == some ']')

/-- What a text written without the codec means. -/
def parseLegacy (raw : String) : Document :=
  match legacyNumber? raw.toList with
  | some n => .ofNumber n
  | none =>
    if isBracketed raw.toList then
      match Document.parse raw.toList with
      | .ok d => d
      | .error _ => .ofText raw
    else .ofText raw

/-- The value a text written without the codec stands for. -/
def decodeLegacy (s : Shape) (raw : String) : Except Complaint s.Val :=
  s.ofDocument (parseLegacy raw)

end SchemaStore.Codec
