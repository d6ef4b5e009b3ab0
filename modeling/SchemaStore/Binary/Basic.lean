/-!
# Binary floating point, exactly

A format has `fractionBits` stored bits of significand and `exponentBits` bits of exponent. A finite
magnitude is held as its code, the number its bits without the sign spell: codes ascend with the
magnitudes, and the code `finiteCount` is infinity. `Magnitude.scaled` gives the integer significand
and the binary exponent a code stands for, and `Format.nearest` the code nearest to a ratio of
naturals, ties to the even code. Arithmetic is rounding of the exact result, so no step uses the
machine's floating point.
-/

namespace SchemaStore

/-- The layout of a binary floating-point format. -/
structure Format where
  /-- Stored bits of the significand. -/
  fractionBits : Nat
  /-- Bits of the exponent. -/
  exponentBits : Nat
deriving DecidableEq

/-- The two formats values may have. -/
inductive Precision
  | single
  | double
deriving DecidableEq

namespace Format

/-- Steps of the significand from one power of two to the next. -/
def binade (f : Format) : Nat := Nat.pow 2 f.fractionBits

/-- The number of finite magnitudes, which is also the code of infinity. -/
def finiteCount (f : Format) : Nat := (Nat.pow 2 f.exponentBits - 1) * f.binade

/-- The exponent of the least positive magnitude. -/
def leastExponent (f : Format) : Int :=
  2 - (Nat.pow 2 (f.exponentBits - 1) : Nat) - (f.fractionBits : Nat)

end Format

/-- The layout of a precision. -/
def Precision.format : Precision → Format
  | .single => ⟨23, 8⟩
  | .double => ⟨52, 11⟩

/-- A finite magnitude, by its code. -/
abbrev Magnitude (f : Format) := Fin f.finiteCount

/-- A finite number: a sign (zero has one too) and a magnitude. -/
structure FiniteBinary (p : Precision) where
  negative : Bool
  magnitude : Magnitude p.format
deriving DecidableEq

/-- A floating-point number. -/
inductive Binary (p : Precision)
  | finite (x : FiniteBinary p)
  | infinite (negative : Bool)
  | nan
deriving DecidableEq

/-- A nonnegative ratio of naturals. -/
structure Ratio where
  num : Nat
  den : Nat

namespace Ratio

/-- The ratio `n · 2 ^ e`. -/
def ofScaled (n : Nat) (e : Int) : Ratio :=
  if 0 ≤ e then ⟨n * Nat.pow 2 e.toNat, 1⟩ else ⟨n, Nat.pow 2 (-e).toNat⟩

/-- The ratio `n · 10 ^ e`. -/
def ofDecimal (n : Nat) (e : Int) : Ratio :=
  if 0 ≤ e then ⟨n * Nat.pow 10 e.toNat, 1⟩ else ⟨n, Nat.pow 10 (-e).toNat⟩

/-- The product of two ratios. -/
def mul (r s : Ratio) : Ratio := ⟨r.num * s.num, r.den * s.den⟩

/-- The quotient of two ratios, of which the second is not zero. -/
def div (r s : Ratio) : Ratio := ⟨r.num * s.den, r.den * s.num⟩

/-- The ratio is less than another. -/
def lt (r s : Ratio) : Bool := r.num * s.den < s.num * r.den

/-- The ratio is at most another. -/
def le (r s : Ratio) : Bool := r.num * s.den ≤ s.num * r.den

/-- The integer nearest to a ratio, a tie going to the even one. -/
def roundEven (r : Ratio) : Nat :=
  let q := r.num / r.den
  let twice := 2 * (r.num % r.den)
  if twice < r.den then q else if r.den < twice then q + 1 else q + q % 2

/-- The exponent of the greatest power of two at most a positive ratio. -/
def log2 (r : Ratio) : Int :=
  let guess : Int := (r.num.log2 : Nat) - (r.den.log2 : Nat)
  if (ofScaled 1 guess).le r then guess else guess - 1

end Ratio

namespace Format

/-- The code of the magnitude nearest to a ratio, a tie going to the even code. Below the least
power of two with a full significand the grid stays that of the least exponent; from half a step
above the greatest finite magnitude on, the answer is the code of infinity. -/
def nearest (f : Format) (r : Ratio) : Nat :=
  if r.num = 0 then 0
  else
    let lead := r.log2 - (f.fractionBits : Nat)
    let e := if lead < f.leastExponent then f.leastExponent else lead
    let significand := (r.div (Ratio.ofScaled 1 e)).roundEven
    let code := significand + (e - f.leastExponent).toNat * f.binade
    if code < f.finiteCount then code else f.finiteCount

end Format

namespace Magnitude

variable {f : Format}

/-- The integer significand and binary exponent of a magnitude. -/
def scaled (m : Magnitude f) : Nat × Int :=
  if m.val < f.binade then (m.val, f.leastExponent)
  else (f.binade + m.val % f.binade, f.leastExponent + ((m.val / f.binade - 1 : Nat) : Int))

/-- The exact value of a magnitude. -/
def ratio (m : Magnitude f) : Ratio := Ratio.ofScaled m.scaled.1 m.scaled.2

/-- The magnitude nearest to a ratio; nothing when that is infinite. -/
def ofRatio? (f : Format) (r : Ratio) : Option (Magnitude f) :=
  if h : f.nearest r < f.finiteCount then some ⟨f.nearest r, h⟩ else none

end Magnitude

namespace Binary

variable {p : Precision}

/-- The number of a sign and a ratio, rounded to nearest. -/
def ofRatio (p : Precision) (negative : Bool) (r : Ratio) : Binary p :=
  match Magnitude.ofRatio? p.format r with
  | some m => .finite ⟨negative, m⟩
  | none => .infinite negative

/-- The number nearest to an integer, which is never a negative zero. -/
def ofInt (p : Precision) (n : Int) : Binary p := ofRatio p (n < 0) ⟨n.natAbs, 1⟩

end Binary

/-- A finite number rounded to another precision; a magnitude too great for it becomes infinite. -/
def FiniteBinary.round {p : Precision} (q : Precision) (x : FiniteBinary p) : Binary q :=
  Binary.ofRatio q x.negative x.magnitude.ratio

end SchemaStore
