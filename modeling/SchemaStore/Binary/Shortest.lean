import SchemaStore.Binary.Basic

/-!
# The shortest decimal that reads back

Every finite magnitude owns an interval of reals that round to it, ends included when its
significand is even. Among decimals with one, two, three … digits the first that lies in the
interval is the shortest decimal that reads back; of the two neighbours of the value on that
decimal grid the nearer one is taken. What happens when both are equally near is left to the
caller.
-/

namespace SchemaStore

/-- A positive decimal `digits · 10 ^ exponent`. -/
structure Decimal where
  digits : Nat
  exponent : Int
deriving DecidableEq

/-- Which of two decimals, equally near to a value, is taken. -/
inductive Tie
  | even
  | up
deriving DecidableEq

namespace Magnitude

variable {f : Format}

/-- The reals that round to a magnitude: from half a step below to half a step above it. The step
below the least significand of an exponent is half the step above. -/
def interval (m : Magnitude f) : Ratio × Ratio :=
  let (s, e) := m.scaled
  if s = f.binade ∧ f.leastExponent < e then
    (Ratio.ofScaled (4 * s - 1) (e - 2), Ratio.ofScaled (2 * s + 1) (e - 1))
  else (Ratio.ofScaled (2 * s - 1) (e - 1), Ratio.ofScaled (2 * s + 1) (e - 1))

/-- A ratio rounds to the magnitude. -/
def owns (m : Magnitude f) (r : Ratio) : Bool :=
  let (low, high) := m.interval
  if m.val % 2 = 0 then low.le r && r.le high else low.lt r && r.lt high

end Magnitude

namespace Ratio

/-- The decimal exponent of the first digit of a positive ratio, searched upward from an estimate
that is not too great. -/
def log10From (r : Ratio) : Nat → Int → Int
  | 0, x => x
  | n + 1, x => if (ofDecimal 1 (x + 1)).le r then log10From r n (x + 1) else x

/-- The exponent of the greatest power of ten at most a positive ratio. -/
def log10 (r : Ratio) : Int :=
  let b := r.log2
  r.log10From 3 ((b * 30103).fdiv 100000 - 1)

end Ratio

namespace Decimal

/-- The value of a decimal. -/
def ratio (d : Decimal) : Ratio := Ratio.ofDecimal d.digits d.exponent

/-- The decimal without trailing zeros, for at most `n` of them. -/
def trim : Nat → Decimal → Decimal
  | 0, d => d
  | n + 1, d => if d.digits % 10 = 0 ∧ d.digits ≠ 0 then trim n ⟨d.digits / 10, d.exponent + 1⟩ else d

end Decimal

/-- The decimals of a format need no more digits than this to read back. -/
def Format.digitLimit (f : Format) : Nat := 2 + (f.fractionBits + 1) * 30103 / 100000

namespace Magnitude

variable {f : Format}

/-- The better of a value's two neighbours on the grid of multiples of `10 ^ e`, if one of them
rounds to the magnitude. -/
def onGrid (tie : Tie) (m : Magnitude f) (e : Int) : Option Decimal :=
  let scaled := m.ratio.mul (Ratio.ofDecimal 1 (-e))
  let below := scaled.num / scaled.den
  let above := below + 1
  let twice := 2 * (scaled.num % scaled.den)
  let preferBelow := twice < scaled.den ||
    (twice == scaled.den && tie == .even && below % 2 == 0)
  match m.owns (Ratio.ofDecimal below e), m.owns (Ratio.ofDecimal above e) with
  | true, true => some ⟨if preferBelow then below else above, e⟩
  | true, false => some ⟨below, e⟩
  | false, true => some ⟨above, e⟩
  | false, false => none

/-- The shortest decimal of a positive magnitude: the first grid, from coarse to fine, with a
neighbour that reads back. -/
def shortest (tie : Tie) (m : Magnitude f) : Decimal :=
  let lead := m.ratio.log10
  let grids := (List.range f.digitLimit).map fun (n : Nat) => lead - (n : Int)
  ((grids.findSome? (m.onGrid tie)).getD ⟨0, 0⟩).trim f.digitLimit

end Magnitude

end SchemaStore
