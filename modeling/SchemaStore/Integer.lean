/-!
# Integer ranges

The integer types a value may be declared with: signed or unsigned, of 8, 32, 64 or 128 bits. A
value of such a type is an integer with a proof that it lies in the range, so no operation wraps.
-/

namespace SchemaStore

/-- The bits of an integer type. -/
inductive Width
  | w8
  | w32
  | w64
  | w128
deriving DecidableEq

/-- A fixed-width integer type. -/
structure IntKind where
  signed : Bool
  width : Width
deriving DecidableEq

/-- The number of bits. -/
def Width.bits : Width → Nat
  | .w8 => 8
  | .w32 => 32
  | .w64 => 64
  | .w128 => 128

namespace IntKind

/-- Signed integers of 8 bits. -/
abbrev i8 : IntKind := ⟨true, .w8⟩

/-- Unsigned integers of 8 bits. -/
abbrev u8 : IntKind := ⟨false, .w8⟩

/-- Signed integers of 32 bits. -/
abbrev i32 : IntKind := ⟨true, .w32⟩

/-- Unsigned integers of 32 bits. -/
abbrev u32 : IntKind := ⟨false, .w32⟩

/-- Signed integers of 64 bits. -/
abbrev i64 : IntKind := ⟨true, .w64⟩

/-- Unsigned integers of 64 bits. -/
abbrev u64 : IntKind := ⟨false, .w64⟩

/-- Signed integers of 128 bits. -/
abbrev i128 : IntKind := ⟨true, .w128⟩

/-- Unsigned integers of 128 bits. -/
abbrev u128 : IntKind := ⟨false, .w128⟩

/-- The number of values of the type. -/
def card (k : IntKind) : Nat := Nat.pow 2 k.width.bits

/-- The least value. -/
def least (k : IntKind) : Int := if k.signed then -((k.card / 2 : Nat) : Int) else 0

/-- The first integer above the range. -/
def bound (k : IntKind) : Int := if k.signed then ((k.card / 2 : Nat) : Int) else (k.card : Int)

/-- An integer of the type's range. -/
def Holds (k : IntKind) (n : Int) : Prop := k.least ≤ n ∧ n < k.bound

instance (k : IntKind) (n : Int) : Decidable (k.Holds n) := inferInstanceAs (Decidable (_ ∧ _))

/-- The type has more than 64 bits. -/
def isWide (k : IntKind) : Bool := k.width == .w128

/-- The name of the type in messages. -/
def name (k : IntKind) : String :=
  (if k.signed then "i" else "u") ++ String.ofList (Nat.toDigits 10 k.width.bits)

/-- The values of the type. -/
def Val (k : IntKind) : Type := { n : Int // k.Holds n }

/-- The value of an integer in range. -/
def ofInt? (k : IntKind) (n : Int) : Option k.Val := if h : k.Holds n then some ⟨n, h⟩ else none

end IntKind

end SchemaStore
