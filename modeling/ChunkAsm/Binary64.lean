/-!
# Binary floating-point numbers

A number constant is an IEEE 754 binary64 value. It is kept as its bit pattern, so that every
pattern, each of the NaNs included, goes into a chunk unchanged. What the assembler needs to know
of a number is read off the pattern: its sign, its class, and the equality of the standard, under
which the two zeros are the same and a NaN is different from everything.
-/

namespace ChunkAsm

/-- An IEEE 754 binary64 value, as its bit pattern. -/
structure Binary64 where
  /-- sign, eleven exponent bits and 52 fraction bits, the sign being the highest -/
  bits : UInt64
  deriving DecidableEq, Repr, Inhabited

namespace Binary64

/-- The sign bit by itself. -/
def signBit : UInt64 := 0x8000000000000000

/-- The pattern of the positive infinity. Larger patterns, apart from the sign, are NaNs. -/
def infinityBits : UInt64 := 0x7ff0000000000000

/-- The pattern without its sign bit. -/
def magnitude (x : Binary64) : UInt64 := x.bits &&& 0x7fffffffffffffff

/-- The number of patterns of the fraction bits. -/
def fractionSize : Nat := 4503599627370496

theorem fractionSize_eq : fractionSize = Nat.pow 2 52 := rfl

/-- The exponent bits. -/
def exponentField (x : Binary64) : Nat := x.magnitude.toNat / fractionSize

/-- The fraction bits. -/
def fraction (x : Binary64) : Nat := x.magnitude.toNat % fractionSize

/-- Whether the sign bit is set. -/
def isNegative (x : Binary64) : Bool := signBit ≤ x.bits

/-- Whether the value is not a number: all exponent bits set and a fraction. -/
def isNaN (x : Binary64) : Bool := infinityBits < x.magnitude

/-- Whether the value is one of the two infinities. -/
def isInfinite (x : Binary64) : Bool := x.magnitude == infinityBits

/-- Whether the value is one of the two zeros. -/
def isZero (x : Binary64) : Bool := x.magnitude == 0

/-- The value with the other sign. -/
def neg (x : Binary64) : Binary64 := ⟨x.bits ^^^ signBit⟩

/-- Equality of values: the zeros are equal, and a NaN is not equal to anything. -/
def same (x y : Binary64) : Bool :=
  (x.bits == y.bits && !x.isNaN) || (x.isZero && y.isZero)

end Binary64

end ChunkAsm
