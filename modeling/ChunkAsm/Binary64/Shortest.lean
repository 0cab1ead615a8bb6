import ChunkAsm.Binary64.Rounding

/-!
# Shortest decimal digits

A finite nonzero value is printed with the fewest decimal digits that read back as the same value.
The reals that round to a value `m * 2 ^ q` form an interval around it: half a unit to each side,
only a quarter of a unit downwards from a power of two, the ends included exactly when `m` is even.
On the decimal grids, from the coarsest to the finest, `shortest` looks at the two neighbours of
the value. The first grid with a neighbour inside the interval gives the digits; of two such
neighbours the nearer one is taken, and the upper one when they are equally near.
-/

namespace ChunkAsm.Binary64

/-- A decimal number `digits * 10 ^ exponent`. -/
structure Decimal where
  /-- the significant digits, as a number -/
  digits : Nat
  /-- the power of ten -/
  exponent : Int
  deriving DecidableEq, Repr

/-- A value with the ends of its rounding interval, in common units of `1 / den`. -/
structure Interval where
  /-- the lower end -/
  lower : Nat
  /-- the value itself -/
  value : Nat
  /-- the upper end -/
  upper : Nat
  /-- how many units make one -/
  den : Nat
  /-- whether the ends belong to the interval -/
  closed : Bool
  deriving Repr

/-- The integer significand of a finite value. -/
def significand (x : Binary64) : Nat :=
  if x.exponentField = 0 then x.fraction else fractionSize + x.fraction

/-- The power of two that the significand of a finite value is multiplied with. -/
def scale (x : Binary64) : Int :=
  if x.exponentField = 0 then -1074 else x.exponentField - 1075

/-- The reals that round to a finite nonzero value. -/
def interval (x : Binary64) : Interval :=
  let m := x.significand
  let q := x.scale - 2
  let below := if x.fraction = 0 ∧ 1 < x.exponentField then 1 else 2
  let unit := pow2 q.toNat
  { lower := (4 * m - below) * unit
    value := 4 * m * unit
    upper := (4 * m + 2) * unit
    den := pow2 (-q).toNat
    closed := m % 2 = 0 }

/-- Whether the fraction `n / d` lies in an interval. -/
def Interval.has (i : Interval) (n d : Nat) : Bool :=
  let lo := i.lower * d
  let hi := i.upper * d
  let x := n * i.den
  if i.closed then lo ≤ x && x ≤ hi else lo < x && x < hi

/-- The number of decimal digits of a positive number. -/
def decimalWidth (n : Nat) : Nat := (Nat.toDigits 10 n).length

/-- The exponent of the largest power of ten that is at most `n / d`, for positive `n` and `d`. -/
def floorLog10 (n d : Nat) : Int :=
  if d ≤ n then (decimalWidth (n / d) : Int) - 1 else -(decimalWidth ((d - 1) / n) : Int)

/-- The better neighbour of the value on the grid of multiples of `10 ^ k` that lies in the
interval, if there is one. -/
def onGrid (i : Interval) (k : Int) : Option Decimal :=
  let up := Nat.pow 10 k.toNat
  let down := Nat.pow 10 (-k).toNat
  let n := i.value * down
  let d := i.den * up
  let a := n / d
  let inLow := i.has (a * up) down
  let inHigh := i.has ((a + 1) * up) down
  if inHigh && (!inLow || d ≤ 2 * (n % d)) then some ⟨a + 1, k⟩
  else if inLow then some ⟨a, k⟩
  else none

/-- The shortest decimal that reads back as a finite nonzero value. The coarsest grid is that of the
power of ten above the value; seventeen digits are always enough. -/
def shortest (x : Binary64) : Decimal :=
  let i := x.interval
  let e := floorLog10 i.value i.den + 1
  ((List.range 18).findSome? fun (n : Nat) => onGrid i (e - n)).getD ⟨i.value / i.den, 0⟩

/-- A decimal without an exponent. -/
def Decimal.positional (d : Decimal) : String :=
  let digits := Nat.toDigits 10 d.digits
  if 0 ≤ d.exponent then
    String.ofList (digits ++ List.replicate d.exponent.toNat '0')
  else
    let places := (-d.exponent).toNat
    let padded := List.replicate (places + 1 - digits.length) '0' ++ digits
    let whole := padded.length - places
    String.ofList (padded.take whole ++ '.' :: padded.drop whole)

/-- The text of a value: shortest digits, never an exponent, no fraction for whole numbers. -/
def text (x : Binary64) : String :=
  if x.isNaN then "NaN"
  else
    let sign := if x.isNegative then "-" else ""
    let body :=
      if x.isInfinite then "inf" else if x.isZero then "0" else x.shortest.positional
    sign ++ body

end ChunkAsm.Binary64
