import ChunkAsm.Binary64

/-!
# Rounding to binary64

Decimal literals denote exact fractions, which are rounded to the nearest representable value, a
tie going to the even neighbour (`ofRatio`). Hexadecimal literals are accumulated digit by digit,
every step being rounded to 53 bits (`roundBits`), as a machine that multiplies by sixteen and adds
would do.
-/

namespace ChunkAsm.Binary64

/-- A power of two. -/
def pow2 (n : Nat) : Nat := Nat.pow 2 n

/-- The integer nearest to `n / d`, a tie going to the even one. -/
def roundDiv (n d : Nat) : Nat :=
  let q := n / d
  let r := n % d
  if 2 * r < d then q else if d < 2 * r then q + 1 else q + q % 2

/-- The exponent of the largest power of two that is at most `n / d`, for positive `n` and `d`. -/
def floorLog (n d : Nat) : Int :=
  let e : Int := (n.log2 : Int) - d.log2
  if d * pow2 e.toNat ≤ n * pow2 (-e).toNat then e else e - 1

/-- The value nearest to the fraction `n / d`, a tie going to the even neighbour. What exceeds the
largest finite value by half a unit or more is infinite.

The fraction is measured in units of `2 ^ q`, where `q` leaves 53 bits or, for small values, is the
least exponent there is. The pattern of `m` units is then `(q + 1074) * 2 ^ 52 + m`, also when
rounding up has reached the next power of two. -/
def ofRatio (n d : Nat) : Binary64 :=
  if n = 0 then ⟨0⟩
  else
    let q := max (floorLog n d - 52) (-1074)
    let m := roundDiv (n * pow2 (-q).toNat) (d * pow2 q.toNat)
    ⟨UInt64.ofNat (min ((q + 1074).toNat * fractionSize + m) infinityBits.toNat)⟩

/-- A natural number rounded to 53 significant bits. -/
def roundBits (n : Nat) : Nat :=
  let unit := pow2 (n.log2 - 52)
  roundDiv n unit * unit

/-- The value of the digits `int` and `frac` around a decimal point. -/
def ofDecimal (int frac : List Nat) : Binary64 :=
  ofRatio ((int ++ frac).foldl (fun n d => 10 * n + d) 0) (Nat.pow 10 frac.length)

/-- The value of hexadecimal digits, rounded after every digit. -/
def ofHex (digits : List Nat) : Binary64 :=
  ofRatio (digits.foldl (fun n d => roundBits (16 * n + d)) 0) 1

end ChunkAsm.Binary64
