/-!
# Scalars and text as bytes

Numbers of a fixed width are written with the least significant byte first, text in UTF-8.
-/

namespace ChunkAsm.Bytes

/-- The `width` low bytes of a number, the least significant first. -/
def littleEndian : Nat → Nat → List UInt8
  | 0, _ => []
  | width + 1, n => UInt8.ofNat n :: littleEndian width (n / 256)

/-- A 32-bit integer in two's complement. -/
def int32 (n : Int) : List UInt8 := littleEndian 4 (n % 4294967296).toNat

/-- A 64-bit integer in two's complement. -/
def int64 (n : Int) : List UInt8 := littleEndian 8 (n % 18446744073709551616).toNat

/-- A 32-bit unsigned number. -/
def uint32 (n : Nat) : List UInt8 := littleEndian 4 n

/-- A 64-bit unsigned number. -/
def uint64 (n : Nat) : List UInt8 := littleEndian 8 n

/-- A truth value, in one byte. -/
def bool (b : Bool) : List UInt8 := [if b then 1 else 0]

/-- A text in UTF-8. -/
def utf8 (text : String) : List UInt8 := text.toUTF8.data.toList

end ChunkAsm.Bytes
