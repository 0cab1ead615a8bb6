/-!
# Instruction words

An instruction is one 32-bit word. Its low six bits hold the opcode; the rest is read through
six overlapping **fields**:

* `A` (8 bits from bit 6), `C` (9 bits from bit 14) and `B` (9 bits from bit 23);
* `Bx` covers `C` and `B` together, and `sBx` reads the same 18 bits with an excess of 131071;
* `Ax` covers everything above the opcode.

`Word.get` reads a field as an integer. `Word.set` stores one, and refuses a value outside the
field's range instead of truncating it.
-/

namespace ChunkAsm

/-- The operand fields of an instruction word. -/
inductive Field where
  | a
  | b
  | c
  | bx
  | sbx
  | ax
  deriving DecidableEq, Repr

namespace Field

/-- Every field, in the order in which they are reported. -/
def all : List Field := [a, b, c, bx, sbx, ax]

/-- The name of a field as it stands in messages. -/
def name : Field → String
  | a => "A"
  | b => "B"
  | c => "C"
  | bx => "Bx"
  | sbx => "sBx"
  | ax => "Ax"

/-- The lowest bit of a field. -/
def pos : Field → Nat
  | a => 6
  | b => 23
  | c => 14
  | bx => 14
  | sbx => 14
  | ax => 6

/-- The number of bits of a field. -/
def width : Field → Nat
  | a => 8
  | b => 9
  | c => 9
  | bx => 18
  | sbx => 18
  | ax => 26

/-- The value of the lowest bit of a field within the word. -/
def unit : Field → Nat
  | a => 64
  | b => 8388608
  | c => 16384
  | bx => 16384
  | sbx => 16384
  | ax => 64

/-- The number of bit patterns of a field. -/
def size : Field → Nat
  | a => 256
  | b => 512
  | c => 512
  | bx => 262144
  | sbx => 262144
  | ax => 67108864

theorem unit_eq (f : Field) : f.unit = Nat.pow 2 f.pos := by
  cases f <;> rfl

theorem size_eq (f : Field) : f.size = Nat.pow 2 f.width := by
  cases f <;> rfl

/-- What is added to a value before it is stored: only `sBx` is kept in excess form. -/
def bias : Field → Int
  | sbx => 131071
  | _ => 0

/-- The least value that fits in a field. -/
def lo (f : Field) : Int := -f.bias

/-- The greatest value that fits in a field. The range of `sBx` is symmetric, so the all-ones
pattern, which reads as 131072, cannot be stored. -/
def hi : Field → Int
  | sbx => 131071
  | f => f.size - 1

/-- Whether a value fits in a field. -/
def Fits (f : Field) (v : Int) : Prop := f.lo ≤ v ∧ v ≤ f.hi

instance (f : Field) (v : Int) : Decidable (f.Fits v) :=
  inferInstanceAs (Decidable (_ ∧ _))

end Field

/-- A value was offered to a field that cannot hold it. -/
structure FieldOverflow where
  /-- the field -/
  field : Field
  /-- the value that does not fit -/
  value : Int
  deriving DecidableEq, Repr

/-- The text of a field overflow names the field and its range. -/
def FieldOverflow.message (e : FieldOverflow) : String :=
  s!"value {e.value} does not fit in field {e.field.name} (range {e.field.lo}..={e.field.hi})"

/-- One 32-bit instruction word. -/
structure Word where
  /-- the bits of the word as an unsigned number -/
  bits : UInt32
  deriving DecidableEq, Repr, Inhabited

namespace Word

/-- The number in the low six bits, which selects the opcode. -/
def opcodeNumber (w : Word) : Nat := w.bits.toNat % 64

/-- The bits of a field as an unsigned number. -/
def raw (w : Word) (f : Field) : Nat := w.bits.toNat / f.unit % f.size

/-- The value of a field. -/
def get (w : Word) (f : Field) : Int := w.raw f - f.bias

/-- Replace the bits of a field, leaving every other bit alone. -/
def store (w : Word) (f : Field) (n : Nat) : Word :=
  ⟨UInt32.ofNat (w.bits.toNat - w.raw f * f.unit + n * f.unit)⟩

/-- Store a value in a field, if it fits. -/
def set (w : Word) (f : Field) (v : Int) : Except FieldOverflow Word :=
  if f.Fits v then .ok (w.store f (v + f.bias).toNat) else .error ⟨f, v⟩

end Word

/-- The flag of a 9-bit operand that addresses the constant pool instead of a register. -/
def rkFlag : Nat := 256

end ChunkAsm
