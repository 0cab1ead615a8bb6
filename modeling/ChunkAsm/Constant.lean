import ChunkAsm.Binary64.Shortest

/-!
# Constants and constant pools

The literal values that a function can load, and the pool that numbers them. A pool holds each
constant once: `intern` gives the position of the first entry that is the same, and appends only
what is new. An entry therefore never moves.
-/

namespace ChunkAsm

/-- A literal value. -/
inductive Constant where
  /-- the value `nil` -/
  | nil
  /-- a truth value -/
  | bool (b : Bool)
  /-- a number -/
  | number (x : Binary64)
  /-- a string of arbitrary bytes -/
  | string (bytes : List UInt8)
  deriving DecidableEq, Repr, Inhabited

namespace Constant

/-- The byte that marks the type of a constant in a chunk. -/
def tag : Constant → UInt8
  | nil => 0
  | bool _ => 1
  | number _ => 3
  | string _ => 4

/-- Whether two constants are the same value: numbers are compared as numbers, all else
structurally. -/
def same : Constant → Constant → Bool
  | nil, nil => true
  | bool a, bool b => a == b
  | number x, number y => x.same y
  | string s, string t => s == t
  | _, _ => false

/-- A hexadecimal digit in lower case. -/
def hexDigit (n : Nat) : Char := Nat.digitChar (n % 16)

/-- A byte of a string as a listing shows it. Printable ASCII stands for itself, except that quotes
and backslashes are escaped. -/
def byteText (b : UInt8) : List Char :=
  if b = 9 then ['\\', 't']
  else if b = 13 then ['\\', 'r']
  else if b = 10 then ['\\', 'n']
  else if b = 34 ∨ b = 39 ∨ b = 92 then ['\\', Char.ofNat b.toNat]
  else if 32 ≤ b ∧ b ≤ 126 then [Char.ofNat b.toNat]
  else ['\\', 'x', hexDigit (b.toNat / 16), hexDigit b.toNat]

/-- A constant as a listing shows it. -/
def text : Constant → String
  | nil => "nil"
  | bool true => "true"
  | bool false => "false"
  | number x => x.text
  | string bytes => String.ofList ('"' :: (bytes.flatMap byteText ++ ['"']))

end Constant

/-- The constants of one function, in order of first use. -/
structure Pool where
  /-- the constants, each at its index -/
  entries : Array Constant := #[]
  deriving DecidableEq, Repr, Inhabited

namespace Pool

/-- The number of constants. -/
def size (p : Pool) : Nat := p.entries.size

/-- The constant at an index. -/
def get? (p : Pool) (i : Nat) : Option Constant := p.entries[i]?

/-- The index of the first entry that is the same as a constant. -/
def position? (p : Pool) (c : Constant) : Option Nat := p.entries.toList.findIdx? (·.same c)

/-- Add a constant unless the same one is there already. -/
def insert (p : Pool) (c : Constant) : Pool :=
  match p.position? c with
  | some _ => p
  | none => ⟨p.entries.push c⟩

/-- The index of a constant, and the pool in which it has that index. -/
def intern (p : Pool) (c : Constant) : Nat × Pool :=
  ((p.position? c).getD p.size, p.insert c)

/-- The pool of a list of constants. -/
def ofList (cs : List Constant) : Pool := cs.foldl insert {}

end Pool

end ChunkAsm
