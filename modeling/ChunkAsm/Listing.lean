import ChunkAsm.Opcode.Layout
import ChunkAsm.Unfolding

/-!
# Listings

A program as text, function by function along its unfolding. Operands are shown as they would be
written in source text. A constant or a proto that is not there is shown by its number and a
question mark.
-/

namespace ChunkAsm

namespace Linked

/-- The operand of the extra word behind the instruction at `site`, if there is one. -/
def extraAt (l : Linked) (site : Nat) : Option Int :=
  match l.words[site + 1]? with
  | some w => if w.opcode? = some .extraArg then some (w.get .ax) else none
  | none => none

/-- The value that an instruction has for a destination. -/
def operandValue (l : Linked) (site : Nat) (w : Word) : Destination → Int
  | .field f => w.get f
  | .extra => (l.extraAt site).getD 0
  | .cOrExtra =>
    match l.extraAt site with
    | some x => if w.get .c = 0 then x else w.get .c
    | none => w.get .c

/-- The constant with a given number. -/
def constantText (l : Linked) (i : Nat) : String :=
  match l.function.constants.get? i with
  | some c => "const " ++ c.text
  | none => s!"k{i}?"

/-- Whether a value of a slot stands for a constant, and for which one. -/
def constantRef? (kinds : Kinds) (v : Int) : Option Nat :=
  if kinds.stack && kinds.constant && v.toNat / rkFlag % 2 == 1 then some (v.toNat - rkFlag)
  else if kinds = .only .constant then some v.toNat
  else none

/-- The operand of a slot with a given value, in the instruction at `site`. -/
def operandText (l : Linked) (site : Nat) (kinds : Kinds) (v : Int) : String :=
  match constantRef? kinds v with
  | some i => l.constantText i
  | none =>
    if kinds.stack then s!"%{v}"
    else if kinds.upvalue then s!"@{v}"
    else if kinds.location then s!"${site + v + 1}"
    else if kinds.proto then
      match l.protos[v.toNat]? with
      | some f => f.name
      | none => s!"proto{v}?"
    else toString v

end Linked

namespace Listing

/-- Text padded on the right. -/
def padRight (width : Nat) (s : String) : String :=
  s ++ String.ofList (List.replicate (width - s.length) ' ')

/-- Text padded on the left. -/
def padLeft (width : Nat) (s : String) : String :=
  String.ofList (List.replicate (width - s.length) ' ') ++ s

/-- A word as eight hexadecimal digits. -/
def hexWord (w : Word) : String :=
  let digits := Nat.toDigits 16 w.bits.toNat
  "0x" ++ String.ofList (List.replicate (8 - digits.length) '0' ++ digits)

/-- The instruction at `site`. -/
def instructionText (l : Linked) (site : Nat) (w : Word) : String :=
  match w.opcode? with
  | none => "??? " ++ hexWord w
  | some op =>
    op.slots.foldl
      (fun text slot =>
        text ++ " " ++ l.operandText site slot.kinds (l.operandValue site w slot.dest))
      (padRight 9 op.name)

/-- Append the numbered entries of a table, of which the next has the number `i`. -/
def entriesFrom {α : Type} (indent : String) (entry : Nat → α → String) (text : String) (i : Nat) :
    List α → String
  | [] => text
  | x :: rest =>
    let line := indent ++ "    " ++ padLeft 4 (toString i) ++ "  " ++ entry i x ++ "\n"
    entriesFrom indent entry (text ++ line) (i + 1) rest

/-- Append a table: its name, its size and its numbered entries. -/
def table {α : Type} (indent name : String) (entry : Nat → α → String) (xs : Array α)
    (text : String) : String :=
  entriesFrom indent entry (text ++ indent ++ s!"  {name} ({xs.size}):\n") 0 xs.toList

/-- Append a function that `depth` functions enclose. -/
def function (text : String) (depth : Nat) (l : Linked) : String :=
  let f := l.function
  let indent := String.ofList (List.replicate (2 * depth) ' ')
  let title := s!"{indent}function {f.name} (params {f.header.params}, " ++
    s!"{f.header.vararg.text}, max stack {f.header.maxStack})\n"
  table indent "code" (instructionText l) l.words
    (table indent "upvalues" (fun _ u => s!"in_stack {u.inStack} index {u.index}") f.upvalues
      (table indent "constants" (fun _ c => c.text) f.constants.entries
        (text ++ title)))

/-- Append what a step of the walk contributes. -/
def visit (text : String) : Visit → String
  | .reached _ => text
  | .entered depth l => function text depth l
  | .left _ => text

end Listing

namespace Program

/-- The listing of a program. -/
def listing (p : Program) : Except LinkError String :=
  let u := p.unfolding
  match u.failure with
  | some e => .error e
  | none => .ok (u.visits.foldl Listing.visit s!"upvalues {p.upvalueCount}\n")

/-- What listing a program tells the log. -/
def listLog (p : Program) : List Log.Event :=
  p.unfolding.visits.toList.flatMap fun
    | .reached f => p.linkLog f
    | .entered .. | .left _ => []

end Program

end ChunkAsm
