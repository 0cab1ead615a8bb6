import ChunkAsm.Assembler.Instruction
import ChunkAsm.Assembler.State
import ChunkAsm.Log

/-!
# Lines

The **reaction** of the assembler to a line: the edits that it makes, the reason if the line is
rejected, and what the log says. A rejected line makes no edits, with one exception. A `.func` line
first closes the function before it; if that function cannot be closed it is dropped, and if the new
name is taken the old function stays closed, although the line is rejected.
-/

namespace ChunkAsm

/-- What a line does. -/
structure Reaction where
  /-- the changes, in order -/
  edits : List Edit := []
  /-- why the line is rejected, if it is -/
  refusal : Option LineError := none
  /-- what the log says -/
  log : List Log.Event := []
  deriving DecidableEq, Repr

namespace Reaction

/-- Reject a line. -/
def refuse (e : LineError) (log : List Log.Event := []) : Reaction := { refusal := some e, log }

/-- Accept a line with its edits, or reject it. -/
def ofExcept (r : Except LineError (List Edit)) (log : List Log.Event := []) : Reaction :=
  match r with
  | .ok edits => { edits, log }
  | .error e => refuse e log

end Reaction

namespace Assembler

open Scan

/-- An integer that must fit in a byte. -/
def byte (what : ByteRole) : Reader LineError UInt8 := fun cs => do
  let (n, rest) ← (integer cs).mapError .lex
  if 0 ≤ n ∧ n ≤ 255 then .ok (UInt8.ofNat n.toNat, rest) else .error (.byteOutOfRange what n)

/-- Nothing but a comment may follow. -/
def nothingMore (cs : List Char) : Except LineError Unit :=
  match (endOfLine cs).1 with
  | .ok _ => .ok ()
  | .error e => .error (.lex e)

/-- The declaration of a function: name, registers, parameters and treatment of surplus
arguments. -/
def declaration (cs : List Char) : Except LineError (String × FunctionHeader) := do
  let (fname, rest) ← (name cs).mapError .lex
  let (maxStack, rest) ← byte .maxStack rest
  let (params, rest) ← byte .paramCount rest
  let (n, rest) ← (integer rest).mapError .lex
  match VarargMode.ofNumber? n with
  | none => .error (.invalidVarargMode n)
  | some mode => do
    nothingMore rest
    .ok (fname, { maxStack, params, vararg := mode })

/-- What closing the draft tells the log, and why it cannot be closed, if so. -/
def closing (a : Assembler) : List Log.Event × Option LineError :=
  match a.draft with
  | none => ([], none)
  | some d =>
    if d.words.isEmpty then ([.discarded d.name], none)
    else
      match d.labels.unresolved with
      | [] =>
        ([.finished d.name d.words.size d.constants.size d.upvalues.size d.subroutines.size],
          if a.isFinished d.name then some (.duplicateFunction d.name) else none)
      | names => ([], some (.undeclaredLocations names))

/-- The reaction to a well-formed declaration of a function. -/
def beginFunction (a : Assembler) (fname : String) (header : FunctionHeader) : Reaction :=
  match a.closing with
  | (log, some e) => { edits := [.abandon], refusal := some e, log }
  | (log, none) =>
    if a.close.isFinished fname then
      { edits := [.close], refusal := some (.duplicateFunction fname), log }
    else { edits := [.close, .begin fname header], log := log ++ [.declared a.nextId fname] }

/-- The edits of a directive that does not begin a function. -/
def otherDirective (a : Assembler) (d : Directive) (cs : List Char) :
    Except LineError (List Edit) :=
  if d = .upvalues then
    if a.upvalueCount.isSome then .error .upvaluesRedeclared
    else do
      let (n, rest) ← byte .upvalueAmount cs
      nothingMore rest
      .ok [.setUpvalueCount n]
  else
    match d.next? a.segment with
    | none => .error (.misplacedDirective d a.segment)
    | some s => do
      nothingMore cs
      .ok [.enter s]

/-- The reaction to a line that starts with a dot, after the dot. -/
def directiveLine (a : Assembler) (cs : List Char) : Reaction :=
  match name cs with
  | .error e => .refuse (.lex e)
  | .ok (word, rest) =>
    match Directive.lookup word with
    | none => .refuse (.unknownDirective word)
    | some d =>
      let log : List Log.Event := [.directive d a.segment]
      if d = .func ∧ ¬ a.segment.isOpen then
        match declaration rest with
        | .error e => .refuse e log
        | .ok (fname, header) =>
          let r := a.beginFunction fname header
          { r with log := log ++ r.log }
      else .ofExcept (a.otherDirective d rest) log

/-- The reaction to a label or an instruction. -/
def codeLine (a : Assembler) (cs : List Char) : Reaction :=
  match name cs with
  | .error e => .refuse (.lex e)
  | .ok (word, ':' :: rest) =>
    match nothingMore rest, a.draft with
    | .error e, _ => .refuse e
    | .ok _, none => .refuse (.outsideSegment a.segment)
    | .ok _, some d =>
      match d.labelOverflow? word with
      | some e => .refuse (.field e)
      | none =>
        { edits := [.declareLabel word]
          log := (d.resolutions word).map fun r => .resolved word r.1 r.2 }
  | .ok (word, rest) =>
    match a.draft with
    | none => .refuse (.outsideSegment a.segment)
    | some d => .ofExcept ((d.instruction a.owners word rest).map fun m => [.emit m])

/-- An edit of the draft, which there must be. -/
def onDraft (a : Assembler) (edit : Edit) : Except LineError (List Edit) :=
  if a.draft.isSome then .ok [edit] else .error (.outsideSegment a.segment)

/-- The edits of a line in a list of constants. -/
def constLine (a : Assembler) (cs : List Char) : Except LineError (List Edit) := do
  let (c, rest) ← (literal cs).mapError .lex
  nothingMore rest
  a.onDraft (.addConstant c)

/-- The edits of a line in a list of captured variables. -/
def upvalueLine (a : Assembler) (cs : List Char) : Except LineError (List Edit) := do
  let (inStack, rest) ← byte .upvalueInStack cs
  let (index, rest) ← byte .upvalueIndex rest
  nothingMore rest
  a.onDraft (.addUpvalue ⟨inStack, index⟩)

/-- The reaction to a line. -/
def react (a : Assembler) (line : List Char) : Reaction :=
  match skipBlanks line with
  | [] => {}
  | ';' :: _ => {}
  | '.' :: rest => a.directiveLine rest
  | start =>
    match a.segment with
    | .code => a.codeLine start
    | .const => .ofExcept (a.constLine start)
    | .upvalue => .ofExcept (a.upvalueLine start)
    | .topLevel | .function => .refuse (.outsideSegment a.segment)

/-- Feed a line: why it is rejected, if it is, and the state after it. -/
def feed (a : Assembler) (line : String) : Option LineError × Assembler :=
  let r := a.react line.toList
  (r.refusal, a.applyAll r.edits)

/-- End the input: what the log says, and the program or why the input may not end here. With
`strict` set it may not end in an open segment. -/
def finish (a : Assembler) (strict : Bool) : List Log.Event × Except LineError Program :=
  if strict && a.segment.isOpen then ([], .error (.unterminatedSegment a.segment))
  else
    match a.closing with
    | (log, some e) => (log, .error e)
    | (log, none) =>
      match a.upvalueCount with
      | none => (log, .error .missingUpvalueCount)
      | some n => (log, .ok { upvalueCount := n, functions := a.close.finished })

end Assembler

end ChunkAsm
