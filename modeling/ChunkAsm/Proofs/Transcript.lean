import ChunkAsm.Assemble
import ChunkAsm.Proofs.Emission

/-!
# What the accepted lines say

The lines of a run are read a second time, without the state of the assembler: an accepted line of a
segment is an **item** of its function, and a declaration starts a new **block** of items. Rejected
lines leave no trace here, whatever they do to the assembler.

The other half of the file is the inversion of a line. `Assembler.Step` lists everything that a line
can do to the state, and `Assembler.feed_step` says that the list is complete. What holds in every
run is proved from the list; nothing later opens `Assembler.react`.
-/

namespace ChunkAsm

/-! ## Items, statements and blocks -/

/-- An accepted line of a function, as it is written. -/
inductive Item where
  /-- the declaration of a label -/
  | label (name : String)
  /-- a line in a list of constants -/
  | constant (c : Constant)
  /-- a line in a list of captured variables -/
  | upvalue (u : Upvalue)
  /-- an instruction with its operands and the source line that it marks -/
  | instruction (op : Opcode) (operands : List Operand) (line : Option Nat)
  deriving DecidableEq, Repr

namespace Item

/-- An instruction, read from what follows its mnemonic. -/
def instruction? (mnemonic : String) (cs : List Char) : Option Item := do
  let op ← Opcode.lookup mnemonic
  let (operands, rest) ← (Operand.readAll op.slots cs).toOption
  let comment ← (Operand.noMore rest).1.toOption
  let line ← (Draft.markedLine comment).toOption
  some (.instruction op operands line)

/-- A line in a list of instructions and labels. -/
def code? (cs : List Char) : Option Item :=
  match Scan.name cs with
  | .error _ => none
  | .ok (word, ':' :: rest) => (Assembler.nothingMore rest).toOption.map fun _ => .label word
  | .ok (word, rest) => instruction? word rest

theorem code?_of_colon {cs rest : List Char} {word : String}
    (h : Scan.name cs = .ok (word, ':' :: rest)) :
    code? cs = (Assembler.nothingMore rest).toOption.map fun _ => .label word := by
  simp only [code?, h]

theorem code?_of_not_colon {cs rest : List Char} {word : String}
    (h : Scan.name cs = .ok (word, rest)) (hc : ∀ rest', rest ≠ ':' :: rest') :
    code? cs = instruction? word rest := by
  rw [code?, h]
  split
  · rename_i he
    cases he
  · rename_i he
    cases he
    exact absurd rfl (hc _)
  · rename_i he
    cases he
    rfl

/-- A line in a list of constants. -/
def const? (cs : List Char) : Option Item := do
  let (c, rest) ← (Scan.literal cs).toOption
  let _ ← (Assembler.nothingMore rest).toOption
  some (.constant c)

/-- A line in a list of captured variables. -/
def upvalue? (cs : List Char) : Option Item := do
  let (inStack, rest) ← (Assembler.byte .upvalueInStack cs).toOption
  let (index, rest) ← (Assembler.byte .upvalueIndex rest).toOption
  let _ ← (Assembler.nothingMore rest).toOption
  some (.upvalue ⟨inStack, index⟩)

end Item

/-- What a line says about the functions of a source. -/
inductive Statement where
  /-- a function begins -/
  | function (name : String) (header : FunctionHeader)
  /-- the function at hand has another item -/
  | item (i : Item)
  deriving DecidableEq, Repr

namespace Statement

/-- What a directive says, read after its dot. Only `.func` says something. -/
def directive? (cs : List Char) : Option Statement := do
  let (word, rest) ← (Scan.name cs).toOption
  let d ← Directive.lookup word
  if d = .func then
    let (name, header) ← (Assembler.declaration rest).toOption
    some (.function name header)
  else none

/-- What a line says that stands in a segment. -/
def read? (s : Segment) (line : List Char) : Option Statement :=
  match Scan.skipBlanks line with
  | [] => none
  | ';' :: _ => none
  | '.' :: rest => directive? rest
  | start =>
    match s with
    | .code => (Item.code? start).map .item
    | .const => (Item.const? start).map .item
    | .upvalue => (Item.upvalue? start).map .item
    | .topLevel | .function => none

/-- A line that starts with neither a comment nor a dot belongs to its segment. -/
theorem read?_of_start {s : Segment} {line : List Char} (hnil : Scan.skipBlanks line ≠ [])
    (hcomment : ∀ rest, Scan.skipBlanks line ≠ ';' :: rest)
    (hdot : ∀ rest, Scan.skipBlanks line ≠ '.' :: rest) :
    read? s line =
      match s with
      | .code => (Item.code? (Scan.skipBlanks line)).map .item
      | .const => (Item.const? (Scan.skipBlanks line)).map .item
      | .upvalue => (Item.upvalue? (Scan.skipBlanks line)).map .item
      | .topLevel | .function => none := by
  rw [read?]
  split
  · exact absurd ‹_› hnil
  · exact absurd ‹_› (hcomment _)
  · exact absurd ‹_› (hdot _)
  · rfl

end Statement

/-- A function as the accepted lines tell it. -/
structure Block where
  /-- the name -/
  name : String
  /-- the declaration -/
  header : FunctionHeader
  /-- the accepted lines, in order -/
  items : List Item := []
  deriving DecidableEq, Repr

namespace Block

/-- Add an item. -/
def add (b : Block) (i : Item) : Block := { b with items := b.items ++ [i] }

/-- Add what an accepted line says to the blocks so far, the latest of which is the first. -/
def note : List Block → Option Statement → List Block
  | blocks, none => blocks
  | blocks, some (.function name header) => { name, header } :: blocks
  | b :: blocks, some (.item i) => b.add i :: blocks
  | [], some (.item _) => []

end Block

namespace Assembler

/-- Feed lines one after the other, whether they are accepted or not. -/
def feedAll (a : Assembler) (lines : List String) : Assembler :=
  lines.foldl (fun a line => (a.feed line).2) a

theorem feedAll_append (a : Assembler) (xs ys : List String) :
    a.feedAll (xs ++ ys) = (a.feedAll xs).feedAll ys :=
  List.foldl_append

/-- The blocks of the accepted ones among the lines, after those that there are already. The latest
block is the first. -/
def blocksFrom (a : Assembler) (blocks : List Block) : List String → List Block
  | [] => blocks
  | line :: rest =>
    (a.feed line).2.blocksFrom
      (if (a.feed line).1.isNone then Block.note blocks (Statement.read? a.segment line.toList)
        else blocks)
      rest

end Assembler

namespace Block

/-- The last block with a given name among the accepted lines of a run. -/
def last? (lines : List String) (name : String) : Option Block :=
  (Assembler.blocksFrom {} [] lines).find? (·.name == name)

end Block

/-! ## What a line can do -/

/-- What a line that says `said` can do to the state: why it is rejected, if it is, and the state
after it. -/
inductive Assembler.Step (a : Assembler) :
    Option Statement → Option LineError → Assembler → Prop where
  /-- a rejected line changes nothing -/
  | rejected (said : Option Statement) (e : LineError) : Step a said (some e) a
  /-- but a declaration drops a function before it that cannot be closed -/
  | dropped (name : String) (header : FunctionHeader) (e : LineError) :
    a.segment.isOpen = false → a.closing.2 = some e →
    Step a (some (.function name header)) (some e) { a with draft := none }
  /-- and closes the function before it, also if its own name is taken -/
  | taken (name : String) (header : FunctionHeader) :
    a.segment.isOpen = false → a.closing.2 = none → a.close.isFinished name = true →
    Step a (some (.function name header)) (some (.duplicateFunction name)) a.close
  /-- a line without content -/
  | blank : Step a none none a
  /-- the number of upvalues -/
  | upvalues (n : UInt8) : a.upvalueCount = none →
    Step a none none { a with upvalueCount := some n }
  /-- a segment is opened or closed -/
  | segment (d : Directive) (s : Segment) : d.next? a.segment = some s →
    Step a none none { a with segment := s }
  /-- a function is declared, after the one before it is closed -/
  | function (name : String) (header : FunctionHeader) :
    a.segment.isOpen = false → a.closing.2 = none → a.close.isFinished name = false →
    Step a (some (.function name header)) none
      { a.close with
        segment := .function
        nextId := a.close.nextId + 1
        draft := some { id := a.close.nextId, name, header } }
  /-- a label is declared -/
  | label (d : Draft) (name : String) :
    a.segment = .code → a.draft = some d → d.labelOverflow? name = none →
    Step a (some (.item (.label name))) none { a with draft := some (d.declareLabel name) }
  /-- a constant is listed -/
  | constant (d : Draft) (c : Constant) :
    a.segment = .const → a.draft = some d → c.same c = true →
    Step a (some (.item (.constant c))) none { a with draft := some (d.addConstant c) }
  /-- a captured variable is listed -/
  | upvalue (d : Draft) (u : Upvalue) :
    a.segment = .upvalue → a.draft = some d →
    Step a (some (.item (.upvalue u))) none { a with draft := some (d.addUpvalue u) }
  /-- an instruction is assembled -/
  | instruction (d : Draft) (op : Opcode) (os : List Operand) (line : Option Nat) (m : Emission) :
    a.segment = .code → a.draft = some d → Operand.SuitAll op.slots os →
    d.assemble a.owners op os line = .ok m →
    Step a (some (.item (.instruction op os line))) none (a.emit m)

/-- The step that a reaction makes. -/
def Reaction.Steps (r : Reaction) (a : Assembler) (said : Option Statement) : Prop :=
  a.Step said r.refusal (a.applyAll r.edits)

namespace Reaction

variable {a : Assembler} {said : Option Statement}

theorem steps_refuse (e : LineError) (log : List Log.Event) : (refuse e log).Steps a said :=
  .rejected said e

/-- A decision that is made before any edit is a step if its edits are, where it is accepted. -/
theorem steps_ofExcept {r : Except LineError (List Edit)} {log : List Log.Event}
    (h : ∀ edits, r = .ok edits → a.Step said none (a.applyAll edits)) :
    (ofExcept r log).Steps a said := by
  cases r with
  | error e => exact steps_refuse e log
  | ok edits => exact h edits rfl

end Reaction

theorem toOption_eq_some {ε α : Type} {x : Except ε α} {a : α} :
    x.toOption = some a ↔ x = .ok a := by
  cases x with
  | error e => exact ⟨nofun, nofun⟩
  | ok b =>
    exact ⟨fun h => congrArg Except.ok (Option.some.inj h),
      fun h => congrArg some (Except.ok.inj h)⟩

namespace Assembler

variable {a : Assembler} {cs : List Char}

theorem modifyDraft_of_some {d : Draft} (h : a.draft = some d) (f : Draft → Draft) :
    a.modifyDraft f = { a with draft := some (f d) } := by
  obtain ⟨segment, upvalueCount, finished, owners, nextId, draft⟩ := a
  obtain rfl : draft = some d := h
  rfl

theorem emit_of_some {d : Draft} (h : a.draft = some d) (m : Emission) :
    a.emit m =
      { a with
        draft := some (d.emit m (m.subroutines.filter fun name => (a.owners.owner? name).isNone))
        owners := m.subroutines.foldl (fun o name => o.claim name d.id) a.owners } := by
  obtain ⟨segment, upvalueCount, finished, owners, nextId, draft⟩ := a
  obtain rfl : draft = some d := h
  rfl

theorem onDraft_eq_ok {edit : Edit} {edits : List Edit} (h : a.onDraft edit = .ok edits) :
    edits = [edit] ∧ ∃ d, a.draft = some d := by
  rw [onDraft] at h
  split at h
  · rename_i hd
    exact ⟨(Except.ok.inj h).symm, Option.isSome_iff_exists.mp hd⟩
  · cases h

/-- Inversion for a line in a list of constants. -/
theorem constLine_step (hseg : a.segment = .const) :
    (Reaction.ofExcept (a.constLine cs)).Steps a ((Item.const? cs).map .item) := by
  apply Reaction.steps_ofExcept
  intro edits h
  obtain ⟨⟨c, rest⟩, hc, h⟩ := bind_eq_ok.mp h
  obtain ⟨u, hn, h⟩ := bind_eq_ok.mp h
  obtain ⟨rfl, d, hd⟩ := onDraft_eq_ok h
  have hc := mapError_eq_ok.mp hc
  have hsaid : Item.const? cs = some (.constant c) := by
    simp [Item.const?, toOption_eq_some.mpr hc, toOption_eq_some.mpr hn]
  have hafter : a.applyAll [.addConstant c] = { a with draft := some (d.addConstant c) } :=
    modifyDraft_of_some hd _
  rw [hsaid, hafter]
  exact .constant d c hseg hd (Scan.literal_same hc)

/-- Inversion for a line in a list of captured variables. -/
theorem upvalueLine_step (hseg : a.segment = .upvalue) :
    (Reaction.ofExcept (a.upvalueLine cs)).Steps a ((Item.upvalue? cs).map .item) := by
  apply Reaction.steps_ofExcept
  intro edits h
  obtain ⟨⟨inStack, rest⟩, hi, h⟩ := bind_eq_ok.mp h
  obtain ⟨⟨index, rest'⟩, hx, h⟩ := bind_eq_ok.mp h
  obtain ⟨u, hn, h⟩ := bind_eq_ok.mp h
  obtain ⟨rfl, d, hd⟩ := onDraft_eq_ok h
  have hsaid : Item.upvalue? cs = some (.upvalue ⟨inStack, index⟩) := by
    simp [Item.upvalue?, toOption_eq_some.mpr hi, toOption_eq_some.mpr hx, toOption_eq_some.mpr hn]
  have hafter : a.applyAll [.addUpvalue ⟨inStack, index⟩] =
      { a with draft := some (d.addUpvalue ⟨inStack, index⟩) } := modifyDraft_of_some hd _
  rw [hsaid, hafter]
  exact .upvalue d _ hseg hd

/-- Inversion for a line in a list of instructions and labels. -/
theorem codeLine_step (hseg : a.segment = .code) :
    (a.codeLine cs).Steps a ((Item.code? cs).map .item) := by
  rw [codeLine]
  split
  · exact Reaction.steps_refuse _ _
  · -- a label
    rename_i word rest hname
    rw [Item.code?_of_colon hname]
    split
    · exact Reaction.steps_refuse _ _
    · exact Reaction.steps_refuse _ _
    · rename_i u d hn hd
      split
      · exact Reaction.steps_refuse _ _
      · rename_i hfit
        have hafter : a.applyAll [.declareLabel word] =
            { a with draft := some (d.declareLabel word) } := modifyDraft_of_some hd _
        rw [toOption_eq_some.mpr hn, Reaction.Steps, hafter]
        exact .label d word hseg hd hfit
  · -- an instruction
    rename_i word rest hcolon hname
    rw [Item.code?_of_not_colon hname hcolon]
    split
    · exact Reaction.steps_refuse _ _
    · rename_i d hd
      apply Reaction.steps_ofExcept
      intro edits h
      obtain ⟨m, hm, rfl⟩ : ∃ m, d.instruction a.owners word rest = .ok m ∧ edits = [.emit m] := by
        cases hm : d.instruction a.owners word rest with
        | error e =>
          rw [hm] at h
          cases h
        | ok m =>
          rw [hm] at h
          exact ⟨m, rfl, (Except.ok.inj h).symm⟩
      obtain ⟨op, os, rest', comment, line, hop, hread, hmore, hline, hasm⟩ :=
        Draft.instruction_eq_ok.mp hm
      have hsaid : Item.instruction? word rest = some (.instruction op os line) := by
        simp [Item.instruction?, hop, toOption_eq_some.mpr hread, toOption_eq_some.mpr hmore,
          toOption_eq_some.mpr hline]
      rw [hsaid]
      exact .instruction d op os line m hseg hd (Operand.readAll_suits hread) hasm

/-- Inversion for a well-formed declaration of a function. -/
theorem beginFunction_step (hseg : a.segment.isOpen = false) (name : String)
    (header : FunctionHeader) :
    (a.beginFunction name header).Steps a (some (.function name header)) := by
  rw [beginFunction]
  split
  · rename_i log e hclose
    exact .dropped name header e hseg (congrArg Prod.snd hclose)
  · rename_i log hclose
    have hclose : a.closing.2 = none := congrArg Prod.snd hclose
    split
    · rename_i htaken
      exact .taken name header hseg hclose htaken
    · rename_i hfree
      exact .function name header hseg hclose (Bool.eq_false_iff.mpr hfree)

/-- Inversion for a directive that does not begin a function. -/
theorem otherDirective_step {d : Directive} {edits : List Edit}
    (h : a.otherDirective d cs = .ok edits) :
    d ≠ .func ∧ a.Step none none (a.applyAll edits) := by
  rw [otherDirective] at h
  split at h
  · rename_i hd
    subst hd
    refine ⟨nofun, ?_⟩
    split at h
    · cases h
    · rename_i hcount
      obtain ⟨⟨n, rest⟩, -, h⟩ := bind_eq_ok.mp h
      obtain ⟨u, -, h⟩ := bind_eq_ok.mp h
      obtain rfl := Except.ok.inj h
      exact .upvalues n (Option.not_isSome_iff_eq_none.mp hcount)
  · split at h
    · cases h
    · rename_i s hs
      obtain ⟨u, -, h⟩ := bind_eq_ok.mp h
      obtain rfl := Except.ok.inj h
      refine ⟨?_, .segment d s hs⟩
      rintro rfl
      cases hs

/-- Inversion for a line that starts with a dot. -/
theorem directiveLine_step : (a.directiveLine cs).Steps a (Statement.directive? cs) := by
  rw [directiveLine, Statement.directive?]
  split
  · exact Reaction.steps_refuse _ _
  · rename_i word rest hname
    rw [toOption_eq_some.mpr hname]
    simp only [Option.bind_eq_bind, Option.bind_some]
    split
    · exact Reaction.steps_refuse _ _
    · rename_i d hd
      rw [hd]
      simp only [Option.bind_some]
      split
      · rename_i hfunc
        obtain ⟨rfl, hopen⟩ := hfunc
        split
        · exact Reaction.steps_refuse _ _
        · rename_i name header hdecl
          rw [if_pos rfl, toOption_eq_some.mpr hdecl]
          exact beginFunction_step (Bool.eq_false_iff.mpr hopen) name header
      · apply Reaction.steps_ofExcept
        intro edits h
        obtain ⟨hne, hstep⟩ := otherDirective_step h
        rw [if_neg hne]
        exact hstep

/-- **The list of steps is complete.** Feeding a line makes one of them. -/
theorem feed_step (a : Assembler) (line : String) :
    a.Step (Statement.read? a.segment line.toList) (a.feed line).1 (a.feed line).2 := by
  change (a.react line.toList).Steps a _
  rw [react]
  split
  · rename_i hstart
    rw [Statement.read?, hstart]
    exact .blank
  · rename_i hstart
    rw [Statement.read?, hstart]
    exact .blank
  · rename_i hstart
    rw [Statement.read?, hstart]
    exact directiveLine_step
  · rename_i hnil hcomment hdot
    rw [Statement.read?_of_start hnil hcomment hdot]
    cases hseg : a.segment with
    | code => exact codeLine_step hseg
    | const => exact constLine_step hseg
    | upvalue => exact upvalueLine_step hseg
    | topLevel => exact Reaction.steps_refuse _ _
    | function => exact Reaction.steps_refuse _ _

end Assembler

end ChunkAsm
