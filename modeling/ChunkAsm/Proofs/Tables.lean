import ChunkAsm.Proofs.Bookkeeping
import ChunkAsm.Proofs.Sources
import ChunkAsm.Proofs.TwoPasses
import ChunkAsm.Source

/-!
# The table of a program

A program has one entry for every block of its source that has an instruction, in the order of the
source, and no other. What an entry holds is told by its block (`Block.Describes`): nothing is lost,
and nothing leaks from one block into another.

A function is finished late, by the next declaration or by the end of the input. So the invariant of
a run speaks of the blocks that are **closed**, which are all blocks but the one that is open
(`Assembler.Records`).
-/

namespace ChunkAsm

/-! ## What a block says of its function -/

namespace Item

/-- The captured variable that an item lists. -/
def captured? : Item → Option Upvalue
  | .upvalue u => some u
  | _ => none

/-- The source line that an item marks. -/
def marker? : Item → Option Nat
  | .instruction _ _ line => line
  | _ => none

/-- Whether an item is an instruction. -/
def isInstruction : Item → Bool
  | .instruction .. => true
  | _ => false

/-- Items take words exactly if there is an instruction among them. -/
theorem offset_eq_zero {items : List Item} :
    offset items = 0 ↔ items.any isInstruction = false := by
  induction items with
  | nil => simp
  | cons i items ih =>
    rw [offset_cons, List.any_cons, Bool.or_eq_false_iff, Nat.add_eq_zero_iff, ih]
    refine and_congr_left fun _ => ?_
    cases i with
    | instruction op os line =>
      simp [width, isInstruction, Nat.ne_of_gt (op.wordCount_pos os)]
    | _ => simp [width, isInstruction]

end Item

namespace Block

/-- Whether a block has an instruction. -/
def hasInstruction (b : Block) : Bool := b.items.any Item.isInstruction

/-- What one more item adds to a list of what some items say. -/
theorem filterMap_add {α : Type} (b : Block) (i : Item) (say : Item → Option α) :
    (b.add i).items.filterMap say = b.items.filterMap say ++ (say i).toList := by
  rw [add, List.filterMap_append]
  cases hi : say i <;> simp [hi]

/-- `b.Describes f`: the function `f` is what the block `b` says. -/
structure Describes (b : Block) (f : Function) : Prop where
  /-- the name is that of the declaration -/
  name : f.name = b.name
  /-- so is what else the declaration says -/
  header : f.header = b.header
  /-- the captured variables are the listed ones, in order -/
  upvalues : f.upvalues.toList = b.items.filterMap Item.captured?
  /-- the lines are the marked ones, in order; extra words have none -/
  lines : f.lines.toList = (b.items.filterMap Item.marker?).map Int.ofNat
  /-- the constants are the listed and the written ones, each once -/
  constants : f.constants = b.pool
  /-- the words are those of the instructions, in order -/
  words : b.words = .ok f.words.toList

end Block

namespace Assembles

variable {b : Block} {d : Draft}

/-- A draft has the declaration of its block. -/
theorem header_eq (h : Assembles b d) : d.header = b.header := by
  induction h with
  | begin => rfl
  | label _ _ _ ih => exact ih
  | constant _ _ _ ih => exact ih
  | upvalue _ _ ih => exact ih
  | instruction _ _ _ _ _ _ _ _ ih => exact ih

/-- A draft has the captured variables of its block. -/
theorem upvalues_eq (h : Assembles b d) :
    d.upvalues.toList = b.items.filterMap Item.captured? := by
  induction h with
  | begin => rfl
  | label _ _ _ ih => simpa [Block.filterMap_add, Item.captured?, Draft.declareLabel] using ih
  | constant _ _ _ ih => simpa [Block.filterMap_add, Item.captured?, Draft.addConstant] using ih
  | upvalue u _ ih => simp [Block.filterMap_add, Item.captured?, Draft.addUpvalue, ih]
  | instruction _ _ _ _ _ _ _ _ ih =>
    simpa [Block.filterMap_add, Item.captured?, Draft.emit] using ih

/-- A draft has the marked lines of its block. -/
theorem lines_eq (h : Assembles b d) :
    d.lines.toList = (b.items.filterMap Item.marker?).map Int.ofNat := by
  induction h with
  | begin => rfl
  | label _ _ _ ih => simpa [Block.filterMap_add, Item.marker?, Draft.declareLabel] using ih
  | constant _ _ _ ih => simpa [Block.filterMap_add, Item.marker?, Draft.addConstant] using ih
  | upvalue _ _ ih => simpa [Block.filterMap_add, Item.marker?, Draft.addUpvalue] using ih
  | instruction owners op os line m _ _ hm ih =>
    obtain ⟨e, -, hm, -⟩ := Draft.assemble_eq_ok hm
    have hline : m.line = line := congrArg Emission.line hm
    cases line with
    | none => simpa [Block.filterMap_add, Item.marker?, Draft.emit, hline] using ih
    | some n => simp [Block.filterMap_add, Item.marker?, Draft.emit, hline, ih]

/-- **A draft is what its block says.** -/
theorem describes (h : Assembles b d) : b.Describes d.toFunction where
  name := h.name_eq
  header := h.header_eq
  upvalues := h.upvalues_eq
  lines := h.lines_eq
  constants := h.constants_eq
  words := h.words_eq

/-- A draft has words exactly if its block has an instruction. -/
theorem isEmpty_words (h : Assembles b d) : d.words.isEmpty = !b.hasInstruction := by
  have hzero : d.words.isEmpty = true ↔ b.hasInstruction = false := by
    rw [Array.isEmpty_iff_size_eq_zero, h.size_words]
    exact Item.offset_eq_zero
  cases hb : b.hasInstruction with
  | false => exact hzero.mpr hb
  | true => exact Bool.eq_false_iff.mpr fun he => Bool.false_ne_true ((hzero.mp he).symm.trans hb)

end Assembles

/-! ## The invariant of a run -/

namespace Assembler

variable {a a' : Assembler} {blocks : List Block}

/-- The blocks that are closed: all but the latest, which is the first, if a function is open. -/
def closedBlocks (a : Assembler) (blocks : List Block) : List Block :=
  if a.draft.isSome then blocks.tail else blocks

/-- The table holds what the closed blocks say, as far as they have instructions. -/
def Records (a : Assembler) (blocks : List Block) : Prop :=
  List.Forall₂ (fun b entry => entry.1 = b.name ∧ b.Describes entry.2)
    ((a.closedBlocks blocks).filter Block.hasInstruction) a.finished

/-- Closing the open function closes its block. -/
theorem Records.close (h : a.Records blocks) (ht : a.Tracks blocks) :
    a.close.Records blocks := by
  have hclosed : a.close.closedBlocks blocks = blocks := by rw [closedBlocks, draft_close]; rfl
  rw [Records, hclosed]
  cases hd : a.draft with
  | none =>
    rw [Records, closedBlocks, hd] at h
    rw [Assembler.close, hd]
    exact h
  | some d =>
    obtain ⟨b, rest, rfl, hb⟩ := ht.draft d hd
    have hempty := hb.isEmpty_words
    rw [Records, closedBlocks, hd] at h
    rw [Assembler.close, hd]
    cases hi : b.hasInstruction with
    | false => simpa [hempty, hi, List.filter_cons] using h
    | true =>
      rw [List.filter_cons_of_pos hi]
      simp only [hempty, hi]
      exact .cons ⟨hb.name_eq, hb.describes⟩ h

/-- An item of the open function does not concern the table. -/
theorem Records.item {d d' : Draft} {i : Item} {o : Owners} (h : a.Records blocks)
    (ht : a.Tracks blocks) (hd : a.draft = some d) :
    Records { a with draft := some d', owners := o } (Block.note blocks (some (.item i))) := by
  obtain ⟨b, rest, rfl, -⟩ := ht.draft d hd
  rw [Records, closedBlocks, hd] at h
  exact h

/-- **An accepted line keeps the invariant.** -/
theorem Records.step {said : Option Statement} (h : a.Records blocks) (ht : a.Tracks blocks)
    (hs : a.Step said none a') : a'.Records (Block.note blocks said) := by
  cases hs with
  | blank => exact h
  | upvalues n hn => exact h
  | segment d s hn => exact h
  | function name header hseg hc hf =>
    have hclose := h.close ht
    rw [Records, closedBlocks, draft_close] at hclose
    exact hclose
  | label d name hseg hd hfit => exact h.item ht hd
  | constant d c hseg hd hc => exact h.item ht hd
  | upvalue d u hseg hd => exact h.item ht hd
  | instruction d op os line m hseg hd hsuit hm =>
    rw [emit_of_some hd]
    exact h.item ht hd

/-- **A run without rejected lines keeps the invariant.** -/
theorem Records.accept? {lines : List String} (h : a.Records blocks) (ht : a.Tracks blocks)
    (ha : a.accept? lines = some a') : a'.Records (a.blocksFrom blocks lines) := by
  induction lines generalizing a blocks with
  | nil =>
    obtain rfl := Option.some.inj ha
    exact h
  | cons line lines ih =>
    obtain ⟨hone, hrest⟩ := accept?_cons_eq_some.mp ha
    have hstep := feed_step a line
    have ht' := ht.step hstep
    rw [hone] at hstep ht'
    rw [blocksFrom, hone]
    exact ih (h.step ht hstep) ht' hrest

end Assembler

end ChunkAsm
