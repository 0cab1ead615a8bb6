import ChunkAsm.Listing
import ChunkAsm.Proofs.Closures
import ChunkAsm.Proofs.ConstantOperands

/-!
# Which registers instructions refer to

A register operand is stored as it is. In a slot that accepts constants as well, the highest of the
nine bits of the field is the flag of a constant, which leaves eight bits for the register. The
range that is checked is that of the whole field, so a register from 256 to 511 passes the check and
has the flag set by itself.

Hence the machine reads the register that was written, and a listing shows it, exactly if its number
is less than 256 (`registers_stored`). From 256 on both take it for a constant
(`register_read_as_constant`).
-/

namespace ChunkAsm

/-- What an operand stands for that may be a register or a constant. -/
inductive RkSource where
  /-- the register with this number -/
  | register (n : Nat)
  /-- the constant with this index -/
  | constant (k : Nat)
  deriving DecidableEq, Repr

namespace Word

/-- What the machine reads through a field for registers and constants. Bit 8 tells the two apart,
and the bits below it are the number. -/
def source (w : Word) (g : Field) : RkSource :=
  if (w.raw g).testBit 8 then .constant (w.raw g % 256) else .register (w.raw g)

/-- How a field of nine bits holds the register `n`: as it is, whatever the flag becomes. -/
structure HoldsRegister (w : Word) (g : Field) (n : Int) : Prop where
  /-- the register is read back -/
  value : w.get g = n
  /-- its number has nine bits -/
  range : 0 ≤ n ∧ n < 512
  /-- the flag is set from 256 on -/
  flag : (w.raw g).testBit 8 = true ↔ 256 ≤ n
  /-- and then the machine reads a constant -/
  source : w.source g = if n < 256 then .register n.toNat else .constant (n.toNat - 256)

/-- Bit 8 of nine bits is set in the upper half of the numbers. -/
theorem testBit_eight {n : Nat} (h : n < 512) : n.testBit 8 = decide (256 ≤ n) := by
  rw [Nat.testBit_eq_decide_div_mod_eq]
  have hiff : n / 2 ^ 8 % 2 = 1 ↔ 256 ≤ n := by omega
  simp only [hiff]

theorem holdsRegister {w : Word} {g : Field} {n : Int} (hsize : g.size = 512) (hbias : g.bias = 0)
    (h : w.get g = n) : w.HoldsRegister g n := by
  have hlt : w.raw g < 512 := hsize ▸ raw_lt w g
  have hn : n = (w.raw g : Int) := by rw [← h, get_eq_raw hbias]
  have hbit := testBit_eight hlt
  refine ⟨h, by omega, ?_, ?_⟩
  · rw [hbit, decide_eq_true_iff]
    omega
  · by_cases hhigh : 256 ≤ w.raw g
    · have hmod : w.raw g % 256 = w.raw g - 256 := by omega
      rw [Word.source, hbit, if_pos (decide_eq_true hhigh), if_neg (by omega), hmod, hn,
        Int.toNat_natCast]
    · rw [Word.source, hbit, if_neg (by simpa using hhigh), if_pos (by omega), hn,
        Int.toNat_natCast]

end Word

/-- **Emitted registers.** A register operand next to constants goes to a field that holds it. -/
theorem Draft.Emits.holdsRegister {d : Draft} {op : Opcode} {os : List Operand} {m : Emission}
    {slot : Slot} {n : Int} (he : d.Emits op os m) (hz : (slot, .stack n) ∈ op.slots.zip os)
    (hstack : slot.kinds.stack = true) (hcon : slot.kinds.constant = true) :
    ∃ g, slot.dest = .field g ∧ m.word.HoldsRegister g n := by
  obtain ⟨v, hv, hheld⟩ := he.placed _ hz
  obtain rfl : v = n := hv
  have hdest : slot.dest = .field .b ∨ slot.dest = .field .c := by
    rcases Opcode.dest_of_constant (List.of_mem_zip hz).1 hcon with ⟨-, h⟩ | ⟨hno, -⟩
    · exact h
    · rw [hstack] at hno
      cases hno
  rcases hdest with hd | hd
  · rw [hd] at hheld
    exact ⟨.b, hd, Word.holdsRegister rfl rfl hheld⟩
  · rw [hd] at hheld
    exact ⟨.c, hd, Word.holdsRegister rfl rfl hheld⟩

/-- **Listed registers.** A register that a field holds is shown as it was written, unless the flag
makes it a constant. -/
theorem Linked.operandText_of_holdsRegister (l : Linked) (site : Nat) {w : Word} {slot : Slot}
    {g : Field} {n : Int} (h : w.HoldsRegister g n) (hd : slot.dest = .field g)
    (hstack : slot.kinds.stack = true) (hcon : slot.kinds.constant = true) :
    l.operandText site slot.kinds (l.operandValue site w slot.dest) =
      if n < 256 then s!"%{n}" else l.constantText (n.toNat - 256) := by
  obtain ⟨hlo, hhi⟩ := h.range
  have hvalue : l.operandValue site w slot.dest = n := by
    rw [hd]
    exact h.value
  have hnot : slot.kinds ≠ .only .constant := by
    intro hk
    rw [hk] at hstack
    cases hstack
  have href : constantRef? slot.kinds n = if n < 256 then none else some (n.toNat - 256) := by
    have hflag : (n.toNat / rkFlag % 2 == 1) = decide (¬ n < 256) := by
      have hiff : n.toNat / 256 % 2 = 1 ↔ ¬ n < 256 := by omega
      rw [rkFlag, beq_eq_decide, decide_eq_decide]
      exact hiff
    rw [constantRef?, hstack, hcon, hflag, if_neg hnot]
    by_cases hn : n < 256
    · simp [hn]
    · simp [hn, rkFlag]
  rw [hvalue, operandText, href]
  by_cases hn : n < 256
  · simp [hn, hstack]
  · simp [hn]

/-- An instruction that takes constants is neither a jump nor a closure, so nothing changes its word
after it is emitted. -/
theorem Assembles.linked_of_constant {b : Block} {d : Draft} (h : Assembles b d) {p : Program}
    {l : Linked} (hl : p.link d.toFunction = .ok l) {before after : List Item} {op : Opcode}
    {os : List Operand} {mark : Option Nat} {slot : Slot}
    (hitems : b.items = before ++ .instruction op os mark :: after) (hslot : slot ∈ op.slots)
    (hcon : slot.kinds.constant = true) :
    ∃ d₀ m, Draft.Emits d₀ op os m ∧ l.words[Item.offset before]? = some m.word := by
  obtain ⟨d₀, m, -, hs, he, hk, -⟩ := h.emitted hitems
  obtain ⟨w, hw, -, hsame⟩ := hk.word
  obtain rfl := hsame (hs.location_not_mem hslot hcon)
  have hop : op ≠ .closure := by
    rintro rfl
    have hno : ∀ slot ∈ Opcode.slots .closure, slot.kinds.constant = false := by decide
    exact Bool.false_ne_true ((hno slot hslot).symm.trans hcon)
  obtain ⟨w', hw', -, hkept⟩ := h.exists_linked_word hl hw
  obtain rfl := hkept (by rw [he.opcode]; simpa using hop)
  exact ⟨d₀, m, he, hw'⟩

/-- **Register operands.** In a slot that accepts constants as well, an accepted line stores a
register as it is written. The flag of the field is clear, and the machine reads the register that
was written, exactly if its number is less than 256; a register from 256 to 511 has the flag set and
is read as a constant. Listings follow the machine, in all programs that come from lines. -/
theorem registers_stored {op : Opcode} {os : List Operand} {slot : Slot} {n : Int}
    (hz : (slot, .stack n) ∈ op.slots.zip os) (hstack : slot.kinds.stack = true)
    (hcon : slot.kinds.constant = true) :
    (∀ (a : Assembler) (line : String) mark,
      Statement.read? a.segment line.toList = some (.item (.instruction op os mark)) →
      (a.feed line).1 = none →
      ∃ d d' w g, a.draft = some d ∧ (a.feed line).2.draft = some d' ∧
        d'.words[d.words.size]? = some w ∧ w.opcode? = some op ∧
        slot.dest = .field g ∧ w.HoldsRegister g n) ∧
    ∀ lines p key f b before mark after l, Produces lines p → p.function? key = some f →
      Block.last? lines key = some b → b.items = before ++ .instruction op os mark :: after →
      p.link f = .ok l →
      ∃ g w, slot.dest = .field g ∧ l.words[Item.offset before]? = some w ∧
        w.HoldsRegister g n ∧
        l.operandText (Item.offset before) slot.kinds
            (l.operandValue (Item.offset before) w slot.dest) =
          if n < 256 then s!"%{n}" else l.constantText (n.toNat - 256) := by
  constructor
  · intro a line mark hread hacc
    have hstep := Assembler.feed_step a line
    rw [hread, hacc] at hstep
    generalize (a.feed line).2 = a' at hstep
    cases hstep with
    | instruction d _ _ _ m _ hd hs hm =>
      have he := Draft.assemble_spec hm hs
      obtain ⟨g, hdest, hholds⟩ := he.holdsRegister hz hstack hcon
      rw [Assembler.emit_of_some hd]
      exact ⟨d, _, m.word, g, hd, rfl, Draft.getElem?_words_emit_self _ _ _, he.opcode, hdest,
        hholds⟩
  · intro lines p key f b before mark after l hp hf hb hitems hl
    obtain ⟨b', hb', d, hd, -, rfl⟩ := hp.completes hf
    obtain rfl := Option.some.inj (hb.symm.trans hb')
    obtain ⟨d₀, m, he, hw⟩ := hd.linked_of_constant hl hitems (List.of_mem_zip hz).1 hcon
    obtain ⟨g, hdest, hholds⟩ := he.holdsRegister hz hstack hcon
    exact ⟨g, m.word, hdest, hw, hholds,
      l.operandText_of_holdsRegister _ hholds hdest hstack hcon⟩

/-- Lines with a constant, and an instruction with the last register that the machine reads and the
first that it does not. -/
def registerLines : List String :=
  [".upvalues 0", ".func main 2 0 0", ".begin_const", "'x'", ".end_const", ".begin_code",
    "add %0 %255 %256", ".end_code"]

/-- The last register is stored and listed as it is written. -/
theorem registers_stored_last :
    (∃ d' w, ((({} : Assembler).feedAll (registerLines.take 6)).feed "add %0 %255 %256").1 = none ∧
      ((({} : Assembler).feedAll (registerLines.take 6)).feed "add %0 %255 %256").2.draft =
        some d' ∧ d'.words[0]? = some w ∧ w.HoldsRegister .b 255) ∧
    ∃ p f l w, Produces registerLines p ∧ p.function? "main" = some f ∧ p.link f = .ok l ∧
      l.words[0]? = some w ∧ w.source .b = .register 255 ∧
      l.operandText 0 .rk (w.get .b) = "%255" := by
  have hz : (Opcode.rkSlot .b, Operand.stack 255) ∈
      Opcode.add.slots.zip [.stack 0, .stack 255, .stack 256] := by
    decide
  obtain ⟨hlines, hprograms⟩ := registers_stored hz rfl rfl
  constructor
  · have hread : Statement.read? (({} : Assembler).feedAll (registerLines.take 6)).segment
        "add %0 %255 %256".toList =
          some (.item (.instruction .add [.stack 0, .stack 255, .stack 256] none)) := by
      decide +kernel
    have hacc : ((({} : Assembler).feedAll (registerLines.take 6)).feed "add %0 %255 %256").1 =
        none := by
      decide +kernel
    have hempty : (({} : Assembler).feedAll (registerLines.take 6)).draft.map (·.words.size) =
        some 0 := by
      decide +kernel
    obtain ⟨d, d', w, g, hd, hd', hw, -, hdest, hholds⟩ := hlines _ _ _ hread hacc
    rw [hd] at hempty
    obtain rfl := Destination.field.inj hdest
    exact ⟨d', w, hacc, hd', Option.some.inj hempty ▸ hw, hholds⟩
  · have hrun : (((({} : Assembler).feedAll registerLines).finish false).2.toOption.bind fun p =>
        (p.function? "main").bind fun f => (p.link f).toOption).isSome = true := by
      decide +kernel
    have hlast : Block.last? registerLines "main" = some
        { name := "main"
          header := ⟨2, 0, .fixed⟩
          items := [.constant (.string [0x78])] ++
            .instruction .add [.stack 0, .stack 255, .stack 256] none :: [] } := by
      decide +kernel
    obtain ⟨l, hl⟩ := Option.isSome_iff_exists.mp hrun
    obtain ⟨p, hp, hl⟩ := Produces.of_run hl
    obtain ⟨f, hf, hl⟩ := Option.bind_eq_some_iff.mp hl
    have hlink := toOption_eq_some.mp hl
    obtain ⟨g, w, hdest, hw, hholds, htext⟩ :=
      hprograms _ _ _ _ _ _ _ _ l hp hf hlast rfl hlink
    obtain rfl := Destination.field.inj hdest
    exact ⟨p, f, l, w, hp, hf, hlink, hw, hholds.source, htext⟩

/-- **A register can be read as a constant.** The instruction of these lines is accepted with the
register 256 as its operand. The flag of the field is set, the machine reads the first constant, and
a listing shows the constant as well. -/
theorem register_read_as_constant :
    Statement.read? .code "add %0 %255 %256".toList =
      some (.item (.instruction .add [.stack 0, .stack 255, .stack 256] none)) ∧
    ∃ p f l w, Produces registerLines p ∧ p.function? "main" = some f ∧ p.link f = .ok l ∧
      l.words = #[w] ∧ (w.raw .c).testBit 8 = true ∧ w.source .c = .constant 0 ∧
      Listing.instructionText l 0 w = "ADD       %0 %255 const \"x\"" := by
  refine ⟨by decide +kernel, ?_⟩
  have hrun : (((({} : Assembler).feedAll registerLines).finish false).2.toOption.bind fun p =>
      (p.function? "main").bind fun f => (p.link f).toOption.map fun l =>
        (l.words, Listing.instructionText l 0 ⟨0x7fc0000d⟩)) =
          some (#[⟨0x7fc0000d⟩], "ADD       %0 %255 const \"x\"") := by
    decide +kernel
  obtain ⟨p, hp, hlook⟩ := Produces.of_run hrun
  obtain ⟨f, hf, hlook⟩ := Option.bind_eq_some_iff.mp hlook
  obtain ⟨l, hl, hlook⟩ := Option.map_eq_some_iff.mp hlook
  obtain ⟨hwords, htext⟩ := Prod.mk.inj hlook
  exact ⟨p, f, l, _, hp, hf, toOption_eq_some.mp hl, hwords, rfl, rfl, htext⟩

end ChunkAsm
