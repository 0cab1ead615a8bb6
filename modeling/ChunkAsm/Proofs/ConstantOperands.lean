import ChunkAsm.Proofs.Offsets
import Mathlib.Data.List.Induction

/-!
# Which constants instructions refer to

A constant operand is stored as the index of the constant in the pool. A slot that accepts registers
as well has a field of nine bits, the highest of which is a flag that tells a constant from a
register. This leaves eight bits for the index. The flag is put into the index before the range of
the field is checked, so an index from 256 to 511 passes the check and then counts modulo 256.

Hence an operand addresses its constant exactly if the index of the constant is less than 256, or if
the slot is for constants only (`constants_addressed`). With more constants it can address another
one (`constants_addressed_wraps`).
-/

namespace ChunkAsm

/-- `f.Addresses site slot k`: the instruction at `site` refers, in the given slot, to the constant
with the index `k`. If the slot accepts registers, bit 8 of the field is set and the index stands in
the bits below it. -/
def Function.Addresses (f : Function) (site : Nat) (slot : Slot) (k : Nat) : Prop :=
  match slot.dest with
  | .field g => ∃ w, f.words[site]? = some w ∧
      if slot.kinds.stack then (w.raw g).testBit 8 = true ∧ w.raw g % 256 = k else w.raw g = k
  | .extra => ∃ x, f.words[site + 1]? = some x ∧ x.opcode? = some .extraArg ∧ x.raw .ax = k
  | .cOrExtra => False

/-! ## Slots for constants -/

/-- Where constants go: next to registers into `B` or `C`, and otherwise into `Bx` or the extra
word. -/
theorem Opcode.dest_of_constant {op : Opcode} {slot : Slot} (hs : slot ∈ op.slots)
    (hc : slot.kinds.constant = true) :
    (slot.kinds.stack = true ∧ (slot.dest = .field .b ∨ slot.dest = .field .c)) ∨
      (slot.kinds.stack = false ∧ (slot.dest = .field .bx ∨ slot.dest = .extra)) := by
  have h : ∀ op : Opcode, ∀ slot ∈ op.slots, slot.kinds.constant = true →
      (slot.kinds.stack = true ∧ (slot.dest = .field .b ∨ slot.dest = .field .c)) ∨
        (slot.kinds.stack = false ∧ (slot.dest = .field .bx ∨ slot.dest = .extra)) := by
    intro op
    cases op <;> decide
  exact h op slot hs hc

/-- A jump takes no constants. -/
theorem Operand.SuitAll.location_not_mem {op : Opcode} {os : List Operand}
    (h : SuitAll op.slots os) {slot : Slot} (hs : slot ∈ op.slots)
    (hc : slot.kinds.constant = true) (label : String) : .location label ∉ os := by
  have hslots : ∀ op : Opcode, ∀ slot ∈ op.slots, slot.kinds.constant = true →
      ∀ slot' ∈ op.slots, slot'.kinds.location = false := by
    intro op
    cases op <;> decide
  intro hl
  obtain ⟨slot', hslot', hloc⟩ := h.exists_has hl nofun
  exact Bool.false_ne_true ((hslots op slot hs hc slot' hslot').symm.trans hloc)

/-- The flag leaves eight bits of an index. -/
theorem flagged_index {n k : Nat} (hn : n = k ||| rkFlag) (hlt : n < 512) :
    n.testBit 8 = true ∧ n % 256 = k % 256 ∧ k < 512 := by
  subst hn
  refine ⟨?_, ?_, Nat.lt_of_le_of_lt Nat.left_le_or hlt⟩
  · rw [Nat.testBit_or, Bool.or_eq_true]
    exact .inr rfl
  · have hmod : (k ||| rkFlag) % 2 ^ 8 = k % 2 ^ 8 ||| rkFlag % 2 ^ 8 := Nat.or_mod_two_pow
    simpa [rkFlag] using hmod

/-- **What a constant operand addresses.** If `k` is the index of the constant, a slot for constants
only addresses `k`, and a slot that accepts registers addresses `k` modulo 256. -/
theorem Assembles.addresses {b : Block} {d : Draft} (h : Assembles b d) {before after : List Item}
    {op : Opcode} {os : List Operand} {line : Option Nat} {slot : Slot} {c : Constant}
    (hitems : b.items = before ++ .instruction op os line :: after)
    (hz : (slot, .constant c) ∈ op.slots.zip os) :
    ∃ k, d.constants.position? c = some k ∧ (slot.kinds.stack = true → k < 512) ∧
      d.toFunction.Addresses (Item.offset before) slot
        (if slot.kinds.stack then k % 256 else k) := by
  obtain ⟨d₀, m, -, hs, he, hk, cs, hpool⟩ := h.emitted hitems
  obtain ⟨v, ⟨k, hpos, hv⟩, hheld⟩ := he.placed (slot, .constant c) hz
  have hslot : slot ∈ op.slots := (List.of_mem_zip hz).1
  have hcon : slot.kinds.constant = true :=
    (List.forall₂_zip hs hz).kind.resolve_right (by simp [Operand.kind])
  obtain ⟨w, hw, -, hsame⟩ := hk.word
  obtain rfl := hsame (hs.location_not_mem hslot hcon)
  have hfinal : d.constants.position? c = some k := by
    rw [hpool]
    exact Pool.position?_insertAll hpos
  refine ⟨k, hfinal, ?_⟩
  rcases Opcode.dest_of_constant hslot hcon with ⟨hrk, hdest⟩ | ⟨hrk, hdest⟩
  · -- next to registers, with the flag
    have hfield : ∃ g, slot.dest = .field g ∧ g.size = 512 ∧ g.bias = 0 := by
      rcases hdest with hd | hd
      · exact ⟨.b, hd, rfl, rfl⟩
      · exact ⟨.c, hd, rfl, rfl⟩
    obtain ⟨g, hd, hsize, hbias⟩ := hfield
    simp only [hd, hrk, if_true, Emission.Holds] at hheld hv
    have hraw : m.word.raw g = k ||| rkFlag := by
      rw [Word.get_eq_raw hbias, hv] at hheld
      exact Int.ofNat.inj hheld
    obtain ⟨hbit, hlow, hlt⟩ := flagged_index hraw (hsize ▸ Word.raw_lt m.word g)
    refine ⟨fun _ => hlt, ?_⟩
    simp only [Function.Addresses, hd, hrk, if_true]
    exact ⟨m.word, hw, hbit, hlow⟩
  · rw [hrk] at hv ⊢
    refine ⟨fun hrk' => absurd hrk' Bool.false_ne_true, ?_⟩
    rcases hdest with hd | hd
    · simp only [hd, Emission.Holds, Bool.false_eq_true, if_false] at hheld hv
      rw [Word.get_eq_raw rfl, hv] at hheld
      simp only [Function.Addresses, hd, hrk]
      exact ⟨m.word, hw, Int.ofNat.inj hheld⟩
    · simp only [hd, Emission.Holds, Bool.false_eq_true, if_false] at hheld hv
      obtain ⟨x, hx, hax⟩ := hheld
      rw [Word.get_eq_raw rfl, hv] at hax
      simp only [Function.Addresses, hd]
      exact ⟨x, hk.extra x hx, he.extra x hx, Int.ofNat.inj hax⟩

/-- **Constant operands.** In every function of a program that comes from lines, a constant operand
addresses an entry of the pool. This is the constant that was written exactly if the slot is for
constants only or the index of the constant is less than 256. -/
theorem constants_addressed {lines : List String} {p : Program} {key : String} {f : Function}
    (h : Produces lines p) (hf : p.function? key = some f) :
    ∃ b, Block.last? lines key = some b ∧
      ∀ before op os line after slot c,
        b.items = before ++ .instruction op os line :: after →
        (slot, .constant c) ∈ op.slots.zip os →
        ∃ k j e, f.constants.position? c = some k ∧
          f.Addresses (Item.offset before) slot j ∧ f.constants.get? j = some e ∧
          (slot.kinds.stack = false → j = k) ∧
          (slot.kinds.stack = true → k < 512 ∧ j = k % 256) ∧
          (e.same c = true ↔ (slot.kinds.stack = true → k < 256)) := by
  obtain ⟨b, hb, d, hd, -, rfl⟩ := h.completes hf
  refine ⟨b, hb, ?_⟩
  intro before op os line after slot c hitems hz
  obtain ⟨k, hpos, hlt, haddr⟩ := hd.addresses hitems hz
  obtain ⟨e, he, hsame⟩ := Pool.get?_of_position? hpos
  cases hrk : slot.kinds.stack with
  | false =>
    rw [hrk] at haddr
    exact ⟨k, k, e, hpos, haddr, he, fun _ => rfl, nofun, fun _ => nofun, fun _ => hsame⟩
  | true =>
    rw [hrk] at haddr
    by_cases hk : k < 256
    · rw [if_pos rfl, Nat.mod_eq_of_lt hk] at haddr
      refine ⟨k, k, e, hpos, haddr, he, nofun, fun _ => ⟨hlt hrk, ?_⟩, fun _ _ => hk,
        fun _ => hsame⟩
      exact (Nat.mod_eq_of_lt hk).symm
    · -- the entry that is addressed comes before the first one that is the same
      have hless : k % 256 < k := by omega
      have hsize := Pool.lt_size_of_position? hpos
      obtain ⟨e', he'⟩ : ∃ e', d.constants.get? (k % 256) = some e' :=
        ⟨_, Array.getElem?_eq_getElem (Nat.lt_trans hless hsize)⟩
      have hother := Pool.not_same_of_lt hpos hless he'
      refine ⟨k, k % 256, e', hpos, haddr, he', nofun, fun _ => ⟨hlt hrk, rfl⟩, ?_, ?_⟩
      · intro hs
        rw [hother] at hs
        cases hs
      · intro hs
        exact absurd (hs rfl) hk

/-- Lines with two constants in one instruction. -/
def pairLines : List String :=
  [".upvalues 0", ".func main 2 0 0", ".begin_code", "add %0 const 'x' const 'y'", ".end_code"]

/-- The second constant has the index 1 and is addressed by it. -/
theorem constants_addressed_pair :
    ∃ p f, Produces pairLines p ∧ p.function? "main" = some f ∧
      f.Addresses 0 (Opcode.rkSlot .c) 1 := by
  have hrun : (((({} : Assembler).feedAll pairLines).finish false).2.toOption.bind
      (·.function? "main")).map (·.constants.position? (.string [0x79])) = some (some 1) := by
    decide +kernel
  obtain ⟨f, hf, hone⟩ := Option.map_eq_some_iff.mp hrun
  obtain ⟨p, hp, hf⟩ := Produces.of_run hf
  obtain ⟨b, hb, hall⟩ := constants_addressed hp hf
  have hlast : Block.last? pairLines "main" = some
      { name := "main"
        header := ⟨2, 0, .fixed⟩
        items := [] ++ .instruction .add
          [.stack 0, .constant (.string [0x78]), .constant (.string [0x79])] none :: [] } := by
    decide +kernel
  obtain rfl := Option.some.inj (hlast.symm.trans hb)
  obtain ⟨k, j, e, hk, haddr, -, -, hj, -⟩ :=
    hall _ _ _ _ _ (Opcode.rkSlot .c) (.string [0x79]) rfl (by decide)
  obtain rfl := Option.some.inj (hone.symm.trans hk)
  obtain ⟨-, rfl⟩ := hj rfl
  exact ⟨p, f, hp, hf, haddr⟩

/-! ## Too many constants -/

namespace Pool

/-- A pool takes constants in order if no two of them are the same. -/
theorem new_of_pairwise {cs : List Constant} (h : cs.Pairwise fun x y => x.same y = false) :
    ({} : Pool).New cs := by
  induction cs using List.reverseRecOn with
  | nil => exact new_nil _
  | append_singleton cs c ih =>
    obtain ⟨hcs, -, hc⟩ := List.pairwise_append.mp h
    have hnew := ih hcs
    refine hnew.concat ?_
    rw [position?_of_new hnew]
    have hnone : cs.findIdx? (·.same c) = none := by
      rw [List.findIdx?_eq_none_iff]
      exact fun x hx => hc x hx c List.mem_cons_self
    rw [hnone]
    rfl

theorem insertAll_of_pairwise {cs : List Constant}
    (h : cs.Pairwise fun x y => x.same y = false) : ({} : Pool).insertAll cs = ⟨cs.toArray⟩ := by
  have hentries : (({} : Pool).insertAll cs).entries = cs.toArray :=
    Array.ext' ((new_of_pairwise h).trans (List.nil_append cs))
  rw [← hentries]

end Pool

/-- The digits of a number as a constant. -/
def digitString (n : Nat) : Constant :=
  .string ((Nat.toDigits 10 n).map fun c => UInt8.ofNat c.toNat)

/-- The digit strings of different numbers differ. -/
theorem digitString_same {m n : Nat} (hm : m < 257) (hn : n < 257) (h : m ≠ n) :
    (digitString m).same (digitString n) = false := by
  -- the number is read back from its digits
  have hread : ∀ n < 257, ((Nat.toDigits 10 n).map fun c => UInt8.ofNat c.toNat).foldl
      (fun k b => 10 * k + (b.toNat - 48)) 0 = n := by
    decide +kernel
  rw [digitString, digitString, Constant.same, beq_eq_false_iff_ne]
  intro he
  apply h
  rw [← hread m hm, ← hread n hn, he]

namespace Assembler

variable {a : Assembler} {d : Draft}

/-- A line with a string adds it to the pool. -/
theorem feed_quoted {cs : List Char} {c : Constant} (hseg : a.segment = .const)
    (hd : a.draft = some d) (hc : Item.const? ('\'' :: cs) = some (.constant c)) :
    (a.feed (String.ofList ('\'' :: cs))).2 = { a with draft := some (d.addConstant c) } := by
  have hreact : a.react ('\'' :: cs) = .ofExcept (a.constLine ('\'' :: cs)) := by
    have hskip : Scan.skipBlanks ('\'' :: cs) = '\'' :: cs := rfl
    simp only [react, hskip, hseg]
    rfl
  have hline : a.constLine ('\'' :: cs) = .ok [.addConstant c] := by
    obtain ⟨⟨c', rest⟩, hlit, hc⟩ := Option.bind_eq_some_iff.mp hc
    obtain ⟨u, hmore, hc⟩ := Option.bind_eq_some_iff.mp hc
    obtain rfl := Item.constant.inj (Option.some.inj hc)
    have hdraft : a.onDraft (.addConstant c') = .ok [.addConstant c'] := by
      rw [onDraft, hd]
      rfl
    exact bind_eq_ok.mpr ⟨(c', rest), mapError_eq_ok.mpr (toOption_eq_some.mp hlit),
      bind_eq_ok.mpr ⟨u, toOption_eq_some.mp hmore, hdraft⟩⟩
  rw [feed, String.toList_ofList, hreact, hline]
  exact modifyDraft_of_some hd _

/-- Lines with strings add them in order. -/
theorem feedAll_quoted {xs : List Nat} {t : Nat → List Char} {c : Nat → Constant}
    (hseg : a.segment = .const) (hd : a.draft = some d)
    (h : ∀ x ∈ xs, Item.const? ('\'' :: t x) = some (.constant (c x))) :
    a.feedAll (xs.map fun x => String.ofList ('\'' :: t x)) =
      { a with draft := some { d with constants := d.constants.insertAll (xs.map c) } } := by
  induction xs generalizing a d with
  | nil =>
    obtain ⟨segment, upvalueCount, finished, owners, nextId, draft⟩ := a
    obtain rfl : draft = some d := hd
    rfl
  | cons x xs ih =>
    have hone := feed_quoted hseg hd (h x List.mem_cons_self)
    rw [List.map_cons, feedAll, List.foldl_cons, hone]
    exact ih (a := { a with draft := some (d.addConstant (c x)) }) hseg rfl
      fun y hy => h y (List.mem_cons_of_mem _ hy)

end Assembler

/-- Lines with 257 constants and an instruction that refers to the last of them. -/
def wideLines : List String :=
  [".upvalues 0", ".func main 2 0 0", ".begin_const"] ++
    ((List.range 257).map fun n => String.ofList ('\'' :: (Nat.toDigits 10 n ++ ['\'']))) ++
    [".end_const", ".begin_code", "add %0 %0 const '256'", ".end_code"]

/-- The constants of these lines, in order. -/
def wideConstants : List Constant := (List.range 257).map digitString

theorem pairwise_wideConstants : wideConstants.Pairwise fun x y => x.same y = false := by
  rw [wideConstants, List.pairwise_map]
  refine List.pairwise_lt_range.imp_of_mem ?_
  intro m n hm hn hlt
  exact digitString_same (List.mem_range.mp hm) (List.mem_range.mp hn) (Nat.ne_of_lt hlt)

/-- Running the lines, up to the point where all constants are in the pool. -/
theorem feedAll_wideLines :
    ({} : Assembler).feedAll wideLines =
      Assembler.feedAll
        { segment := .const
          upvalueCount := some 0
          nextId := 1
          draft := some
            { id := 0, name := "main", header := ⟨2, 0, .fixed⟩,
              constants := ⟨wideConstants.toArray⟩ } }
        [".end_const", ".begin_code", "add %0 %0 const '256'", ".end_code"] := by
  have hstart : ({} : Assembler).feedAll [".upvalues 0", ".func main 2 0 0", ".begin_const"] =
      { segment := .const
        upvalueCount := some 0
        nextId := 1
        draft := some { id := 0, name := "main", header := ⟨2, 0, .fixed⟩ } } := by
    decide +kernel
  have hread : ∀ n ∈ List.range 257, Item.const? ('\'' :: (Nat.toDigits 10 n ++ ['\''])) =
      some (.constant (digitString n)) := by
    decide +kernel
  rw [wideLines, Assembler.feedAll_append, Assembler.feedAll_append, hstart,
    Assembler.feedAll_quoted rfl rfl hread, ← Pool.insertAll_of_pairwise pairwise_wideConstants]
  rfl

/-- **An operand can address another constant.** The instruction at the end of these lines is
accepted and has the constant `'256'` as its operand, but it addresses `'0'` and no entry that is the
same as `'256'`. -/
theorem constants_addressed_wraps :
    ∃ p f, Produces wideLines p ∧ p.function? "main" = some f ∧
      Statement.read? .code "add %0 %0 const '256'".toList = some (.item (.instruction .add
        [.stack 0, .stack 0, .constant (.string [0x32, 0x35, 0x36])] none)) ∧
      f.words.size = 1 ∧ f.Addresses 0 (Opcode.rkSlot .c) 0 ∧
      f.constants.get? 0 = some (.string [0x30]) ∧
      ∀ k e, f.constants.get? k = some e → e.same (.string [0x32, 0x35, 0x36]) = true →
        ¬ f.Addresses 0 (Opcode.rkSlot .c) k := by
  have hrun : (((({} : Assembler).feedAll wideLines).finish false).2.toOption.bind
      (·.function? "main")).map (fun f => (f.words, f.constants.get? 0)) =
        some (#[⟨0x0040000d⟩], some (.string [0x30])) := by
    rw [feedAll_wideLines]
    decide +kernel
  obtain ⟨f, hf, hparts⟩ := Option.map_eq_some_iff.mp hrun
  obtain ⟨hwords, hzero⟩ := Prod.mk.inj hparts
  obtain ⟨p, hp, hf⟩ := Produces.of_run hf
  have hword : f.words[0]? = some ⟨0x0040000d⟩ := by
    rw [hwords]
    rfl
  refine ⟨p, f, hp, hf, by decide +kernel, by rw [hwords]; rfl, ⟨_, hword, rfl, rfl⟩, hzero, ?_⟩
  -- what is addressed is the first entry, and this is another constant
  rintro k e he hsame ⟨w, hw, -, hk⟩
  obtain rfl := Option.some.inj (hword.symm.trans hw)
  obtain rfl : 0 = k := hk
  obtain rfl := Option.some.inj (hzero.symm.trans he)
  cases hsame

end ChunkAsm
