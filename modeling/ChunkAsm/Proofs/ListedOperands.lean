import ChunkAsm.Listing
import ChunkAsm.Proofs.Closures
import ChunkAsm.Proofs.ConstantOperands
import ChunkAsm.Proofs.FirstUses
import ChunkAsm.Proofs.Jumps
import ChunkAsm.Proofs.Rejection
import ChunkAsm.Proofs.Spelling

/-!
# Listed operands are source text

A listing shows an operand as it could be written in the source: reading it back with the kinds of
its slot gives an operand, and this operand stands for the value that the instruction holds
(`listed_operands_read_back`). Five things are needed for that.

* The value that is shown is the one that the words hold (`Linked.Holds`).
* What is shown is the spelling of an operand that the slot accepts (`Linked.Shows`).
* A constant is found where it stands, since no two entries of a pool are the same
  (`Assembles.position?_constants`).
* Jumps go to places of the function, so a target is a numeral without a sign
  (`Completes.exists_linked_target`).
* Functions have names (`Produces.isName`).

A label is shown by its target. So what is read back is a label with another name, unless it was
called by the number of the target.
-/

namespace ChunkAsm

open Scan (IsName)

/-! ## Names of functions -/

/-- A declaration gives a name. -/
theorem Assembler.isName_of_declaration {cs : List Char} {name : String} {header : FunctionHeader}
    (h : declaration cs = .ok (name, header)) : IsName name := by
  obtain ⟨⟨name', rest⟩, hname, h⟩ := bind_eq_ok.mp h
  obtain ⟨x₁, -, h⟩ := bind_eq_ok.mp h
  obtain ⟨x₂, -, h⟩ := bind_eq_ok.mp h
  obtain ⟨x₃, -, h⟩ := bind_eq_ok.mp h
  simp only at h
  split at h
  · cases h
  · obtain ⟨-, -, h⟩ := bind_eq_ok.mp h
    obtain ⟨rfl, -⟩ := Prod.mk.inj (Except.ok.inj h)
    exact Scan.isName_of_name (mapError_eq_ok.mp hname)

theorem Block.isName_note {blocks : List Block} (h : ∀ b ∈ blocks, IsName b.name) (s : Segment)
    (line : List Char) : ∀ b ∈ note blocks (Statement.read? s line), IsName b.name := by
  intro b hb
  cases hread : Statement.read? s line with
  | none =>
    rw [hread] at hb
    exact h b (by simpa [note] using hb)
  | some said =>
    rw [hread] at hb
    cases said with
    | function name header =>
      rcases List.mem_cons.mp hb with rfl | hb
      · obtain ⟨cs, -, hdirective⟩ := Statement.read?_eq_function hread
        obtain ⟨word, rest, -, -, hdecl⟩ := Statement.directive?_eq_function hdirective
        exact Assembler.isName_of_declaration hdecl
      · exact h b hb
    | item i =>
      cases blocks with
      | nil => cases hb
      | cons b' blocks =>
        rcases List.mem_cons.mp hb with rfl | hb
        · exact h b' List.mem_cons_self
        · exact h b (List.mem_cons_of_mem _ hb)

theorem Assembler.isName_blocksFrom {a : Assembler} {blocks : List Block} {lines : List String}
    (h : ∀ b ∈ blocks, IsName b.name) : ∀ b ∈ a.blocksFrom blocks lines, IsName b.name := by
  induction lines generalizing a blocks with
  | nil => exact h
  | cons line rest ih =>
    rw [blocksFrom]
    refine ih ?_
    split
    · exact Block.isName_note h _ _
    · exact h

/-- **The functions of a program have names.** -/
theorem Produces.isName {lines : List String} {p : Program} (h : Produces lines p) {key : String}
    {f : Function} (hf : p.function? key = some f) : IsName f.name := by
  obtain ⟨b, hb, -⟩ := h.completes hf
  have hkey : b.name = key := by simpa using List.find?_some hb
  rw [h.name_eq hf, ← hkey]
  exact Assembler.isName_blocksFrom (by simp) b (List.mem_of_find?_eq_some hb)

/-! ## Places of constants -/

theorem Constant.Plain.same_self {c : Constant} (h : c.Plain) : c.same c = true := by
  cases c with
  | number x => cases h
  | _ => simp [Constant.same]

/-- **A constant is found where it stands.** -/
theorem Assembles.position?_constants {b : Block} {d : Draft} (h : Assembles b d) {i : Nat}
    {c : Constant} (hi : d.constants.get? i = some c) (hc : c.same c = true) :
    d.constants.position? c = some i := by
  have hpairs : d.constants.entries.toList.Pairwise fun x y => y.same x = false := by
    rw [h.constants_eq, b.entries_pool]
    exact pairwise_eraseDupsBy _ _
  rw [Pool.get?, ← Array.getElem?_toList] at hi
  obtain ⟨hlt, rfl⟩ := List.getElem?_eq_some_iff.mp hi
  refine List.findIdx?_eq_some_iff_getElem.mpr ⟨hlt, hc, fun j hj => ?_⟩
  have hbefore := List.pairwise_iff_getElem.mp hpairs j i (Nat.lt_trans hj hlt) hlt hj
  rw [Constant.same_comm] at hbefore
  simpa using hbefore

/-! ## Targets of jumps -/

/-- Every place among the words belongs to an instruction. -/
theorem Item.exists_of_lt_offset {items : List Item} {i : Nat} (h : i < offset items) :
    ∃ before op os line after, items = before ++ .instruction op os line :: after ∧
      offset before ≤ i ∧ i < offset before + op.wordCount os := by
  induction items generalizing i with
  | nil => exact absurd h (Nat.not_lt_zero i)
  | cons x items ih =>
    rw [offset_cons] at h
    by_cases hx : i < x.width
    · cases x with
      | instruction op os line =>
        exact ⟨[], op, os, line, items, rfl, Nat.zero_le _, by simpa [width] using hx⟩
      | _ => exact absurd hx (Nat.not_lt_zero i)
    · obtain ⟨before, op, os, line, after, rfl, hle, hlt⟩ := ih (i := i - x.width) (by omega)
      refine ⟨x :: before, op, os, line, after, rfl, ?_, ?_⟩
      · rw [offset_cons]
        omega
      · rw [offset_cons]
        omega

/-- A word of a draft is the first one of an instruction and has its opcode, or it is an extra
word. -/
theorem Assembles.word_cases {b : Block} {d : Draft} (h : Assembles b d) {i : Nat} {w : Word}
    (hw : d.words[i]? = some w) :
    (∃ before op os line after, b.items = before ++ .instruction op os line :: after ∧
      i = Item.offset before ∧ w.opcode? = some op) ∨ w.opcode? = some .extraArg := by
  have hi : i < Item.offset b.items := by
    rw [← h.size_words]
    exact (Array.getElem?_eq_some_iff.mp hw).1
  obtain ⟨before, op, os, line, after, hitems, hle, hlt⟩ := Item.exists_of_lt_offset hi
  obtain ⟨d₀, m, -, -, he, hk, -⟩ := h.emitted hitems
  rcases Nat.eq_or_lt_of_le hle with rfl | hbehind
  · obtain ⟨w', hw', hop, -⟩ := hk.word
    obtain rfl := Option.some.inj (hw.symm.trans hw')
    exact .inl ⟨before, op, os, line, after, hitems, rfl, hop.trans he.opcode⟩
  · have hlen := he.length
    cases hx : m.extra with
    | none =>
      simp only [Emission.words, hx, Option.toList_none, List.length_singleton] at hlen
      omega
    | some x =>
      simp only [Emission.words, hx, Option.toList_some, List.length_cons, List.length_nil] at hlen
      obtain rfl : i = Item.offset before + 1 := by omega
      obtain rfl := Option.some.inj (hw.symm.trans (hk.extra x hx))
      exact .inr (he.extra w hx)

/-- An instruction with a slot for labels has a label for it. -/
theorem Operand.SuitAll.exists_location {op : Opcode} {os : List Operand}
    (h : SuitAll op.slots os) {slot : Slot} (hslot : slot ∈ op.slots)
    (hkinds : slot.kinds = .only .location) : ∃ label, .location label ∈ os := by
  obtain ⟨i, hi, rfl⟩ := List.mem_iff_getElem.mp hslot
  have hi' : i < os.length := h.length_eq ▸ hi
  have hsuits : os[i].Suits (op.slots[i]).kinds := h.get hi hi'
  rw [hkinds] at hsuits
  have hkind := hsuits.kind_eq_of_only (by decide)
  cases ho : os[i] with
  | location label => exact ⟨label, ho ▸ List.getElem_mem hi'⟩
  | _ =>
    rw [ho] at hkind
    cases hkind

/-- **Jumps of a linked function go to its places.** -/
theorem Completes.exists_linked_target {b : Block} {f : Function} (h : Completes b f) {p : Program}
    {l : Linked} (hl : p.link f = .ok l) {site : Nat} {w : Word} (hw : l.words[site]? = some w)
    {op : Opcode} (hop : w.opcode? = some op) {slot : Slot} (hslot : slot ∈ op.slots)
    (hkinds : slot.kinds = .only .location) :
    slot.dest = .field .sbx ∧ ∃ t : Nat, w.get .sbx = (t : Int) - site - 1 := by
  have hdest : ∀ op : Opcode, ∀ slot ∈ op.slots, slot.kinds = .only .location →
      slot.dest = .field .sbx ∧ op ≠ .closure ∧ op ≠ .extraArg := by
    intro op
    cases op <;> decide
  obtain ⟨hsbx, hclosure, hextra⟩ := hdest op slot hslot hkinds
  refine ⟨hsbx, ?_⟩
  obtain ⟨d, hd, hopen, rfl⟩ := h
  have hlt : site < d.words.size := Program.link_size hl ▸ (Array.getElem?_eq_some_iff.mp hw).1
  have hw₀ := Array.getElem?_eq_getElem hlt
  obtain ⟨w', hw', hkept, hsame⟩ := hd.exists_linked_word hl hw₀
  obtain rfl := Option.some.inj (hw.symm.trans hw')
  rw [← hsame (by rw [← hkept, hop]; simpa using hclosure)] at hw₀
  rcases hd.word_cases hw₀ with ⟨before, op', os, line, after, hitems, rfl, hop'⟩ | hop'
  · obtain rfl := Option.some.inj (hop.symm.trans hop')
    obtain ⟨-, -, -, hs, -⟩ := hd.emitted hitems
    obtain ⟨label, hlabel⟩ := hs.exists_location hslot hkinds
    obtain ⟨t, ht⟩ := Completes.exists_target ⟨d, hd, hopen, rfl⟩ hitems hlabel
    obtain ⟨w', hw', hdistance⟩ := hd.distance hitems hlabel ht
    obtain rfl := Option.some.inj (hw₀.symm.trans hw')
    exact ⟨t, hdistance⟩
  · exact absurd (Option.some.inj (hop.symm.trans hop')) hextra

/-! ## Values -/

/-- There is no extra word behind the instruction at `site`. -/
def Linked.NoExtra (l : Linked) (site : Nat) : Prop :=
  ∀ x, l.words[site + 1]? = some x → x.opcode? ≠ some .extraArg

/-- `l.Holds site w d v`: the instruction `w` at `site` holds the value `v` for the destination `d`,
in one of its fields or in the extra word behind it. -/
inductive Linked.Holds (l : Linked) (site : Nat) (w : Word) : Destination → Int → Prop where
  | field (g : Field) : Holds l site w (.field g) (w.get g)
  | extra {x : Word} : l.words[site + 1]? = some x → x.opcode? = some .extraArg →
    Holds l site w .extra (x.get .ax)
  | noExtra : l.NoExtra site → Holds l site w .extra 0
  /-- a field that is not zero is taken as it is -/
  | nonzero : w.get .c ≠ 0 → Holds l site w .cOrExtra (w.get .c)
  | zeroExtra {x : Word} : w.get .c = 0 → l.words[site + 1]? = some x →
    x.opcode? = some .extraArg → Holds l site w .cOrExtra (x.get .ax)
  | zero : w.get .c = 0 → l.NoExtra site → Holds l site w .cOrExtra 0

theorem Linked.extraAt_eq_some_iff {l : Linked} {site : Nat} {v : Int} :
    l.extraAt site = some v ↔
      ∃ x, l.words[site + 1]? = some x ∧ x.opcode? = some .extraArg ∧ x.get .ax = v := by
  rw [extraAt]
  cases l.words[site + 1]? with
  | none => simp
  | some x => by_cases hx : x.opcode? = some .extraArg <;> simp [hx]

theorem Linked.extraAt_eq_none_iff {l : Linked} {site : Nat} :
    l.extraAt site = none ↔ l.NoExtra site := by
  rw [extraAt, NoExtra]
  cases l.words[site + 1]? with
  | none => simp
  | some x => by_cases hx : x.opcode? = some .extraArg <;> simp [hx]

theorem Linked.operandValue_of_ne_zero {l : Linked} {site : Nat} {w : Word} (h : w.get .c ≠ 0) :
    l.operandValue site w .cOrExtra = w.get .c := by
  rw [operandValue]
  split
  · exact if_neg h
  · rfl

/-- **A listing takes the value that the words hold**, and there is no other such value. -/
theorem Linked.holds_iff {l : Linked} {site : Nat} {w : Word} {d : Destination} {v : Int} :
    l.Holds site w d v ↔ l.operandValue site w d = v := by
  constructor
  · intro h
    cases h with
    | field g => rfl
    | extra hx hop => rw [operandValue, extraAt_eq_some_iff.mpr ⟨_, hx, hop, rfl⟩, Option.getD_some]
    | noExtra hno => rw [operandValue, extraAt_eq_none_iff.mpr hno, Option.getD_none]
    | nonzero hc => exact operandValue_of_ne_zero hc
    | zeroExtra hc hx hop =>
      rw [operandValue, extraAt_eq_some_iff.mpr ⟨_, hx, hop, rfl⟩]
      exact if_pos hc
    | zero hc hno => rw [operandValue, extraAt_eq_none_iff.mpr hno, hc]
  · rintro rfl
    cases d with
    | field g => exact .field g
    | extra =>
      rw [operandValue]
      cases hextra : l.extraAt site with
      | none => exact .noExtra (extraAt_eq_none_iff.mp hextra)
      | some v =>
        obtain ⟨x, hx, hop, rfl⟩ := extraAt_eq_some_iff.mp hextra
        exact .extra hx hop
    | cOrExtra =>
      by_cases hc : w.get .c = 0
      · rw [operandValue, hc]
        cases hextra : l.extraAt site with
        | none => exact .zero hc (extraAt_eq_none_iff.mp hextra)
        | some v =>
          obtain ⟨x, hx, hop, rfl⟩ := extraAt_eq_some_iff.mp hextra
          exact .zeroExtra hc hx hop
      · rw [operandValue_of_ne_zero hc]
        exact .nonzero hc

/-- A field that is not kept in excess form holds no negative number. -/
theorem Word.get_range (w : Word) {g : Field} (hg : g.bias = 0) :
    0 ≤ w.get g ∧ w.get g < g.size := by
  have hlt := raw_lt w g
  rw [get_eq_raw hg]
  omega

/-- What accepts no labels has a value of at most 26 bits. -/
theorem Linked.operandValue_range (l : Linked) (site : Nat) (w : Word) {op : Opcode} {slot : Slot}
    (hslot : slot ∈ op.slots) (hkinds : slot.kinds ≠ .only .location) :
    0 ≤ l.operandValue site w slot.dest ∧ l.operandValue site w slot.dest < 67108864 := by
  have hdest : ∀ op : Opcode, ∀ slot ∈ op.slots, slot.kinds ≠ .only .location →
      slot.dest ≠ .field .sbx := by
    intro op
    cases op <;> decide
  have hextra : ∀ x, l.extraAt site = some x → 0 ≤ x ∧ x < 67108864 := by
    intro x hx
    obtain ⟨y, -, -, rfl⟩ := extraAt_eq_some_iff.mp hx
    exact y.get_range rfl
  have hc := Word.get_range w (g := .c) rfl
  have hcsize : Field.c.size = 512 := rfl
  cases hd : slot.dest with
  | field g =>
    have hg : g.bias = 0 ∧ g.size ≤ 67108864 := by
      cases g with
      | sbx => exact absurd hd (hdest op slot hslot hkinds)
      | _ => exact ⟨rfl, by decide⟩
    have hrange := Word.get_range w hg.1
    simp only [operandValue]
    omega
  | extra =>
    rw [operandValue]
    cases hx : l.extraAt site with
    | none => exact ⟨Int.le_refl 0, by decide⟩
    | some x => exact hextra x hx
  | cOrExtra =>
    rw [operandValue]
    cases hx : l.extraAt site with
    | none =>
      simp only
      omega
    | some x =>
      have hrange := hextra x hx
      simp only
      split <;> omega

/-- Next to registers there is a value of nine bits. -/
theorem Linked.operandValue_lt (l : Linked) (site : Nat) (w : Word) {op : Opcode} {slot : Slot}
    (hslot : slot ∈ op.slots) (hcon : slot.kinds.constant = true)
    (hstack : slot.kinds.stack = true) : l.operandValue site w slot.dest < 512 := by
  rcases Opcode.dest_of_constant hslot hcon with ⟨-, hd | hd⟩ | ⟨hno, -⟩
  · rw [hd]
    exact (w.get_range rfl).2
  · rw [hd]
    exact (w.get_range rfl).2
  · rw [hstack] at hno
    cases hno

/-- The value of a constant is its place in the pool, with the flag if it stands next to
registers. -/
theorem Linked.constantRef?_eq_some {kinds : Kinds} {v : Int} {i : Nat} (hv : 0 ≤ v)
    (hrk : kinds.stack = true → v < 512) (h : constantRef? kinds v = some i) :
    (if kinds.stack then (i : Int) + rkFlag else i) = v ∧ (kinds.stack = true → i < rkFlag) := by
  rw [constantRef?] at h
  split at h
  · rename_i hflag
    simp only [Bool.and_eq_true, beq_iff_eq, rkFlag] at hflag
    obtain ⟨⟨hstack, -⟩, hbit⟩ := hflag
    have hlt := hrk hstack
    obtain rfl : v.toNat - 256 = i := Option.some.inj h
    rw [if_pos hstack, rkFlag]
    exact ⟨by omega, fun _ => by omega⟩
  · split at h
    · rename_i hkinds
      obtain rfl := Option.some.inj h
      rw [hkinds]
      exact ⟨Int.toNat_of_nonneg hv, fun hstack => by cases hstack⟩
    · cases h

/-- The value of a register that stands next to constants has no flag. -/
theorem Linked.lt_of_constantRef?_eq_none {kinds : Kinds} {v : Int} (hv : 0 ≤ v) (hlt : v < 512)
    (hstack : kinds.stack = true) (hcon : kinds.constant = true)
    (h : constantRef? kinds v = none) : v < rkFlag := by
  rw [constantRef?] at h
  split at h
  · cases h
  · rename_i hflag
    simp only [hstack, hcon, Bool.and_self, Bool.true_and, beq_iff_eq, rkFlag] at hflag
    rw [rkFlag]
    omega

/-- The flag is added to a smaller index. -/
theorem or_rkFlag {i : Nat} (h : i < rkFlag) : i ||| rkFlag = i + rkFlag := by
  have hsum : 256 + i = 256 ||| i := Nat.two_pow_add_eq_or_of_lt (i := 8) h 1
  rw [Nat.or_comm, rkFlag, ← hsum, Nat.add_comm]

/-! ## What is shown -/

/-- A text that stands for a constant or a proto that is not there. -/
def Listing.IsPlaceholder (text : String) : Prop :=
  ∃ i : Nat, text = s!"k{i}?" ∨ text = s!"proto{i}?"

theorem Listing.IsPlaceholder.getLast?_toList {text : String} (h : IsPlaceholder text) :
    text.toList.getLast? = some '?' := by
  obtain ⟨i, rfl | rfl⟩ := h
  · exact String.toList_append ▸ List.getLast?_concat
  · exact String.toList_append ▸ List.getLast?_concat

/-- `l.Shows site kinds v o`: for the value `v` of a slot that accepts `kinds`, in the instruction
at `site`, a listing shows the operand `o`. -/
inductive Linked.Shows (l : Linked) (site : Nat) (kinds : Kinds) (v : Int) : Operand → Prop where
  | constant {i : Nat} {c : Constant} : kinds.constant = true → constantRef? kinds v = some i →
    l.function.constants.get? i = some c → Shows l site kinds v (.constant c)
  | stack : kinds.stack = true → constantRef? kinds v = none → Shows l site kinds v (.stack v)
  | upvalue : kinds = .only .upvalue → Shows l site kinds v (.upvalue v)
  | location : kinds = .only .location →
    Shows l site kinds v (.location (toString (site + v + 1)))
  | proto {f : Function} : kinds = .only .proto → l.protos[v.toNat]? = some f →
    Shows l site kinds v (.proto f.name)
  | embedded : kinds = .only .embedded → Shows l site kinds v (.embedded v)

/-- A slot accepts one kind, or registers and constants. -/
theorem Opcode.kinds_cases {op : Opcode} {slot : Slot} (h : slot ∈ op.slots) :
    slot.kinds ∈ Kinds.rk :: OperandKind.all.map Kinds.only := by
  have hall : ∀ op : Opcode, ∀ slot ∈ op.slots,
      slot.kinds ∈ Kinds.rk :: OperandKind.all.map Kinds.only := by
    intro op
    cases op <;> decide
  exact hall op slot h

/-- **A listing shows operands** or placeholders. -/
theorem Linked.exists_shows (l : Linked) (site : Nat) {kinds : Kinds} {v : Int}
    (hkinds : kinds ∈ Kinds.rk :: OperandKind.all.map Kinds.only)
    (hv : kinds = .only .proto → 0 ≤ v)
    (htext : ¬ Listing.IsPlaceholder (l.operandText site kinds v)) :
    ∃ o, l.Shows site kinds v o ∧ l.operandText site kinds v = o.text := by
  cases href : constantRef? kinds v with
  | some i =>
    have hshown : l.operandText site kinds v = l.constantText i := by rw [operandText, href]
    have hcon : kinds.constant = true := by
      rw [constantRef?] at href
      split at href
      · rename_i hflag
        simp only [Bool.and_eq_true] at hflag
        exact hflag.1.2
      · split at href
        · rename_i hk
          rw [hk]
          rfl
        · cases href
    cases hc : l.function.constants.get? i with
    | some c => exact ⟨_, .constant hcon href hc, by rw [hshown, constantText, hc]; rfl⟩
    | none => exact absurd ⟨i, .inl (by rw [hshown, constantText, hc])⟩ htext
  | none =>
    simp only [OperandKind.all, List.map_cons, List.map_nil, List.mem_cons, List.not_mem_nil,
      or_false] at hkinds
    simp only [operandText, href] at htext ⊢
    rcases hkinds with rfl | rfl | rfl | rfl | rfl | rfl | rfl
    · exact ⟨_, .stack rfl href, rfl⟩
    · exact ⟨_, .stack rfl href, rfl⟩
    · exact ⟨_, .upvalue rfl, rfl⟩
    · exact ⟨_, .location rfl, rfl⟩
    · cases href
    · exact ⟨_, .embedded rfl, rfl⟩
    · cases hf : l.protos[v.toNat]? with
      | some f => exact ⟨_, .proto rfl hf, rfl⟩
      | none =>
        rw [hf] at htext
        refine absurd ⟨v.toNat, .inr ?_⟩ htext
        change s!"proto{v}?" = _
        rw [← Int.toNat_of_nonneg (hv rfl)]
        rfl

/-- Where labels are accepted nothing else is shown. -/
theorem Linked.Shows.kinds_ne {l : Linked} {site : Nat} {kinds : Kinds} {v : Int} {o : Operand}
    (h : l.Shows site kinds v o) (ho : o.kind ≠ .location) : kinds ≠ .only .location := by
  rintro rfl
  cases h with
  | constant hcon => cases hcon
  | stack hstack => cases hstack
  | upvalue hk => cases hk
  | location => exact ho rfl
  | proto hk => cases hk
  | embedded hk => cases hk

/-- What is shown can be read in its slot. -/
theorem Linked.Shows.read_eq {l : Linked} {site : Nat} {kinds : Kinds} {v : Int} {o : Operand}
    (h : l.Shows site kinds v o) (ho : o.Legible) :
    Operand.read kinds o.text.toList = .ok (o, []) := by
  have hhas : kinds.has o.kind = true := by
    cases h with
    | constant hcon => exact hcon
    | stack hstack => exact hstack
    | upvalue hk => rw [hk]; rfl
    | location hk => rw [hk]; rfl
    | proto hk => rw [hk]; rfl
    | embedded hk => rw [hk]; rfl
  have hembedded : o.kind = .embedded → kinds.proto = false := by
    intro hkind
    cases h with
    | embedded hk => rw [hk]; rfl
    | _ => cases hkind
  have hproto : ∀ name, o = .proto name → Operand.afterConst? (name.toList ++ []) = none := by
    rintro name rfl
    rw [List.append_nil]
    exact Operand.afterConst?_of_isName ho
  have hread := Operand.read_text ho hhas hembedded hproto rfl
  rwa [List.append_nil] at hread

/-! ## What is read back -/

/-- The operand is bound to the value `v` in the function `f`, without anything being added to
it. -/
def Operand.BindsTo (f : Function) (kinds : Kinds) (v : Int) (o : Operand) : Prop :=
  ∀ (d : Draft) (owners : Owners) (e : Encoding), d.toFunction = f →
    d.bind owners kinds e o = .ok (v, e)

/-- `o.Restores f site kinds v`: the operand `o`, written for a slot of the instruction at `site` of
the function `f`, stands for the value `v`. A label is called by the number of its target, and a
function by its name; all else is bound to the value. A constant stands at the place of the pool
that the value refers to, and a register next to constants has a value without the flag. -/
def Operand.Restores (f : Function) (site : Nat) (kinds : Kinds) (v : Int) : Operand → Prop
  | .location label => ∃ t : Nat, label = toString t ∧ (t : Int) - site - 1 = v
  | .proto name => ∃ k : Nat, f.subroutines.toList.idxOf? name = some k ∧ (k : Int) = v
  | .constant c =>
    (∃ i : Nat, f.constants.get? i = some c ∧
      (if kinds.stack then (i : Int) + rkFlag else i) = v) ∧
    BindsTo f kinds v (.constant c)
  | .stack n => (kinds.constant = true → v < rkFlag) ∧ BindsTo f kinds v (.stack n)
  | o => BindsTo f kinds v o

/-- A constant of the pool is bound to its place. -/
theorem Completes.restores_constant {b : Block} {f : Function} (h : Completes b f) {i : Nat}
    {c : Constant} (hi : f.constants.get? i = some c) (hc : c.Plain) (site : Nat) {kinds : Kinds}
    {v : Int} (hv : (if kinds.stack then (i : Int) + rkFlag else i) = v)
    (hlt : kinds.stack = true → i < rkFlag) : (Operand.constant c).Restores f site kinds v := by
  refine ⟨⟨i, hi, hv⟩, ?_⟩
  obtain ⟨d₀, hd₀, -, rfl⟩ := h
  intro d owners e hd
  have hpool : d.constants = d₀.constants := congrArg Function.constants hd
  rw [Draft.bind, Encoding.constantIndex, hpool, hd₀.position?_constants hi hc.same_self]
  cases hstack : kinds.stack with
  | false => simp [← hv, hstack]
  | true => simp [← hv, hstack, or_rkFlag (hlt hstack)]

/-- The proto with a given number has a name, which stands at this place among the subroutines. -/
theorem Produces.proto_name {lines : List String} {p : Program} (h : Produces lines p)
    {f g : Function} {l : Linked} (hl : p.link f = .ok l) (hnames : f.subroutines.toList.Nodup)
    {k : Nat} (hg : l.protos[k]? = some g) :
    IsName g.name ∧ f.subroutines.toList.idxOf? g.name = some k := by
  have hprotos := Program.link_protos hl
  rw [← Array.getElem?_toList] at hg
  obtain ⟨hlt, rfl⟩ := List.getElem?_eq_some_iff.mp hg
  have hlt' : k < f.subroutines.toList.length := hprotos.length_eq ▸ hlt
  have hfound : p.function? f.subroutines.toList[k] = some l.protos.toList[k] :=
    hprotos.get hlt' hlt
  refine ⟨h.isName hfound, ?_⟩
  rw [h.name_eq hfound]
  refine List.findIdx?_eq_some_iff_getElem.mpr ⟨hlt', by simp, fun j hj => ?_⟩
  have hne : f.subroutines.toList[j] ≠ f.subroutines.toList[k] :=
    fun he => absurd (hnames.getElem_inj_iff.mp he) (Nat.ne_of_lt hj)
  simpa using hne

/-- What a listing shows for a slot of the instruction `w` at `site`. -/
def Linked.slotText (l : Linked) (site : Nat) (w : Word) (slot : Slot) : String :=
  l.operandText site slot.kinds (l.operandValue site w slot.dest)

/-- What is shown for a slot stands in the line of its instruction, behind a blank. -/
theorem Listing.exists_instructionText (l : Linked) (site : Nat) {w : Word} {op : Opcode}
    (hop : w.opcode? = some op) {slot : Slot} (hslot : slot ∈ op.slots) :
    ∃ front back,
      instructionText l site w = front ++ " " ++ l.slotText site w slot ++ back := by
  have hgrows : ∀ (slots : List Slot) (text : String), ∃ back,
      slots.foldl (fun text slot => text ++ " " ++ l.slotText site w slot) text =
        text ++ back := by
    intro slots
    induction slots with
    | nil => exact fun text => ⟨"", String.append_empty.symm⟩
    | cons slot slots ih =>
      intro text
      obtain ⟨back, hback⟩ := ih (text ++ " " ++ l.slotText site w slot)
      exact ⟨_, by rw [List.foldl_cons, hback, String.append_assoc, String.append_assoc]⟩
  have htext : instructionText l site w =
      op.slots.foldl (fun text slot => text ++ " " ++ l.slotText site w slot)
        (padRight 9 op.name) := by
    rw [instructionText, hop]
    rfl
  obtain ⟨before, after, hsplit⟩ := List.append_of_mem hslot
  rw [htext, hsplit, List.foldl_append, List.foldl_cons]
  obtain ⟨back, hback⟩ := hgrows after _
  exact ⟨_, back, hback⟩

/-- **Listed operands are read back.** In every function that can be linked, of a program that comes
from lines, what a listing shows for a slot of an instruction is read completely by a reader for
this slot, unless it is a placeholder. What is read stands for the value that the words hold for the
slot, in a field or in the extra word behind the instruction: binding it in the function gives a
register, an upvalue or an integer as it was, and for a constant its index with the flag; a function
has the shown name at this place among the subroutines, and a label is the numeral of the target of
the jump whose distance is stored. Shown constants have to be `nil`, a truth value or a string of
printable ASCII characters, tabs and line ends. -/
theorem listed_operands_read_back {lines : List String} {p : Program} (h : Produces lines p)
    {key : String} {f : Function} (hf : p.function? key = some f) {l : Linked}
    (hl : p.link f = .ok l) {site : Nat} {w : Word} (hw : l.words[site]? = some w) {op : Opcode}
    (hop : w.opcode? = some op) {slot : Slot} (hslot : slot ∈ op.slots)
    (hplain : ∀ v i c, l.Holds site w slot.dest v → Linked.constantRef? slot.kinds v = some i →
      f.constants.get? i = some c → c.Plain)
    (htext : ¬ Listing.IsPlaceholder (l.slotText site w slot)) :
    (∃ front back,
      Listing.instructionText l site w = front ++ " " ++ l.slotText site w slot ++ back) ∧
    ∃ v o, l.Holds site w slot.dest v ∧ (slot.kinds = .only .location → v = w.get .sbx) ∧
      Operand.read slot.kinds (l.slotText site w slot).toList = .ok (o, []) ∧
      o.Restores f site slot.kinds v := by
  refine ⟨Listing.exists_instructionText l site hop hslot, ?_⟩
  obtain ⟨b, -, hc⟩ := h.completes hf
  have hfun := (Program.link_eq_ok hl).1
  have hheld : l.Holds site w slot.dest (l.operandValue site w slot.dest) :=
    Linked.holds_iff.mpr rfl
  have hrange := l.operandValue_range site w hslot
  have hjump : slot.kinds = .only .location → l.operandValue site w slot.dest = w.get .sbx := by
    intro hk
    rw [(hc.exists_linked_target hl hw hop hslot hk).1]
    rfl
  obtain ⟨o, hshown, ho⟩ := l.exists_shows site (Opcode.kinds_cases hslot)
    (fun hk => (hrange (by rw [hk]; decide)).1) htext
  refine ⟨_, o, hheld, hjump, ?_⟩
  rw [Linked.slotText, ho]
  suffices hboth : o.Legible ∧ o.Restores f site slot.kinds (l.operandValue site w slot.dest) from
    ⟨hshown.read_eq hboth.1, hboth.2⟩
  have hmax : 67108864 ≤ Scan.maxInteger := by decide
  have hsmall (hkind : o.kind ≠ .location) := hrange (hshown.kinds_ne hkind)
  cases hshown with
  | @constant i c hcon href hi =>
    have hv := hsmall fun hkind => by cases hkind
    rw [hfun] at hi
    have hc' := hplain _ i c hheld href hi
    obtain ⟨hindex, hlt⟩ :=
      Linked.constantRef?_eq_some hv.1 (l.operandValue_lt site w hslot hcon) href
    exact ⟨hc', hc.restores_constant hi hc' site hindex hlt⟩
  | stack hstack hnone =>
    have hv := hsmall fun hkind => by cases hkind
    refine ⟨by rw [Operand.Legible]; omega, fun hcon => ?_, fun d owners e _ => rfl⟩
    exact Linked.lt_of_constantRef?_eq_none hv.1 (l.operandValue_lt site w hslot hcon hstack) hstack
      hcon hnone
  | upvalue _ | embedded _ =>
    have hv := hsmall fun hkind => by cases hkind
    exact ⟨by rw [Operand.Legible]; omega, fun d owners e _ => rfl⟩
  | location hk =>
    obtain ⟨-, t, ht⟩ := hc.exists_linked_target hl hw hop hslot hk
    rw [← hjump hk] at ht
    have htarget : site + l.operandValue site w slot.dest + 1 = (t : Int) := by omega
    rw [htarget]
    exact ⟨Scan.isName_toString t, t, rfl, ht.symm⟩
  | proto _ hg =>
    have hv := hsmall fun hkind => by cases hkind
    obtain ⟨d₀, hd₀, -, rfl⟩ := hc
    obtain ⟨hname, hidx⟩ := h.proto_name hl hd₀.nodup_subroutines hg
    exact ⟨hname, _, hidx, Int.toNat_of_nonneg hv.1⟩

/-- Lines with a string that needs escapes, a function that is referred to before it is declared, a
jump to itself, and a number that needs an extra word. -/
def listedLines : List String :=
  [".upvalues 0", ".func main 2 0 0", ".begin_code", "add %0 %1 const 'a\"\\t;'",
    "closure %1 helper", "top:", "jmp 0 $top", "setlist %0 1 600", ".end_code",
    ".func helper 2 0 0", ".begin_code", "return %0 1", ".end_code"]

/-- The constant, the function, the label and the large number of these lines are read back from
what is shown, as what the words hold. -/
theorem listed_operands_read_back_main :
    ∃ p f l, Produces listedLines p ∧ p.function? "main" = some f ∧ p.link f = .ok l ∧
      f.constants.entries = #[.string [0x61, 0x22, 0x09, 0x3b]] ∧ f.subroutines = #["helper"] ∧
      l.words = #[⟨0x00c0000d⟩, ⟨0x0000006c⟩, ⟨0x7fff801e⟩, ⟨0x0080002b⟩, ⟨0x0000962e⟩] ∧
      (Word.get ⟨0x00c0000d⟩ .c = 256 ∧
        ∃ o, Operand.read .rk "const \"a\\\"\\t;\"".toList = .ok (o, []) ∧
          o.Restores f 0 .rk 256) ∧
      (Word.get ⟨0x0000006c⟩ .bx = 0 ∧
        ∃ o, Operand.read (.only .proto) "helper".toList = .ok (o, []) ∧
          o.Restores f 1 (.only .proto) 0) ∧
      (Word.get ⟨0x7fff801e⟩ .sbx = -1 ∧
        ∃ o, Operand.read (.only .location) "$2".toList = .ok (o, []) ∧
          o.Restores f 2 (.only .location) (-1)) ∧
      Word.get ⟨0x0080002b⟩ .c = 0 ∧ Word.get ⟨0x0000962e⟩ .ax = 600 ∧
        ∃ o, Operand.read (.only .embedded) "600".toList = .ok (o, []) ∧
          o.Restores f 3 (.only .embedded) 600 := by
  have hrun : (((({} : Assembler).feedAll listedLines).finish false).2.toOption.bind fun p =>
      (p.function? "main").bind fun f => (p.link f).toOption.map fun l =>
        (f.constants.entries, f.subroutines, l.words,
          [l.slotText 0 ⟨0x00c0000d⟩ (Opcode.rkSlot .c),
            l.slotText 1 ⟨0x0000006c⟩ (Opcode.fieldSlot .bx .proto),
            l.slotText 2 ⟨0x7fff801e⟩ (Opcode.fieldSlot .sbx .location),
            l.slotText 3 ⟨0x0080002b⟩ ⟨.cOrExtra, .only .embedded⟩])) =
      some (#[.string [0x61, 0x22, 0x09, 0x3b]], #["helper"],
        #[⟨0x00c0000d⟩, ⟨0x0000006c⟩, ⟨0x7fff801e⟩, ⟨0x0080002b⟩, ⟨0x0000962e⟩],
        ["const \"a\\\"\\t;\"", "helper", "$2", "600"]) := by
    decide +kernel
  obtain ⟨p, hp, hlook⟩ := Produces.of_run hrun
  obtain ⟨f, hf, hlook⟩ := Option.bind_eq_some_iff.mp hlook
  obtain ⟨l, hl, hlook⟩ := Option.map_eq_some_iff.mp hlook
  simp only [Prod.mk.injEq, List.cons.injEq, and_true] at hlook
  obtain ⟨hpool, hnames, hwords, hconstant, hproto, hlabel, hnumber⟩ := hlook
  have hlink := toOption_eq_some.mp hl
  have hplain : ∀ i c, f.constants.get? i = some c → c.Plain := by
    intro i c hc
    rw [Pool.get?, hpool] at hc
    obtain rfl : c = .string [0x61, 0x22, 0x09, 0x3b] := by
      simpa using Array.mem_of_getElem? hc
    have hall : [0x61, 0x22, 0x09, 0x3b].all (fun b => decide (Constant.PlainByte b)) = true := by
      decide
    exact fun b hb => of_decide_eq_true (List.all_eq_true.mp hall b hb)
  have hback (site : Nat) (w : Word) (op : Opcode) (slot : Slot) {v : Int} {text : String}
      (hw : l.words[site]? = some w) (hop : w.opcode? = some op) (hslot : slot ∈ op.slots)
      (hv : l.Holds site w slot.dest v) (htext : l.slotText site w slot = text)
      (hend : text.toList.getLast? ≠ some '?') :
      ∃ o, Operand.read slot.kinds text.toList = .ok (o, []) ∧
        o.Restores f site slot.kinds v := by
    subst htext
    obtain ⟨-, v', o, hv', -, hread, hrestores⟩ :=
      listed_operands_read_back hp hf hlink hw hop hslot
        (fun v i c _ _ => hplain i c) fun hp => hend hp.getLast?_toList
    obtain rfl : v' = v := (Linked.holds_iff.mp hv').symm.trans (Linked.holds_iff.mp hv)
    exact ⟨o, hread, hrestores⟩
  have hheld : l.Holds 3 ⟨0x0080002b⟩ .cOrExtra 600 :=
    .zeroExtra (x := ⟨0x0000962e⟩) (by decide) (by rw [hwords]; rfl) (by decide)
  refine ⟨p, f, l, hp, hf, hlink, hpool, hnames, hwords, ⟨by decide, ?_⟩, ⟨by decide, ?_⟩,
    ⟨by decide, ?_⟩, by decide, by decide, ?_⟩
  · exact hback 0 ⟨0x00c0000d⟩ .add (Opcode.rkSlot .c) (by rw [hwords]; rfl) (by decide)
      (by decide) (.field .c) hconstant (by decide)
  · exact hback 1 ⟨0x0000006c⟩ .closure (Opcode.fieldSlot .bx .proto) (by rw [hwords]; rfl)
      (by decide) (by decide) (.field .bx) hproto (by decide)
  · exact hback 2 ⟨0x7fff801e⟩ .jmp (Opcode.fieldSlot .sbx .location) (by rw [hwords]; rfl)
      (by decide) (by decide) (.field .sbx) hlabel (by decide)
  · exact hback 3 ⟨0x0080002b⟩ .setList ⟨.cOrExtra, .only .embedded⟩ (by rw [hwords]; rfl)
      (by decide) (by decide) hheld hnumber (by decide)

end ChunkAsm
