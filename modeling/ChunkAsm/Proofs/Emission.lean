import ChunkAsm.Assembler.Instruction
import ChunkAsm.Proofs.Fields
import ChunkAsm.Proofs.Operands
import ChunkAsm.Proofs.Pool

/-!
# What an instruction line adds

An instruction line is **read** (mnemonic, operands, comment) and then **assembled** in the function
at hand. Reading depends on the text only. This file says once what assembling does, for all opcodes:

* every operand has a value (`Draft.Means`), and the value stands where its slot sends it
  (`Emission.Holds`);
* the new constants are those that adding the written constants one by one would add;
* the labels that the line waits for and the functions that it refers to are those that it writes.

All of this is `Draft.assemble_spec`. What follows from it alone does not open `Draft.encode`.
-/

namespace ChunkAsm

/-! ## Reading and assembling apart -/

namespace Draft

/-- Assemble an instruction whose line has been read. -/
def assemble (d : Draft) (owners : Owners) (op : Opcode) (operands : List Operand)
    (line : Option Nat) : Except LineError Emission := do
  let e ← d.encode owners (op.slots.zip operands) { word := Word.ofOpcode op }
  let extra ←
    match e.extra with
    | none => .ok none
    | some v => ((Word.extraArg v).map some).mapError .field
  .ok { word := e.word, extra, line, constants := e.constants, labels := e.labels,
        subroutines := e.subroutines }

/-- An instruction line is good if it can be read and then assembled. -/
theorem instruction_eq_ok {d : Draft} {owners : Owners} {mnemonic : String} {cs : List Char}
    {m : Emission} :
    d.instruction owners mnemonic cs = .ok m ↔
      ∃ op operands rest comment line, Opcode.lookup mnemonic = some op ∧
        Operand.readAll op.slots cs = .ok (operands, rest) ∧
        (Operand.noMore rest).1 = .ok comment ∧ markedLine comment = .ok line ∧
        d.assemble owners op operands line = .ok m := by
  rw [instruction]
  cases Opcode.lookup mnemonic with
  | none => simp
  | some op =>
    simp only [bind_eq_ok, mapError_eq_ok, Option.some.injEq, assemble]
    constructor
    · rintro ⟨⟨operands, rest⟩, hr, comment, hc, line, hl, h⟩
      exact ⟨op, operands, rest, comment, line, rfl, hr, hc, hl, h⟩
    · rintro ⟨_, operands, rest, comment, line, rfl, hr, hc, hl, h⟩
      exact ⟨(operands, rest), hr, comment, hc, line, hl, h⟩

end Draft

/-! ## The values of operands -/

namespace Operand

/-- The constant that an operand writes. -/
def constant? : Operand → Option Constant
  | .constant c => some c
  | _ => none

/-- The function that an operand names. -/
def proto? : Operand → Option String
  | .proto name => some name
  | _ => none

/-- The number that an operand writes, if it writes one. -/
def number : Operand → Int
  | .stack n | .upvalue n | .embedded n => n
  | _ => 0

end Operand

namespace Draft

/-- The label that an operand of the next instruction has to wait for. -/
def waiting? (d : Draft) : Operand → Option String
  | .location label =>
    if (d.labels.resolved? label d.words.size).isNone then some label else none
  | _ => none

/-- The value of an operand of the next instruction, in a slot that accepts the given kinds; `pool`
is the pool with the constants of the line in it. -/
def Means (d : Draft) (pool : Pool) (ks : Kinds) : Operand → Int → Prop
  | .stack n, v => v = n
  | .upvalue n, v => v = n
  | .embedded n, v => v = n
  | .location label, v =>
    v = (d.labels.resolved? label d.words.size).getD Labels.unresolvedDelta
  | .constant c, v =>
    ∃ k, pool.position? c = some k ∧ v = if ks.stack then ((k ||| rkFlag : Nat) : Int) else k
  | .proto _, v => v = 0

/-- Values do not change when the pool grows. -/
theorem Means.insertAll {d : Draft} {pool : Pool} {ks : Kinds} {o : Operand} {v : Int}
    (h : d.Means pool ks o v) (cs : List Constant) : d.Means (pool.insertAll cs) ks o v := by
  cases o with
  | constant c =>
    obtain ⟨k, hk, hv⟩ := h
    exact ⟨k, Pool.position?_insertAll hk, hv⟩
  | _ => exact h

end Draft

namespace Destination

/-- Whether a value goes to the extra word. -/
def spills : Destination → Int → Bool
  | .field _, _ => false
  | .extra, _ => true
  | .cOrExtra, v => Field.c.hi < v

end Destination

namespace Encoding

/-- The value `v` stands where a destination sends it. -/
def Holds (e : Encoding) : Destination → Int → Prop
  | .field f, v => e.word.get f = v
  | .extra, v => e.extra = some v
  | .cOrExtra, v =>
    if Field.c.hi < v then e.word.get .c = 0 ∧ e.extra = some v else e.word.get .c = v

/-! ## One operand -/

/-- **Prediction is interning.** The index that is predicted for a constant is the one it has once
the constants of the line are in the pool, and these are the ones that adding it would leave. -/
theorem constantIndex_spec {e : Encoding} {p : Pool} {c : Constant} (hc : c.same c = true)
    (hnew : p.New e.constants) :
    ∃ cs, (e.constantIndex p c).2 = { e with constants := cs } ∧ p.New cs ∧
      p.insertAll cs = (p.insertAll e.constants).insert c ∧
      (p.insertAll cs).position? c = some (e.constantIndex p c).1 := by
  have hpos := Pool.position?_of_new (c := c) hnew
  rw [constantIndex]
  cases hp : p.position? c with
  | some i =>
    -- the constant is in the pool
    have hi : (p.insertAll e.constants).position? c = some i := Pool.position?_insertAll hp
    exact ⟨e.constants, rfl, hnew, (Pool.insert_of_some hi).symm, hi⟩
  | none =>
    cases hf : e.constants.findIdx? (·.same c) with
    | some i =>
      -- the line has written it before
      have hi : (p.insertAll e.constants).position? c = some (p.size + i) := by
        rw [hpos, hp, hf, Nat.add_comm]
        rfl
      exact ⟨e.constants, rfl, hnew, (Pool.insert_of_some hi).symm, hi⟩
    | none =>
      have hi : (p.insertAll e.constants).position? c = none := by
        rw [hpos, hp, hf]
        rfl
      have hnew' : p.New (e.constants ++ [c]) := hnew.concat hi
      refine ⟨e.constants ++ [c], rfl, hnew', Pool.insertAll_append _ _ _, ?_⟩
      rw [Pool.position?_of_new hnew', hp, List.findIdx?_append, hf]
      simp [hc, Nat.add_comm]

end Encoding

/-- **Binding an operand** leaves the word alone, gives the operand its value, and notes what it
adds. -/
theorem Draft.bind_spec {d : Draft} {owners : Owners} {ks : Kinds} {e e' : Encoding} {o : Operand}
    {v : Int} (h : d.bind owners ks e o = .ok (v, e')) (hs : o.Suits ks)
    (hnew : d.constants.New e.constants) :
    e'.word = e.word ∧ e'.extra = e.extra ∧ d.constants.New e'.constants ∧
      d.constants.insertAll e'.constants =
        (d.constants.insertAll e.constants).insertAll o.constant?.toList ∧
      e'.labels = e.labels ++ (d.waiting? o).toList ∧
      e'.subroutines = e.subroutines ++ o.proto?.toList ∧
      d.Means (d.constants.insertAll e'.constants) ks o v := by
  cases o with
  | stack n | upvalue n | embedded n =>
    obtain ⟨rfl, rfl⟩ := Prod.mk.inj (Except.ok.inj h)
    exact ⟨rfl, rfl, hnew, rfl, (List.append_nil _).symm, (List.append_nil _).symm, rfl⟩
  | location label =>
    simp only [Draft.bind] at h
    split at h
    · rename_i delta hd
      obtain ⟨rfl, rfl⟩ := Prod.mk.inj (Except.ok.inj h)
      refine ⟨rfl, rfl, hnew, rfl, ?_, (List.append_nil _).symm, ?_⟩
      · simp [Draft.waiting?, hd]
      · simp [Draft.Means, hd]
    · rename_i hd
      obtain ⟨rfl, rfl⟩ := Prod.mk.inj (Except.ok.inj h)
      refine ⟨rfl, rfl, hnew, rfl, ?_, (List.append_nil _).symm, ?_⟩
      · simp [Draft.waiting?, hd]
      · simp [Draft.Means, hd]
  | constant c =>
    obtain ⟨cs, hcs, hnew', hpool, hpos⟩ := Encoding.constantIndex_spec (hs.same c rfl) hnew
    simp only [Draft.bind, Except.ok.injEq, Prod.mk.injEq] at h
    obtain ⟨hv, he⟩ := h
    rw [hcs] at he
    subst he
    exact ⟨rfl, rfl, hnew', hpool, (List.append_nil _).symm, (List.append_nil _).symm, _, hpos,
      hv.symm⟩
  | proto name =>
    simp only [Draft.bind] at h
    split at h
    · obtain ⟨rfl, rfl⟩ := Prod.mk.inj (Except.ok.inj h)
      exact ⟨rfl, rfl, hnew, rfl, (List.append_nil _).symm, rfl, rfl⟩
    · cases h

namespace Encoding

/-- **Placing a value** puts it where it belongs and touches nothing that lies apart. -/
theorem place_spec {e e' : Encoding} {v : Int} {dest : Destination}
    (h : e.place v dest = .ok e') :
    (e'.constants = e.constants ∧ e'.labels = e.labels ∧ e'.subroutines = e.subroutines) ∧
      e'.word.opcode? = e.word.opcode? ∧
      e'.extra.isSome = (e.extra.isSome || dest.spills v) ∧ e'.Holds dest v ∧
      ∀ dest' u, dest'.Apart dest → e.Holds dest' u → e'.Holds dest' u := by
  cases dest with
  | field f =>
    obtain ⟨w, hw, h⟩ := bind_eq_ok.mp h
    obtain rfl := Except.ok.inj h
    refine ⟨⟨rfl, rfl, rfl⟩, Word.opcode?_set hw, (Bool.or_false _).symm, Word.get_set hw, ?_⟩
    intro dest' u ha hu
    cases dest' with
    | field g => exact (Word.get_set_of_apart hw (Field.Apart.symm ha)).trans hu
    | extra => exact hu
    | cOrExtra =>
      simp only [Holds] at hu ⊢
      rw [Word.get_set_of_apart hw (Field.Apart.symm ha)]
      exact hu
  | extra =>
    obtain rfl := Except.ok.inj h
    refine ⟨⟨rfl, rfl, rfl⟩, rfl, (Bool.or_true _).symm, rfl, ?_⟩
    intro dest' u ha hu
    cases dest' with
    | field g => exact hu
    | extra => exact ha.elim
    | cOrExtra => exact ha.elim
  | cOrExtra =>
    -- whichever branch is taken, only the field `C` of the word changes
    have hframe : ∀ (w : Word) (x : Int) (dest' : Destination) (u : Int) (extra : Option Int),
        e.word.set .c x = .ok w → dest'.Apart .cOrExtra → e.Holds dest' u →
        ({ e with word := w, extra } : Encoding).Holds dest' u := by
      intro w x dest' u extra hw ha hu
      cases dest' with
      | field g => exact (Word.get_set_of_apart hw (Field.Apart.symm ha)).trans hu
      | extra => exact ha.elim
      | cOrExtra => exact ha.elim
    simp only [place] at h
    split at h
    · rename_i hv
      obtain ⟨w, hw, h⟩ := bind_eq_ok.mp h
      obtain rfl := Except.ok.inj h
      refine ⟨⟨rfl, rfl, rfl⟩, Word.opcode?_set hw, ?_, ?_, fun dest' u => hframe w 0 dest' u _ hw⟩
      · simp [Destination.spills, hv]
      · rw [Holds, if_pos hv]
        exact ⟨Word.get_set hw, rfl⟩
    · rename_i hv
      obtain ⟨w, hw, h⟩ := bind_eq_ok.mp h
      obtain rfl := Except.ok.inj h
      refine ⟨⟨rfl, rfl, rfl⟩, Word.opcode?_set hw, ?_, ?_, fun dest' u => hframe w v dest' u _ hw⟩
      · simp [Destination.spills, hv]
      · rw [Holds, if_neg hv]
        exact Word.get_set hw

end Encoding

/-! ## All operands of a line -/

/-- What a slot with operands for the extra word accepts: only what is stored as it is. -/
theorem Opcode.kinds_of_cOrExtra {op : Opcode} {slot : Slot} (hs : slot ∈ op.slots)
    (hd : slot.dest = .cOrExtra) : slot.kinds = .only .embedded := by
  have h : ∀ op : Opcode, ∀ slot ∈ op.slots, slot.dest = .cOrExtra →
      slot.kinds = .only .embedded := by
    intro op
    cases op <;> decide
  exact h op slot hs hd

/-- The operands of an instruction go to destinations that lie apart. -/
theorem Opcode.zip_apart {op : Opcode} {os : List Operand} (h : Operand.SuitAll op.slots os) :
    (op.slots.zip os).Pairwise fun x y => x.1.dest.Apart y.1.dest := by
  have hfst : (op.slots.zip os).map Prod.fst = op.slots :=
    List.map_fst_zip (Nat.le_of_eq (List.Forall₂.length_eq h))
  have hp := op.slots_apart
  rw [← hfst] at hp
  exact (List.pairwise_map (f := Prod.fst)).mp hp

/-- Whether the value of an operand goes to the extra word is seen from the operand as written. -/
theorem Draft.Means.spills_eq {d : Draft} {pool : Pool} {slot : Slot} {o : Operand} {v : Int}
    (h : d.Means pool slot.kinds o v) (hs : o.Suits slot.kinds)
    (hk : slot.dest = .cOrExtra → slot.kinds = .only .embedded) :
    slot.dest.spills v = slot.dest.spills o.number := by
  cases hd : slot.dest with
  | field f => rfl
  | extra => rfl
  | cOrExtra =>
    rw [hk hd] at hs
    have hemb := hs.kind_eq_of_only nofun
    cases o with
    | embedded n => rw [show v = n from h, Operand.number]
    | _ => cases hemb

/-- What encoding operands does: `e'` is `e` with the values of the operands placed. -/
structure Draft.Encodes (d : Draft) (xs : List (Slot × Operand)) (e e' : Encoding) : Prop where
  /-- the opcode stays -/
  opcode : e'.word.opcode? = e.word.opcode?
  /-- the collected constants are new to the pool -/
  fresh : d.constants.New e'.constants
  /-- the pool is extended as if the constants were added one by one -/
  pool : d.constants.insertAll e'.constants =
    (d.constants.insertAll e.constants).insertAll (xs.filterMap (·.2.constant?))
  /-- the labels that the line waits for -/
  labels : e'.labels = e.labels ++ xs.filterMap (d.waiting? ·.2)
  /-- the functions that the line refers to -/
  subroutines : e'.subroutines = e.subroutines ++ xs.filterMap (·.2.proto?)
  /-- whether there is an extra word -/
  extra : e'.extra.isSome = (e.extra.isSome || xs.any fun x => x.1.dest.spills x.2.number)
  /-- what lies apart from all destinations stays -/
  frame : ∀ dest v, (∀ x ∈ xs, dest.Apart x.1.dest) → e.Holds dest v → e'.Holds dest v
  /-- every operand has a value, and the value is in its place -/
  placed : ∀ x ∈ xs, ∃ v,
    d.Means (d.constants.insertAll e'.constants) x.1.kinds x.2 v ∧ e'.Holds x.1.dest v

theorem Draft.encode_spec {d : Draft} {owners : Owners} {xs : List (Slot × Operand)}
    {e e' : Encoding} (h : d.encode owners xs e = .ok e')
    (hs : ∀ x ∈ xs, x.2.Suits x.1.kinds)
    (hk : ∀ x ∈ xs, x.1.dest = .cOrExtra → x.1.kinds = .only .embedded)
    (ha : xs.Pairwise fun x y => x.1.dest.Apart y.1.dest)
    (hnew : d.constants.New e.constants) : d.Encodes xs e e' := by
  induction xs generalizing e with
  | nil =>
    obtain rfl := Except.ok.inj h
    exact {
      opcode := rfl
      fresh := hnew
      pool := rfl
      labels := (List.append_nil _).symm
      subroutines := (List.append_nil _).symm
      extra := (Bool.or_false _).symm
      frame := fun _ _ _ hv => hv
      placed := fun _ hx => absurd hx List.not_mem_nil }
  | cons x xs ih =>
    obtain ⟨slot, o⟩ := x
    obtain ⟨⟨v, e₁⟩, hb, h⟩ := bind_eq_ok.mp h
    obtain ⟨e₂, hp, h⟩ := bind_eq_ok.mp h
    obtain ⟨hhead, ha⟩ := List.pairwise_cons.mp ha
    obtain ⟨hw, hx, hnew₁, hpool, hlab, hsub, hmean⟩ :=
      Draft.bind_spec hb (hs _ List.mem_cons_self) hnew
    obtain ⟨⟨hc₂, hl₂, hs₂⟩, hop, hextra, hholds, hkeep⟩ :=
      Encoding.place_spec (mapError_eq_ok.mp hp)
    have hrest := ih h (fun y hy => hs y (List.mem_cons_of_mem _ hy))
      (fun y hy => hk y (List.mem_cons_of_mem _ hy)) ha (hc₂ ▸ hnew₁)
    have hspill := hmean.spills_eq (hs _ List.mem_cons_self) (hk _ List.mem_cons_self)
    exact {
      opcode := by rw [hrest.opcode, hop, hw]
      fresh := hrest.fresh
      pool := by
        rw [hrest.pool, hc₂, hpool, ← Pool.insertAll_append]
        congr 1
        cases hc : o.constant? <;> simp [hc]
      labels := by
        rw [hrest.labels, hl₂, hlab, List.append_assoc]
        cases hc : d.waiting? o <;> simp [hc]
      subroutines := by
        rw [hrest.subroutines, hs₂, hsub, List.append_assoc]
        cases hc : o.proto? <;> simp [hc]
      extra := by
        rw [hrest.extra, hextra, hx, hspill, List.any_cons, Bool.or_assoc]
      frame := by
        intro dest u hall hu
        apply hrest.frame dest u fun y hy => hall y (List.mem_cons_of_mem _ hy)
        apply hkeep dest u (hall _ List.mem_cons_self)
        cases dest <;> simpa only [Encoding.Holds, hw, hx] using hu
      placed := by
        intro y hy
        rcases List.mem_cons.mp hy with rfl | hy
        · refine ⟨v, ?_, hrest.frame slot.dest v hhead hholds⟩
          rw [hrest.pool, hc₂]
          exact hmean.insertAll _
        · exact hrest.placed y hy }

/-! ## The words of a line -/

/-- How many words an instruction with given operands takes. Constants of `LOADKX` always need an
extra word, the last operand of `SETLIST` only if it does not fit in the field `C`. -/
def Opcode.wordCount : Opcode → List Operand → Nat
  | .loadKX, _ => 2
  | .setList, [_, _, .embedded n] => if Field.c.hi < n then 2 else 1
  | _, _ => 1

theorem Opcode.wordCount_pos (op : Opcode) (os : List Operand) : 0 < op.wordCount os := by
  unfold Opcode.wordCount
  split
  · exact Nat.two_pos
  · split
    · exact Nat.two_pos
    · exact Nat.one_pos
  · exact Nat.one_pos

/-- An instruction takes two words exactly if the value of one of its operands goes to the extra
word. -/
theorem Opcode.wordCount_eq {op : Opcode} {os : List Operand}
    (h : Operand.SuitAll op.slots os) :
    op.wordCount os =
      if (op.slots.zip os).any (fun x => x.1.dest.spills x.2.number) then 2 else 1 := by
  have hfield : ∀ op : Opcode, op ≠ .loadKX → op ≠ .setList →
      ∀ slot ∈ op.slots, slot.dest ≠ .extra ∧ slot.dest ≠ .cOrExtra := by
    intro op
    cases op <;> decide
  by_cases hx : op = .loadKX
  · subst hx
    obtain ⟨o₁, os₁, -, h₁, rfl⟩ := List.forall₂_cons_left_iff.mp h
    obtain ⟨o₂, os₂, -, h₂, rfl⟩ := List.forall₂_cons_left_iff.mp h₁
    simp [Opcode.wordCount, Opcode.slots, Destination.spills]
  · by_cases hl : op = .setList
    · subst hl
      obtain ⟨o₁, os₁, -, h₁, rfl⟩ := List.forall₂_cons_left_iff.mp h
      obtain ⟨o₂, os₂, -, h₂, rfl⟩ := List.forall₂_cons_left_iff.mp h₁
      obtain ⟨o₃, os₃, hs₃, h₃, rfl⟩ := List.forall₂_cons_left_iff.mp h₂
      obtain rfl := List.forall₂_nil_left_iff.mp h₃
      -- only an integer suits the last slot
      cases o₃ with
      | embedded n =>
        simp [Opcode.wordCount, Opcode.slots, Opcode.fieldSlot, Destination.spills, Operand.number]
      | _ => cases Operand.Suits.kind_eq_of_only (k := .embedded) hs₃ nofun
    · have hno : (op.slots.zip os).any (fun x => x.1.dest.spills x.2.number) = false := by
        rw [List.any_eq_false]
        intro x hm
        obtain ⟨h1, h2⟩ := hfield op hx hl x.1 (List.of_mem_zip hm).1
        cases hd : x.1.dest with
        | field f => exact Bool.false_ne_true
        | extra => exact absurd hd h1
        | cOrExtra => exact absurd hd h2
      rw [hno]
      unfold Opcode.wordCount
      split
      · exact absurd rfl hx
      · exact absurd rfl hl
      · rfl

namespace Emission

/-- The words that a line appends to its function. -/
def words (m : Emission) : List Word := m.word :: m.extra.toList

/-- The value `v` stands where a destination sends it. -/
def Holds (m : Emission) : Destination → Int → Prop
  | .field f, v => m.word.get f = v
  | .extra, v => ∃ x, m.extra = some x ∧ x.get .ax = v
  | .cOrExtra, v =>
    if Field.c.hi < v then m.word.get .c = 0 ∧ ∃ x, m.extra = some x ∧ x.get .ax = v
    else m.word.get .c = v

end Emission

/-- What an instruction line adds to its function: `m` is the emission of `op` with the operands
`os`. -/
structure Draft.Emits (d : Draft) (op : Opcode) (os : List Operand) (m : Emission) : Prop where
  /-- the word has the opcode -/
  opcode : m.word.opcode? = some op
  /-- there are as many words as the operands need -/
  length : m.words.length = op.wordCount os
  /-- a second word is an extra word -/
  extra : ∀ x, m.extra = some x → x.opcode? = some .extraArg
  /-- the pool is extended as if the constants were added one by one -/
  pool : d.constants.insertAll m.constants = d.constants.insertAll (os.filterMap Operand.constant?)
  /-- the labels that the line waits for -/
  labels : m.labels = os.filterMap d.waiting?
  /-- the functions that the line refers to -/
  subroutines : m.subroutines = os.filterMap Operand.proto?
  /-- every operand has a value, and the value is in its place -/
  placed : ∀ x ∈ op.slots.zip os, ∃ v,
    d.Means (d.constants.insertAll m.constants) x.1.kinds x.2 v ∧ m.Holds x.1.dest v

/-- Inversion for `assemble`: the operands are encoded, and the extra word, if there is one, holds
what the encoding has for it. -/
theorem Draft.assemble_eq_ok {d : Draft} {owners : Owners} {op : Opcode} {os : List Operand}
    {line : Option Nat} {m : Emission} (h : d.assemble owners op os line = .ok m) :
    ∃ e, d.encode owners (op.slots.zip os) { word := Word.ofOpcode op } = .ok e ∧
      m = { word := e.word, extra := m.extra, line, constants := e.constants, labels := e.labels,
            subroutines := e.subroutines } ∧
      ((m.extra = none ∧ e.extra = none) ∨ ∃ v w, m.extra = some w ∧ e.extra = some v ∧
        w.opcode? = some .extraArg ∧ w.get .ax = v) := by
  obtain ⟨e, he, h⟩ := bind_eq_ok.mp h
  refine ⟨e, he, ?_⟩
  simp only at h
  split at h
  · rename_i hx
    obtain rfl := Except.ok.inj h
    exact ⟨rfl, .inl ⟨rfl, hx⟩⟩
  · rename_i v hx
    obtain ⟨extra, hw, h⟩ := bind_eq_ok.mp h
    obtain rfl := Except.ok.inj h
    have hw := mapError_eq_ok.mp hw
    cases ha : Word.extraArg v with
    | error err =>
      rw [ha] at hw
      cases hw
    | ok w =>
      rw [ha] at hw
      obtain rfl := Except.ok.inj hw
      rw [Word.extraArg] at ha
      have ho : w.opcode? = some .extraArg := by
        rw [Word.opcode?_set ha, Word.opcode?_ofOpcode]
      exact ⟨rfl, .inr ⟨v, w, rfl, hx, ho, Word.get_set ha⟩⟩

/-- **What assembling does.** -/
theorem Draft.assemble_spec {d : Draft} {owners : Owners} {op : Opcode} {os : List Operand}
    {line : Option Nat} {m : Emission} (h : d.assemble owners op os line = .ok m)
    (hs : Operand.SuitAll op.slots os) : d.Emits op os m := by
  obtain ⟨e, he, hm, hextra⟩ := Draft.assemble_eq_ok h
  have hlen : op.slots.length = os.length := List.Forall₂.length_eq hs
  have hsnd : (op.slots.zip os).map Prod.snd = os := List.map_snd_zip (Nat.le_of_eq hlen.symm)
  have hspec := Draft.encode_spec he (fun x hx => List.forall₂_zip hs hx)
    (fun x hx => Opcode.kinds_of_cOrExtra (List.of_mem_zip hx).1) (Opcode.zip_apart hs)
    (Pool.new_nil _)
  have hword : m.word = e.word := congrArg Emission.word hm
  have hcons : m.constants = e.constants := congrArg Emission.constants hm
  have hax : ∀ v, e.extra = some v → ∃ x, m.extra = some x ∧ x.get .ax = v := by
    intro v hv
    rcases hextra with ⟨-, h2⟩ | ⟨v', w, h1, h2, -, hg⟩
    · rw [h2] at hv
      cases hv
    · rw [h2] at hv
      obtain rfl := Option.some.inj hv
      exact ⟨w, h1, hg⟩
  have hholds : ∀ dest v, e.Holds dest v → m.Holds dest v := by
    intro dest v hv
    cases dest with
    | field f => exact (congrArg (Word.get · f) hword).trans hv
    | extra => exact hax v hv
    | cOrExtra =>
      simp only [Encoding.Holds, Emission.Holds, hword] at hv ⊢
      split at hv
      · rename_i hlt
        rw [if_pos hlt]
        exact ⟨hv.1, hax v hv.2⟩
      · rename_i hlt
        rw [if_neg hlt]
        exact hv
  exact {
    opcode := by
      rw [hword]
      exact hspec.opcode.trans (Word.opcode?_ofOpcode op)
    length := by
      have hany : e.extra.isSome = (op.slots.zip os).any fun x => x.1.dest.spills x.2.number :=
        hspec.extra
      rw [Opcode.wordCount_eq hs, Emission.words, List.length_cons, ← hany]
      rcases hextra with ⟨h1, h2⟩ | ⟨v, w, h1, h2, -⟩ <;> rw [h1, h2] <;> rfl
    extra := by
      intro x hx
      rcases hextra with ⟨h1, -⟩ | ⟨v, w, h1, -, ho, -⟩
      · rw [h1] at hx
        cases hx
      · rw [h1] at hx
        obtain rfl := Option.some.inj hx
        exact ho
    pool := by
      rw [hcons, ← hsnd, List.filterMap_map]
      exact hspec.pool
    labels := by
      rw [congrArg Emission.labels hm, ← hsnd, List.filterMap_map]
      exact hspec.labels
    subroutines := by
      rw [congrArg Emission.subroutines hm, ← hsnd, List.filterMap_map]
      exact hspec.subroutines
    placed := by
      intro x hx
      obtain ⟨v, hv, hat⟩ := hspec.placed x hx
      rw [hcons]
      exact ⟨v, hv, hholds x.1.dest v hat⟩ }

/-! ## The draft after a line -/

namespace Draft

variable (d : Draft) (c : Constant) (u : Upvalue) (label : String) (m : Emission)
  (fresh : List String)

@[simp] theorem words_addConstant : (d.addConstant c).words = d.words := rfl

@[simp] theorem labels_addConstant : (d.addConstant c).labels = d.labels := rfl

@[simp] theorem constants_addConstant : (d.addConstant c).constants = d.constants.insert c := rfl

@[simp] theorem subroutines_addConstant : (d.addConstant c).subroutines = d.subroutines := rfl

@[simp] theorem protoSites_addConstant : (d.addConstant c).protoSites = d.protoSites := rfl

@[simp] theorem words_addUpvalue : (d.addUpvalue u).words = d.words := rfl

@[simp] theorem labels_addUpvalue : (d.addUpvalue u).labels = d.labels := rfl

@[simp] theorem constants_addUpvalue : (d.addUpvalue u).constants = d.constants := rfl

@[simp] theorem subroutines_addUpvalue : (d.addUpvalue u).subroutines = d.subroutines := rfl

@[simp] theorem protoSites_addUpvalue : (d.addUpvalue u).protoSites = d.protoSites := rfl

@[simp] theorem constants_declareLabel : (d.declareLabel label).constants = d.constants := rfl

@[simp] theorem subroutines_declareLabel : (d.declareLabel label).subroutines = d.subroutines := rfl

@[simp] theorem protoSites_declareLabel : (d.declareLabel label).protoSites = d.protoSites := rfl

@[simp] theorem labels_declareLabel :
    (d.declareLabel label).labels = d.labels.declare label d.words.size :=
  rfl

@[simp] theorem toList_words_emit : (d.emit m fresh).words.toList = d.words.toList ++ m.words := by
  cases hx : m.extra <;> simp [emit, Emission.words, hx]

@[simp] theorem toList_subroutines_emit :
    (d.emit m fresh).subroutines.toList = d.subroutines.toList ++ fresh := by
  simp [emit]

@[simp] theorem constants_emit : (d.emit m fresh).constants = d.constants.insertAll m.constants :=
  rfl

end Draft

/-! ## Owners -/

theorem Draft.encode_owned {d : Draft} {owners : Owners} {xs : List (Slot × Operand)}
    {e e' : Encoding} (h : d.encode owners xs e = .ok e') {x : Slot × Operand} (hx : x ∈ xs)
    {name : String} (hn : x.2 = .proto name) :
    owners.owner? name = none ∨ owners.owner? name = some d.id := by
  induction xs generalizing e with
  | nil => exact absurd hx List.not_mem_nil
  | cons y ys ih =>
    obtain ⟨⟨v, e₁⟩, hb, h⟩ := bind_eq_ok.mp h
    obtain ⟨e₂, -, h⟩ := bind_eq_ok.mp h
    rcases List.mem_cons.mp hx with rfl | hx
    · -- the operand was bound, so there was no conflict
      rw [hn] at hb
      cases ho : owners.owner? name with
      | none => exact .inl rfl
      | some i =>
        by_cases hi : i = d.id
        · exact .inr (congrArg some hi)
        · simp [Draft.bind, Owners.isFirstUse, ho, hi] at hb
    · exact ih h hx

/-- A function that an accepted line refers to belongs to nobody else. -/
theorem Draft.assemble_owned {d : Draft} {owners : Owners} {op : Opcode} {os : List Operand}
    {line : Option Nat} {m : Emission} (h : d.assemble owners op os line = .ok m)
    (hs : Operand.SuitAll op.slots os) {name : String} (hn : name ∈ m.subroutines) :
    owners.owner? name = none ∨ owners.owner? name = some d.id := by
  obtain ⟨e, he, -⟩ := Draft.assemble_eq_ok h
  rw [(Draft.assemble_spec h hs).subroutines] at hn
  obtain ⟨o, ho, hp⟩ := List.mem_filterMap.mp hn
  obtain ⟨slot, hx, -⟩ := hs.exists_slot ho
  refine Draft.encode_owned he hx ?_
  cases o with
  | proto n => exact congrArg Operand.proto (Option.some.inj hp)
  | _ => cases hp

end ChunkAsm
