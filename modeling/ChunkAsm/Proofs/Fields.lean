import ChunkAsm.Opcode.Layout

/-!
# Fields are cells

A word behaves like a record of cells: what is stored in a field is read back, fields whose bits do
not overlap keep their values, and no store touches the opcode. The arithmetic is done once, on the
numbers behind the words; everything later speaks of `Word.get`, `Word.set` and `Word.opcode?` only.

The slots of an opcode go to fields that lie **apart**, so the operands of an instruction can be
placed one after the other.
-/

namespace ChunkAsm

namespace Field

/-- Two fields lie apart if their bits do not overlap. -/
def Apart (f g : Field) : Prop := f.pos + f.width ≤ g.pos ∨ g.pos + g.width ≤ f.pos

instance (f g : Field) : Decidable (f.Apart g) := inferInstanceAs (Decidable (_ ∨ _))

theorem Apart.symm {f g : Field} (h : f.Apart g) : g.Apart f := Or.symm h

/-- What fits in a field is, with the bias added, one of its bit patterns. -/
theorem Fits.toNat_lt {f : Field} {v : Int} (h : f.Fits v) : (v + f.bias).toNat < f.size := by
  obtain ⟨hlo, hhi⟩ := h
  cases f <;> simp only [lo, hi, bias, size] at hlo hhi ⊢ <;> omega

/-- The bias does not carry a value that fits below zero. -/
theorem Fits.add_bias_nonneg {f : Field} {v : Int} (h : f.Fits v) : 0 ≤ v + f.bias := by
  have hlo : -f.bias ≤ v := h.1
  omega

end Field

namespace Word

/-! ## Stores on the numbers behind the words -/

/-- Two words with the same number are the same. -/
theorem ext_toNat {w w' : Word} (h : w.bits.toNat = w'.bits.toNat) : w = w' := by
  obtain ⟨b⟩ := w
  obtain ⟨b'⟩ := w'
  exact congrArg Word.mk (UInt32.toNat_inj.mp h)

theorem raw_lt (w : Word) (f : Field) : w.raw f < f.size := by
  rw [raw]
  apply Nat.mod_lt
  cases f <;> decide

/-- A store of a bit pattern of the field does not leave the 32 bits of the word. -/
theorem toNat_store (w : Word) (f : Field) {n : Nat} (hn : n < f.size) :
    (w.store f n).bits.toNat = w.bits.toNat - w.raw f * f.unit + n * f.unit := by
  have hw : w.bits.toNat < 4294967296 := w.bits.toNat_lt
  simp only [store, raw, UInt32.toNat_ofNat']
  cases f <;> simp only [Field.unit, Field.size] at hn ⊢ <;> omega

theorem raw_store_self (w : Word) (f : Field) {n : Nat} (hn : n < f.size) :
    (w.store f n).raw f = n := by
  have hw : w.bits.toNat < 4294967296 := w.bits.toNat_lt
  rw [raw, toNat_store w f hn, raw]
  cases f <;> simp only [Field.unit, Field.size] at hn ⊢ <;> omega

theorem raw_store_of_apart (w : Word) {f g : Field} {n : Nat} (hn : n < f.size) (h : f.Apart g) :
    (w.store f n).raw g = w.raw g := by
  have hw : w.bits.toNat < 4294967296 := w.bits.toNat_lt
  rw [raw, toNat_store w f hn, raw, raw]
  cases f <;> cases g <;>
    first
    | exact absurd h (by decide)
    | (simp only [Field.unit, Field.size] at hn ⊢; omega)

theorem opcodeNumber_store (w : Word) (f : Field) {n : Nat} (hn : n < f.size) :
    (w.store f n).opcodeNumber = w.opcodeNumber := by
  have hw : w.bits.toNat < 4294967296 := w.bits.toNat_lt
  rw [opcodeNumber, toNat_store w f hn, raw, opcodeNumber]
  cases f <;> simp only [Field.unit, Field.size] at hn ⊢ <;> omega

/-- Storing the same pattern twice is storing it once. -/
theorem store_store (w : Word) (f : Field) {n : Nat} (hn : n < f.size) :
    (w.store f n).store f n = w.store f n := by
  have hle : n * f.unit ≤ (w.store f n).bits.toNat := by
    rw [toNat_store w f hn]
    exact Nat.le_add_left _ _
  apply ext_toNat
  rw [toNat_store _ f hn, raw_store_self w f hn]
  omega

/-! ## Reading after writing -/

theorem set_eq_ok {w w' : Word} {f : Field} {v : Int} :
    w.set f v = .ok w' ↔ f.Fits v ∧ w' = w.store f (v + f.bias).toNat := by
  rw [set]
  by_cases h : f.Fits v
  · rw [if_pos h]
    constructor
    · intro he
      exact ⟨h, (Except.ok.inj he).symm⟩
    · rintro ⟨-, rfl⟩
      rfl
  · rw [if_neg h]
    constructor
    · intro he
      cases he
    · intro hf
      exact absurd hf.1 h

variable {w w' : Word} {f g : Field} {v : Int}

/-- **Read back.** A stored value is read back as it was. -/
theorem get_set (h : w.set f v = .ok w') : w'.get f = v := by
  obtain ⟨hf, rfl⟩ := set_eq_ok.mp h
  rw [get, raw_store_self w f hf.toNat_lt, Int.toNat_of_nonneg hf.add_bias_nonneg]
  omega

/-- **Frame.** A field that lies apart keeps its value. -/
theorem get_set_of_apart (h : w.set f v = .ok w') (ha : f.Apart g) : w'.get g = w.get g := by
  obtain ⟨hf, rfl⟩ := set_eq_ok.mp h
  rw [get, raw_store_of_apart w hf.toNat_lt ha, get]

/-- No store changes the opcode. -/
theorem opcode?_set (h : w.set f v = .ok w') : w'.opcode? = w.opcode? := by
  obtain ⟨hf, rfl⟩ := set_eq_ok.mp h
  rw [opcode?, opcodeNumber_store w f hf.toNat_lt, opcode?]

/-- A field without a bias holds a natural number. -/
theorem get_eq_raw (hb : f.bias = 0) : w.get f = w.raw f := by
  rw [get, hb, Int.sub_zero]

theorem opcode?_ofOpcode (op : Opcode) : (ofOpcode op).opcode? = some op := by
  cases op <;> rfl

end Word

/-! ## Destinations -/

namespace Destination

/-- Two destinations lie apart if they share no bits of the instruction word and do not both want
the extra word. -/
def Apart : Destination → Destination → Prop
  | .field f, .field g => f.Apart g
  | .field f, .cOrExtra => f.Apart .c
  | .cOrExtra, .field g => Field.c.Apart g
  | .field _, .extra => True
  | .extra, .field _ => True
  | _, _ => False

instance : (x y : Destination) → Decidable (x.Apart y)
  | .field f, .field g => inferInstanceAs (Decidable (f.Apart g))
  | .field f, .cOrExtra => inferInstanceAs (Decidable (f.Apart .c))
  | .cOrExtra, .field g => inferInstanceAs (Decidable (Field.c.Apart g))
  | .field _, .extra => isTrue trivial
  | .extra, .field _ => isTrue trivial
  | .extra, .extra => isFalse id
  | .extra, .cOrExtra => isFalse id
  | .cOrExtra, .extra => isFalse id
  | .cOrExtra, .cOrExtra => isFalse id

end Destination

/-- **Slots do not collide.** Different slots of an opcode have destinations that lie apart. -/
theorem Opcode.slots_apart (op : Opcode) :
    op.slots.Pairwise fun x y => x.dest.Apart y.dest := by
  cases op <;> decide

end ChunkAsm
