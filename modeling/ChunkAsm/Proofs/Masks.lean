import ChunkAsm.Proofs.Placement

/-!
# Fields by masks

`Word.get` and `Word.set` do arithmetic on the number behind a word. A machine has the word in a
variable and works on its bits: it reads a field by a **mask** and a shift, and overwrites it by
clearing the mask and filling in the shifted value. The values are 64-bit integers, which are cut
down to 32 bits on the way in. This file describes both (`Word.fetch` and `Word.overwrite`) and
shows that they do the same as the arithmetic.

Bit by bit a field is a cell (`Word.testBit_store`): inside the mask there are the bits of what was
stored, and outside of it nothing has changed.
-/

namespace ChunkAsm

namespace Field

/-- The bits of a field, all set. -/
def mask (f : Field) : UInt32 := ((1 <<< UInt32.ofNat f.width) - 1) <<< UInt32.ofNat f.pos

/-- Whether a bit of the word belongs to a field. -/
def Holds (f : Field) (i : Nat) : Prop := f.pos ≤ i ∧ i < f.pos + f.width

instance (f : Field) (i : Nat) : Decidable (f.Holds i) := inferInstanceAs (Decidable (_ ∧ _))

theorem testBit_mask (f : Field) (i : Nat) : f.mask.toNat.testBit i = decide (f.Holds i) := by
  have hmask : f.mask.toNat = (2 ^ f.width - 1) <<< f.pos := by
    cases f <;> rfl
  rw [hmask, Nat.testBit_shiftLeft, Nat.testBit_two_pow_sub_one, ← Bool.decide_and]
  apply decide_eq_decide.mpr
  simp only [Holds]
  omega

theorem testBit_not_mask (f : Field) (i : Nat) :
    (~~~f.mask).toNat.testBit i = (decide (i < 32) && !decide (f.Holds i)) := by
  change (~~~f.mask.toBitVec).getLsbD i = _
  rw [BitVec.getLsbD_not, ← f.testBit_mask]
  rfl

theorem Holds.lt {f : Field} {i : Nat} (h : f.Holds i) : i < 32 := by
  have hlast : f.pos + f.width ≤ 32 := by
    cases f <;> decide
  exact Nat.lt_of_lt_of_le h.2 hlast

/-- Fields lie apart exactly if their masks have no bit in common. -/
theorem apart_iff {f g : Field} : f.Apart g ↔ f.mask &&& g.mask = 0 := by
  cases f <;> cases g <;> decide

/-- A shift by the position of a field is not cut down. -/
theorem toNat_pos_mod (f : Field) : (UInt32.ofNat f.pos).toNat % 32 = f.pos := by
  cases f <;> rfl

/-- The bounds and the bias of a field are 64-bit integers. -/
theorem toInt_ofInt (f : Field) :
    (Int64.ofInt f.lo).toInt = f.lo ∧ (Int64.ofInt f.hi).toInt = f.hi ∧
      (Int64.ofInt f.bias).toInt = f.bias := by
  cases f <;> decide

end Field

namespace Word

/-! ## Bits of a field -/

theorem testBit_of_le (w : Word) {i : Nat} (hi : 32 ≤ i) : w.testBit i = false :=
  Nat.testBit_lt_two_pow (Nat.lt_of_lt_of_le w.bits.toNat_lt (Nat.pow_le_pow_right Nat.two_pos hi))

theorem testBit_raw (w : Word) (f : Field) (i : Nat) :
    (w.raw f).testBit i = (decide (i < f.width) && w.testBit (i + f.pos)) := by
  have hunit : f.unit = 2 ^ f.pos := f.unit_eq
  have hsize : f.size = 2 ^ f.width := f.size_eq
  rw [raw, hunit, hsize, Nat.testBit_mod_two_pow, Nat.testBit_div_two_pow, testBit]

/-- **A field is a cell of bits.** -/
theorem testBit_store (w : Word) (f : Field) {n : Nat} (hn : n < f.size) (i : Nat) :
    (w.store f n).testBit i = if f.Holds i then n.testBit (i - f.pos) else w.testBit i := by
  split
  · rename_i hi
    have hbit := (w.store f n).testBit_raw f (i - f.pos)
    have hinside : i - f.pos < f.width := by
      have := hi.1
      have := hi.2
      omega
    rw [raw_store_self w f hn, Nat.sub_add_cancel hi.1, decide_eq_true hinside] at hbit
    exact hbit.symm
  · rename_i hi
    refine w.testBit_store_of_outside f hn ?_
    simp only [Field.Holds] at hi
    omega

/-! ## Reading -/

/-- Read a field by its mask. -/
def fetch (w : Word) (f : Field) : Int64 :=
  Int64.ofNat ((w.bits &&& f.mask) >>> UInt32.ofNat f.pos).toNat - Int64.ofInt f.bias

theorem toNat_masked (w : Word) (f : Field) :
    ((w.bits &&& f.mask) >>> UInt32.ofNat f.pos).toNat = w.raw f := by
  apply Nat.eq_of_testBit_eq
  intro i
  rw [UInt32.toNat_shiftRight, f.toNat_pos_mod, Nat.testBit_shiftRight, UInt32.toNat_and,
    Nat.testBit_and, f.testBit_mask, testBit_raw, Nat.add_comm f.pos i, Bool.and_comm]
  congr 1
  apply decide_eq_decide.mpr
  simp only [Field.Holds]
  omega

/-- **Reading by a mask** gives the value of the field. -/
theorem toInt_fetch (w : Word) (f : Field) : (w.fetch f).toInt = w.get f := by
  have hraw : w.raw f < 67108864 :=
    Nat.lt_of_lt_of_le (w.raw_lt f) (by cases f <;> decide)
  have hbias : 0 ≤ f.bias ∧ f.bias ≤ 131071 := by cases f <;> decide
  rw [fetch, toNat_masked, Int64.toInt_sub, Int64.toInt_ofNat_of_lt (by omega),
    f.toInt_ofInt.2.2, get]
  exact Int.bmod_eq_of_le (by omega) (by omega)

/-! ## Writing -/

/-- Overwrite a field of the word that is at hand, or stop and leave it as it is. -/
def overwrite (f : Field) (v : Int64) : EStateM FieldOverflow Word Unit := do
  if v < Int64.ofInt f.lo ∨ Int64.ofInt f.hi < v then
    throw ⟨f, v.toInt⟩
  let stored := (v + Int64.ofInt f.bias).toUInt64.toUInt32
  modify fun w =>
    ⟨(w.bits &&& ~~~f.mask) ||| ((stored <<< UInt32.ofNat f.pos) &&& f.mask)⟩

/-- Clearing the mask and filling in what is shifted is a store. -/
theorem splice_eq_store (w : Word) (f : Field) {x : UInt32} (hx : x.toNat < f.size) :
    (⟨(w.bits &&& ~~~f.mask) ||| ((x <<< UInt32.ofNat f.pos) &&& f.mask)⟩ : Word) =
      w.store f x.toNat := by
  apply ext_toNat
  apply Nat.eq_of_testBit_eq
  intro i
  have hstore : (w.store f x.toNat).bits.toNat.testBit i =
      if f.Holds i then x.toNat.testBit (i - f.pos) else w.bits.toNat.testBit i :=
    w.testBit_store f hx i
  rw [hstore, UInt32.toNat_or, UInt32.toNat_and, UInt32.toNat_and, UInt32.toNat_shiftLeft,
    f.toNat_pos_mod, Nat.testBit_or, Nat.testBit_and, Nat.testBit_and, Nat.testBit_mod_two_pow,
    Nat.testBit_shiftLeft, f.testBit_mask, f.testBit_not_mask]
  by_cases hi : f.Holds i
  · simp [hi, hi.lt, hi.1]
  · by_cases hlt : i < 32
    · simp [hi, hlt]
    · have hnone : w.bits.toNat.testBit i = false := w.testBit_of_le (Nat.le_of_not_lt hlt)
      simp [hi, hnone]

/-- What fits in a field is not changed by being cut down to 32 bits. -/
theorem toNat_stored {f : Field} {v : Int64} (h : f.Fits v.toInt) :
    (v + Int64.ofInt f.bias).toUInt64.toUInt32.toNat = (v.toInt + f.bias).toNat := by
  have hlow := h.add_bias_nonneg
  have hsize : (v.toInt + f.bias).toNat < 67108864 :=
    Nat.lt_of_lt_of_le h.toNat_lt (by cases f <;> decide)
  have hsum : (v + Int64.ofInt f.bias).toInt = v.toInt + f.bias := by
    rw [Int64.toInt_add, f.toInt_ofInt.2.2]
    exact Int.bmod_eq_of_le (by omega) (by omega)
  have hnonneg : 0 ≤ v + Int64.ofInt f.bias := by
    rw [Int64.le_iff_toInt_le, hsum]
    exact hlow
  rw [UInt64.toNat_toUInt32, Int64.toNat_toUInt64_of_le hnonneg, Int64.toNatClampNeg, hsum]
  exact Nat.mod_eq_of_lt (by omega)

/-- **Overwriting by a mask** is setting the field. -/
theorem overwrite_eq (w : Word) (f : Field) (v : Int64) :
    (overwrite f v).run w =
      match w.set f v.toInt with
      | .ok w' => .ok () w'
      | .error e => .error e w := by
  have hrange : (v < Int64.ofInt f.lo ∨ Int64.ofInt f.hi < v) ↔ ¬ f.Fits v.toInt := by
    rw [Int64.lt_iff_toInt_lt, Int64.lt_iff_toInt_lt, f.toInt_ofInt.1, f.toInt_ofInt.2.1,
      Field.Fits]
    omega
  by_cases h : f.Fits v.toInt
  · rw [overwrite, if_neg (not_not_intro h ∘ hrange.mp), set, if_pos h]
    have hx : (v + Int64.ofInt f.bias).toUInt64.toUInt32.toNat < f.size := by
      rw [toNat_stored h]
      exact h.toNat_lt
    have hstore := w.splice_eq_store f hx
    rw [toNat_stored h] at hstore
    exact congrArg (EStateM.Result.ok ()) hstore
  · rw [overwrite, if_pos (hrange.mpr h), set, if_neg h]
    rfl

/-! ## Fields that overlap -/

theorem get_sbx (w : Word) : w.get .sbx = w.get .bx - 131071 := by
  have hbx : w.get .bx = w.raw .bx := get_eq_raw rfl
  rw [hbx]
  rfl

theorem get_bx (w : Word) : w.get .bx = w.get .c + 512 * w.get .b := by
  have hw : w.bits.toNat < 4294967296 := w.bits.toNat_lt
  rw [get_eq_raw rfl, get_eq_raw rfl, get_eq_raw rfl, raw, raw, raw]
  simp only [Field.unit, Field.size]
  omega

theorem get_ax (w : Word) : w.get .ax = w.get .a + 256 * w.get .bx := by
  have hw : w.bits.toNat < 4294967296 := w.bits.toNat_lt
  rw [get_eq_raw rfl, get_eq_raw rfl, get_eq_raw rfl, raw, raw, raw]
  simp only [Field.unit, Field.size]
  omega

theorem store_raw (w : Word) (f : Field) : w.store f (w.raw f) = w := by
  have hle : w.raw f * f.unit ≤ w.bits.toNat :=
    calc w.raw f * f.unit
        ≤ w.bits.toNat / f.unit * f.unit := Nat.mul_le_mul_right _ (Nat.mod_le _ _)
      _ ≤ w.bits.toNat := Nat.div_mul_le_self _ _
  apply ext_toNat
  rw [toNat_store w f (w.raw_lt f), Nat.sub_add_cancel hle]

/-- Storing what is there changes nothing. -/
theorem set_get {w : Word} {f : Field} (h : f.Fits (w.get f)) : w.set f (w.get f) = .ok w := by
  have hraw : (w.get f + f.bias).toNat = w.raw f := by
    rw [get, Int.sub_add_cancel, Int.toNat_natCast]
  rw [set_eq_ok]
  exact ⟨h, by rw [hraw, store_raw]⟩

end Word

/-- **Fields are independent cells.** Of the 64-bit integers a field takes those in its range and no
others. What is stored is read back; the opcode stays, and so does every field whose mask has no bit
in common with that of the field. A value out of range is reported and leaves the word as it is. The
fields that overlap are composed of each other, and storing what a field holds, if it is in range,
changes nothing. Reading by the mask and overwriting it in place do the same. -/
theorem fields_are_cells (w : Word) (f : Field) (v : Int64) :
    ((∃ w', w.set f v.toInt = .ok w') ↔ f.lo ≤ v.toInt ∧ v.toInt ≤ f.hi) ∧
    (∀ w', w.set f v.toInt = .ok w' →
      (Word.overwrite f v).run w = .ok () w' ∧ w'.get f = v.toInt ∧
      w'.opcodeNumber = w.opcodeNumber ∧
      ∀ g, f.mask &&& g.mask = 0 → w'.get g = w.get g) ∧
    (∀ e, w.set f v.toInt = .error e →
      e = ⟨f, v.toInt⟩ ∧ (Word.overwrite f v).run w = .error e w) ∧
    (w.fetch f).toInt = w.get f ∧
    w.get .sbx = w.get .bx - 131071 ∧
    w.get .bx = w.get .c + 512 * w.get .b ∧
    w.get .ax = w.get .a + 256 * w.get .bx ∧
    (f.lo ≤ w.get f ∧ w.get f ≤ f.hi → w.set f (w.get f) = .ok w) := by
  have hrun := w.overwrite_eq f v
  refine ⟨⟨?_, ?_⟩, fun w' h => ?_, fun e h => ?_, w.toInt_fetch f, w.get_sbx, w.get_bx, w.get_ax,
    Word.set_get⟩
  · rintro ⟨w', h⟩
    exact (Word.set_eq_ok.mp h).1
  · intro hfit
    exact ⟨_, Word.set_eq_ok.mpr ⟨hfit, rfl⟩⟩
  · rw [h] at hrun
    refine ⟨hrun, Word.get_set h, ?_, fun g hg => Word.get_set_of_apart h (Field.apart_iff.mpr hg)⟩
    obtain ⟨hfit, rfl⟩ := Word.set_eq_ok.mp h
    exact Word.opcodeNumber_store w f hfit.toNat_lt
  · rw [h] at hrun
    refine ⟨?_, hrun⟩
    rw [Word.set] at h
    split at h
    · cases h
    · exact (Except.error.inj h).symm

end ChunkAsm
