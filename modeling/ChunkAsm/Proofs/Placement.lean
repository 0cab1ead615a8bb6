import ChunkAsm.Proofs.Derivation

/-!
# Where operands end up

An instruction line that can be read has a value for every operand, and each value has a place: a
field of the instruction word, or an extra word behind it. This file compares the two. The values are
those of `Draft.bind`, operand by operand, whether or not they fit (`Draft.values`).

* What is accepted is exact: the word has the opcode, every value is read back from its place, and
  all bits that belong to neither are zero (`Draft.encode_values` and `Word.testBit_set`).
* What is refused, although every operand has a value, is refused for a value outside the range of
  its place, and for nothing else (`Draft.assemble_ok_iff`).
-/

namespace ChunkAsm

/-! ## Bits -/

namespace Word

/-- The bit with a given number. -/
def testBit (w : Word) (i : Nat) : Bool := w.bits.toNat.testBit i

/-- A store leaves what lies below its field and what lies above it. -/
theorem store_outside (w : Word) (f : Field) {n : Nat} (hn : n < f.size) :
    (w.store f n).bits.toNat % f.unit = w.bits.toNat % f.unit ∧
      (w.store f n).bits.toNat / (f.unit * f.size) = w.bits.toNat / (f.unit * f.size) := by
  have hw : w.bits.toNat < 4294967296 := w.bits.toNat_lt
  rw [toNat_store w f hn, raw]
  cases f <;> simp only [Field.unit, Field.size] at hn ⊢ <;> omega

/-- **Frame, bit by bit.** A store changes no bit outside of its field. -/
theorem testBit_store_of_outside (w : Word) (f : Field) {n : Nat} (hn : n < f.size) {i : Nat}
    (hi : i < f.pos ∨ f.pos + f.width ≤ i) : (w.store f n).testBit i = w.testBit i := by
  obtain ⟨hlow, hhigh⟩ := w.store_outside f hn
  have hunit : f.unit = 2 ^ f.pos := f.unit_eq
  have hsize : f.unit * f.size = 2 ^ (f.pos + f.width) := by
    rw [Nat.pow_add, ← hunit]
    exact congrArg (f.unit * ·) f.size_eq
  rw [testBit, testBit]
  rcases hi with hi | hi
  · rw [hunit] at hlow
    have hbit := congrArg (Nat.testBit · i) hlow
    simpa [Nat.testBit_mod_two_pow, hi] using hbit
  · rw [hsize] at hhigh
    have hbit := congrArg (Nat.testBit · (i - (f.pos + f.width))) hhigh
    simpa [Nat.testBit_div_two_pow, Nat.sub_add_cancel hi] using hbit

theorem testBit_set {w w' : Word} {f : Field} {v : Int} (h : w.set f v = .ok w') {i : Nat}
    (hi : i < f.pos ∨ f.pos + f.width ≤ i) : w'.testBit i = w.testBit i := by
  obtain ⟨hf, rfl⟩ := set_eq_ok.mp h
  exact w.testBit_store_of_outside f hf.toNat_lt hi

theorem testBit_ofOpcode {op : Opcode} {i : Nat} (h : (ofOpcode op).testBit i = true) : i < 6 := by
  have hlt : (ofOpcode op).bits.toNat < 2 ^ 6 := by
    cases op <;> decide
  by_contra hi
  have hle : 2 ^ 6 ≤ 2 ^ i := Nat.pow_le_pow_right Nat.two_pos (Nat.le_of_not_lt hi)
  rw [testBit, Nat.testBit_lt_two_pow (Nat.lt_of_lt_of_le hlt hle)] at h
  cases h

end Word

/-! ## Destinations -/

namespace Destination

/-- The values that a destination has room for. -/
def InRange : Destination → Int → Prop
  | .field .a, v => 0 ≤ v ∧ v ≤ 255
  | .field .b, v | .field .c, v => 0 ≤ v ∧ v ≤ 511
  | .field .bx, v => 0 ≤ v ∧ v ≤ 262143
  | .field .sbx, v => -131071 ≤ v ∧ v ≤ 131071
  | .field .ax, v | .extra, v | .cOrExtra, v => 0 ≤ v ∧ v ≤ 67108863

/-- The bits of the instruction word that belong to a destination. -/
def Covers : Destination → Nat → Prop
  | .field f, i => f.pos ≤ i ∧ i < f.pos + f.width
  | .extra, _ => False
  | .cOrExtra, i => Field.c.pos ≤ i ∧ i < Field.c.pos + Field.c.width

/-- The values that can be placed before the extra word is looked at. -/
def Accepts : Destination → Int → Prop
  | .field f, v => f.Fits v
  | .extra, _ => True
  | .cOrExtra, v => Field.c.hi < v ∨ Field.c.Fits v

/-- A value is in range if it can be placed, and the extra word has room for it if it goes there. -/
theorem inRange_iff {dest : Destination} {v : Int} :
    dest.InRange v ↔ dest.Accepts v ∧ (dest.spills v = true → Field.ax.Fits v) := by
  cases dest with
  | field f => cases f <;> simp [InRange, Accepts, spills, Field.Fits, Field.lo, Field.hi,
      Field.bias, Field.size]
  | extra => simp [InRange, Accepts, spills, Field.Fits, Field.lo, Field.hi, Field.bias, Field.size]
  | cOrExtra =>
    have hspill : Destination.cOrExtra.spills v = true ↔ Field.c.hi < v := decide_eq_true_iff
    rw [hspill]
    simp only [InRange, Accepts, Field.Fits, Field.lo, Field.hi, Field.bias, Field.size]
    omega

end Destination

namespace Encoding

variable {e e' : Encoding} {dest : Destination} {v : Int}

/-- The index of a constant depends on nothing of an encoding but the constants of the line. -/
theorem constantIndex_congr (h : e.constants = e'.constants) (p : Pool) (c : Constant) :
    (e.constantIndex p c).1 = (e'.constantIndex p c).1 ∧
      (e.constantIndex p c).2.constants = (e'.constantIndex p c).2.constants := by
  rw [constantIndex, constantIndex, h]
  cases p.position? c with
  | some i => exact ⟨rfl, h⟩
  | none =>
    cases e'.constants.findIdx? (·.same c) with
    | some i => exact ⟨rfl, h⟩
    | none => exact ⟨rfl, rfl⟩

/-- Placing a value succeeds exactly if the destination accepts it. -/
theorem place_ok_iff : (∃ e', e.place v dest = .ok e') ↔ dest.Accepts v := by
  -- whatever else is noted with it, a store succeeds exactly if the value fits
  have hstore : ∀ (f : Field) (u : Int) (g : Word → Encoding),
      (∃ e', (do .ok (g (← e.word.set f u)) : Except FieldOverflow Encoding) = .ok e') ↔
        f.Fits u := by
    intro f u g
    constructor
    · rintro ⟨e', h⟩
      obtain ⟨w, hw, -⟩ := bind_eq_ok.mp h
      exact (Word.set_eq_ok.mp hw).1
    · intro hfit
      exact ⟨_, bind_eq_ok.mpr ⟨_, Word.set_eq_ok.mpr ⟨hfit, rfl⟩, rfl⟩⟩
  cases dest with
  | field f => exact hstore f v _
  | extra => exact ⟨fun _ => trivial, fun _ => ⟨_, rfl⟩⟩
  | cOrExtra =>
    simp only [place, Destination.Accepts]
    split
    · rename_i hlt
      have hzero : Field.c.Fits 0 := by decide
      exact ⟨fun _ => .inl hlt, fun _ => (hstore .c 0 _).mpr hzero⟩
    · rename_i hlt
      rw [or_iff_right hlt]
      exact hstore .c v _

/-- Placing a value changes no bit of the word that does not belong to the destination. -/
theorem testBit_place (h : e.place v dest = .ok e') {i : Nat} (hi : ¬ dest.Covers i) :
    e'.word.testBit i = e.word.testBit i := by
  have hout : ∀ {f : Field}, ¬ (f.pos ≤ i ∧ i < f.pos + f.width) →
      i < f.pos ∨ f.pos + f.width ≤ i := by
    intro f hf
    omega
  cases dest with
  | field f =>
    obtain ⟨w, hw, h⟩ := bind_eq_ok.mp h
    obtain rfl := Except.ok.inj h
    exact Word.testBit_set hw (hout hi)
  | extra =>
    obtain rfl := Except.ok.inj h
    rfl
  | cOrExtra =>
    simp only [place] at h
    split at h
    · obtain ⟨w, hw, h⟩ := bind_eq_ok.mp h
      obtain rfl := Except.ok.inj h
      exact Word.testBit_set hw (hout hi)
    · obtain ⟨w, hw, h⟩ := bind_eq_ok.mp h
      obtain rfl := Except.ok.inj h
      exact Word.testBit_set hw (hout hi)

end Encoding

/-! ## Values -/

namespace Draft

variable {d : Draft} {owners : Owners} {xs : List (Slot × Operand)} {e e' : Encoding}

/-- The values of operands, bound one after the other. None is placed, so none has to fit. -/
def valuesFrom (d : Draft) (owners : Owners) :
    List (Slot × Operand) → Encoding → Except LineError (List Int)
  | [], _ => .ok []
  | (slot, operand) :: rest, e => do
    let (v, e) ← d.bind owners slot.kinds e operand
    let vs ← d.valuesFrom owners rest e
    .ok (v :: vs)

/-- The values of the operands of an instruction line. -/
def values (d : Draft) (owners : Owners) (op : Opcode) (os : List Operand) :
    Except LineError (List Int) :=
  d.valuesFrom owners (op.slots.zip os) { word := Word.ofOpcode op }

/-- Binding looks at nothing of an encoding but the constants of the line. -/
theorem bind_congr (d : Draft) (owners : Owners) (h : e.constants = e'.constants) (ks : Kinds)
    (o : Operand) :
    (d.bind owners ks e o).map (fun r => (r.1, r.2.constants)) =
      (d.bind owners ks e' o).map fun r => (r.1, r.2.constants) := by
  cases o with
  | location label =>
    simp only [bind]
    split <;> simp [Except.map, h]
  | constant c =>
    obtain ⟨hi, hc⟩ := Encoding.constantIndex_congr h d.constants c
    simp only [bind, Except.map, hi, hc]
  | proto name =>
    simp only [bind]
    split <;> simp [Except.map, h]
  | _ => simp [bind, Except.map, h]

theorem valuesFrom_congr (h : e.constants = e'.constants) :
    d.valuesFrom owners xs e = d.valuesFrom owners xs e' := by
  induction xs generalizing e e' with
  | nil => rfl
  | cons x xs ih =>
    obtain ⟨slot, o⟩ := x
    have hbind := bind_congr d owners h slot.kinds o
    rw [valuesFrom, valuesFrom]
    cases hb : d.bind owners slot.kinds e o with
    | error err =>
      cases hb' : d.bind owners slot.kinds e' o with
      | error err' =>
        rw [hb, hb'] at hbind
        rw [Except.error.inj hbind]
      | ok r =>
        rw [hb, hb'] at hbind
        cases hbind
    | ok r =>
      cases hb' : d.bind owners slot.kinds e' o with
      | error err' =>
        rw [hb, hb'] at hbind
        cases hbind
      | ok r' =>
        rw [hb, hb'] at hbind
        obtain ⟨hv, hc⟩ := Prod.mk.inj (Except.ok.inj hbind)
        change (do let vs ← d.valuesFrom owners xs r.2; .ok (r.1 :: vs)) =
          (do let vs ← d.valuesFrom owners xs r'.2; .ok (r'.1 :: vs))
        rw [ih hc, hv]

/-- **What is accepted is exact.** If the operands can be encoded, each has a value that stands in its
place at the end. The extra word is asked for exactly by the values that go there, and no bit is
touched that belongs to none of the slots. -/
theorem encode_values (h : d.encode owners xs e = .ok e')
    (hs : ∀ x ∈ xs, x.2.Suits x.1.kinds)
    (hk : ∀ x ∈ xs, x.1.dest = .cOrExtra → x.1.kinds = .only .embedded)
    (ha : xs.Pairwise fun x y => x.1.dest.Apart y.1.dest)
    (hnew : d.constants.New e.constants) :
    ∃ vs, d.valuesFrom owners xs e = .ok vs ∧
      List.Forall₂ (fun x v => e'.Holds x.1.dest v) xs vs ∧
      e'.extra.isSome = (e.extra.isSome || (xs.zip vs).any fun y => y.1.1.dest.spills y.2) ∧
      ∀ i, (∀ x ∈ xs, ¬ x.1.dest.Covers i) → e'.word.testBit i = e.word.testBit i := by
  induction xs generalizing e with
  | nil =>
    obtain rfl := Except.ok.inj h
    exact ⟨[], rfl, .nil, (Bool.or_false _).symm, fun _ _ => rfl⟩
  | cons x xs ih =>
    obtain ⟨slot, o⟩ := x
    obtain ⟨⟨v, e₁⟩, hb, h⟩ := bind_eq_ok.mp h
    obtain ⟨e₂, hp, h⟩ := bind_eq_ok.mp h
    obtain ⟨hhead, ha⟩ := List.pairwise_cons.mp ha
    obtain ⟨hw, hx, hnew₁, -⟩ := Draft.bind_spec hb (hs _ List.mem_cons_self) hnew
    have hp : e₁.place v slot.dest = .ok e₂ := mapError_eq_ok.mp hp
    obtain ⟨⟨hc, -⟩, -, hextra, hholds, -⟩ := Encoding.place_spec hp
    have hs := fun y hy => hs y (List.mem_cons_of_mem _ hy)
    have hk := fun y hy => hk y (List.mem_cons_of_mem _ hy)
    have hnew₂ : d.constants.New e₂.constants := hc ▸ hnew₁
    obtain ⟨vs, hvs, hplaced, hsome, hbits⟩ := ih h hs hk ha hnew₂
    -- the places of the other operands lie apart, so the value stays where it is
    have hkeep := (Draft.encode_spec h hs hk ha hnew₂).frame slot.dest v hhead hholds
    refine ⟨v :: vs, ?_, .cons hkeep hplaced, ?_, ?_⟩
    · refine bind_eq_ok.mpr ⟨(v, e₁), hb, bind_eq_ok.mpr ⟨vs, ?_, rfl⟩⟩
      rw [valuesFrom_congr hc.symm]
      exact hvs
    · rw [hsome, hextra, hx, List.zip_cons_cons, List.any_cons, Bool.or_assoc]
    · intro i hi
      rw [hbits i fun y hy => hi y (List.mem_cons_of_mem _ hy),
        Encoding.testBit_place hp (hi _ List.mem_cons_self), hw]

/-- **What is refused.** If all operands have values, encoding them succeeds exactly if every
destination accepts its value, and fails on account of a field otherwise. -/
theorem encode_ok_iff {vs : List Int} (h : d.valuesFrom owners xs e = .ok vs) :
    ((∃ e', d.encode owners xs e = .ok e') ↔ ∀ y ∈ xs.zip vs, y.1.1.dest.Accepts y.2) ∧
      ∀ err, d.encode owners xs e = .error err → ∃ o, err = .field o := by
  induction xs generalizing e vs with
  | nil => exact ⟨⟨fun _ _ hy => absurd hy List.not_mem_nil, fun _ => ⟨e, rfl⟩⟩, fun _ h => by cases h⟩
  | cons x xs ih =>
    obtain ⟨slot, o⟩ := x
    obtain ⟨⟨v, e₁⟩, hb, h⟩ := bind_eq_ok.mp h
    obtain ⟨vs', hvs, h⟩ := bind_eq_ok.mp h
    obtain rfl := Except.ok.inj h
    have hencode : d.encode owners ((slot, o) :: xs) e =
        (e₁.place v slot.dest).mapError .field >>= d.encode owners xs := by
      rw [encode, hb]
      rfl
    rw [hencode, List.zip_cons_cons, List.forall_mem_cons, ← Encoding.place_ok_iff (e := e₁)]
    cases hp : e₁.place v slot.dest with
    | error err =>
      refine ⟨⟨?_, ?_⟩, ?_⟩
      · rintro ⟨e', h⟩
        cases h
      · rintro ⟨⟨e', h⟩, -⟩
        cases h
      · intro _ h
        exact ⟨err, (Except.error.inj h).symm⟩
    | ok e₂ =>
      have hc : e₂.constants = e₁.constants := (Encoding.place_spec hp).1.1
      have hrest := ih (e := e₂) ((valuesFrom_congr hc).trans hvs)
      refine ⟨?_, hrest.2⟩
      change (∃ e', d.encode owners xs e₂ = .ok e') ↔ _
      rw [hrest.1]
      exact (and_iff_right ⟨e₂, rfl⟩).symm

/-- The extra word, if there is one, must have room for its value. -/
theorem assemble_of_encode {op : Opcode} {os : List Operand} (mark : Option Nat)
    (he : d.encode owners (op.slots.zip os) { word := Word.ofOpcode op } = .ok e) :
    ((∃ m, d.assemble owners op os mark = .ok m) ↔ ∀ u, e.extra = some u → Field.ax.Fits u) ∧
      ∀ err, d.assemble owners op os mark = .error err → ∃ o, err = .field o := by
  rw [assemble, he]
  cases hx : e.extra with
  | none =>
    simp only [Bind.bind, Except.bind, hx]
    exact ⟨⟨fun _ _ h => (by cases h), fun _ => ⟨_, rfl⟩⟩, fun _ h => by cases h⟩
  | some u =>
    simp only [Bind.bind, Except.bind, hx, Word.extraArg, Word.set, Option.some.injEq, forall_eq']
    by_cases hfit : Field.ax.Fits u
    · simp only [if_pos hfit, Except.map, Except.mapError]
      exact ⟨⟨fun _ => hfit, fun _ => ⟨_, rfl⟩⟩, fun _ h => by cases h⟩
    · simp only [if_neg hfit, Except.map, Except.mapError]
      refine ⟨⟨?_, fun h => absurd h hfit⟩, fun _ h => ⟨_, (Except.error.inj h).symm⟩⟩
      rintro ⟨m, h⟩
      cases h

end Draft

/-! ## The words of a line -/

/-- A value that goes to the extra word is what the encoding has for it. -/
theorem Encoding.Holds.extra_eq {e : Encoding} {dest : Destination} {v : Int}
    (h : e.Holds dest v) (hs : dest.spills v = true) : e.extra = some v := by
  cases dest with
  | field f => cases hs
  | extra => exact h
  | cOrExtra =>
    rw [Holds, if_pos (of_decide_eq_true hs)] at h
    exact h.2

namespace Operand.SuitAll

variable {slots : List Slot} {os : List Operand}

theorem map_fst_zip (h : SuitAll slots os) : (slots.zip os).map Prod.fst = slots :=
  List.map_fst_zip (Nat.le_of_eq (List.Forall₂.length_eq h))

/-- The values beside the slots are those beside the slots with their operands. -/
theorem zip_values (h : SuitAll slots os) (vs : List Int) :
    slots.zip vs = ((slots.zip os).zip vs).map (Prod.map Prod.fst id) := by
  rw [← List.zip_map_left, h.map_fst_zip]

end Operand.SuitAll

namespace Draft

variable {d : Draft} {owners : Owners} {op : Opcode} {os : List Operand} {e : Encoding}

/-- What is encoded of a whole instruction, slot by slot. -/
theorem encode_slots (hs : Operand.SuitAll op.slots os)
    (he : d.encode owners (op.slots.zip os) { word := Word.ofOpcode op } = .ok e) :
    ∃ vs, d.values owners op os = .ok vs ∧
      List.Forall₂ (fun slot v => e.Holds slot.dest v) op.slots vs ∧
      e.extra.isSome = (op.slots.zip vs).any (fun x => x.1.dest.spills x.2) ∧
      ∀ i, e.word.testBit i = true → i < 6 ∨ ∃ slot ∈ op.slots, slot.dest.Covers i := by
  obtain ⟨vs, hv, hplaced, hsome, hbits⟩ := encode_values he (fun x hx => List.forall₂_zip hs hx)
    (fun x hx => Opcode.kinds_of_cOrExtra (List.of_mem_zip hx).1) (Opcode.zip_apart hs)
    (Pool.new_nil _)
  refine ⟨vs, hv, ?_, ?_, ?_⟩
  · rw [← hs.map_fst_zip]
    exact List.forall₂_map_left_iff.mpr hplaced
  · rw [hsome, hs.zip_values, List.any_map]
    rfl
  · intro i hi
    by_contra hfree
    obtain ⟨hsix, hcovers⟩ := not_or.mp hfree
    have hclear : ∀ x ∈ op.slots.zip os, ¬ x.1.dest.Covers i :=
      fun x hx hc => hcovers ⟨x.1, (List.of_mem_zip hx).1, hc⟩
    rw [hbits i hclear] at hi
    exact hsix (Word.testBit_ofOpcode hi)

/-- **Acceptance.** An instruction whose operands all have values is assembled exactly if every value
is in the range of its destination, and is refused on account of a field otherwise. -/
theorem assemble_ok_iff (mark : Option Nat) (hs : Operand.SuitAll op.slots os) {vs : List Int}
    (hv : d.values owners op os = .ok vs) :
    ((∃ m, d.assemble owners op os mark = .ok m) ↔
        ∀ x ∈ op.slots.zip vs, x.1.dest.InRange x.2) ∧
      ∀ err, d.assemble owners op os mark = .error err → ∃ o, err = .field o := by
  obtain ⟨hok, hfield⟩ := encode_ok_iff hv
  have hzip : (∀ y ∈ (op.slots.zip os).zip vs, y.1.1.dest.Accepts y.2) ↔
      ∀ x ∈ op.slots.zip vs, x.1.dest.Accepts x.2 := by
    rw [hs.zip_values, List.forall_mem_map]
    rfl
  rw [hzip] at hok
  simp only [Destination.inRange_iff]
  cases he : d.encode owners (op.slots.zip os) { word := Word.ofOpcode op } with
  | error err =>
    have hasm : d.assemble owners op os mark = .error err := by
      rw [assemble, he]
      rfl
    rw [hasm]
    refine ⟨⟨?_, ?_⟩, ?_⟩
    · rintro ⟨m, h⟩
      cases h
    · intro hall
      obtain ⟨e, h⟩ := hok.mpr fun x hx => (hall x hx).1
      cases he.symm.trans h
    · rintro _ ⟨⟩
      exact hfield err he
  | ok e =>
    obtain ⟨hiff, herr⟩ := assemble_of_encode mark he
    obtain ⟨vs', hv', hheld, hsome, -⟩ := encode_slots hs he
    obtain rfl : vs' = vs := Except.ok.inj (hv'.symm.trans hv)
    have hextra : ∀ x ∈ op.slots.zip vs', x.1.dest.spills x.2 = true → e.extra = some x.2 :=
      fun x hx => (List.forall₂_zip hheld hx).extra_eq
    refine ⟨hiff.trans ⟨?_, ?_⟩, herr⟩
    · intro hfit x hx
      exact ⟨hok.mp ⟨e, he⟩ x hx, fun hspill => hfit _ (hextra x hx hspill)⟩
    · -- an extra word is there because of some value
      intro hrange u hu
      rw [hu] at hsome
      obtain ⟨x, hx, hspill⟩ := List.any_eq_true.mp hsome.symm
      obtain rfl := Option.some.inj (hu.symm.trans (hextra x hx hspill))
      exact (hrange x hx).2 hspill

end Draft

/-- The value `v` stands where a destination sends it, in a word `w` and the word behind it if there
is one. -/
def Destination.Stored (w : Word) (extra : Option Word) (v : Int) : Destination → Prop
  | .field f => w.get f = v
  | .extra => ∃ x, extra = some x ∧ x.get .ax = v
  | .cOrExtra =>
    if v ≤ 511 then w.get .c = v ∧ extra = none
    else w.get .c = 0 ∧ ∃ x, extra = some x ∧ x.get .ax = v

/-- A word, and possibly an extra word behind it, is the instruction `op` with the values `vs`. -/
structure Opcode.Spelled (op : Opcode) (vs : List Int) (w : Word) (extra : Option Word) : Prop where
  /-- the word has the opcode -/
  opcode : w.opcode? = some op
  /-- there is one value for each slot, and it stands in its place -/
  placed : List.Forall₂ (fun slot v => slot.dest.Stored w extra v) op.slots vs
  /-- a bit that is set belongs to the opcode or to a slot -/
  clear : ∀ i, w.testBit i = true → i < 6 ∨ ∃ slot ∈ op.slots, slot.dest.Covers i
  /-- what stands behind the word is an extra word -/
  extraArg : ∀ x, extra = some x → x.opcode? = some .extraArg
  /-- only two instructions may have one -/
  alone : op ≠ .loadKX → op ≠ .setList → extra = none

/-- Besides the last slot of `SETLIST` no slot of the opcode sends a value to the extra word. -/
theorem Opcode.any_spills_of_cOrExtra {op : Opcode} {vs : List Int} {x : Slot × Int}
    (hlen : op.slots.length = vs.length) (hx : x ∈ op.slots.zip vs) (hd : x.1.dest = .cOrExtra) :
    (op.slots.zip vs).any (fun y => y.1.dest.spills y.2) = x.1.dest.spills x.2 := by
  have hop : ∀ op : Opcode, ∀ slot ∈ op.slots, slot.dest = .cOrExtra → op = .setList := by
    intro op
    cases op <;> decide
  obtain rfl := hop op x.1 (List.of_mem_zip hx).1 hd
  obtain ⟨v₁, v₂, v₃, rfl⟩ := List.length_eq_three.mp hlen.symm
  simp only [slots, List.zip_cons_cons, List.zip_nil_left, List.mem_cons, List.not_mem_nil,
    or_false] at hx
  rcases hx with rfl | rfl | rfl
  · cases hd
  · cases hd
  · simp [slots, fieldSlot, Destination.spills]

/-- **What is accepted**, in the words that are appended. -/
theorem Draft.assemble_spelled {d : Draft} {owners : Owners} {op : Opcode} {os : List Operand}
    {mark : Option Nat} {m : Emission} (h : d.assemble owners op os mark = .ok m)
    (hs : Operand.SuitAll op.slots os) :
    ∃ vs, d.values owners op os = .ok vs ∧ op.Spelled vs m.word m.extra := by
  have hemits := Draft.assemble_spec h hs
  obtain ⟨e, he, hm, hextra⟩ := Draft.assemble_eq_ok h
  have hword : m.word = e.word := congrArg Emission.word hm
  obtain ⟨vs, hv, hheld, hany, hbits⟩ := encode_slots hs he
  have hlen := List.Forall₂.length_eq hheld
  have hax : ∀ v, e.extra = some v → ∃ x, m.extra = some x ∧ x.get .ax = v := by
    intro v hv
    rcases hextra with ⟨-, hnone⟩ | ⟨u, w, hx, hu, -, hget⟩
    · cases hnone.symm.trans hv
    · obtain rfl := Option.some.inj (hu.symm.trans hv)
      exact ⟨w, hx, hget⟩
  have hnone : e.extra = none → m.extra = none := by
    intro hn
    rcases hextra with ⟨hx, -⟩ | ⟨u, w, -, hu, -⟩
    · exact hx
    · cases hn.symm.trans hu
  refine ⟨vs, hv, hemits.opcode, ?_, ?_, hemits.extra, ?_⟩
  · refine List.forall₂_iff_zip.mpr ⟨hlen, ?_⟩
    intro slot v hmem
    have hhold : e.Holds slot.dest v := List.forall₂_zip hheld hmem
    cases hd : slot.dest with
    | field f =>
      rw [hd] at hhold
      exact (congrArg (Word.get · f) hword).trans hhold
    | extra =>
      rw [hd] at hhold
      exact hax v hhold
    | cOrExtra =>
      have hspill := Opcode.any_spills_of_cOrExtra hlen hmem hd
      rw [← hany, hd, Destination.spills] at hspill
      rw [hd, Encoding.Holds] at hhold
      rw [Destination.Stored, hword]
      have hhi : Field.c.hi = 511 := rfl
      rw [hhi] at hspill hhold
      by_cases hle : v ≤ 511
      · rw [if_neg (Int.not_lt.mpr hle)] at hhold
        rw [if_pos hle]
        refine ⟨hhold, hnone (Option.not_isSome_iff_eq_none.mp ?_)⟩
        rw [hspill]
        simpa using hle
      · rw [if_pos (Int.not_le.mp hle)] at hhold
        rw [if_neg hle]
        exact ⟨hhold.1, hax v hhold.2⟩
  · rw [hword]
    exact hbits
  · intro hkx hlist
    have hone : op.wordCount os = 1 := by
      rw [Opcode.wordCount]
      · exact fun h => absurd h hkx
      · exact fun _ _ _ h => absurd h hlist
    have hlength := hemits.length
    rw [hone, Emission.words, List.length_cons] at hlength
    cases hx : m.extra with
    | none => rfl
    | some x => simp [hx] at hlength

/-! ## Lines -/

namespace Assembler

variable {a : Assembler} {d : Draft} {line : String} {op : Opcode} {os : List Operand}
  {mark : Option Nat}

/-- An instruction that can be read is refused for no other reason than assembling it is. -/
theorem instruction_eq_assemble {word : String} {cs : List Char}
    (h : Item.instruction? word cs = some (.instruction op os mark)) :
    Opcode.lookup word = some op ∧ Operand.SuitAll op.slots os ∧
      ∀ (d : Draft) (owners : Owners), d.instruction owners word cs =
        d.assemble owners op os mark := by
  rw [Item.instruction?] at h
  obtain ⟨op', hop, h⟩ := Option.bind_eq_some_iff.mp h
  obtain ⟨⟨os', rest⟩, hread, h⟩ := Option.bind_eq_some_iff.mp h
  obtain ⟨comment, hmore, h⟩ := Option.bind_eq_some_iff.mp h
  obtain ⟨mark', hmark, h⟩ := Option.bind_eq_some_iff.mp h
  obtain ⟨rfl, rfl, rfl⟩ := Item.instruction.inj (Option.some.inj h)
  rw [toOption_eq_some] at hread hmore hmark
  refine ⟨hop, Operand.readAll_suits hread, fun d owners => ?_⟩
  rw [Draft.instruction, hop]
  simp only [hread, hmore, hmark, Except.mapError, Bind.bind, Except.bind]
  rfl

/-- A line of code that says an instruction: how it begins. -/
theorem read?_eq_instruction
    (h : Statement.read? .code line.toList = some (.item (.instruction op os mark))) :
    (∀ a : Assembler, a.segment = .code →
      a.react line.toList = a.codeLine (Scan.skipBlanks line.toList)) ∧
    ∃ word rest, Scan.name (Scan.skipBlanks line.toList) = .ok (word, rest) ∧
      (∀ rest', rest ≠ ':' :: rest') ∧
      Item.instruction? word rest = some (.instruction op os mark) := by
  have hdirective : ∀ cs, Statement.directive? cs ≠ some (.item (.instruction op os mark)) := by
    intro cs h
    obtain ⟨⟨word, rest⟩, -, h⟩ := Option.bind_eq_some_iff.mp h
    obtain ⟨directive, -, h⟩ := Option.bind_eq_some_iff.mp h
    split at h
    · obtain ⟨⟨name, header⟩, -, h⟩ := Option.bind_eq_some_iff.mp h
      cases h
    · cases h
  rw [Statement.read?] at h
  split at h
  · cases h
  · cases h
  · exact absurd h (hdirective _)
  · rename_i hnil hcomment hdot
    constructor
    · intro a hseg
      rw [react, hseg]
      split
      · exact absurd ‹_› hnil
      · exact absurd ‹_› (hcomment _)
      · exact absurd ‹_› (hdot _)
      · rfl
    · obtain ⟨i, hcode, hi⟩ := Option.map_eq_some_iff.mp h
      obtain rfl := Statement.item.inj hi
      cases hname : Scan.name (Scan.skipBlanks line.toList) with
      | error err =>
        rw [Item.code?, hname] at hcode
        cases hcode
      | ok r =>
        obtain ⟨word, rest⟩ := r
        have hcolon : ∀ rest', rest ≠ ':' :: rest' := by
          rintro rest' rfl
          rw [Item.code?_of_colon hname] at hcode
          obtain ⟨u, -, hlabel⟩ := Option.map_eq_some_iff.mp hcode
          cases hlabel
        rw [Item.code?_of_not_colon hname hcolon] at hcode
        exact ⟨word, rest, rfl, hcolon, hcode⟩

/-- **Feeding an instruction.** A line of code that can be read as an instruction begins with the
mnemonic of its opcode, and is accepted if the instruction can be assembled. -/
theorem feed_instruction (hseg : a.segment = .code) (hd : a.draft = some d)
    (hread : Statement.read? .code line.toList = some (.item (.instruction op os mark))) :
    (∃ word rest, Scan.name (Scan.skipBlanks line.toList) = .ok (word, rest) ∧
      Keyword.Matches word op.mnemonic) ∧ Operand.SuitAll op.slots os ∧
    a.feed line =
      match d.assemble a.owners op os mark with
      | .ok m => (none, a.emit m)
      | .error e => (some e, a) := by
  obtain ⟨hreact, word, rest, hname, hcolon, hsaid⟩ := read?_eq_instruction hread
  obtain ⟨hop, hs, hasm⟩ := instruction_eq_assemble hsaid
  refine ⟨⟨word, rest, hname, ?_⟩, hs, ?_⟩
  · have hfound := List.find?_some hop
    exact (eq_of_beq hfound).symm
  · have hline : a.codeLine (Scan.skipBlanks line.toList) =
        .ofExcept ((d.assemble a.owners op os mark).map fun m => [.emit m]) := by
      rw [codeLine, hname]
      split
      · cases ‹_›
      · rename_i hok
        exact absurd (Prod.mk.inj (Except.ok.inj hok)).2 (hcolon _)
      · rename_i hok
        obtain ⟨rfl, rfl⟩ := Prod.mk.inj (Except.ok.inj hok)
        rw [hd, ← hasm]
    rw [feed, hreact a hseg, hline]
    cases d.assemble a.owners op os mark <;> rfl

end Assembler

/-- The second slot of `LOADKX` and the last of `SETLIST` are the only ones without a field of their
own. -/
theorem Opcode.dest_of_not_field (op : Opcode) (i : Fin op.slots.length) :
    ((op.slots.get i).dest = .extra ↔ op = .loadKX ∧ i.val = 1) ∧
      ((op.slots.get i).dest = .cOrExtra ↔ op = .setList ∧ i.val = 2) := by
  revert i
  cases op <;> decide

/-- **Instructions are encoded exactly.** A line of code that can be read as an instruction names its
opcode. If it is accepted, all operands have values, and the words that are appended are the
instruction with these values: nothing is cut off or overwritten, and no other bit is set.

If all operands have values, the line is accepted exactly if every value is in the range of its
destination, and otherwise it is refused on account of a field. The destination is the extra word in
the second slot of `LOADKX` only, and the field `C` or the extra word in the last slot of `SETLIST`
only. -/
theorem instruction_encoded_exactly {a : Assembler} {d : Draft} {line : String} {op : Opcode}
    {os : List Operand} {mark : Option Nat} (hseg : a.segment = .code) (hd : a.draft = some d)
    (hread : Statement.read? .code line.toList = some (.item (.instruction op os mark))) :
    (∃ word rest, Scan.name (Scan.skipBlanks line.toList) = .ok (word, rest) ∧
      Keyword.Matches word op.mnemonic) ∧
    ((a.feed line).1 = none → ∃ vs w extra d', d.values a.owners op os = .ok vs ∧
      (a.feed line).2.draft = some d' ∧
      d'.words.toList = d.words.toList ++ w :: extra.toList ∧ op.Spelled vs w extra) ∧
    (∀ vs, d.values a.owners op os = .ok vs →
      ((a.feed line).1 = none ↔ ∀ x ∈ op.slots.zip vs, x.1.dest.InRange x.2) ∧
      ((∃ e, (a.feed line).1 = some (.field e)) ↔
        ∃ x ∈ op.slots.zip vs, ¬ x.1.dest.InRange x.2)) ∧
    ∀ i : Fin op.slots.length,
      ((op.slots.get i).dest = .extra ↔ op = .loadKX ∧ i.val = 1) ∧
      ((op.slots.get i).dest = .cOrExtra ↔ op = .setList ∧ i.val = 2) := by
  obtain ⟨hmnemonic, hs, hfeed⟩ := Assembler.feed_instruction hseg hd hread
  refine ⟨hmnemonic, ?_, ?_, op.dest_of_not_field⟩
  · intro hacc
    cases hasm : d.assemble a.owners op os mark with
    | error e =>
      rw [hfeed, hasm] at hacc
      cases hacc
    | ok m =>
      obtain ⟨vs, hv, hspelled⟩ := Draft.assemble_spelled hasm hs
      rw [hfeed, hasm]
      refine ⟨vs, m.word, m.extra, _, hv, congrArg Assembler.draft (Assembler.emit_of_some hd m),
        ?_, hspelled⟩
      rw [Draft.toList_words_emit, Emission.words]
  · intro vs hv
    obtain ⟨hok, hfield⟩ := Draft.assemble_ok_iff mark hs hv
    have hexists : (∃ x ∈ op.slots.zip vs, ¬ x.1.dest.InRange x.2) ↔
        ¬ ∀ x ∈ op.slots.zip vs, x.1.dest.InRange x.2 := by
      simp
    rw [hexists, ← hok]
    cases hasm : d.assemble a.owners op os mark with
    | error e =>
      obtain ⟨o, rfl⟩ := hfield e hasm
      rw [hfeed, hasm]
      simp
    | ok m =>
      rw [hfeed, hasm]
      simp

/-- A function with an open list of instructions. -/
def openLines : List String := [".upvalues 0", ".func main 2 0 0", ".begin_code"]

/-- A value that does not fit in the field `C` goes to an extra word; one that does not fit there
either is refused. -/
theorem instruction_encoded_exactly_setList :
    ∃ d, (({} : Assembler).feedAll openLines).segment = .code ∧
      (({} : Assembler).feedAll openLines).draft = some d ∧
      ((({} : Assembler).feedAll openLines).feed "SetList %3 5 100000").1 = none ∧
      (∃ vs w extra d', d.values (({} : Assembler).feedAll openLines).owners .setList
          [.stack 3, .embedded 5, .embedded 100000] = .ok vs ∧
        ((({} : Assembler).feedAll openLines).feed "SetList %3 5 100000").2.draft = some d' ∧
        d'.words.toList = d.words.toList ++ w :: extra.toList ∧
        Opcode.setList.Spelled vs w extra) ∧
      d.values (({} : Assembler).feedAll openLines).owners .setList
        [.stack 3, .embedded 5, .embedded 67108864] = .ok [3, 5, 67108864] ∧
      ∃ e, ((({} : Assembler).feedAll openLines).feed "setlist %3 5 67108864").1 =
        some (.field e) := by
  have hseg : (({} : Assembler).feedAll openLines).segment = .code := by decide +kernel
  have hlook : (({} : Assembler).feedAll openLines).draft.map (fun d =>
      (d.values (({} : Assembler).feedAll openLines).owners .setList
        [.stack 3, .embedded 5, .embedded 67108864]).toOption) = some (some [3, 5, 67108864]) := by
    decide +kernel
  have hread : Statement.read? .code "SetList %3 5 100000".toList =
      some (.item (.instruction .setList [.stack 3, .embedded 5, .embedded 100000] none)) := by
    decide +kernel
  have hread' : Statement.read? .code "setlist %3 5 67108864".toList =
      some (.item (.instruction .setList [.stack 3, .embedded 5, .embedded 67108864] none)) := by
    decide +kernel
  have hacc : ((({} : Assembler).feedAll openLines).feed "SetList %3 5 100000").1 = none := by
    decide +kernel
  obtain ⟨d, hd, hv⟩ := Option.map_eq_some_iff.mp hlook
  have hv := toOption_eq_some.mp hv
  obtain ⟨-, hspelled, -⟩ := instruction_encoded_exactly hseg hd hread
  obtain ⟨-, -, hrange, -⟩ := instruction_encoded_exactly hseg hd hread'
  refine ⟨d, hseg, hd, hacc, hspelled hacc, hv, (hrange _ hv).2.mpr ?_⟩
  exact ⟨(⟨.cOrExtra, .only .embedded⟩, 67108864), by simp [Opcode.slots], by
    simp [Destination.InRange]⟩

end ChunkAsm
