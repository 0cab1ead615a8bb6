import ChunkAsm.Operand
import Mathlib.Data.List.Forall2

/-!
# What a slot can be given

An operand that was read for a slot **suits** the slot: it is of a kind that the slot accepts, or an
integer in a slot for constants. Constants need one more remark. The pool compares numbers as
numbers, and a NaN is different from itself, so a NaN could be added to a pool but never be found
there. No literal denotes a NaN (`literal_same`), hence every constant that is written is the same as
itself.
-/

namespace ChunkAsm

/-! ## Inverting computations that can fail -/

/-- Inversion for `bind`. -/
theorem bind_eq_ok {ε α β : Type} {x : Except ε α} {f : α → Except ε β} {b : β} :
    x >>= f = .ok b ↔ ∃ a, x = .ok a ∧ f a = .ok b := by
  cases x <;> simp [bind, Except.bind]

/-- Inversion for `mapError`: a success is untouched. -/
theorem mapError_eq_ok {ε ε' α : Type} {x : Except ε α} {f : ε → ε'} {a : α} :
    x.mapError f = .ok a ↔ x = .ok a := by
  cases x <;> simp [Except.mapError]

/-! ## No literal is a NaN -/

namespace Binary64

/-- A pattern that is at most the infinity is no NaN. -/
theorem isNaN_eq_false {x : Binary64} (h : x.bits ≤ infinityBits) : x.isNaN = false := by
  have hand : x.magnitude.toNat ≤ x.bits.toNat := by
    rw [magnitude, UInt64.toNat_and]
    exact Nat.and_le_left
  have hle : x.magnitude ≤ infinityBits :=
    UInt64.le_iff_toNat_le.mpr (Nat.le_trans hand (UInt64.le_iff_toNat_le.mp h))
  rw [isNaN, decide_eq_false_iff_not]
  exact UInt64.not_lt.mpr hle

/-- Rounding a fraction gives a number: what is too large becomes infinite. -/
theorem isNaN_ofRatio (n d : Nat) : (ofRatio n d).isNaN = false := by
  apply isNaN_eq_false
  rw [ofRatio]
  split
  · decide
  · rw [UInt64.le_iff_toNat_le, UInt64.toNat_ofNat']
    exact Nat.le_trans (Nat.mod_le _ _) (Nat.min_le_right _ _)

/-- A change of sign does not touch the magnitude. -/
theorem magnitude_neg (x : Binary64) : x.neg.magnitude = x.magnitude := by
  apply UInt64.toBitVec_inj.mp
  simp only [magnitude, neg, UInt64.toBitVec_and, UInt64.toBitVec_xor]
  ext i hi
  -- the sign bit is not one of the bits that the magnitude keeps
  have hz : signBit.toBitVec &&& (0x7fffffffffffffff : UInt64).toBitVec = 0#64 := rfl
  have hi0 := congrArg (·[i]) hz
  simp only [BitVec.getElem_and, BitVec.getElem_zero] at hi0
  simp only [BitVec.getElem_and, BitVec.getElem_xor]
  rw [Bool.and_xor_distrib_right, hi0, Bool.xor_false]

theorem isNaN_neg (x : Binary64) : x.neg.isNaN = x.isNaN := by
  rw [isNaN, magnitude_neg, isNaN]

/-- A number that is no NaN equals itself. -/
theorem same_self {x : Binary64} (h : x.isNaN = false) : x.same x = true := by
  simp [same, h]

end Binary64

namespace Scan

theorem hexNumber_not_nan {shown cs rest : List Char} {x : Binary64}
    (h : hexNumber shown cs = .ok (x, rest)) : x.isNaN = false := by
  rw [hexNumber] at h
  split at h
  · cases h
  · obtain ⟨rfl, -⟩ := Prod.mk.inj (Except.ok.inj h)
    exact Binary64.isNaN_ofRatio _ _

theorem decimalNumber_not_nan {shown cs rest : List Char} {x : Binary64}
    (h : decimalNumber shown cs = .ok (x, rest)) : x.isNaN = false := by
  simp only [decimalNumber] at h
  -- with and without a point, and in each case with and without digits
  split at h <;> split at h
  · cases h
  · obtain ⟨rfl, -⟩ := Prod.mk.inj (Except.ok.inj h)
    exact Binary64.isNaN_ofRatio _ _
  · cases h
  · obtain ⟨rfl, -⟩ := Prod.mk.inj (Except.ok.inj h)
    exact Binary64.isNaN_ofRatio _ _

/-- A sign does not make a NaN of a number. -/
theorem signed_not_nan {x : Binary64} (h : x.isNaN = false) (negative : Bool) :
    (if negative then x.neg else x).isNaN = false := by
  cases negative with
  | false => exact h
  | true => rw [if_pos rfl, Binary64.isNaN_neg, h]

/-- A written number is no NaN. -/
theorem number_not_nan {cs rest : List Char} {x : Binary64} (h : number cs = .ok (x, rest)) :
    x.isNaN = false := by
  simp only [number] at h
  split at h <;> obtain ⟨⟨y, rest'⟩, hy, hx⟩ := bind_eq_ok.mp h <;>
    obtain ⟨rfl, -⟩ := Prod.mk.inj (Except.ok.inj hx) <;> apply signed_not_nan
  · exact hexNumber_not_nan hy
  · exact hexNumber_not_nan hy
  · exact decimalNumber_not_nan hy

theorem literalToken_same {cs rest : List Char} {c : Constant}
    (h : literalToken cs = .ok (c, rest)) : c.same c = true := by
  cases cs with
  | nil => cases h
  | cons x xs =>
    simp only [literalToken] at h
    split at h
    · obtain ⟨⟨bytes, rest'⟩, -, hc⟩ := bind_eq_ok.mp h
      obtain ⟨rfl, -⟩ := Prod.mk.inj (Except.ok.inj hc)
      simp [Constant.same]
    · split at h
      · obtain ⟨⟨y, rest'⟩, hy, hc⟩ := bind_eq_ok.mp h
        obtain ⟨rfl, -⟩ := Prod.mk.inj (Except.ok.inj hc)
        exact Binary64.same_self (number_not_nan hy)
      · split at h
        · split at h
          · rename_i k hk
            obtain ⟨rfl, -⟩ := Prod.mk.inj (Except.ok.inj h)
            simp only [literalWord?] at hk
            split at hk
            · cases hk
              rfl
            · split at hk
              · cases hk
                rfl
              · split at hk
                · cases hk
                  rfl
                · cases hk
          · cases h
        · cases h

/-- **A written constant is the same as itself.** -/
theorem literal_same {cs rest : List Char} {c : Constant} (h : literal cs = .ok (c, rest)) :
    c.same c = true := by
  obtain ⟨⟨k, rest'⟩, hk, hc⟩ := bind_eq_ok.mp h
  simp only at hc
  split at hc
  · obtain ⟨rfl, -⟩ := Prod.mk.inj (Except.ok.inj hc)
    exact literalToken_same hk
  · cases hc

end Scan

/-! ## Operands that suit a slot -/

namespace Operand

/-- An operand suits a slot with the given kinds: its kind is one of them, or it is an integer in a
slot for constants; and a constant is the same as itself. -/
structure Suits (ks : Kinds) (o : Operand) : Prop where
  /-- the slot accepts the operand -/
  kind : ks.has o.kind = true ∨ (o.kind = .embedded ∧ ks.constant = true)
  /-- a constant can be found in a pool that it is added to -/
  same : ∀ c, o = .constant c → c.same c = true

/-- An operand without a constant suits every slot that has its kind. -/
theorem Suits.of_has {ks : Kinds} {o : Operand} (h : ks.has o.kind = true)
    (hc : ∀ c, o ≠ .constant c) : o.Suits ks :=
  ⟨.inl h, fun c he => absurd he (hc c)⟩

/-- A slot with one kind takes operands of this kind only. Slots for constants, which take integers
as well, are the exception. -/
theorem Suits.kind_eq_of_only {k : OperandKind} {o : Operand} (h : o.Suits (.only k))
    (hk : k ≠ .constant) : o.kind = k := by
  have hhas : ∀ k k' : OperandKind, (Kinds.only k).has k' = true → k' = k := by
    intro k k'
    cases k <;> cases k' <;> decide
  have hconst : ∀ k : OperandKind, (Kinds.only k).constant = true → k = .constant := by
    intro k
    cases k <;> decide
  rcases h.kind with hin | ⟨-, hc⟩
  · exact hhas k o.kind hin
  · exact absurd (hconst k hc) hk

theorem permit_eq_ok {k : OperandKind} {ks : Kinds} {u : Unit} (h : permit k ks = .ok u) :
    ks.has k = true := by
  rw [permit] at h
  split at h
  · assumption
  · cases h

/-- Inversion for an operand without a sigil: a constant behind its keyword, the name of a function,
or a value, which a slot for constants takes as well. -/
theorem bare_cases {ks : Kinds} {cs rest : List Char} {o : Operand}
    (h : bare ks cs = .ok (o, rest)) :
    (∃ c cs', o = .constant c ∧ ks.constant = true ∧ Scan.literal cs' = .ok (c, rest)) ∨
    (∃ s, o = .proto s ∧ ks.proto = true ∧ Scan.name cs = .ok (s, rest)) ∨
    (∃ n, o = .embedded n ∧ (ks.embedded = true ∨ ks.constant = true)) := by
  simp only [bare] at h
  split at h
  · obtain ⟨u, hp, h⟩ := bind_eq_ok.mp h
    obtain ⟨⟨c, rest'⟩, hc, h⟩ := bind_eq_ok.mp h
    obtain ⟨rfl, rfl⟩ := Prod.mk.inj (Except.ok.inj h)
    exact .inl ⟨c, _, rfl, permit_eq_ok hp, mapError_eq_ok.mp hc⟩
  · split at h
    · rename_i hproto
      obtain ⟨⟨s, rest'⟩, hs, h⟩ := bind_eq_ok.mp h
      obtain ⟨rfl, rfl⟩ := Prod.mk.inj (Except.ok.inj h)
      exact .inr (.inl ⟨s, rfl, hproto, mapError_eq_ok.mp hs⟩)
    · split at h
      · rename_i hemb
        obtain ⟨⟨n, rest'⟩, -, h⟩ := bind_eq_ok.mp h
        simp only at h
        split at h
        · obtain ⟨rfl, -⟩ := Prod.mk.inj (Except.ok.inj h)
          exact .inr (.inr ⟨n, rfl, hemb⟩)
        · cases h
      · cases h

/-- Inversion for an operand: its sigil and what follows it, or an operand without a sigil. -/
theorem read_cases {ks : Kinds} {cs rest : List Char} {o : Operand}
    (h : read ks cs = .ok (o, rest)) :
    (∃ n cs', o = .stack n ∧ ks.stack = true ∧ Scan.skipBlanks cs = '%' :: cs' ∧
      Scan.integer cs' = .ok (n, rest)) ∨
    (∃ n cs', o = .upvalue n ∧ ks.upvalue = true ∧ Scan.skipBlanks cs = '@' :: cs' ∧
      Scan.integer cs' = .ok (n, rest)) ∨
    (∃ s cs', o = .location s ∧ ks.location = true ∧ Scan.skipBlanks cs = '$' :: cs' ∧
      Scan.name cs' = .ok (s, rest)) ∨
    bare ks (Scan.skipBlanks cs) = .ok (o, rest) := by
  simp only [read] at h
  split at h
  · cases h
  · cases h
  · rename_i cs' hskip
    obtain ⟨u, hp, h⟩ := bind_eq_ok.mp h
    obtain ⟨⟨n, rest'⟩, hn, h⟩ := bind_eq_ok.mp h
    obtain ⟨rfl, rfl⟩ := Prod.mk.inj (Except.ok.inj h)
    exact .inl ⟨n, cs', rfl, permit_eq_ok hp, hskip, mapError_eq_ok.mp hn⟩
  · rename_i cs' hskip
    obtain ⟨u, hp, h⟩ := bind_eq_ok.mp h
    obtain ⟨⟨n, rest'⟩, hn, h⟩ := bind_eq_ok.mp h
    obtain ⟨rfl, rfl⟩ := Prod.mk.inj (Except.ok.inj h)
    exact .inr (.inl ⟨n, cs', rfl, permit_eq_ok hp, hskip, mapError_eq_ok.mp hn⟩)
  · rename_i cs' hskip
    obtain ⟨u, hp, h⟩ := bind_eq_ok.mp h
    obtain ⟨⟨s, rest'⟩, hs, h⟩ := bind_eq_ok.mp h
    obtain ⟨rfl, rfl⟩ := Prod.mk.inj (Except.ok.inj h)
    exact .inr (.inr (.inl ⟨s, cs', rfl, permit_eq_ok hp, hskip, mapError_eq_ok.mp hs⟩))
  · exact .inr (.inr (.inr h))

/-- What is read for a slot suits it. -/
theorem read_suits {ks : Kinds} {cs rest : List Char} {o : Operand}
    (h : read ks cs = .ok (o, rest)) : o.Suits ks := by
  rcases read_cases h with ⟨n, _, rfl, hks, -⟩ | ⟨n, _, rfl, hks, -⟩ | ⟨s, _, rfl, hks, -⟩ | h
  · exact .of_has hks nofun
  · exact .of_has hks nofun
  · exact .of_has hks nofun
  · rcases bare_cases h with ⟨c, _, rfl, hks, hc⟩ | ⟨s, rfl, hks, -⟩ | ⟨n, rfl, hks | hks⟩
    · refine ⟨.inl hks, fun c' hc' => ?_⟩
      obtain rfl := Operand.constant.inj hc'
      exact Scan.literal_same hc
    · exact .of_has hks nofun
    · exact .of_has hks nofun
    · exact ⟨.inr ⟨rfl, hks⟩, nofun⟩

/-- Operands suit the slots of an opcode, one by one. -/
def SuitAll (slots : List Slot) (os : List Operand) : Prop :=
  List.Forall₂ (fun slot o => o.Suits slot.kinds) slots os

/-- Every operand stands in a slot that it suits. -/
theorem SuitAll.exists_slot {slots : List Slot} {os : List Operand} (h : SuitAll slots os)
    {o : Operand} (ho : o ∈ os) : ∃ slot, (slot, o) ∈ slots.zip os ∧ o.Suits slot.kinds := by
  have hsnd : (slots.zip os).map Prod.snd = os :=
    List.map_snd_zip (Nat.le_of_eq (List.Forall₂.length_eq h).symm)
  rw [← hsnd] at ho
  obtain ⟨⟨slot, o⟩, hx, rfl⟩ := List.mem_map.mp ho
  exact ⟨slot, hx, List.forall₂_zip h hx⟩

/-- The slots accept the kind of every operand that is no integer. -/
theorem SuitAll.exists_has {slots : List Slot} {os : List Operand} (h : SuitAll slots os)
    {o : Operand} (ho : o ∈ os) (hk : o.kind ≠ .embedded) :
    ∃ slot ∈ slots, slot.kinds.has o.kind = true := by
  obtain ⟨slot, hz, hs⟩ := h.exists_slot ho
  exact ⟨slot, (List.of_mem_zip hz).1, hs.kind.resolve_right fun he => hk he.1⟩

/-- A jump has two operands. The label is the second one and goes to `sBx`. -/
theorem SuitAll.of_location {op : Opcode} {os : List Operand} (h : SuitAll op.slots os)
    {label : String} (hl : .location label ∈ os) :
    ∃ slot o, op.slots = [slot, Opcode.fieldSlot .sbx .location] ∧ os = [o, .location label] ∧
      ∀ l, o ≠ .location l := by
  have hslots : ∀ op : Opcode, ∀ slot ∈ op.slots, slot.kinds.location = true →
      ∃ x ∈ op.slots, op.slots = [x, Opcode.fieldSlot .sbx .location] ∧
        x.kinds.location = false := by
    intro op
    cases op <;> decide
  obtain ⟨slot, hslot, hloc⟩ := h.exists_has hl nofun
  obtain ⟨x, -, heq, hx⟩ := hslots op slot hslot hloc
  rw [heq] at h
  obtain ⟨o₁, os₁, h₁, hos₁, rfl⟩ := List.forall₂_cons_left_iff.mp h
  obtain ⟨o₂, os₂, -, hos₂, rfl⟩ := List.forall₂_cons_left_iff.mp hos₁
  obtain rfl := List.forall₂_nil_left_iff.mp hos₂
  have hne : ∀ l, o₁ ≠ .location l := by
    rintro l rfl
    have hbad : x.kinds.location = true := h₁.kind.resolve_right nofun
    rw [hx] at hbad
    cases hbad
  refine ⟨x, o₁, heq, ?_, hne⟩
  rcases List.mem_pair.mp hl with h1 | h2
  · exact absurd h1.symm (hne label)
  · rw [h2]

/-- A closure is written with a register and the name of a function. -/
theorem SuitAll.of_closure {os : List Operand} (h : SuitAll (Opcode.slots .closure) os) :
    ∃ a name, os = [.stack a, .proto name] := by
  obtain ⟨o₁, os₁, h₁, hos₁, rfl⟩ := List.forall₂_cons_left_iff.mp h
  obtain ⟨o₂, os₂, h₂, hos₂, rfl⟩ := List.forall₂_cons_left_iff.mp hos₁
  obtain rfl := List.forall₂_nil_left_iff.mp hos₂
  have hk₁ : o₁.kind = .stack := Suits.kind_eq_of_only (k := .stack) h₁ nofun
  have hk₂ : o₂.kind = .proto := Suits.kind_eq_of_only (k := .proto) h₂ nofun
  cases o₁ with
  | stack a =>
    cases o₂ with
    | proto name => exact ⟨a, name, rfl⟩
    | _ => cases hk₂
  | _ => cases hk₁

/-- No other instruction names a function. -/
theorem SuitAll.proto_not_mem {op : Opcode} {os : List Operand} (h : SuitAll op.slots os)
    (hop : op ≠ .closure) (name : String) : .proto name ∉ os := by
  have hslots : ∀ op : Opcode, op ≠ .closure → ∀ slot ∈ op.slots, slot.kinds.proto = false := by
    intro op
    cases op <;> decide
  intro hmem
  obtain ⟨slot, hslot, hproto⟩ := h.exists_has hmem nofun
  exact Bool.false_ne_true ((hslots op hop slot hslot).symm.trans hproto)

/-- **What is read suits.** The operands of a line suit the slots they are read for. -/
theorem readAll_suits {slots : List Slot} {cs rest : List Char} {os : List Operand}
    (h : readAll slots cs = .ok (os, rest)) : SuitAll slots os := by
  induction slots generalizing cs os rest with
  | nil =>
    obtain ⟨rfl, -⟩ := Prod.mk.inj (Except.ok.inj h)
    exact .nil
  | cons slot slots ih =>
    obtain ⟨⟨o, rest'⟩, ho, h⟩ := bind_eq_ok.mp h
    obtain ⟨⟨os', rest''⟩, hos, h⟩ := bind_eq_ok.mp h
    obtain ⟨rfl, -⟩ := Prod.mk.inj (Except.ok.inj h)
    exact .cons (read_suits ho) (ih hos)

end Operand

end ChunkAsm
