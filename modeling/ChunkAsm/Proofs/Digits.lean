import ChunkAsm.Scan
import Mathlib.Data.Nat.Digits.Defs

/-!
# Taking in digits

A number is taken in digit by digit, from left to right, in a 64-bit integer whose every step is
checked for overflow. The outcome does not depend on where the check strikes: it is the number that
the digits denote, if this is at most `maxInteger`, and otherwise nothing (`decimal64?_eq`). What
carries the proof is that a number only grows as digits are added behind it. Hence an overflow on
the way is one at the end, however many digits follow, and leading zeros are harmless.
-/

namespace ChunkAsm.Scan

theorem maxInteger_eq : maxInteger = 2 ^ 63 - 1 := by decide

/-! ## Checked arithmetic on natural numbers -/

section Checked

variable {m n : Nat}

theorem toInt_ofNat (h : n ≤ maxInteger) : (Int64.ofNat n).toInt = n :=
  Int64.toInt_ofNat_of_lt (Nat.lt_of_le_of_lt h (by decide))

theorem checkedMul_ofNat (hm : m ≤ maxInteger) (hn : n ≤ maxInteger) :
    checkedMul (.ofNat m) (.ofNat n) =
      if m * n ≤ maxInteger then some (.ofNat (m * n)) else none := by
  have hover : (Int64.ofNat m).toBitVec.smulOverflow (Int64.ofNat n).toBitVec =
      decide (maxInteger < m * n) := by
    rw [BitVec.smulOverflow, Int64.toInt_toBitVec, Int64.toInt_toBitVec, toInt_ofNat hm,
      toInt_ofNat hn, ← Int.natCast_mul, Bool.eq_iff_iff]
    simp only [Bool.or_eq_true, decide_eq_true_eq]
    rw [maxInteger]
    omega
  rw [checkedMul, hover, ← Int64.ofNat_mul]
  by_cases h : m * n ≤ maxInteger
  · simp [h, Nat.not_lt.mpr h]
  · simp [h, Nat.lt_of_not_le h]

theorem checkedAdd_ofNat (hm : m ≤ maxInteger) (hn : n ≤ maxInteger) :
    checkedAdd (.ofNat m) (.ofNat n) =
      if m + n ≤ maxInteger then some (.ofNat (m + n)) else none := by
  have hover : (Int64.ofNat m).toBitVec.saddOverflow (Int64.ofNat n).toBitVec =
      decide (maxInteger < m + n) := by
    rw [BitVec.saddOverflow, Int64.toInt_toBitVec, Int64.toInt_toBitVec, toInt_ofNat hm,
      toInt_ofNat hn, ← Int.natCast_add, Bool.eq_iff_iff]
    simp only [Bool.or_eq_true, decide_eq_true_eq]
    rw [maxInteger]
    omega
  rw [checkedAdd, hover, ← Int64.ofNat_add]
  by_cases h : m + n ≤ maxInteger
  · simp [h, Nat.not_lt.mpr h]
  · simp [h, Nat.lt_of_not_le h]

/-- The only integer without a negative is the least one, and it is not reached. -/
theorem negOverflow_ofNat (h : n ≤ maxInteger) : (Int64.ofNat n).toBitVec.negOverflow = false := by
  rw [BitVec.negOverflow, Int64.toInt_toBitVec, toInt_ofNat h, beq_eq_false_iff_ne]
  omega

theorem toInt_neg_ofNat (h : n ≤ maxInteger) : (-Int64.ofNat n).toInt = -n := by
  rw [← Int64.toInt_toBitVec, Int64.toBitVec_neg, BitVec.toInt_neg_of_not_negOverflow,
    Int64.toInt_toBitVec, toInt_ofNat h]
  rw [negOverflow_ofNat h]
  exact Bool.false_ne_true

end Checked

/-! ## Digits one after the other -/

theorem digitValue_le {c : Char} (h : c.isDigit = true) : digitValue c ≤ 9 := by
  have hc : c.toNat ≤ 57 := (Char.isDigit_iff_toNat.mp h).2
  rw [digitValue, if_pos h]
  exact Nat.sub_le_sub_right hc 48

/-- A number with the given digits behind it. -/
def extend (n : Nat) (digits : List Char) : Nat :=
  digits.foldl (fun n c => 10 * n + digitValue c) n

theorem le_extend (n : Nat) (digits : List Char) : n ≤ extend n digits := by
  induction digits generalizing n with
  | nil => exact Nat.le_refl n
  | cons c digits ih => exact Nat.le_trans (by omega) (ih (10 * n + digitValue c))

/-- One digit: the two checks together are one check of the outcome. -/
theorem appendDigit?_ofNat {n : Nat} {c : Char} (hn : n ≤ maxInteger) (hc : c.isDigit = true) :
    appendDigit? (.ofNat n) c =
      if 10 * n + digitValue c ≤ maxInteger then some (.ofNat (10 * n + digitValue c))
      else none := by
  have hten : checkedMul (.ofNat n) 10 =
      if n * 10 ≤ maxInteger then some (.ofNat (n * 10)) else none :=
    checkedMul_ofNat hn (by decide)
  have hdigit : digitValue c ≤ maxInteger := Nat.le_trans (digitValue_le hc) (by decide)
  rw [appendDigit?, hten, Nat.mul_comm n 10]
  by_cases hmul : 10 * n ≤ maxInteger
  · rw [if_pos hmul]
    exact checkedAdd_ofNat hmul hdigit
  · rw [if_neg hmul, if_neg fun h => hmul (Nat.le_trans (Nat.le_add_right _ _) h)]
    rfl

/-- **The loop over the digits**, from any number that has been taken in so far. -/
theorem foldlM_appendDigit? {digits : List Char} (hdigits : ∀ c ∈ digits, c.isDigit = true)
    {n : Nat} (hn : n ≤ maxInteger) :
    digits.foldlM appendDigit? (.ofNat n) =
      if extend n digits ≤ maxInteger then some (.ofNat (extend n digits)) else none := by
  induction digits generalizing n with
  | nil => exact (if_pos hn).symm
  | cons c digits ih =>
    rw [List.foldlM_cons, appendDigit?_ofNat hn (hdigits c List.mem_cons_self)]
    by_cases hstep : 10 * n + digitValue c ≤ maxInteger
    · rw [if_pos hstep]
      exact ih (fun c' hc' => hdigits c' (List.mem_cons_of_mem _ hc')) hstep
    · -- what has overflowed stays too large under the digits that follow
      have hover : ¬ extend n (c :: digits) ≤ maxInteger := fun h =>
        hstep (Nat.le_trans (le_extend _ digits) h)
      rw [if_neg hstep, if_neg hover]
      rfl

/-- **Checking every step is checking the number.** -/
theorem decimal64?_eq {digits : List Char} (hdigits : ∀ c ∈ digits, c.isDigit = true) :
    decimal64? digits =
      if decimalValue digits ≤ maxInteger then some (.ofNat (decimalValue digits)) else none :=
  foldlM_appendDigit? hdigits (Nat.zero_le _)

/-- The number that digits denote is the sum of their values at powers of ten. -/
theorem decimalValue_eq_ofDigits (digits : List Char) :
    decimalValue digits = Nat.ofDigits 10 (digits.reverse.map digitValue) := by
  rw [decimalValue, ← List.foldr_reverse]
  induction digits.reverse with
  | nil => rfl
  | cons c cs ih =>
    rw [List.foldr_cons, ih, List.map_cons, Nat.ofDigits_cons, Nat.add_comm]

end ChunkAsm.Scan
