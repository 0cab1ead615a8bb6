import ChunkAsm.Chunk.Read
import Mathlib.Algebra.Ring.Nat
import Mathlib.Data.List.Forall2

/-!
# Reading undoes writing

`Reads r bs x` says that the reader `r` takes the bytes `bs` to the value `x` and leaves alone
whatever comes after them. Every form of the format has one such lemma, from the scalars up to the
tables; records are put together from them.

The bounds are those of the widths: a number has to fit in its bytes, and a string or a table must not
be longer than its length can say.
-/

namespace ChunkAsm.Chunk

open Bytes

/-- The reader takes the bytes to the value, whatever follows them. -/
def Reads {α : Type} (r : ByteReader α) (bs : List UInt8) (x : α) : Prop :=
  ∀ rest, r (bs ++ rest) = some (x, rest)

/-- A reader that goes on after another one goes on with the value and with what follows. -/
theorem Reads.bind_eq {α β : Type} {r : ByteReader α} {bs : List UInt8} {x : α} (h : Reads r bs x)
    (rest : List UInt8) (next : α × List UInt8 → Option β) :
    (r (bs ++ rest) >>= next) = next (x, rest) := by
  rw [h rest]
  rfl

/-! ## Scalars -/

@[simp] theorem length_littleEndian (width n : Nat) : (littleEndian width n).length = width := by
  induction width generalizing n with
  | zero => rfl
  | succ width ih => simp [littleEndian, ih]

/-- Bytes hold a number up to their width. -/
theorem ofLittleEndian_littleEndian (width n : Nat) :
    ofLittleEndian (littleEndian width n) = n % 256 ^ width := by
  induction width generalizing n with
  | zero => simp [littleEndian, ofLittleEndian, Nat.mod_one]
  | succ width ih =>
    rw [littleEndian, ofLittleEndian, ih, Nat.pow_succ, Nat.mul_comm (256 ^ width), Nat.mod_mul]
    simp

theorem reads_byte (b : UInt8) : Reads readByte [b] b := fun _ => rfl

theorem reads_bytes (bs : List UInt8) : Reads (readBytes bs.length) bs bs := by
  intro rest
  simp [readBytes]

theorem reads_nat {width n : Nat} (h : n < 256 ^ width) :
    Reads (readNat width) (littleEndian width n) n := by
  intro rest
  have hread := reads_bytes (littleEndian width n) rest
  rw [length_littleEndian] at hread
  rw [readNat, hread]
  simp [ofLittleEndian_littleEndian, Nat.mod_eq_of_lt h]

/-- A 32-bit integer is read back with its sign. -/
theorem reads_int32 {n : Int} (hlo : -2147483648 ≤ n) (hhi : n < 2147483648) :
    Reads (readInt 4) (int32 n) n := by
  intro rest
  have hlt : (n % 4294967296).toNat < 256 ^ 4 := by omega
  rw [readInt, int32, reads_nat hlt rest]
  have hsigned : toSigned 4 (n % 4294967296).toNat = n := by
    have hsize : Nat.pow 256 4 = 4294967296 := rfl
    rw [toSigned, hsize]
    split <;> omega
  simp [hsigned]

theorem reads_count {n : Nat} (h : n < 2147483648) : Reads readCount (count n) n := by
  intro rest
  have hread : readInt 4 (count n ++ rest) = some ((n : Int), rest) :=
    reads_int32 (by omega) (by omega) rest
  rw [readCount, hread]
  simp

/-! ## Strings, constants and the entries of tables -/

theorem reads_string {bytes : List UInt8} (h : bytes.length + 1 < 18446744073709551616) :
    Reads readString (string bytes).flatten bytes := by
  intro rest
  rw [string]
  by_cases hshort : bytes.length < 0xfe
  · -- the length is in the first byte, which is not the mark
    rw [if_pos hshort]
    have hbyte : (UInt8.ofNat (bytes.length + 1)).toNat = bytes.length + 1 := by
      rw [UInt8.toNat_ofNat']
      omega
    have hmark : UInt8.ofNat (bytes.length + 1) ≠ 0xff := by
      intro he
      have := congrArg UInt8.toNat he
      rw [hbyte] at this
      simp at this
      omega
    rw [littleEndian, littleEndian]
    generalize UInt8.ofNat (bytes.length + 1) = b at hbyte hmark
    simp [readString, readByte, hmark, hbyte, reads_bytes bytes rest]
  · rw [if_neg hshort]
    have hlen : Reads (readNat 8) (littleEndian 8 (bytes.length + 1)) (bytes.length + 1) :=
      reads_nat h
    simp [readString, readByte, uint64, hlen (bytes ++ rest), reads_bytes bytes rest]

/-- A constant is read back, a number bit for bit. -/
theorem reads_constant {c : Constant}
    (h : ∀ bytes, c = .string bytes → bytes.length + 1 < 18446744073709551616) :
    Reads readConstant (constant c).flatten c := by
  intro rest
  cases c with
  | nil => rfl
  | bool b => cases b <;> rfl
  | number x =>
    have hlt : x.bits.toNat < 256 ^ 8 := x.bits.toNat_lt
    simp [readConstant, constant, readByte, Constant.tag, uint64, reads_nat hlt rest]
  | string bytes =>
    simp [readConstant, constant, readByte, Constant.tag, reads_string (h bytes rfl) rest]

theorem reads_word (w : Word) : Reads readWord (uint32 w.bits.toNat) w := by
  intro rest
  have hlt : w.bits.toNat < 256 ^ 4 := w.bits.toNat_lt
  rw [readWord, uint32, reads_nat hlt rest]
  simp

theorem reads_upvalue (u : Upvalue) : Reads readUpvalue [u.inStack, u.index] u := fun _ => rfl

/-! ## Tables -/

/-- Entries are read one after the other. -/
theorem reads_many {α : Type} {r : ByteReader α} {bss : List (List UInt8)} {xs : List α}
    (h : List.Forall₂ (Reads r) bss xs) : Reads (readMany r xs.length) bss.flatten xs := by
  induction h with
  | nil => exact fun _ => rfl
  | cons hx _ ih =>
    intro rest
    rw [List.flatten_cons, List.append_assoc, List.length_cons, readMany, hx]
    simp [ih rest]

/-- A table is read with as many entries as its length says. -/
theorem reads_table {α : Type} {r : ByteReader α} {bss : List (List UInt8)} {xs : List α}
    (h : List.Forall₂ (Reads r) bss xs) (hlen : xs.length < 2147483648) :
    Reads (readTable r) (count xs.length ++ bss.flatten) xs := by
  intro rest
  rw [List.append_assoc, readTable, reads_count hlen]
  simpa using reads_many h rest

/-- Entries that are written by one function are read if each of them is. -/
theorem reads_map {α : Type} {r : ByteReader α} {write : α → List UInt8} {xs : List α}
    (h : ∀ x ∈ xs, Reads r (write x) x) : List.Forall₂ (Reads r) (xs.map write) xs := by
  induction xs with
  | nil => exact .nil
  | cons x xs ih =>
    exact .cons (h x List.mem_cons_self) (ih fun y hy => h y (List.mem_cons_of_mem _ hy))

end ChunkAsm.Chunk
