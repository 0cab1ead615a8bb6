import ChunkAsm.Operand
import ChunkAsm.Proofs.Digits

/-!
# What is written is read back

Integers, names, literals and operands each have a **spelling** from which a reader gives them back.
A reader takes a spelling off the front of a line and leaves the rest, provided that the token ends
there (`Scan.atDelimiter`).

The literals are those of listings: `nil`, truth values, and strings of printable ASCII characters,
tabs and line ends (`Constant.Plain`). The numbers of a listing are not treated here.
-/

namespace ChunkAsm

namespace Scan

variable {rest : List Char}

/-! ## Runs of characters -/

/-- A run of characters with a property ends where the rest begins. -/
def Ends (q : Char → Bool) (rest : List Char) : Prop := ∀ c ∈ rest.head?, q c = false

theorem takeWhile_append {q : Char → Bool} {run : List Char} (hrun : ∀ c ∈ run, q c = true)
    (hrest : Ends q rest) : (run ++ rest).takeWhile q = run := by
  rw [List.takeWhile_append_of_pos hrun]
  cases rest with
  | nil => simp
  | cons c rest => simp [hrest c rfl]

theorem dropWhile_append {q : Char → Bool} {run : List Char} (hrun : ∀ c ∈ run, q c = true)
    (hrest : Ends q rest) : (run ++ rest).dropWhile q = rest := by
  rw [List.dropWhile_append_of_pos hrun]
  cases rest with
  | nil => rfl
  | cons c rest => simp [hrest c rfl]

/-- No run goes on over a delimiter. -/
theorem ends_of_atDelimiter {q : Char → Bool} (h : atDelimiter rest = true)
    (hq : q ';' = false ∧ q ' ' = false ∧ q '\t' = false := by decide) : Ends q rest := by
  intro c hc
  cases rest with
  | nil => cases hc
  | cons c' rest =>
    obtain rfl := Option.some.inj hc
    simp only [atDelimiter, isBlank, Bool.or_eq_true, beq_iff_eq] at h
    rcases h with rfl | rfl | rfl
    · exact hq.1
    · exact hq.2.1
    · exact hq.2.2

theorem skipBlanks_cons {c : Char} (h : isBlank c = false) (cs : List Char) :
    skipBlanks (c :: cs) = c :: cs := by
  simp [skipBlanks, h]

/-- A character of a name is neither a blank nor a sigil nor the start of a comment. -/
theorem ne_of_isNameChar {c : Char} (h : isNameChar c = true) (c' : Char)
    (hc' : isNameChar c' = false := by decide) : c ≠ c' := by
  rintro rfl
  rw [h] at hc'
  cases hc'

theorem isBlank_of_isNameChar {c : Char} (h : isNameChar c = true) : isBlank c = false := by
  simp [isBlank, ne_of_isNameChar h ' ', ne_of_isNameChar h '\t']

theorem isNameChar_of_isDigit {c : Char} (h : c.isDigit = true) : isNameChar c = true := by
  simp [isNameChar, Char.isAlphanum, h]

theorem isNameChar_of_isAlpha {c : Char} (h : c.isAlpha = true) : isNameChar c = true := by
  simp [isNameChar, Char.isAlphanum, h]

theorem not_isAlpha_of_isDigit {c : Char} (h : c.isDigit = true) : c.isAlpha = false := by
  have hdigit : (decide (c.val ≥ 48) && decide (c.val ≤ 57)) = true := h
  change (decide (c.val ≥ 65 ∧ c.val ≤ 90) ||
    (decide (c.val ≥ 97) && decide (c.val ≤ 122))) = false
  grind

/-! ## Names -/

/-- A name consists of some characters of names. -/
structure IsName (s : String) : Prop where
  nonempty : s.toList ≠ []
  chars : ∀ c ∈ s.toList, isNameChar c = true

/-- **Names are read back.** -/
theorem name_append {s : String} (h : IsName s) (hrest : Ends isNameChar rest) :
    name (s.toList ++ rest) = .ok (s, rest) := by
  obtain ⟨c, cs, hs⟩ := List.exists_cons_of_ne_nil h.nonempty
  have hc : isNameChar c = true := h.chars c (by simp [hs])
  have hskip : skipBlanks (s.toList ++ rest) = s.toList ++ rest := by
    rw [hs, List.cons_append]
    exact skipBlanks_cons (isBlank_of_isNameChar hc) _
  have htake := takeWhile_append h.chars hrest
  rw [name, hskip, htake, dropWhile_append h.chars hrest]
  simp only [hs]
  rw [← hs, String.ofList_toList]

/-- What is read as a name is one. -/
theorem isName_of_name {cs : List Char} {s : String} (h : name cs = .ok (s, rest)) : IsName s := by
  rw [name] at h
  generalize skipBlanks cs = start at h
  cases hrun : start.takeWhile isNameChar with
  | nil =>
    rw [hrun] at h
    cases h
  | cons c run =>
    rw [hrun] at h
    obtain ⟨rfl, -⟩ := Prod.mk.inj (Except.ok.inj h)
    rw [← hrun]
    refine ⟨by simp [hrun], fun c' hc' => ?_⟩
    rw [String.toList_ofList] at hc'
    exact List.all_eq_true.mp List.all_takeWhile c' hc'

/-! ## Integers -/

theorem isDigit_of_mem {n : Nat} {c : Char} (h : c ∈ Nat.toDigits 10 n) : c.isDigit = true :=
  Nat.isDigit_of_mem_toDigits (by decide) (by decide) h

theorem exists_cons_toDigits (n : Nat) :
    ∃ c cs, Nat.toDigits 10 n = c :: cs ∧ c.isDigit = true := by
  obtain ⟨c, cs, hcs⟩ := List.exists_cons_of_ne_nil (Nat.toDigits_ne_nil (n := n) (b := 10))
  exact ⟨c, cs, hcs, isDigit_of_mem (n := n) (by simp [hcs])⟩

/-- A numeral is a name. -/
theorem isName_toString (n : Nat) : IsName (toString n) := by
  have hlist : (toString n).toList = Nat.toDigits 10 n := by
    rw [Nat.toString_eq_repr, Nat.toList_repr]
  refine ⟨?_, ?_⟩
  · rw [hlist]
    exact Nat.toDigits_ne_nil
  · rw [hlist]
    exact fun c hc => isNameChar_of_isDigit (isDigit_of_mem hc)

/-- An integer starts with a digit or a minus sign. -/
theorem exists_cons_toString (n : Int) :
    ∃ c cs, (toString n).toList = c :: cs ∧ (c.isDigit = true ∨ c = '-') := by
  rw [Int.toString_eq_repr, Int.repr_eq_if]
  split
  · rw [Nat.toList_repr]
    obtain ⟨c, cs, hcs, hc⟩ := exists_cons_toDigits n.toNat
    exact ⟨c, cs, hcs, .inl hc⟩
  · exact ⟨'-', _, String.toList_append, .inr rfl⟩

theorem decimalValue_toDigits (n : Nat) : decimalValue (Nat.toDigits 10 n) = n := by
  have hfold : ∀ (cs : List Char) (m : Nat), (∀ c ∈ cs, c.isDigit = true) →
      cs.foldl (fun n c => 10 * n + digitValue c) m = Nat.ofDigitChars 10 cs m := by
    intro cs
    induction cs with
    | nil => exact fun m _ => rfl
    | cons c cs ih =>
      intro m hcs
      have hc : digitValue c = c.toNat - '0'.toNat := by
        rw [digitValue, if_pos (hcs c List.mem_cons_self)]
      rw [List.foldl_cons, ih _ fun c' hc' => hcs c' (List.mem_cons_of_mem _ hc'), hc]
      rfl
  rw [decimalValue, hfold _ _ fun c hc => isDigit_of_mem hc, Nat.ofDigitChars_ten_toDigits]

/-- The digits of a number behind a sign that is already read. -/
theorem integer_of_sign {cs signChars digits : List Char} {negative : Bool}
    (hsign : sign (skipBlanks cs) = (signChars, negative, digits ++ rest)) (hne : digits ≠ [])
    (hdigits : ∀ c ∈ digits, c.isDigit = true) (hrest : atDelimiter rest = true) :
    integer cs =
      if decimalValue digits ≤ maxInteger then
        .ok (if negative then -(decimalValue digits : Int) else decimalValue digits, rest)
      else .error (.integerOverflow (String.ofList (signChars ++ digits))) := by
  have hends : Ends Char.isDigit rest := ends_of_atDelimiter hrest
  have hempty : digits.isEmpty = false := List.isEmpty_eq_false_iff.mpr hne
  rw [integer, hsign]
  simp only [takeWhile_append hdigits hends, dropWhile_append hdigits hends, hempty, hrest,
    decimal64?_eq hdigits]
  by_cases h : decimalValue digits ≤ maxInteger
  · cases negative with
    | false => simp [h, toInt_ofNat h]
    | true => simp [h, toInt_neg_ofNat h]
  · simp [h]

/-- **Integers are read back.** -/
theorem integer_append {n : Int} (hn : n.natAbs ≤ maxInteger) (hrest : atDelimiter rest = true) :
    integer ((toString n).toList ++ rest) = .ok (n, rest) := by
  rw [Int.toString_eq_repr, Int.repr_eq_if]
  by_cases hsign : 0 ≤ n
  · rw [if_pos hsign, Nat.toList_repr]
    obtain ⟨c, cs, hcs, hdigit⟩ := exists_cons_toDigits n.toNat
    have hc := isNameChar_of_isDigit hdigit
    have hnone : sign (skipBlanks (Nat.toDigits 10 n.toNat ++ rest)) =
        ([], false, Nat.toDigits 10 n.toNat ++ rest) := by
      rw [hcs, List.cons_append, skipBlanks_cons (isBlank_of_isNameChar hc), sign]
      · exact fun _ h => ne_of_isNameChar hc '-' (by decide) (List.cons.inj h).1
      · exact fun _ h => ne_of_isNameChar hc '+' (by decide) (List.cons.inj h).1
    rw [integer_of_sign hnone Nat.toDigits_ne_nil (fun c => isDigit_of_mem) hrest,
      decimalValue_toDigits, if_pos (by omega), if_neg Bool.false_ne_true,
      Int.toNat_of_nonneg hsign]
  · rw [if_neg hsign, String.toList_append, Nat.toList_repr]
    have hminus : sign (skipBlanks ("-".toList ++ Nat.toDigits 10 (-n).toNat ++ rest)) =
        (['-'], true, Nat.toDigits 10 (-n).toNat ++ rest) := rfl
    have hback : -((-n).toNat : Int) = n := by omega
    rw [integer_of_sign hminus Nat.toDigits_ne_nil (fun c => isDigit_of_mem) hrest,
      decimalValue_toDigits, if_pos (by omega), if_pos rfl, hback]

end Scan

/-! ## Literals -/

namespace Constant

/-- A byte of a string that is shown as it can be written: a tab, a line feed, a carriage return or
a printable ASCII character. -/
def PlainByte (b : UInt8) : Prop := b = 9 ∨ b = 10 ∨ b = 13 ∨ 32 ≤ b ∧ b ≤ 126

instance (b : UInt8) : Decidable (PlainByte b) := inferInstanceAs (Decidable (_ ∨ _))

/-- Constants that a listing shows as they can be written, numbers apart. -/
def Plain : Constant → Prop
  | .nil => True
  | .bool _ => True
  | .number _ => False
  | .string bytes => ∀ b ∈ bytes, PlainByte b

end Constant

namespace Scan

variable {rest : List Char}

section

variable {quote c : Char} {done : List UInt8}

theorem stringBody_quote : stringBody quote done (quote :: rest) = .ok (done.reverse, rest) := by
  rw [stringBody.eq_def]
  exact if_pos rfl

theorem stringBody_escape {b : UInt8} (hquote : quote ≠ '\\') (h : escape? c = some b) :
    stringBody quote done ('\\' :: c :: rest) = stringBody quote (b :: done) rest := by
  rw [stringBody.eq_def]
  simp only [if_neg hquote.symm, if_pos, h]

theorem stringBody_char (hquote : c ≠ quote) (hescape : c ≠ '\\') :
    stringBody quote done (c :: rest) =
      stringBody quote ((String.utf8EncodeChar c).reverse ++ done) rest := by
  rw [stringBody.eq_def]
  simp only [if_neg hquote, if_neg hescape]

end

/-- The character of an ASCII byte. -/
theorem toNat_ofNat_byte {b : UInt8} (h : b ≤ 126) : (Char.ofNat b.toNat).toNat = b.toNat := by
  have hle : b.toNat ≤ 126 := UInt8.le_iff_toNat_le.mp h
  have hvalid : b.toNat.isValidChar := .inl (by omega)
  rw [Char.ofNat, dif_pos hvalid]
  rfl

/-- An ASCII character is one byte. -/
theorem utf8EncodeChar_ofNat {b : UInt8} (h : b ≤ 126) :
    String.utf8EncodeChar (Char.ofNat b.toNat) = [b] := by
  have hval : (Char.ofNat b.toNat).val.toNat = b.toNat := toNat_ofNat_byte h
  have hle : b.toNat ≤ 126 := UInt8.le_iff_toNat_le.mp h
  simp only [String.utf8EncodeChar, hval]
  rw [if_pos (by omega), UInt8.ofNat_toNat]

/-- **A plain byte is read back** from what a listing shows for it. -/
theorem stringBody_byteText {b : UInt8} (h : Constant.PlainByte b) (done : List UInt8) :
    stringBody '"' done (Constant.byteText b ++ rest) = stringBody '"' (b :: done) rest := by
  have hescape {c : Char} (hc : escape? c = some b) :
      stringBody '"' done (['\\', c] ++ rest) = stringBody '"' (b :: done) rest :=
    stringBody_escape (by decide) hc
  rw [Constant.byteText]
  split
  · rename_i hb
    exact hescape (by rw [hb]; rfl)
  split
  · rename_i hb
    exact hescape (by rw [hb]; rfl)
  split
  · rename_i hb
    exact hescape (by rw [hb]; rfl)
  split
  · rename_i hb
    rcases hb with rfl | rfl | rfl
    · exact hescape rfl
    · exact hescape rfl
    · exact hescape rfl
  split
  · rename_i hb hprint
    have hne {c : Char} (hc : b.toNat ≠ c.toNat) : Char.ofNat b.toNat ≠ c := by
      rintro rfl
      exact hc (toNat_ofNat_byte hprint.2).symm
    rw [List.singleton_append, stringBody_char, utf8EncodeChar_ofNat hprint.2]
    · rfl
    · exact hne fun hb' => hb (.inl (UInt8.toNat_inj.mp hb'))
    · exact hne fun hb' => hb (.inr (.inr (UInt8.toNat_inj.mp hb')))
  · rename_i h9 h13 h10 _ hprint
    rcases h with h | h | h | h
    · exact absurd h h9
    · exact absurd h h10
    · exact absurd h h13
    · exact absurd h hprint

theorem stringBody_append {bytes : List UInt8} (h : ∀ b ∈ bytes, Constant.PlainByte b)
    (done : List UInt8) :
    stringBody '"' done (bytes.flatMap Constant.byteText ++ '"' :: rest) =
      .ok (done.reverse ++ bytes, rest) := by
  induction bytes generalizing done with
  | nil => simpa using stringBody_quote
  | cons b bytes ih =>
    rw [List.flatMap_cons, List.append_assoc, stringBody_byteText (h b List.mem_cons_self),
      ih fun b' hb' => h b' (List.mem_cons_of_mem _ hb')]
    simp

/-- A word of letters that is a literal. -/
theorem literalToken_word {x : Char} {xs : List Char} {c : Constant}
    (hrest : atDelimiter rest = true) (hrun : ∀ y ∈ x :: xs, y.isAlpha = true)
    (hquote : ¬ (x = '"' ∨ x = '\''))
    (hnumber : ¬ (x.isDigit = true ∨ x = '-' ∨ x = '+' ∨ x = '.'))
    (hc : literalWord? (String.ofList (x :: xs)) = some c) :
    literalToken (x :: xs ++ rest) = .ok (c, rest) := by
  have hends : Ends Char.isAlpha rest := ends_of_atDelimiter hrest
  have hword : word (x :: (xs ++ rest)) = (String.ofList (x :: xs), rest) := by
    rw [← List.cons_append, word, takeWhile_append hrun hends, dropWhile_append hrun hends]
  rw [List.cons_append, literalToken, if_neg hquote, if_neg hnumber,
    if_pos (hrun x List.mem_cons_self), hword]
  simp only [hc]

theorem literalToken_append {c : Constant} (h : c.Plain) (hrest : atDelimiter rest = true) :
    literalToken (c.text.toList ++ rest) = .ok (c, rest) := by
  cases c with
  | nil => exact literalToken_word hrest (List.all_eq_true.mp rfl) (by decide) (by decide) rfl
  | bool b =>
    cases b with
    | true => exact literalToken_word hrest (List.all_eq_true.mp rfl) (by decide) (by decide) rfl
    | false => exact literalToken_word hrest (List.all_eq_true.mp rfl) (by decide) (by decide) rfl
  | number x => cases h
  | string bytes =>
    rw [Constant.text, String.toList_ofList, List.cons_append, List.append_assoc, literalToken,
      if_pos (.inl rfl), List.singleton_append, stringBody_append h]
    rfl

/-- **Plain constants are read back.** -/
theorem literal_append {c : Constant} (h : c.Plain) (hrest : atDelimiter rest = true) :
    literal (c.text.toList ++ rest) = .ok (c, rest) := by
  have hskip : skipBlanks (c.text.toList ++ rest) = c.text.toList ++ rest := by
    cases c with
    | nil => rfl
    | bool b => cases b <;> rfl
    | number x => cases h
    | string bytes =>
      rw [Constant.text, String.toList_ofList]
      rfl
  rw [literal, hskip, literalToken_append h hrest]
  exact if_pos hrest

end Scan

/-! ## Operands -/

namespace Operand

open Scan

variable {ks : Kinds} {rest : List Char}

/-- An operand as it can be written. -/
def text : Operand → String
  | stack n => "%" ++ toString n
  | upvalue n => "@" ++ toString n
  | location label => "$" ++ label
  | constant c => "const " ++ c.text
  | embedded n => toString n
  | proto name => name

/-- Operands that are read back from their text. -/
def Legible : Operand → Prop
  | stack n | upvalue n | embedded n => n.natAbs ≤ maxInteger
  | location label => IsName label
  | constant c => c.Plain
  | proto name => IsName name

theorem permit_of_has {k : OperandKind} (h : ks.has k = true) : permit k ks = .ok () := if_pos h

theorem token_of_ok {α : Type} {reader : Reader LexError α} {cs : List Char} {x : α}
    (h : reader cs = .ok (x, rest)) : token reader cs = .ok (x, rest) := by
  rw [token, h]
  rfl

/-! ### Operands with a sigil -/

theorem read_stack {cs : List Char} {n : Int} (hks : ks.stack = true)
    (h : integer cs = .ok (n, rest)) : read ks ('%' :: cs) = .ok (.stack n, rest) := by
  have hpermit : permit .stack ks = .ok () := permit_of_has hks
  rw [read, skipBlanks_cons (by decide)]
  simp only [hpermit, token_of_ok h]
  rfl

theorem read_upvalue {cs : List Char} {n : Int} (hks : ks.upvalue = true)
    (h : integer cs = .ok (n, rest)) : read ks ('@' :: cs) = .ok (.upvalue n, rest) := by
  have hpermit : permit .upvalue ks = .ok () := permit_of_has hks
  rw [read, skipBlanks_cons (by decide)]
  simp only [hpermit, token_of_ok h]
  rfl

theorem read_location {cs : List Char} {label : String} (hks : ks.location = true)
    (h : name cs = .ok (label, rest)) : read ks ('$' :: cs) = .ok (.location label, rest) := by
  have hpermit : permit .location ks = .ok () := permit_of_has hks
  rw [read, skipBlanks_cons (by decide)]
  simp only [hpermit, token_of_ok h]
  rfl

/-! ### Operands without a sigil -/

/-- What starts neither with a blank nor with a sigil. -/
theorem read_of_start {c : Char} {cs : List Char}
    (hc : isBlank c = false ∧ c ≠ ';' ∧ c ≠ '%' ∧ c ≠ '@' ∧ c ≠ '$') :
    read ks (c :: cs) = bare ks (c :: cs) := by
  obtain ⟨hblank, h₁, h₂, h₃, h₄⟩ := hc
  rw [read, skipBlanks_cons hblank]
  split
  · rename_i h
    cases h
  · rename_i h
    exact absurd (List.cons.inj h).1 h₁
  · rename_i h
    exact absurd (List.cons.inj h).1 h₂
  · rename_i h
    exact absurd (List.cons.inj h).1 h₃
  · rename_i h
    exact absurd (List.cons.inj h).1 h₄
  · rfl

/-- A name starts with neither. -/
theorem start_of_isNameChar {c : Char} (h : isNameChar c = true) :
    isBlank c = false ∧ c ≠ ';' ∧ c ≠ '%' ∧ c ≠ '@' ∧ c ≠ '$' :=
  ⟨isBlank_of_isNameChar h, ne_of_isNameChar h _, ne_of_isNameChar h _, ne_of_isNameChar h _,
    ne_of_isNameChar h _⟩

theorem bare_constant {cs : List Char} {c : Constant} (hks : ks.constant = true)
    (h : literal (' ' :: cs) = .ok (c, rest)) :
    bare ks ("const ".toList ++ cs) = .ok (.constant c, rest) := by
  have hpermit : permit .constant ks = .ok () := permit_of_has hks
  have hafter : afterConst? ("const ".toList ++ cs) = some (' ' :: cs) := by
    have hword : word ("const ".toList ++ cs) = ("const", ' ' :: cs) := rfl
    rw [afterConst?, hword]
    exact if_pos ⟨by decide, rfl⟩
  rw [bare, hafter]
  simp only [hpermit, token_of_ok h]
  rfl

/-- Where a number starts there is no word. -/
theorem word_of_number {c : Char} {cs : List Char} (h : c.isDigit = true ∨ c = '-') :
    word (c :: cs) = ("", c :: cs) := by
  have halpha : c.isAlpha = false := by
    rcases h with h | rfl
    · exact not_isAlpha_of_isDigit h
    · rfl
  simp [word, halpha]

theorem bare_embedded {c : Char} {cs : List Char} {n : Int} (hc : c.isDigit = true ∨ c = '-')
    (h : integer (c :: cs) = .ok (n, rest)) (hrest : atDelimiter rest = true)
    (hks : ks.embedded = true) (hproto : ks.proto = false) :
    bare ks (c :: cs) = .ok (.embedded n, rest) := by
  have hafter : afterConst? (c :: cs) = none := by
    rw [afterConst?, word_of_number hc]
    rfl
  have hvalue : embeddedValue (c :: cs) = .ok (n, rest) := by
    rw [embeddedValue, word_of_number hc]
    exact token_of_ok h
  rw [bare, hafter]
  simp only [hproto, hks, hvalue]
  exact if_pos hrest

theorem bare_proto {cs : List Char} {s : String} (hafter : afterConst? cs = none)
    (h : name cs = .ok (s, rest)) (hks : ks.proto = true) : bare ks cs = .ok (.proto s, rest) := by
  rw [bare, hafter]
  simp only [hks, token_of_ok h]
  rfl

/-- Behind a name that is all there is, the word `const` has no literal. -/
theorem afterConst?_of_isName {s : String} (h : IsName s) : afterConst? s.toList = none := by
  rw [afterConst?, word]
  cases hrest : s.toList.dropWhile Char.isAlpha with
  | nil => rfl
  | cons c cs =>
    have hc : isNameChar c = true :=
      h.chars c ((List.dropWhile_suffix _).mem (hrest ▸ List.mem_cons_self))
    simp [isBlank_of_isNameChar hc]

/-- **Operands are read back**, in a slot that accepts them. An integer needs a slot that does not
take it for the name of a function, and a function may not have the name `const` with a blank behind
it. -/
theorem read_text {o : Operand} (ho : o.Legible) (hks : ks.has o.kind = true)
    (hembedded : o.kind = .embedded → ks.proto = false)
    (hproto : ∀ name, o = .proto name → afterConst? (name.toList ++ rest) = none)
    (hrest : atDelimiter rest = true) : read ks (o.text.toList ++ rest) = .ok (o, rest) := by
  have hends : Ends isNameChar rest := ends_of_atDelimiter hrest
  cases o with
  | stack n =>
    rw [text, String.toList_append]
    exact read_stack hks (integer_append ho hrest)
  | upvalue n =>
    rw [text, String.toList_append]
    exact read_upvalue hks (integer_append ho hrest)
  | location label =>
    rw [text, String.toList_append]
    exact read_location hks (name_append ho hends)
  | constant c =>
    rw [text, String.toList_append, List.append_assoc]
    refine (read_of_start (by decide)).trans (bare_constant hks ?_)
    exact literal_append ho hrest
  | embedded n =>
    obtain ⟨c, cs, hcs, hc⟩ := exists_cons_toString n
    have hread := integer_append ho hrest
    rw [text]
    rw [hcs] at hread ⊢
    refine (read_of_start ?_).trans (bare_embedded hc hread hrest hks (hembedded rfl))
    rcases hc with hc | rfl
    · exact start_of_isNameChar (isNameChar_of_isDigit hc)
    · decide
  | proto name =>
    obtain ⟨c, cs, hcs⟩ := List.exists_cons_of_ne_nil ho.nonempty
    have hafter := hproto name rfl
    have hread := name_append ho hends
    rw [text]
    rw [hcs] at hafter hread ⊢
    exact (read_of_start (start_of_isNameChar (ho.chars c (by simp [hcs])))).trans
      (bare_proto hafter hread hks)

end Operand

end ChunkAsm
