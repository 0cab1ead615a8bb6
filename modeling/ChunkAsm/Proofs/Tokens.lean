import ChunkAsm.Proofs.Spelling

/-!
# Tokens

A line **starts with a token** when blanks, the text of the token and a place where the token stops
follow one another. A reader **takes tokens** when it succeeds on exactly the lines that start with
one, with the value of the token and what is behind its text.

The tokens of this file are names and integers. For integers all outcomes are told apart: a number
that 64 bits hold, one that they do not hold, and no number at all (`integers_read_exactly`).
-/

namespace ChunkAsm.Scan

/-! ## Blanks, delimiters and tokens -/

/-- Spaces and tabs only. -/
def Blanks (cs : List Char) : Prop := ∀ c ∈ cs, c = ' ' ∨ c = '\t'

/-- The end of the line, a comment or a blank is next. -/
def Delimited (cs : List Char) : Prop := ∀ c ∈ cs.head?, c = ';' ∨ c = ' ' ∨ c = '\t'

/-- `Starts Token Stops cs text x rest`: behind blanks the line `cs` starts with the text of a token
whose value is `x`, and the token stops where the `rest` begins. -/
structure Starts {α : Type} (Token : List Char → α → Prop) (Stops : List Char → Prop)
    (cs text : List Char) (x : α) (rest : List Char) : Prop where
  /-- the line is made of blanks, the text and the rest -/
  split : ∃ blanks, Blanks blanks ∧ cs = blanks ++ (text ++ rest)
  /-- the text is a token with this value -/
  token : Token text x
  /-- the token stops at the rest -/
  stops : Stops rest

/-- A reader takes tokens. The text of a token ends in something that is no blank, and whether a
token stops somewhere does not depend on blanks at the end of the line. -/
structure TakesTokens {α : Type} (read : Reader LexError α) (Token : List Char → α → Prop)
    (Stops : List Char → Prop) : Prop where
  /-- the reader succeeds on the lines that start with a token -/
  eq_ok_iff : ∀ cs x rest, read cs = .ok (x, rest) ↔ ∃ text, Starts Token Stops cs text x rest
  /-- a token does not end in a blank -/
  last : ∀ text x, Token text x → ∃ c, text.getLast? = some c ∧ isBlank c = false
  /-- blanks at the end of the line do not matter to the end of a token -/
  stops_append : ∀ rest blanks, Blanks blanks → (Stops (rest ++ blanks) ↔ Stops rest)

section Characters

variable {cs blanks : List Char} {c : Char}

theorem isBlank_eq_true : isBlank c = true ↔ c = ' ' ∨ c = '\t' := by
  simp [isBlank]

instance (cs : List Char) : Decidable (Blanks cs) :=
  decidable_of_iff (cs.all isBlank = true) (by simp only [List.all_eq_true, isBlank_eq_true, Blanks])

/-- A character of a class without blanks is no blank. -/
theorem isBlank_eq_false {q : Char → Bool} (h : q c = true)
    (hq : q ' ' = false ∧ q '\t' = false := by decide) : isBlank c = false := by
  rw [Bool.eq_false_iff, Ne, isBlank_eq_true]
  rintro (rfl | rfl)
  · exact Bool.false_ne_true (hq.1.symm.trans h)
  · exact Bool.false_ne_true (hq.2.symm.trans h)

theorem exists_last (hne : cs ≠ []) (h : ∀ c ∈ cs, isBlank c = false) :
    ∃ c, cs.getLast? = some c ∧ isBlank c = false :=
  ⟨_, List.getLast?_eq_some_getLast hne, h _ (List.getLast_mem hne)⟩

theorem atDelimiter_eq_true : atDelimiter cs = true ↔ Delimited cs := by
  cases cs with
  | nil => simp [atDelimiter, Delimited]
  | cons c cs => simp [atDelimiter, Delimited, isBlank]

instance (cs : List Char) : Decidable (Delimited cs) :=
  decidable_of_iff (atDelimiter cs = true) atDelimiter_eq_true

/-- No run of characters goes on over a delimiter. -/
theorem Delimited.ends {q : Char → Bool} (h : Delimited cs)
    (hq : q ';' = false ∧ q ' ' = false ∧ q '\t' = false := by decide) : Ends q cs :=
  ends_of_atDelimiter (atDelimiter_eq_true.mpr h) hq

theorem Delimited.append (hb : Blanks blanks) : Delimited (cs ++ blanks) ↔ Delimited cs := by
  cases cs with
  | cons c cs => rfl
  | nil =>
    refine ⟨fun _ => nofun, fun _ c hc => .inr ?_⟩
    exact hb c (List.mem_of_mem_head? hc)

/-- No run of characters that are no blanks goes on over blanks. -/
theorem Blanks.ends {q : Char → Bool} (hb : Blanks blanks)
    (hq : q ' ' = false ∧ q '\t' = false := by decide) : Ends q blanks := by
  intro c hc
  rcases hb c (List.mem_of_mem_head? hc) with rfl | rfl
  · exact hq.1
  · exact hq.2

theorem Ends.append {q : Char → Bool} (hb : Blanks blanks)
    (hq : q ' ' = false ∧ q '\t' = false := by decide) :
    Ends q (cs ++ blanks) ↔ Ends q cs := by
  cases cs with
  | cons c cs => rfl
  | nil => exact ⟨fun _ => nofun, fun _ => hb.ends hq⟩

/-- A run that is dropped is dropped to its end. -/
theorem ends_dropWhile (q : Char → Bool) (cs : List Char) : Ends q (cs.dropWhile q) := by
  intro c hc
  have hhead := List.head?_dropWhile_not q cs
  rw [Option.mem_def.mp hc] at hhead
  simpa using hhead

theorem Blanks.skipBlanks_append (hb : Blanks blanks) (cs : List Char) :
    skipBlanks (blanks ++ cs) = skipBlanks cs :=
  List.dropWhile_append_of_pos fun c hc => isBlank_eq_true.mpr (hb c hc)

theorem Blanks.skipBlanks_eq (hb : Blanks blanks) (hc : isBlank c = false) (cs : List Char) :
    skipBlanks (blanks ++ c :: cs) = c :: cs := by
  rw [hb.skipBlanks_append, skipBlanks_cons hc]

/-- The blanks that are skipped. -/
theorem exists_blanks (cs : List Char) : ∃ blanks, Blanks blanks ∧ cs = blanks ++ skipBlanks cs := by
  refine ⟨cs.takeWhile isBlank, fun c hc => ?_, List.takeWhile_append_dropWhile.symm⟩
  exact isBlank_eq_true.mp (List.all_eq_true.mp List.all_takeWhile c hc)

theorem skipBlanks_skipBlanks (cs : List Char) : skipBlanks (skipBlanks cs) = skipBlanks cs := by
  obtain ⟨blanks, hb, hcs⟩ := exists_blanks cs
  calc skipBlanks (skipBlanks cs)
      = skipBlanks (blanks ++ skipBlanks cs) := (hb.skipBlanks_append _).symm
    _ = skipBlanks cs := by rw [← hcs]

end Characters

/-! ## Names -/

/-- The text of a name is the name. -/
def NameToken (text : List Char) (s : String) : Prop := IsName s ∧ text = s.toList

/-- Inversion for `name`: it takes all characters of a name that stand there. -/
theorem name_split {cs rest : List Char} {s : String} (h : name cs = .ok (s, rest)) :
    skipBlanks cs = s.toList ++ rest ∧ Ends isNameChar rest := by
  rw [name] at h
  generalize skipBlanks cs = start at h
  cases hrun : start.takeWhile isNameChar with
  | nil =>
    rw [hrun] at h
    cases h
  | cons c run =>
    rw [hrun] at h
    obtain ⟨rfl, rfl⟩ := Prod.mk.inj (Except.ok.inj h)
    rw [String.toList_ofList, ← hrun, List.takeWhile_append_dropWhile]
    exact ⟨rfl, ends_dropWhile isNameChar start⟩

/-- **Names are tokens** that stop where no character of a name follows. -/
theorem takesTokens_name : TakesTokens name NameToken (Ends isNameChar) where
  eq_ok_iff cs s rest := by
    constructor
    · intro h
      obtain ⟨blanks, hb, hcs⟩ := exists_blanks cs
      obtain ⟨hsplit, hstops⟩ := name_split h
      exact ⟨s.toList, ⟨blanks, hb, hsplit ▸ hcs⟩, ⟨isName_of_name h, rfl⟩, hstops⟩
    · rintro ⟨text, ⟨blanks, hb, rfl⟩, ⟨hs, rfl⟩, hstops⟩
      have hread := name_append hs hstops
      rw [name] at hread ⊢
      rw [hb.skipBlanks_append]
      exact hread
  last text s h := by
    obtain ⟨hs, rfl⟩ := h
    exact exists_last hs.nonempty fun c hc => isBlank_of_isNameChar (hs.chars c hc)
  stops_append rest blanks hb := Ends.append hb

/-! ## Integers -/

/-- An optional sign, and whether it is a minus. -/
inductive Sign : List Char → Bool → Prop where
  | none : Sign [] false
  | plus : Sign ['+'] false
  | minus : Sign ['-'] true

theorem sign_split (cs : List Char) :
    Sign (sign cs).1 (sign cs).2.1 ∧ cs = (sign cs).1 ++ (sign cs).2.2 := by
  fun_cases sign cs with
  | case1 rest => exact ⟨.minus, rfl⟩
  | case2 rest => exact ⟨.plus, rfl⟩
  | case3 => exact ⟨.none, rfl⟩

/-- A sign ends where the next character is no sign. -/
theorem Sign.sign_append {signChars start : List Char} {negative : Bool}
    (h : Sign signChars negative) (hstart : ∀ c ∈ start.head?, c ≠ '-' ∧ c ≠ '+') :
    sign (signChars ++ start) = (signChars, negative, start) := by
  cases h with
  | minus => rfl
  | plus => rfl
  | none =>
    rw [List.nil_append, sign]
    · rintro rest rfl
      exact (hstart '-' rfl).1 rfl
    · rintro rest rfl
      exact (hstart '+' rfl).2 rfl

/-- A number as it is written: a sign and decimal digits. -/
structure Numeral where
  /-- the sign is a minus -/
  negative : Bool
  /-- the digits -/
  digits : List Char

namespace Numeral

/-- The number that the digits denote. -/
def magnitude (n : Numeral) : Nat :=
  Nat.ofDigits 10 (n.digits.reverse.map fun c => c.toNat - '0'.toNat)

/-- The number with its sign. -/
def value (n : Numeral) : Int := if n.negative then -(n.magnitude : Int) else n.magnitude

/-- The text of a numeral: an optional sign and at least one decimal digit. -/
inductive Token : List Char → Numeral → Prop where
  | intro {signChars digits : List Char} {negative : Bool} : Sign signChars negative →
    digits ≠ [] → (∀ c ∈ digits, c.isDigit = true) → Token (signChars ++ digits) ⟨negative, digits⟩

theorem magnitude_eq {n : Numeral} (h : ∀ c ∈ n.digits, c.isDigit = true) :
    n.magnitude = decimalValue n.digits := by
  rw [decimalValue_eq_ofDigits, magnitude]
  refine congrArg _ (List.map_congr_left fun c hc => ?_)
  rw [digitValue, if_pos (h c (List.mem_reverse.mp hc))]

theorem value_leadingZeros (negative : Bool) (digits : List Char) (k : Nat) :
    (Numeral.mk negative (List.replicate k '0' ++ digits)).value =
      (Numeral.mk negative digits).value := by
  have hzeros : (Numeral.mk negative (List.replicate k '0' ++ digits)).magnitude =
      (Numeral.mk negative digits).magnitude := by
    simp [magnitude, Nat.ofDigits_append]
  rw [value, value, hzeros]

end Numeral

variable {cs text rest : List Char} {n : Numeral}

/-- What `integer` makes of a line that starts with a numeral. -/
theorem Starts.integer_eq (h : Starts Numeral.Token Delimited cs text n rest) :
    integer cs =
      if n.magnitude ≤ maxInteger then .ok (n.value, rest)
      else .error (.integerOverflow (String.ofList text)) := by
  obtain ⟨⟨blanks, hb, rfl⟩, ⟨hsign, hne, hdigits⟩, hrest⟩ := h
  rename_i signChars digits negative
  obtain ⟨c, digits', rfl⟩ := List.exists_cons_of_ne_nil hne
  have hc := isNameChar_of_isDigit (hdigits c List.mem_cons_self)
  have hskip : skipBlanks (blanks ++ (signChars ++ c :: digits' ++ rest)) =
      signChars ++ (c :: digits' ++ rest) := by
    rw [List.append_assoc]
    cases hsign with
    | none => exact hb.skipBlanks_eq (isBlank_of_isNameChar hc) _
    | plus => exact hb.skipBlanks_eq (by decide) _
    | minus => exact hb.skipBlanks_eq (by decide) _
  have hstart : ∀ x ∈ (c :: digits' ++ rest).head?, x ≠ '-' ∧ x ≠ '+' := by
    rintro x hx
    obtain rfl := Option.some.inj hx
    exact ⟨ne_of_isNameChar hc _, ne_of_isNameChar hc _⟩
  rw [Numeral.value, Numeral.magnitude_eq hdigits]
  exact integer_of_sign (hskip ▸ hsign.sign_append hstart) hne hdigits
    (atDelimiter_eq_true.mpr hrest)

/-- Every other line is turned down at once. -/
theorem integer_eq_expectedInteger
    (h : ¬ ∃ text n rest, Starts Numeral.Token Delimited cs text n rest) :
    integer cs = .error .expectedInteger := by
  obtain ⟨blanks, hb, hcs⟩ := exists_blanks cs
  obtain ⟨hsign, hsplit⟩ := sign_split (skipBlanks cs)
  rw [integer]
  generalize sign (skipBlanks cs) = s at hsign hsplit
  obtain ⟨signChars, negative, start⟩ := s
  refine if_pos ?_
  by_contra hgood
  simp only [Bool.or_eq_true, Bool.not_eq_true', not_or, List.isEmpty_iff, Bool.not_eq_false]
    at hgood
  -- otherwise the line starts with the sign and the digits that were found
  refine h ⟨_, ⟨negative, start.takeWhile Char.isDigit⟩, start.dropWhile Char.isDigit,
    ⟨blanks, hb, ?_⟩, ⟨hsign, hgood.1, ?_⟩, atDelimiter_eq_true.mp hgood.2⟩
  · rw [List.append_assoc, List.takeWhile_append_dropWhile, ← hsplit]
    exact hcs
  · exact fun c hc => List.all_eq_true.mp List.all_takeWhile c hc

/-- The text of an integer that can be held. -/
def IntegerToken (text : List Char) (v : Int) : Prop :=
  ∃ n, Numeral.Token text n ∧ n.magnitude ≤ maxInteger ∧ n.value = v

theorem integer_eq_ok_iff {v : Int} :
    integer cs = .ok (v, rest) ↔
      ∃ text n, Starts Numeral.Token Delimited cs text n rest ∧ n.magnitude ≤ maxInteger ∧
        n.value = v := by
  constructor
  · intro h
    by_cases hstart : ∃ text n rest, Starts Numeral.Token Delimited cs text n rest
    · obtain ⟨text, n, rest', hs⟩ := hstart
      rw [hs.integer_eq] at h
      split at h
      · rename_i hm
        obtain ⟨hv, rfl⟩ := Prod.mk.inj (Except.ok.inj h)
        exact ⟨text, n, hs, hm, hv⟩
      · cases h
    · rw [integer_eq_expectedInteger hstart] at h
      cases h
  · rintro ⟨text, n, hs, hm, rfl⟩
    rw [hs.integer_eq, if_pos hm]

/-- **Integers are tokens** that stop at a delimiter. -/
theorem takesTokens_integer : TakesTokens integer IntegerToken Delimited where
  eq_ok_iff cs v rest := by
    rw [integer_eq_ok_iff]
    constructor
    · rintro ⟨text, n, ⟨hsplit, htoken, hstops⟩, hm, hv⟩
      exact ⟨text, hsplit, ⟨n, htoken, hm, hv⟩, hstops⟩
    · rintro ⟨text, hsplit, ⟨n, htoken, hm, hv⟩, hstops⟩
      exact ⟨text, n, ⟨hsplit, htoken, hstops⟩, hm, hv⟩
  last text v h := by
    obtain ⟨_, ⟨hsign, hne, hdigits⟩, -⟩ := h
    obtain ⟨c, hlast, hc⟩ := exists_last hne fun c hc => isBlank_eq_false (hdigits c hc)
    exact ⟨c, by rw [List.getLast?_append, hlast]; rfl, hc⟩
  stops_append rest blanks hb := Delimited.append hb

/-- **Integers are read exactly.** A line gives an integer if behind blanks it starts with an
optional sign and decimal digits, up to a delimiter, and the digits denote at most `2 ^ 63 - 1`; the
integer is then the number that is written. Digits that denote more are an overflow, and the error
shows them with their sign. Anything else is no integer. Zeros in front change nothing, and no number
that the digits are taken in to lacks a negative. -/
theorem integers_read_exactly (cs : List Char) :
    (∀ v rest, integer cs = .ok (v, rest) ↔
      ∃ text n, Starts Numeral.Token Delimited cs text n rest ∧ n.magnitude ≤ 2 ^ 63 - 1 ∧
        v = n.value) ∧
    (∀ shown, integer cs = .error (.integerOverflow shown) ↔
      ∃ text n rest, Starts Numeral.Token Delimited cs text n rest ∧ 2 ^ 63 - 1 < n.magnitude ∧
        shown = String.ofList text) ∧
    (integer cs = .error .expectedInteger ↔
      ¬ ∃ text n rest, Starts Numeral.Token Delimited cs text n rest) ∧
    (∀ negative digits k, (Numeral.mk negative (List.replicate k '0' ++ digits)).value =
      (Numeral.mk negative digits).value) ∧
    (∀ text n rest v, Starts Numeral.Token Delimited cs text n rest →
      decimal64? n.digits = some v → v.toBitVec.negOverflow = false) := by
  rw [← maxInteger_eq]
  refine ⟨fun v rest => ?_, fun shown => ?_, ?_, Numeral.value_leadingZeros, ?_⟩
  · rw [integer_eq_ok_iff]
    exact ⟨fun ⟨text, n, hs, hm, hv⟩ => ⟨text, n, hs, hm, hv.symm⟩,
      fun ⟨text, n, hs, hm, hv⟩ => ⟨text, n, hs, hm, hv.symm⟩⟩
  · constructor
    · intro h
      by_cases hstart : ∃ text n rest, Starts Numeral.Token Delimited cs text n rest
      · obtain ⟨text, n, rest, hs⟩ := hstart
        rw [hs.integer_eq] at h
        split at h
        · cases h
        · rename_i hm
          obtain rfl := LexError.integerOverflow.inj (Except.error.inj h)
          exact ⟨text, n, rest, hs, Nat.lt_of_not_le hm, rfl⟩
      · rw [integer_eq_expectedInteger hstart] at h
        cases h
    · rintro ⟨text, n, rest, hs, hm, rfl⟩
      rw [hs.integer_eq, if_neg (Nat.not_le.mpr hm)]
  · refine ⟨?_, integer_eq_expectedInteger⟩
    rintro h ⟨text, n, rest, hs⟩
    rw [hs.integer_eq] at h
    split at h
    · cases h
    · cases h
  · rintro text n rest v ⟨-, ⟨-, -, hdigits⟩, -⟩ hv
    rw [decimal64?_eq hdigits] at hv
    split at hv
    · rename_i hm
      obtain rfl := Option.some.inj hv
      exact negOverflow_ofNat hm
    · cases hv

end ChunkAsm.Scan
