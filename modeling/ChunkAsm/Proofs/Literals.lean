import ChunkAsm.Proofs.Operands
import ChunkAsm.Proofs.Tokens

/-!
# The grammar of literals

What a literal is, said without a reader: a quoted string with escapes, a decimal or hexadecimal
number, or one of three words (`LiteralToken`). The grammar gives each text its value. For every
form there are two lemmas: what the reader takes is in the grammar (`_sound`), and what is in the
grammar is taken, provided that the token stops there (`_complete`).

The forms need no look-ahead beyond the delimiter. A string stops at its quote. A number and a word
stop where no character of theirs follows, and since a delimiter is none of these, a reader that
takes as much as it can takes exactly the token.
-/

namespace ChunkAsm.Scan

/-! ## Strings -/

/-- The escapes: the character behind a backslash, and the byte that the two stand for. -/
def escapes : List (Char × UInt8) :=
  [('a', 7), ('b', 8), ('f', 12), ('n', 10), ('r', 13), ('t', 9), ('v', 11), ('\\', 92),
    ('"', 34), ('\'', 39), ('[', 91), (']', 93)]

theorem escape?_eq_some {c : Char} {b : UInt8} : escape? c = some b ↔ (c, b) ∈ escapes := by
  constructor
  · intro h
    unfold escape? at h
    split at h
    all_goals
      cases h
      try decide
  · intro h
    have hall : ∀ p ∈ escapes, escape? p.1 = some p.2 := by decide
    exact hall _ h

/-- What stands between the quotes of a string, and the bytes of the string. A character stands for
itself, in UTF-8, unless it is the quote or a backslash; a backslash starts an escape. -/
inductive StringBody (quote : Char) : List Char → List UInt8 → Prop where
  | nil : StringBody quote [] []
  | char {c : Char} {cs : List Char} {bytes : List UInt8} : c ≠ quote → c ≠ '\\' →
    StringBody quote cs bytes → StringBody quote (c :: cs) (String.utf8EncodeChar c ++ bytes)
  | escape {c : Char} {b : UInt8} {cs : List Char} {bytes : List UInt8} : (c, b) ∈ escapes →
    StringBody quote cs bytes → StringBody quote ('\\' :: c :: cs) (b :: bytes)

section

variable {quote : Char} {cs body rest : List Char} {done bytes : List UInt8}

theorem stringBody_sound (h : stringBody quote done cs = .ok (bytes, rest)) :
    ∃ body new, cs = body ++ quote :: rest ∧ StringBody quote body new ∧
      bytes = done.reverse ++ new := by
  fun_induction stringBody quote done cs with
  | case1 => cases h
  | case2 done cs =>
    obtain ⟨rfl, rfl⟩ := Prod.mk.inj (Except.ok.inj h)
    exact ⟨[], [], rfl, .nil, (List.append_nil _).symm⟩
  | case3 => cases h
  | case4 done e cs b hescape hquote ih =>
    obtain ⟨body, new, rfl, hbody, rfl⟩ := ih h
    exact ⟨'\\' :: e :: body, b :: new, rfl, .escape (escape?_eq_some.mp hescape) hbody, by simp⟩
  | case5 => cases h
  | case6 done c cs hquote hescape ih =>
    obtain ⟨body, new, rfl, hbody, rfl⟩ := ih h
    exact ⟨c :: body, _, rfl, .char hquote hescape hbody, by simp⟩

theorem StringBody.complete (h : StringBody quote body bytes) (hquote : quote ≠ '\\')
    (done : List UInt8) :
    stringBody quote done (body ++ quote :: rest) = .ok (done.reverse ++ bytes, rest) := by
  induction h generalizing done with
  | nil => rw [List.append_nil]; exact stringBody_quote
  | char hc hescape _ ih =>
    rw [List.cons_append, stringBody_char hc hescape, ih]
    simp
  | escape hc _ ih =>
    rw [List.cons_append, List.cons_append,
      stringBody_escape hquote (escape?_eq_some.mpr hc), ih]
    simp

end

/-! ## Numbers -/

/-- A number without a sign, and its value. -/
inductive UnsignedToken : List Char → Binary64 → Prop where
  /-- hexadecimal digits -/
  | hex {x : Char} {digits : List Char} : x = 'x' ∨ x = 'X' → digits ≠ [] →
    (∀ c ∈ digits, isHexDigit c = true) →
    UnsignedToken ('0' :: x :: digits) (.ofHex (digits.map digitValue))
  /-- decimal digits -/
  | whole {int : List Char} : int ≠ [] → (∀ c ∈ int, c.isDigit = true) →
    UnsignedToken int (.ofDecimal (int.map digitValue) [])
  /-- decimal digits around a point, on one side of it at least -/
  | fraction {int frac : List Char} : int ++ frac ≠ [] → (∀ c ∈ int, c.isDigit = true) →
    (∀ c ∈ frac, c.isDigit = true) →
    UnsignedToken (int ++ '.' :: frac) (.ofDecimal (int.map digitValue) (frac.map digitValue))

/-- A number with an optional sign, and its value. -/
inductive NumberToken : List Char → Binary64 → Prop where
  | intro {signChars text : List Char} {negative : Bool} {x : Binary64} : Sign signChars negative →
    UnsignedToken text x → NumberToken (signChars ++ text) (if negative then x.neg else x)

section

variable {cs rest shown : List Char} {x : Binary64}

theorem hexNumber_sound (h : hexNumber shown cs = .ok (x, rest)) :
    ∃ digits, digits ≠ [] ∧ (∀ c ∈ digits, isHexDigit c = true) ∧ cs = digits ++ rest ∧
      x = .ofHex (digits.map digitValue) := by
  rw [hexNumber] at h
  split at h
  · cases h
  · rename_i hne
    obtain ⟨rfl, rfl⟩ := Prod.mk.inj (Except.ok.inj h)
    exact ⟨_, hne, List.all_eq_true.mp List.all_takeWhile, List.takeWhile_append_dropWhile.symm,
      rfl⟩

theorem decimalNumber_sound (h : decimalNumber shown cs = .ok (x, rest)) :
    ∃ text, cs = text ++ rest ∧ UnsignedToken text x := by
  have hint : ∀ c ∈ cs.takeWhile Char.isDigit, c.isDigit = true :=
    List.all_eq_true.mp List.all_takeWhile
  have hcs : cs = cs.takeWhile Char.isDigit ++ cs.dropWhile Char.isDigit :=
    List.takeWhile_append_dropWhile.symm
  simp only [decimalNumber] at h
  split at h
  · rename_i frac hpoint
    rw [hpoint] at hcs
    split at h
    · cases h
    · rename_i hne
      obtain ⟨rfl, rfl⟩ := Prod.mk.inj (Except.ok.inj h)
      refine ⟨_, ?_, .fraction ?_ hint (List.all_eq_true.mp List.all_takeWhile)⟩
      · rw [List.append_assoc, List.cons_append, List.takeWhile_append_dropWhile]
        exact hcs
      · simpa [List.append_eq_nil_iff] using hne
  · split at h
    · cases h
    · rename_i hne
      obtain ⟨rfl, rfl⟩ := Prod.mk.inj (Except.ok.inj h)
      exact ⟨_, hcs, .whole (by simpa using hne) hint⟩

theorem number_sound (h : number cs = .ok (x, rest)) :
    ∃ text, cs = text ++ rest ∧ NumberToken text x := by
  obtain ⟨hsign, hcs⟩ := sign_split cs
  simp only [number] at h
  generalize sign cs = s at h hsign hcs
  obtain ⟨signChars, negative, start⟩ := s
  -- in each case a number without its sign has been read
  have hread : ∃ text y, start = text ++ rest ∧ UnsignedToken text y ∧
      x = if negative then y.neg else y := by
    simp only at h
    split at h <;> obtain ⟨⟨y, rest'⟩, hy, hx⟩ := bind_eq_ok.mp h <;>
      obtain ⟨rfl, rfl⟩ := Prod.mk.inj (Except.ok.inj hx)
    · obtain ⟨digits, hne, hdigits, rfl, rfl⟩ := hexNumber_sound hy
      exact ⟨_, _, rfl, .hex (.inl rfl) hne hdigits, rfl⟩
    · obtain ⟨digits, hne, hdigits, rfl, rfl⟩ := hexNumber_sound hy
      exact ⟨_, _, rfl, .hex (.inr rfl) hne hdigits, rfl⟩
    · obtain ⟨text, rfl, htext⟩ := decimalNumber_sound hy
      exact ⟨text, y, rfl, htext, rfl⟩
  obtain ⟨text, y, rfl, htext, rfl⟩ := hread
  exact ⟨signChars ++ text, by rw [hcs, List.append_assoc], .intro hsign htext⟩

theorem hexNumber_complete {digits : List Char} (hne : digits ≠ [])
    (hdigits : ∀ c ∈ digits, isHexDigit c = true) (hrest : Delimited rest) :
    hexNumber shown (digits ++ rest) = .ok (.ofHex (digits.map digitValue), rest) := by
  have hends : Ends isHexDigit rest := hrest.ends
  obtain ⟨c, digits, rfl⟩ := List.exists_cons_of_ne_nil hne
  rw [hexNumber, takeWhile_append hdigits hends, dropWhile_append hdigits hends]

theorem decimalNumber_whole {int : List Char} (hne : int ≠ []) (hint : ∀ c ∈ int, c.isDigit = true)
    (hrest : Delimited rest) :
    decimalNumber shown (int ++ rest) = .ok (.ofDecimal (int.map digitValue) [], rest) := by
  have hends : Ends Char.isDigit rest := hrest.ends
  have hempty : int.isEmpty = false := List.isEmpty_eq_false_iff.mpr hne
  simp only [decimalNumber, takeWhile_append hint hends, dropWhile_append hint hends]
  split
  · -- a point is no delimiter
    rcases hrest '.' rfl with h | h | h <;> cases h
  · simp only [hempty, Bool.false_and, Bool.false_eq_true, if_false, List.map_nil]

theorem decimalNumber_fraction {int frac : List Char} (hne : int ++ frac ≠ [])
    (hint : ∀ c ∈ int, c.isDigit = true) (hfrac : ∀ c ∈ frac, c.isDigit = true)
    (hrest : Delimited rest) :
    decimalNumber shown (int ++ '.' :: (frac ++ rest)) =
      .ok (.ofDecimal (int.map digitValue) (frac.map digitValue), rest) := by
  have hends : Ends Char.isDigit rest := hrest.ends
  have hpoint : Ends Char.isDigit ('.' :: (frac ++ rest)) := by
    intro c hc
    obtain rfl := Option.some.inj hc
    rfl
  have hempty : (int.isEmpty && frac.isEmpty) = false := by
    simpa [List.append_eq_nil_iff] using hne
  simp only [decimalNumber, takeWhile_append hint hpoint, dropWhile_append hint hpoint,
    takeWhile_append hfrac hends, dropWhile_append hfrac hends, hempty, Bool.false_eq_true,
    if_false]

/-- A number without a sign starts with a digit or a point. -/
theorem UnsignedToken.exists_cons {text : List Char} (h : UnsignedToken text x) :
    ∃ c cs, text = c :: cs ∧ (c.isDigit = true ∨ c = '.') := by
  cases h with
  | hex => exact ⟨'0', _, rfl, .inl rfl⟩
  | whole hne hint =>
    obtain ⟨c, cs, rfl⟩ := List.exists_cons_of_ne_nil hne
    exact ⟨c, cs, rfl, .inl (hint c List.mem_cons_self)⟩
  | @fraction int frac _ hint =>
    cases int with
    | nil => exact ⟨'.', frac, rfl, .inr rfl⟩
    | cons c int => exact ⟨c, _, rfl, .inl (hint c List.mem_cons_self)⟩

theorem UnsignedToken.not_blank {text : List Char} (h : UnsignedToken text x) :
    ∀ c ∈ text, isBlank c = false := by
  cases h with
  | hex hx _ hdigits =>
    intro c hc
    rcases List.mem_cons.mp hc with rfl | hc
    · rfl
    rcases List.mem_cons.mp hc with rfl | hc
    · rcases hx with rfl | rfl <;> rfl
    · exact isBlank_eq_false (hdigits c hc)
  | whole _ hint => exact fun c hc => isBlank_eq_false (hint c hc)
  | fraction _ hint hfrac =>
    intro c hc
    rcases List.mem_append.mp hc with hc | hc
    · exact isBlank_eq_false (hint c hc)
    rcases List.mem_cons.mp hc with rfl | hc
    · rfl
    · exact isBlank_eq_false (hfrac c hc)

/-- A number starts with a sign, a digit or a point. -/
theorem NumberToken.exists_cons {text : List Char} (h : NumberToken text x) :
    ∃ c cs, text = c :: cs ∧ (c.isDigit = true ∨ c = '-' ∨ c = '+' ∨ c = '.') := by
  obtain ⟨hsign, htext⟩ := h
  cases hsign with
  | plus => exact ⟨'+', _, rfl, .inr (.inr (.inl rfl))⟩
  | minus => exact ⟨'-', _, rfl, .inr (.inl rfl)⟩
  | none =>
    obtain ⟨c, cs, rfl, hc⟩ := htext.exists_cons
    exact ⟨c, cs, rfl, hc.imp_right fun h => .inr (.inr h)⟩

theorem NumberToken.not_blank {text : List Char} (h : NumberToken text x) :
    ∀ c ∈ text, isBlank c = false := by
  obtain ⟨hsign, htext⟩ := h
  intro c hc
  rcases List.mem_append.mp hc with hc | hc
  · cases hsign with
    | none => cases hc
    | plus =>
      obtain rfl := List.mem_singleton.mp hc
      rfl
    | minus =>
      obtain rfl := List.mem_singleton.mp hc
      rfl
  · exact htext.not_blank c hc

/-- Decimal digits and points, up to a delimiter, are no hexadecimal number. -/
theorem not_hex {text digits : List Char} {y : Char} (hne : text ≠ [])
    (htext : ∀ c ∈ text, c.isDigit = true ∨ c = '.') (hrest : Delimited rest)
    (h : text ++ rest = '0' :: y :: digits) : y ≠ 'x' ∧ y ≠ 'X' := by
  have hy : (y.isDigit = true ∨ y = '.') ∨ y = ';' ∨ y = ' ' ∨ y = '\t' := by
    match text, hne, htext, h with
    | [_], _, _, h =>
      obtain ⟨-, rfl⟩ := List.cons.inj h
      exact .inr (hrest y rfl)
    | _ :: c :: _, _, htext, h =>
      obtain rfl : c = y := (List.cons.inj (List.cons.inj h).2).1
      exact .inl (htext c (List.mem_cons_of_mem _ List.mem_cons_self))
  constructor
  · rintro rfl
    revert hy
    decide
  · rintro rfl
    revert hy
    decide

section

variable {signChars start : List Char} {negative : Bool}

theorem number_of_hex {y : Char} {digits : List Char} (hy : y = 'x' ∨ y = 'X')
    (hsign : sign cs = (signChars, negative, '0' :: y :: digits))
    (h : ∀ shown, hexNumber shown digits = .ok (x, rest)) :
    number cs = .ok (if negative then x.neg else x, rest) := by
  rw [number, hsign]
  rcases hy with rfl | rfl
  · simp only [h]
    rfl
  · simp only [h]
    rfl

theorem number_of_decimal (hsign : sign cs = (signChars, negative, start))
    (hhex : ∀ y digits, start = '0' :: y :: digits → y ≠ 'x' ∧ y ≠ 'X')
    (h : decimalNumber signChars start = .ok (x, rest)) :
    number cs = .ok (if negative then x.neg else x, rest) := by
  rw [number, hsign]
  simp only
  split
  · exact absurd rfl (hhex _ _ rfl).1
  · exact absurd rfl (hhex _ _ rfl).2
  · rw [h]
    rfl

end

theorem NumberToken.complete {text : List Char} (h : NumberToken text x) (hrest : Delimited rest) :
    number (text ++ rest) = .ok (x, rest) := by
  obtain ⟨hsign, htext⟩ := h
  have hstart := htext.exists_cons
  rename_i signChars text negative x
  rw [List.append_assoc]
  have hsplit : sign (signChars ++ (text ++ rest)) = (signChars, negative, text ++ rest) := by
    refine hsign.sign_append fun c hc => ?_
    obtain ⟨c', cs, rfl, hc'⟩ := hstart
    obtain rfl := Option.some.inj hc
    rcases hc' with hc' | rfl
    · exact ⟨ne_of_isNameChar (isNameChar_of_isDigit hc') _,
        ne_of_isNameChar (isNameChar_of_isDigit hc') _⟩
    · decide
  cases htext with
  | hex hx hne hdigits =>
    exact number_of_hex hx hsplit fun shown => hexNumber_complete hne hdigits hrest
  | whole hne hint =>
    exact number_of_decimal hsplit (fun y digits => not_hex hne (fun c hc => .inl (hint c hc)) hrest)
      (decimalNumber_whole hne hint hrest)
  | @fraction int frac hne hint hfrac =>
    have hchars : ∀ c ∈ int ++ '.' :: frac, c.isDigit = true ∨ c = '.' := by
      intro c hc
      rcases List.mem_append.mp hc with hc | hc
      · exact .inl (hint c hc)
      · rcases List.mem_cons.mp hc with rfl | hc
        · exact .inr rfl
        · exact .inl (hfrac c hc)
    refine number_of_decimal hsplit (fun y digits => not_hex (by simp) hchars hrest) ?_
    rw [List.append_assoc]
    exact decimalNumber_fraction hne hint hfrac hrest

end

/-! ## Words -/

/-- The words that are literals. -/
def literalWords : List (String × Constant) :=
  [("true", .bool true), ("false", .bool false), ("nil", .nil)]

/-- A word matches a keyword if it is the keyword in other letter cases. This holds of keywords
without a `k`, which the Kelvin sign matches as well. -/
theorem matches_ofList {text : List Char} {keyword : String}
    (hk : 'k' ∉ keyword.toList ∧ '\u212a' ∉ keyword.toList) :
    Keyword.Matches (String.ofList text) keyword ↔ text.map Char.toLower = keyword.toList := by
  have hmap (f g : Char → Char) (hfg : ∀ c, f c ∈ keyword.toList → f c = g c)
      (h : text.map f = keyword.toList) : text.map g = keyword.toList := by
    rw [← h]
    exact (List.map_congr_left fun c hc => hfg c (h ▸ List.mem_map_of_mem hc)).symm
  have hfold : Keyword.Matches (String.ofList text) keyword ↔
      text.map Keyword.foldChar = keyword.toList := by
    rw [Keyword.Matches, Keyword.fold, String.toList_ofList, ← String.toList_inj,
      String.toList_ofList]
  rw [hfold]
  refine ⟨hmap _ _ fun c hc => ?_, hmap _ _ fun c hc => ?_⟩
  · rw [Keyword.foldChar] at hc ⊢
    split at hc
    · exact absurd hc hk.1
    · rw [if_neg ‹_›]
  · rw [Keyword.foldChar, if_neg]
    rintro rfl
    exact hk.2 hc

theorem isAlpha_of_toLower {c : Char} (h : c.toLower.isAlpha = true) : c.isAlpha = true := by
  by_cases hupper : c.val ≥ 'A'.val ∧ c.val ≤ 'Z'.val
  · change (decide (c.val ≥ 'A'.val ∧ c.val ≤ 'Z'.val) || c.isLower) = true
    rw [decide_eq_true hupper, Bool.true_or]
  · have hlower : c.toLower = c := dif_neg hupper
    rwa [hlower] at h

theorem isAlpha_of_map_toLower {text keyword : List Char} (h : text.map Char.toLower = keyword)
    (hkeyword : ∀ c ∈ keyword, c.isAlpha = true) : ∀ c ∈ text, c.isAlpha = true :=
  fun _ hc => isAlpha_of_toLower (hkeyword _ (h ▸ List.mem_map_of_mem hc))

theorem literalWord?_eq_some {text : List Char} {k : Constant} :
    literalWord? (String.ofList text) = some k ↔
      ∃ keyword, (keyword, k) ∈ literalWords ∧ text.map Char.toLower = keyword.toList := by
  have hmatches : ∀ p ∈ literalWords,
      (Keyword.Matches (String.ofList text) p.1 ↔ text.map Char.toLower = p.1.toList) := by
    intro p hp
    have hall : ∀ p ∈ literalWords, 'k' ∉ p.1.toList ∧ '\u212a' ∉ p.1.toList := by decide
    exact matches_ofList (hall p hp)
  constructor
  · intro h
    rw [literalWord?] at h
    split at h
    · obtain rfl := Option.some.inj h
      exact ⟨"true", by decide, (hmatches ("true", .bool true) (by decide)).mp ‹_›⟩
    split at h
    · obtain rfl := Option.some.inj h
      exact ⟨"false", by decide, (hmatches ("false", .bool false) (by decide)).mp ‹_›⟩
    split at h
    · obtain rfl := Option.some.inj h
      exact ⟨"nil", by decide, (hmatches ("nil", .nil) (by decide)).mp ‹_›⟩
    · cases h
  · rintro ⟨keyword, hp, htext⟩
    have hword : Keyword.fold (String.ofList text) = keyword := (hmatches _ hp).mpr htext
    simp only [literalWord?, Keyword.Matches, hword]
    have hall : ∀ p ∈ literalWords, (if p.1 = "true" then some (Constant.bool true)
        else if p.1 = "false" then some (.bool false)
        else if p.1 = "nil" then some .nil else none) = some p.2 := by
      decide
    exact hall _ hp

/-- A word that is a literal consists of letters. -/
theorem isAlpha_of_literalWords {text : List Char} {keyword : String} {k : Constant}
    (hkeyword : (keyword, k) ∈ literalWords) (htext : text.map Char.toLower = keyword.toList) :
    text ≠ [] ∧ ∀ c ∈ text, c.isAlpha = true := by
  have hall : ∀ p ∈ literalWords, (!p.1.toList.isEmpty && p.1.toList.all Char.isAlpha) = true :=
    List.all_eq_true.mp rfl
  have hboth := hall _ hkeyword
  rw [Bool.and_eq_true, List.all_eq_true] at hboth
  refine ⟨?_, isAlpha_of_map_toLower htext hboth.2⟩
  rintro rfl
  have hempty := hboth.1
  rw [← htext] at hempty
  cases hempty

/-! ## Literals -/

/-- A literal, and its value. -/
inductive LiteralToken : List Char → Constant → Prop where
  /-- a string in quotes of either kind -/
  | string {quote : Char} {body : List Char} {bytes : List UInt8} : quote = '"' ∨ quote = '\'' →
    StringBody quote body bytes → LiteralToken (quote :: (body ++ [quote])) (.string bytes)
  /-- a number -/
  | number {text : List Char} {x : Binary64} : NumberToken text x → LiteralToken text (.number x)
  /-- a word, in any letter case -/
  | word {text : List Char} {keyword : String} {k : Constant} : (keyword, k) ∈ literalWords →
    text.map Char.toLower = keyword.toList → LiteralToken text k

section

variable {cs text rest : List Char} {k : Constant}

theorem literalToken_sound (h : literalToken cs = .ok (k, rest)) :
    ∃ text, cs = text ++ rest ∧ LiteralToken text k := by
  cases cs with
  | nil => cases h
  | cons c cs =>
    simp only [literalToken] at h
    split at h
    · rename_i hquote
      obtain ⟨⟨bytes, rest'⟩, hbody, h⟩ := bind_eq_ok.mp h
      obtain ⟨rfl, rfl⟩ := Prod.mk.inj (Except.ok.inj h)
      obtain ⟨body, new, rfl, hbody, rfl⟩ := stringBody_sound hbody
      exact ⟨c :: (body ++ [c]), by simp, .string hquote hbody⟩
    split at h
    · obtain ⟨⟨x, rest'⟩, hx, h⟩ := bind_eq_ok.mp h
      obtain ⟨rfl, rfl⟩ := Prod.mk.inj (Except.ok.inj h)
      obtain ⟨text, hcs, htext⟩ := number_sound hx
      exact ⟨text, hcs, .number htext⟩
    split at h
    · split at h
      · rename_i hword
        obtain ⟨rfl, rfl⟩ := Prod.mk.inj (Except.ok.inj h)
        obtain ⟨keyword, hkeyword, htext⟩ := literalWord?_eq_some.mp hword
        exact ⟨_, List.takeWhile_append_dropWhile.symm, .word hkeyword htext⟩
      · cases h
    · cases h

/-- A literal has characters, and the first is no blank. -/
theorem LiteralToken.exists_cons (h : LiteralToken text k) :
    ∃ c cs, text = c :: cs ∧ isBlank c = false := by
  cases h with
  | string hquote =>
    refine ⟨_, _, rfl, ?_⟩
    rcases hquote with rfl | rfl <;> rfl
  | number hnumber =>
    obtain ⟨c, cs, rfl, -⟩ := hnumber.exists_cons
    exact ⟨c, cs, rfl, hnumber.not_blank c List.mem_cons_self⟩
  | word hkeyword htext =>
    obtain ⟨hne, halpha⟩ := isAlpha_of_literalWords hkeyword htext
    obtain ⟨c, cs, rfl⟩ := List.exists_cons_of_ne_nil hne
    exact ⟨c, cs, rfl, isBlank_eq_false (halpha c List.mem_cons_self)⟩

/-- A literal does not end in a blank either. -/
theorem LiteralToken.exists_last (h : LiteralToken text k) :
    ∃ c, text.getLast? = some c ∧ isBlank c = false := by
  cases h with
  | @string quote body _ hquote =>
    refine ⟨quote, by rw [← List.cons_append, List.getLast?_append]; rfl, ?_⟩
    rcases hquote with rfl | rfl <;> rfl
  | number hnumber =>
    obtain ⟨c, cs, rfl, -⟩ := hnumber.exists_cons
    exact Scan.exists_last (List.cons_ne_nil c cs) hnumber.not_blank
  | word hkeyword htext =>
    obtain ⟨hne, halpha⟩ := isAlpha_of_literalWords hkeyword htext
    exact Scan.exists_last hne fun c hc => isBlank_eq_false (halpha c hc)

theorem LiteralToken.complete (h : LiteralToken text k) (hrest : Delimited rest) :
    literalToken (text ++ rest) = .ok (k, rest) := by
  cases h with
  | @string quote _ _ hquote hbody =>
    have hslash : quote ≠ '\\' := by
      rintro rfl
      exact absurd hquote (by decide)
    rw [List.cons_append, List.append_assoc, literalToken, if_pos hquote, List.singleton_append,
      hbody.complete hslash]
    rfl
  | number hnumber =>
    have hread := hnumber.complete hrest
    obtain ⟨c, cs, rfl, hc⟩ := hnumber.exists_cons
    have hquote : ¬ (c = '"' ∨ c = '\'') := by
      rintro (rfl | rfl)
      · exact absurd hc (by decide)
      · exact absurd hc (by decide)
    rw [List.cons_append] at hread ⊢
    rw [literalToken, if_neg hquote, if_pos hc, hread]
    rfl
  | word hkeyword htext =>
    obtain ⟨hne, halpha⟩ := isAlpha_of_literalWords hkeyword htext
    obtain ⟨c, cs, rfl⟩ := List.exists_cons_of_ne_nil hne
    have hc := halpha c List.mem_cons_self
    have hname := isNameChar_of_isAlpha hc
    refine literalToken_word (atDelimiter_eq_true.mpr hrest) halpha ?_ ?_
      (literalWord?_eq_some.mpr ⟨_, hkeyword, htext⟩)
    · rintro (rfl | rfl) <;> cases hc
    · rintro (hdigit | rfl | rfl | rfl)
      · rw [not_isAlpha_of_isDigit hdigit] at hc
        cases hc
      all_goals cases hc

/-- Where a line starts with a literal the blanks in front end. -/
theorem Starts.skipBlanks_eq (h : Starts LiteralToken Delimited cs text k rest) :
    skipBlanks cs = text ++ rest := by
  obtain ⟨⟨blanks, hb, rfl⟩, htoken, -⟩ := h
  obtain ⟨c, cs, rfl, hc⟩ := htoken.exists_cons
  exact hb.skipBlanks_eq hc _

/-- **Literals are tokens** that stop at a delimiter. -/
theorem takesTokens_literal : TakesTokens literal LiteralToken Delimited where
  eq_ok_iff cs k rest := by
    constructor
    · intro h
      obtain ⟨⟨k', rest'⟩, htoken, h⟩ := bind_eq_ok.mp h
      simp only at h
      split at h
      · rename_i hrest
        obtain ⟨rfl, rfl⟩ := Prod.mk.inj (Except.ok.inj h)
        obtain ⟨blanks, hb, hcs⟩ := exists_blanks cs
        obtain ⟨text, htext, htoken⟩ := literalToken_sound htoken
        exact ⟨text, ⟨blanks, hb, htext ▸ hcs⟩, htoken, atDelimiter_eq_true.mp hrest⟩
      · cases h
    · rintro ⟨text, hstarts⟩
      rw [literal, hstarts.skipBlanks_eq, hstarts.token.complete hstarts.stops]
      exact if_pos (atDelimiter_eq_true.mpr hstarts.stops)
  last _ _ htoken := htoken.exists_last
  stops_append _ _ hb := Delimited.append hb

/-- The only literals with a string for their value are quoted. -/
theorem LiteralToken.eq_quoted {bytes : List UInt8} (h : LiteralToken text (.string bytes)) :
    ∃ quote body, (quote = '"' ∨ quote = '\'') ∧ StringBody quote body bytes ∧
      text = quote :: (body ++ [quote]) := by
  cases h with
  | @string quote body _ hquote hbody => exact ⟨quote, body, hquote, hbody, rfl⟩
  | word hkeyword =>
    have hall : ∀ p ∈ literalWords, ∀ bytes, p.2 ≠ .string bytes := by
      simp [literalWords]
    exact absurd rfl (hall _ hkeyword bytes)

end

/-- **Literals are read exactly.** Of any line a literal is read if and only if behind blanks the
line starts with one, up to a delimiter. The value is that of the grammar, and what is left is what
follows the token. A line starts with one literal at most. For strings the grammar is written out:
the value holds the characters between the quotes in UTF-8, with a byte for every escape. -/
theorem literals_read_exactly (cs : List Char) :
    (∀ k rest, literal cs = .ok (k, rest) ↔
      ∃ text, Starts LiteralToken Delimited cs text k rest) ∧
    (∀ text text' k k' rest rest', Starts LiteralToken Delimited cs text k rest →
      Starts LiteralToken Delimited cs text' k' rest' → text = text' ∧ k = k' ∧ rest = rest') ∧
    (∀ bytes rest, literal cs = .ok (.string bytes, rest) ↔
      ∃ blanks quote body, Blanks blanks ∧ (quote = '"' ∨ quote = '\'') ∧
        StringBody quote body bytes ∧ cs = blanks ++ quote :: (body ++ quote :: rest) ∧
        Delimited rest) := by
  refine ⟨takesTokens_literal.eq_ok_iff cs, fun text text' k k' rest rest' h h' => ?_,
    fun bytes rest => ?_⟩
  · have hread := (takesTokens_literal.eq_ok_iff cs k rest).mpr ⟨text, h⟩
    have hread' := (takesTokens_literal.eq_ok_iff cs k' rest').mpr ⟨text', h'⟩
    obtain ⟨rfl, rfl⟩ := Prod.mk.inj (Except.ok.inj (hread.symm.trans hread'))
    exact ⟨List.append_cancel_right (h.skipBlanks_eq.symm.trans h'.skipBlanks_eq), rfl, rfl⟩
  · rw [takesTokens_literal.eq_ok_iff]
    constructor
    · rintro ⟨text, ⟨blanks, hb, rfl⟩, htoken, hrest⟩
      obtain ⟨quote, body, hquote, hbody, rfl⟩ := htoken.eq_quoted
      exact ⟨blanks, quote, body, hb, hquote, hbody, by simp, hrest⟩
    · rintro ⟨blanks, quote, body, hb, hquote, hbody, rfl, hrest⟩
      exact ⟨_, ⟨blanks, hb, by simp⟩, .string hquote hbody, hrest⟩

end ChunkAsm.Scan
