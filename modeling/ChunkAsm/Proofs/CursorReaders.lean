import ChunkAsm.Cursor
import ChunkAsm.Proofs.Tokens

/-!
# Methods and readers

A method in place does what a reader does. It **follows** the reader: where the reader gives a value
and a rest, so does the method, and where the reader fails, the method fails with the same error,
wherever the cursor has got to. Following goes through everything that is read one after the other
(`Follows.bind`).

On a copy the place of a failure is forgotten. So a token that is read on a copy comes to an attempt
of its reader (`Follows.onCopy`), and every token can be read in both ways (`Token.read_eq`).
-/

namespace ChunkAsm.Cursor

/-! ## Following -/

section

variable {ε ε' α β : Type} {m : Method ε α} {here there : List Char}

/-- What a reader has come to and what is unread then, as the result of a method. -/
def ofOutcome : Except ε α × List Char → EStateM.Result ε (List Char) α
  | (.ok x, there) => .ok x there
  | (.error e, there) => .error e there

/-- The result of a method follows the result of a reader: it is the same value with the same rest,
or the same error at any place. -/
inductive Follows : EStateM.Result ε (List Char) α → Except ε (α × List Char) → Prop where
  | ok (x : α) (there : List Char) : Follows (.ok x there) (.ok (x, there))
  | error (e : ε) (there : List Char) : Follows (.error e there) (.error e)

/-- After a step that succeeds the next one is made. -/
theorem bind_of_ok {x : α} (h : m here = .ok x there) (f : α → Method ε β) :
    (m >>= f) here = f x there := by
  simp only [Bind.bind, EStateM.bind, h]

namespace Follows

variable {x : Except ε (α × List Char)}

/-- **Two steps in a row**, in place and with readers. -/
protected theorem bind {f : α → Method ε β} {g : α × List Char → Except ε (β × List Char)}
    (h : Follows (m here) x) (hfg : ∀ v rest, Follows (f v rest) (g (v, rest))) :
    Follows ((m >>= f) here) (x >>= g) := by
  simp only [Bind.bind, EStateM.bind]
  generalize m here = r at h
  cases h with
  | ok v rest => exact hfg v rest
  | error e rest => exact .error e rest

/-- A value that is only wrapped up. -/
protected theorem map (h : Follows (m here) x) (f : α → β) :
    Follows ((m >>= fun v => pure (f v)) here) (x >>= fun p => .ok (f p.1, p.2)) :=
  h.bind fun v rest => .ok (f v) rest

protected theorem adaptExcept (h : Follows (m here) x) (f : ε → ε') :
    Follows ((EStateM.adaptExcept f m : Method ε' α) here) (x.mapError f) := by
  simp only [EStateM.adaptExcept]
  generalize m here = r at h
  cases h with
  | ok v rest => exact .ok v rest
  | error e rest => exact .error (f e) rest

/-- A copy follows too. -/
theorem copied (h : Follows (m here) x) : Follows (onCopy m here) x := by
  simp only [Cursor.onCopy]
  generalize m here = r at h
  cases h with
  | ok v rest => exact .ok v rest
  | error e rest => exact .error e here

/-- **On a copy** a method comes to an attempt of the reader. -/
protected theorem onCopy {read : Scan.Reader ε α} (h : Follows (m here) (read here)) :
    onCopy m here = ofOutcome (Scan.attempt read here) := by
  simp only [Cursor.onCopy, Scan.attempt]
  generalize m here = r, read here = x at h
  cases h with
  | ok v rest => rfl
  | error e rest => rfl

/-- An attempt follows the reader. -/
theorem of_eq_attempt {read : Scan.Reader ε α} (h : m here = ofOutcome (Scan.attempt read here)) :
    Follows (m here) (read here) := by
  rw [h, Scan.attempt]
  cases read here with
  | ok p => exact .ok p.1 p.2
  | error e => exact .error e here

end Follows

/-! ## Characters -/

theorem skipBlanks_apply (here : List Char) :
    (skipBlanks : Method ε _) here = .ok () (Scan.skipBlanks here) :=
  rfl

theorem takeWhile_apply (p : Char → Bool) (here : List Char) :
    (takeWhile p : Method ε _) here = .ok (here.takeWhile p) (here.dropWhile p) :=
  rfl

theorem get_apply (here : List Char) : (get : Method ε _) here = .ok here here := rfl

theorem peek_apply (here : List Char) : (peek : Method ε _) here = .ok here.head? here := rfl

theorem bump_apply (here : List Char) : (bump : Method ε _) here = .ok here.head? here.tail := rfl

theorem word_apply (here : List Char) :
    (word : Method ε _) here = .ok (Scan.word here).1 (Scan.word here).2 :=
  rfl

theorem textSince_apply (passed here : List Char) :
    (textSince (passed ++ here) : Method ε _) here = .ok (String.ofList passed) here := by
  rw [textSince, bind_of_ok (get_apply here), List.length_append, Nat.add_sub_cancel,
    List.take_left]
  rfl

theorem eat_of_ne {c : Char} (h : ∀ rest, here ≠ c :: rest) :
    (eat c : Method ε _) here = .ok false here := by
  rw [eat, bind_of_ok (peek_apply here), if_neg]
  · rfl
  · intro hhead
    obtain ⟨rest, hrest⟩ := List.head?_eq_some_iff.mp hhead
    exact h rest hrest

theorem sign_apply (here : List Char) :
    (sign : Method ε _) here = .ok (Scan.sign here).2.1 (Scan.sign here).2.2 := by
  fun_cases Scan.sign here with
  | case1 rest => rfl
  | case2 rest => rfl
  | case3 _ hminus hplus =>
    rw [sign, bind_of_ok (eat_of_ne hminus)]
    exact bind_of_ok (eat_of_ne hplus) _

theorem atComment_apply (here : List Char) :
    (atComment : Method ε _) here = .ok (here.head?.all (· == ';')) here := by
  cases here with
  | nil => rfl
  | cons c rest => rfl

theorem atBlank_apply (here : List Char) :
    (atBlank : Method ε _) here = .ok (here.head?.any Scan.isBlank) here :=
  rfl

theorem atDelimiter_apply (here : List Char) :
    (atDelimiter : Method ε _) here = .ok (Scan.atDelimiter here) here := by
  cases here with
  | nil => rfl
  | cons c rest => rfl

theorem atEnd_apply (here : List Char) :
    (atEnd : Method ε _) here = .ok (Scan.atEnd here) here := by
  simp only [atEnd, ahead, bind_of_ok (skipBlanks_apply here), atComment_apply, Scan.atEnd]
  cases Scan.skipBlanks here with
  | nil => rfl
  | cons c rest => rfl

end

/-! ## Names and integers -/

theorem name_eq (here : List Char) : name here = ofOutcome (Scan.attempt Scan.name here) := by
  refine Follows.onCopy ?_
  rw [bind_of_ok (skipBlanks_apply here), bind_of_ok (takeWhile_apply _ _), Scan.name]
  cases (Scan.skipBlanks here).takeWhile Scan.isNameChar with
  | nil => exact .error _ _
  | cons c found => exact .ok _ _

theorem integer_eq (here : List Char) :
    integer here = ofOutcome (Scan.attempt Scan.integer here) := by
  refine Follows.onCopy ?_
  obtain ⟨-, hsplit⟩ := Scan.sign_split (Scan.skipBlanks here)
  rw [bind_of_ok (skipBlanks_apply here), bind_of_ok (get_apply _), bind_of_ok (sign_apply _),
    bind_of_ok (takeWhile_apply _ _), bind_of_ok (atDelimiter_apply _), Scan.integer]
  generalize Scan.sign (Scan.skipBlanks here) = s at hsplit
  obtain ⟨signChars, negative, start⟩ := s
  -- what has been passed over is the sign with the digits
  rw [← start.takeWhile_append_dropWhile (p := Char.isDigit), ← List.append_assoc] at hsplit
  rw [hsplit]
  simp only
  split
  · exact .error _ _
  · cases Scan.decimal64? (start.takeWhile Char.isDigit) with
    | none =>
      simp only [bind_of_ok (textSince_apply _ _)]
      exact .error _ _
    | some n => exact .ok _ _

theorem unsigned_eq (max : Int) (here : List Char) :
    unsigned max here = ofOutcome (Scan.attempt (Scan.unsigned max) here) := by
  refine Follows.onCopy ((Follows.of_eq_attempt (integer_eq here)).bind fun n rest => ?_)
  simp only
  split
  · exact .error _ _
  · exact .ok _ _

/-! ## Literals -/

/-- The induction is on the string as it is read: both go through it in the same way. -/
theorem stringBody_follows (quote : Char) (done : List UInt8) (here : List Char) :
    Follows (stringBody quote done here) (Scan.stringBody quote done here) := by
  fun_induction Scan.stringBody quote done here with
  | case1 => exact .error _ _
  | case2 done rest =>
    rw [stringBody.eq_def]
    simp only [if_pos]
    exact .ok _ rest
  | case3 done hquote =>
    rw [stringBody.eq_def]
    simp only [if_neg hquote, if_pos]
    exact .error _ _
  | case4 done e rest b he hquote ih =>
    rw [stringBody.eq_def]
    simp only [if_neg hquote, if_pos, he]
    exact ih
  | case5 done e rest he hquote =>
    rw [stringBody.eq_def]
    simp only [if_neg hquote, if_pos, he]
    exact .error _ _
  | case6 done c rest hquote hescape ih =>
    rw [stringBody.eq_def]
    simp only [if_neg hquote, if_neg hescape]
    exact ih

/-- Where no character of a class is taken, none is passed over. -/
theorem dropWhile_eq_self {p : Char → Bool} {cs : List Char} (h : cs.takeWhile p = []) :
    cs.dropWhile p = cs := by
  have hsplit := cs.takeWhile_append_dropWhile (p := p)
  rwa [h, List.nil_append] at hsplit

/-- What an error shows of a hexadecimal number is the part before its digits. -/
theorem hexNumber_follows (shown here : List Char) :
    Follows (hexNumber (shown ++ here) here) (Scan.hexNumber shown here) := by
  rw [hexNumber, bind_of_ok (takeWhile_apply _ _), Scan.hexNumber]
  cases hdigits : here.takeWhile Scan.isHexDigit with
  | cons d digits => exact .ok _ _
  | nil =>
    rw [dropWhile_eq_self hdigits, List.isEmpty_nil, if_pos rfl, bind_of_ok (textSince_apply _ _)]
    exact .error _ _

theorem fraction_point {ε : Type} (rest : List Char) :
    (fraction : Method ε _) ('.' :: rest) =
      .ok (rest.takeWhile Char.isDigit) (rest.dropWhile Char.isDigit) :=
  rfl

theorem fraction_of_ne {ε : Type} {here : List Char} (h : ∀ rest, here ≠ '.' :: rest) :
    (fraction : Method ε _) here = .ok [] here := by
  rw [fraction, bind_of_ok (eat_of_ne h)]
  rfl

/-- What an error shows of a decimal number is the part before its digits, and the point. -/
theorem decimalNumber_follows (shown here : List Char) :
    Follows (decimalNumber (shown ++ here) here) (Scan.decimalNumber shown here) := by
  have hsplit := here.takeWhile_append_dropWhile (p := Char.isDigit)
  rw [decimalNumber, bind_of_ok (takeWhile_apply _ _)]
  simp only [Scan.decimalNumber]
  generalize here.takeWhile Char.isDigit = int, here.dropWhile Char.isDigit = behind at hsplit ⊢
  split
  · rename_i rest
    rw [bind_of_ok (fraction_point rest)]
    simp only
    split
    · rename_i hempty
      obtain ⟨rfl, hfrac⟩ : int = [] ∧ rest.takeWhile Char.isDigit = [] := by simpa using hempty
      rw [dropWhile_eq_self hfrac, ← hsplit, List.nil_append, List.append_cons,
        bind_of_ok (textSince_apply _ _)]
      exact .error _ _
    · exact .ok _ _
  · rename_i hpoint
    rw [bind_of_ok (fraction_of_ne hpoint)]
    simp only
    split
    · rename_i hempty
      obtain rfl : int = [] := by simpa using hempty
      rw [← hsplit, List.nil_append, List.append_nil, bind_of_ok (textSince_apply _ _)]
      exact .error _ _
    · exact .ok _ _

theorem magnitude_hex {y : Char} (hy : y = 'x' ∨ y = 'X') (shown digits : List Char) :
    Follows (magnitude (shown ++ '0' :: y :: digits) ('0' :: y :: digits))
      (Scan.hexNumber (shown ++ ['0', y]) digits) := by
  have hmark : (hexMark : Method LexError _) ('0' :: y :: digits) = .ok true digits := by
    rcases hy with rfl | rfl <;> rfl
  have hdigits := hexNumber_follows (shown ++ ['0', y]) digits
  rw [List.append_assoc] at hdigits
  rw [magnitude, bind_of_ok hmark]
  exact hdigits

theorem magnitude_decimal {here : List Char} (shown : List Char)
    (hx : ∀ digits, here ≠ '0' :: 'x' :: digits) (hX : ∀ digits, here ≠ '0' :: 'X' :: digits) :
    Follows (magnitude (shown ++ here) here) (Scan.decimalNumber shown here) := by
  have hmark : (hexMark : Method LexError _) here = .ok false here := by
    unfold hexMark
    split
    · exact absurd rfl (hx _)
    · exact absurd rfl (hX _)
    · rfl
  rw [magnitude, bind_of_ok hmark]
  exact decimalNumber_follows shown here

theorem number_follows (here : List Char) : Follows (number here) (Scan.number here) := by
  obtain ⟨-, hsplit⟩ := Scan.sign_split here
  rw [number, bind_of_ok (get_apply here), bind_of_ok (sign_apply here)]
  simp only [Scan.number]
  generalize Scan.sign here = s at hsplit
  obtain ⟨signChars, negative, start⟩ := s
  obtain rfl := hsplit
  -- the sign is applied to whatever number is read behind it
  have hsigned {x : Except LexError (Binary64 × List Char)}
      (h : Follows (magnitude (signChars ++ start) start) x) :=
    h.map fun y : Binary64 => if negative then y.neg else y
  simp only
  generalize (magnitude (signChars ++ start) >>= fun y =>
    pure (if negative then y.neg else y)) start = r at hsigned ⊢
  split
  · exact hsigned (magnitude_hex (.inl rfl) signChars _)
  · exact hsigned (magnitude_hex (.inr rfl) signChars _)
  · rename_i hx hX
    exact hsigned (magnitude_decimal signChars hx hX)

theorem literalToken_follows (here : List Char) :
    Follows (literalToken here) (Scan.literalToken here) := by
  cases here with
  | nil => exact .error _ _
  | cons c rest =>
    rw [literalToken, bind_of_ok (peek_apply _), Scan.literalToken]
    simp only [List.head?_cons]
    split
    · rw [bind_of_ok (bump_apply _)]
      exact (stringBody_follows c [] rest).map Constant.string
    split
    · exact (number_follows _).map Constant.number
    split
    · rw [bind_of_ok (word_apply _)]
      cases Scan.literalWord? (Scan.word (c :: rest)).1 with
      | none => exact .error _ _
      | some k => exact .ok _ _
    · exact .error _ _

theorem literal_eq (here : List Char) :
    literal here = ofOutcome (Scan.attempt Scan.literal here) := by
  refine Follows.onCopy ?_
  rw [bind_of_ok (skipBlanks_apply here)]
  refine (literalToken_follows _).bind fun k rest => ?_
  rw [bind_of_ok (atDelimiter_apply rest)]
  simp only
  split
  · exact .ok _ _
  · exact .error _ _

/-! ## The end of the line -/

/-- The reader of the end of the line says itself where it stops, and the method stops there. -/
theorem lineEnd_eq (here : List Char) : lineEnd here = ofOutcome (Scan.endOfLine here) := by
  rw [lineEnd, bind_of_ok (skipBlanks_apply here), bind_of_ok (get_apply _), Scan.endOfLine]
  cases Scan.skipBlanks here with
  | nil => rfl
  | cons c rest =>
    simp only
    split
    · rfl
    · rfl

/-! ## Operands -/

theorem token_follows {α : Type} {m : Method LexError α} {read : Scan.Reader LexError α}
    {here : List Char} (h : m here = ofOutcome (Scan.attempt read here)) :
    Follows (token m here) (Operand.token read here) :=
  (Follows.of_eq_attempt h).adaptExcept OperandError.lex

/-- A slot that does not accept a kind turns the operand down before it is read. -/
theorem permit_follows {found : OperandKind} {accepted : Kinds} {α : Type}
    {m : Method OperandError α} {x : Except OperandError (α × List Char)} {here : List Char}
    (h : Follows (m here) x) :
    Follows ((permit found accepted >>= fun _ => m) here)
      (Operand.permit found accepted >>= fun _ => x) := by
  rw [permit, Operand.permit]
  split
  · exact h
  · exact .error _ _

theorem isSome_afterConst? (here : List Char) :
    (Operand.afterConst? here).isSome =
      (decide (Keyword.Matches (Scan.word here).1 "const") &&
        (Scan.word here).2.head?.any Scan.isBlank) := by
  simp only [Operand.afterConst?]
  cases (Scan.word here).2 with
  | nil => rw [List.head?_nil, Option.any_none, Bool.and_false, Option.isSome_none]
  | cons c rest =>
    rw [List.head?_cons, Option.any_some]
    by_cases hword : Keyword.Matches (Scan.word here).1 "const"
    · cases hblank : Scan.isBlank c <;> simp [hword, hblank]
    · simp [hword]

theorem ahead_constKeyword (here : List Char) :
    (ahead constKeyword : Method OperandError _) here =
      .ok (Operand.afterConst? here).isSome here := by
  rw [isSome_afterConst?]
  rfl

theorem eq_word_of_afterConst? {here rest : List Char} (h : Operand.afterConst? here = some rest) :
    rest = (Scan.word here).2 := by
  simp only [Operand.afterConst?] at h
  split at h
  · exact (Option.some.inj (Option.ite_none_right_eq_some.mp h).2).symm
  · cases h

theorem embeddedValue_follows (here : List Char) :
    Follows (embeddedValue here) (Operand.embeddedValue here) := by
  have hword : (ahead word : Method OperandError _) here = .ok (Scan.word here).1 here := rfl
  rw [embeddedValue, bind_of_ok hword, Operand.embeddedValue]
  simp only
  cases Operand.flag? (Scan.word here).1 with
  | none => exact token_follows (integer_eq here)
  | some n => exact .ok _ _

/-- An embedded value ends where every token does. -/
theorem atEnd_or_isBlank (cs : List Char) :
    (Scan.atEnd cs || cs.head?.any Scan.isBlank) = Scan.atDelimiter cs := by
  cases cs with
  | nil => rfl
  | cons c rest =>
    cases hc : Scan.isBlank c with
    | true => simp [Scan.atDelimiter, hc]
    | false => simp [Scan.atDelimiter, Scan.atEnd, Scan.skipBlanks_cons hc, hc]

theorem bare_follows (accepted : Kinds) (here : List Char) :
    Follows (bare accepted here) (Operand.bare accepted here) := by
  rw [bare, bind_of_ok (ahead_constKeyword here), Operand.bare]
  cases hconst : Operand.afterConst? here with
  | some rest =>
    refine Follows.copied ?_
    rw [bind_of_ok (word_apply here), ← eq_word_of_afterConst? hconst]
    exact permit_follows ((token_follows (literal_eq rest)).map Operand.constant)
  | none =>
    simp only [Option.isSome_none, Bool.false_eq_true, if_false]
    split
    · exact (token_follows (name_eq here)).map Operand.proto
    split
    · refine (embeddedValue_follows here).bind fun n rest => ?_
      rw [bind_of_ok (atEnd_apply rest), bind_of_ok (atBlank_apply rest), atEnd_or_isBlank]
      simp only
      split
      · exact .ok _ _
      · exact .error _ _
    · exact .error _ _

theorem operand_eq (accepted : Kinds) (here : List Char) :
    operand accepted here = ofOutcome (Scan.attempt (Operand.read accepted) here) := by
  refine Follows.onCopy ?_
  have hidem := Scan.skipBlanks_skipBlanks here
  rw [bind_of_ok (skipBlanks_apply here), bind_of_ok (atEnd_apply _)]
  fun_cases Operand.read accepted here with
  | case1 h =>
    rw [h]
    exact .error _ _
  | case2 rest h =>
    rw [h]
    exact .error _ _
  | case3 rest h =>
    rw [h]
    exact permit_follows ((token_follows (integer_eq _)).map Operand.stack)
  | case4 rest h =>
    rw [h]
    exact permit_follows ((token_follows (integer_eq _)).map Operand.upvalue)
  | case5 rest h =>
    rw [h]
    exact permit_follows ((token_follows (name_eq _)).map Operand.location)
  | case6 hnil hcomment hstack hupvalue hlocation =>
    obtain ⟨c, rest, hstart⟩ := List.exists_cons_of_ne_nil hnil
    have hend : Scan.atEnd (Scan.skipBlanks here) = false := by
      rw [Scan.atEnd, hidem, hstart]
      refine beq_false_of_ne ?_
      rintro rfl
      exact hcomment rest hstart
    have hbare : operandAt accepted (some c) = bare accepted := by
      rw [operandAt]
      · rintro ⟨⟩
        exact hstack rest hstart
      · rintro ⟨⟩
        exact hupvalue rest hstart
      · rintro ⟨⟩
        exact hlocation rest hstart
    rw [hend, if_neg Bool.false_ne_true, bind_of_ok (peek_apply _), hstart, List.head?_cons, hbare]
    exact bare_follows accepted (c :: rest)

/-! ## All tokens -/

namespace Token

/-- What a token comes to with readers, and what is unread then. -/
def outcome : (t : Token) → List Char → Except t.Error t.Value × List Char
  | name => Scan.attempt Scan.name
  | integer => Scan.attempt Scan.integer
  | unsigned max => Scan.attempt (Scan.unsigned max)
  | literal => Scan.attempt Scan.literal
  | lineEnd => Scan.endOfLine
  | operand accepted => Scan.attempt (Operand.read accepted)

/-- **Methods and readers agree** on every token: on its value or its error, and on what is unread
afterwards. -/
theorem read_eq (t : Token) (here : List Char) : t.read here = ofOutcome (t.outcome here) := by
  cases t with
  | name => exact name_eq here
  | integer => exact integer_eq here
  | unsigned max => exact unsigned_eq max here
  | literal => exact literal_eq here
  | lineEnd => exact lineEnd_eq here
  | operand accepted => exact operand_eq accepted here

end Token

end ChunkAsm.Cursor
