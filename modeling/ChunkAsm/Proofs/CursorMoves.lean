import ChunkAsm.Proofs.CursorReaders

/-!
# Where a cursor is left

No method moves a cursor back, whether it succeeds or fails (`Forward`). This goes through
everything that is done in a row, so it comes down to the few methods that move the cursor
themselves, and after any calls the cursor still stands in its line.

A failure is different from a step. What a method has passed over when it fails stays behind the
cursor, unless the method works on a copy. Tokens are read on a copy, and a failure leaves the
cursor where it was. The end of the line is not: if something else follows, the blanks in front of
it are gone (`failed_reads_stay_iff`).
-/

namespace ChunkAsm.Cursor

/-! ## Forward -/

/-- A method does not move the cursor back: what is unread afterwards was unread before. -/
def Forward {ε α : Type} (m : Method ε α) : Prop := ∀ here, place (m here) <:+ here

namespace Forward

variable {ε ε' α β : Type} {m m' : Method ε α}

protected theorem pure (x : α) : Forward (pure x : Method ε α) := List.suffix_refl

protected theorem throw (e : ε) : Forward (throw e : Method ε α) := List.suffix_refl

protected theorem get : Forward (get : Method ε (List Char)) := List.suffix_refl

/-- **Steps in a row** go forward if each of them does. -/
protected theorem bind {f : α → Method ε β} (h : Forward m) (hf : ∀ x, Forward (f x)) :
    Forward (m >>= f) := by
  intro here
  have hm := h here
  simp only [Bind.bind, EStateM.bind]
  cases hr : m here with
  | ok x there =>
    rw [hr] at hm
    exact (hf x there).trans hm
  | error e there =>
    rw [hr] at hm
    exact hm

protected theorem ite {c : Prop} [Decidable c] (h : Forward m) (h' : Forward m') :
    Forward (if c then m else m') := by
  split
  · exact h
  · exact h'

protected theorem adaptExcept (h : Forward m) (f : ε → ε') :
    Forward (EStateM.adaptExcept f m : Method ε' α) := by
  intro here
  have hm := h here
  simp only [EStateM.adaptExcept]
  cases hr : m here with
  | ok x there =>
    rw [hr] at hm
    exact hm
  | error e there =>
    rw [hr] at hm
    exact hm

/-- A copy goes forward, or its move is undone. -/
protected theorem onCopy (h : Forward m) : Forward (onCopy m) := by
  intro here
  have hm := h here
  simp only [Cursor.onCopy]
  cases hr : m here with
  | ok x there =>
    rw [hr] at hm
    exact hm
  | error e there => exact List.suffix_refl here

end Forward

section

variable {ε α : Type}

/-- Looking ahead does not move the cursor. -/
theorem place_ahead (m : Method ε α) (here : List Char) : place (ahead m here) = here := by
  simp only [ahead]
  cases m here with
  | ok x there => rfl
  | error e there => rfl

theorem forward_ahead (m : Method ε α) : Forward (ahead m) := fun here =>
  (place_ahead m here).symm ▸ List.suffix_refl here

theorem forward_peek : Forward (peek : Method ε _) := fun here => List.suffix_refl here

theorem forward_bump : Forward (bump : Method ε _) := fun here => List.tail_suffix here

theorem forward_takeWhile (p : Char → Bool) : Forward (takeWhile p : Method ε _) := fun _ =>
  List.dropWhile_suffix p

theorem forward_toEnd : Forward (toEnd : Method ε _) := fun _ => List.nil_suffix

theorem forward_eat (c : Char) : Forward (eat c : Method ε _) :=
  forward_peek.bind fun _ => .ite (forward_bump.bind fun _ => .pure true) (.pure false)

theorem forward_skipBlanks : Forward (skipBlanks : Method ε _) :=
  (forward_takeWhile _).bind fun _ => .pure ()

theorem forward_textSince (start : List Char) : Forward (textSince start : Method ε _) :=
  Forward.get.bind fun _ => .pure _

theorem forward_atComment : Forward (atComment : Method ε _) := by
  refine forward_peek.bind fun next => ?_
  cases next with
  | none => exact .pure true
  | some c => exact .pure _

theorem forward_atBlank : Forward (atBlank : Method ε _) := forward_peek.bind fun _ => .pure _

theorem forward_atDelimiter : Forward (atDelimiter : Method ε _) :=
  forward_atComment.bind fun _ => forward_atBlank.bind fun _ => .pure _

theorem forward_word : Forward (word : Method ε _) := (forward_takeWhile _).bind fun _ => .pure _

theorem forward_sign : Forward (sign : Method ε _) :=
  (forward_eat _).bind fun _ => .ite (.pure true) ((forward_eat _).bind fun _ => .pure false)

theorem forward_hexMark : Forward (hexMark : Method ε _) := by
  intro here
  unfold hexMark
  split
  · exact ⟨['0', 'x'], rfl⟩
  · exact ⟨['0', 'X'], rfl⟩
  · exact List.suffix_refl here

theorem forward_fraction : Forward (fraction : Method ε _) :=
  (forward_eat _).bind fun _ => .ite (forward_takeWhile _) (.pure _)

end

/-! ## Tokens go forward -/

theorem forward_lineEnd : Forward lineEnd := by
  refine forward_skipBlanks.bind fun _ => Forward.get.bind fun rest => ?_
  cases rest with
  | nil => exact .pure none
  | cons c rest => exact .ite (forward_toEnd.bind fun _ => .pure _) (.throw _)

theorem forward_name : Forward name :=
  .onCopy <| forward_skipBlanks.bind fun _ => (forward_takeWhile _).bind fun _ =>
    .ite (.throw _) (.pure _)

theorem forward_integer : Forward integer := by
  refine .onCopy <| forward_skipBlanks.bind fun _ => Forward.get.bind fun start =>
    forward_sign.bind fun _ => (forward_takeWhile _).bind fun digits =>
      forward_atDelimiter.bind fun _ => .ite (.throw _) ?_
  cases Scan.decimal64? digits with
  | none => exact (forward_textSince start).bind fun _ => .throw _
  | some n => exact .pure _

theorem forward_unsigned (max : Int) : Forward (unsigned max) :=
  .onCopy <| forward_integer.bind fun _ => .ite (.throw _) (.pure _)

/-- The induction is on the string as it is read: each turn takes one or two characters. -/
theorem forward_stringBody (quote : Char) (done : List UInt8) :
    Forward (stringBody quote done : Method LexError _) := by
  intro here
  fun_induction stringBody quote done here with
  | case1 => exact List.suffix_refl _
  | case2 done rest => exact List.suffix_cons quote rest
  | case3 => exact List.nil_suffix
  | case4 done e rest b _ _ ih => exact ih.trans ⟨['\\', e], rfl⟩
  | case5 done e rest _ _ => exact ⟨['\\', e], rfl⟩
  | case6 done c rest _ _ ih => exact ih.trans (List.suffix_cons c rest)

theorem forward_hexNumber (start : List Char) : Forward (hexNumber start) :=
  (forward_takeWhile _).bind fun _ =>
    .ite ((forward_textSince start).bind fun _ => .throw _) (.pure _)

theorem forward_decimalNumber (start : List Char) : Forward (decimalNumber start) :=
  (forward_takeWhile _).bind fun _ => forward_fraction.bind fun _ =>
    .ite ((forward_textSince start).bind fun _ => .throw _) (.pure _)

theorem forward_number : Forward number :=
  Forward.get.bind fun start => forward_sign.bind fun _ =>
    Forward.bind (forward_hexMark.bind fun _ =>
      .ite (forward_hexNumber start) (forward_decimalNumber start)) fun _ => .pure _

theorem forward_literalToken : Forward literalToken := by
  refine forward_peek.bind fun next => ?_
  cases next with
  | none => exact Forward.get.bind fun _ => .throw _
  | some c =>
    refine .ite ?_ (.ite ?_ (.ite ?_ ?_))
    · exact forward_bump.bind fun _ => (forward_stringBody c []).bind fun _ => .pure _
    · exact forward_number.bind fun _ => .pure _
    · refine forward_word.bind fun w => ?_
      cases Scan.literalWord? w with
      | none => exact .throw _
      | some k => exact .pure k
    · exact Forward.get.bind fun _ => .throw _

theorem forward_literal : Forward literal :=
  .onCopy <| forward_skipBlanks.bind fun _ => forward_literalToken.bind fun _ =>
    forward_atDelimiter.bind fun _ => .ite (.pure _) (Forward.get.bind fun _ => .throw _)

/-! ## Operands go forward -/

theorem forward_permit (found : OperandKind) (accepted : Kinds) :
    Forward (permit found accepted) :=
  .ite (.pure ()) (.throw _)

theorem forward_embeddedValue : Forward embeddedValue := by
  refine (forward_ahead _).bind fun w => ?_
  cases Operand.flag? w with
  | none => exact forward_integer.adaptExcept _
  | some n => exact forward_word.bind fun _ => .pure n

theorem forward_bare (accepted : Kinds) : Forward (bare accepted) := by
  refine (forward_ahead _).bind fun _ => .ite ?_ (.ite ?_ (.ite ?_ (.throw _)))
  · exact .onCopy <| forward_word.bind fun _ => (forward_permit _ _).bind fun _ =>
      (forward_literal.adaptExcept _).bind fun _ => .pure _
  · exact (forward_name.adaptExcept _).bind fun _ => .pure _
  · exact forward_embeddedValue.bind fun _ => (forward_ahead _).bind fun _ =>
      forward_atBlank.bind fun _ => .ite (.pure _) (Forward.get.bind fun _ => .throw _)

/-- A sigil is taken before what it announces. -/
theorem forward_sigil {α : Type} {m : Method LexError α} (h : Forward m) (found : OperandKind)
    (accepted : Kinds) (f : α → Operand) :
    Forward (do
      permit found accepted
      let _ ← bump
      return f (← token m)) :=
  (forward_permit found accepted).bind fun _ => forward_bump.bind fun _ =>
    (h.adaptExcept _).bind fun _ => .pure _

theorem forward_operandAt (accepted : Kinds) (next : Option Char) :
    Forward (operandAt accepted next) := by
  rw [operandAt.eq_def]
  split
  · exact forward_sigil forward_integer .stack accepted .stack
  · exact forward_sigil forward_integer .upvalue accepted .upvalue
  · exact forward_sigil forward_name .location accepted .location
  · exact forward_bare accepted

theorem forward_operand (accepted : Kinds) : Forward (operand accepted) :=
  .onCopy <| forward_skipBlanks.bind fun _ => (forward_ahead _).bind fun _ =>
    .ite (.throw _) (forward_peek.bind fun next => forward_operandAt accepted next)

/-! ## Calls -/

theorem Token.forward_read (t : Token) : Forward t.read := by
  cases t with
  | name => exact forward_name
  | integer => exact forward_integer
  | unsigned max => exact forward_unsigned max
  | literal => exact forward_literal
  | lineEnd => exact forward_lineEnd
  | operand accepted => exact forward_operand accepted

/-- **One call** does not move the cursor back. -/
theorem Call.move_suffix (call : Call) (here : List Char) : call.move here <:+ here := by
  cases call with
  | peek => exact forward_peek (ε := LexError) here
  | bump => exact forward_bump (ε := LexError) here
  | eat expected => exact forward_eat (ε := LexError) expected here
  | skipBlanks => exact forward_skipBlanks (ε := LexError) here
  | atEnd => exact forward_ahead (ε := LexError) _ here
  | word => exact forward_word (ε := LexError) here
  | read t => exact t.forward_read here
  | noMore => exact forward_lineEnd.adaptExcept _ here

/-- **Any calls** leave the cursor in its line. -/
theorem after_suffix (calls : List Call) (line : List Char) : after calls line <:+ line := by
  induction calls generalizing line with
  | nil => exact List.suffix_refl line
  | cons call calls ih => exact (ih (call.move line)).trans (call.move_suffix line)

/-! ## Failures -/

/-- A failure on a copy leaves the cursor where it was. -/
theorem onCopy_eq_error {ε α : Type} {m : Method ε α} {here there : List Char} {e : ε}
    (h : onCopy m here = .error e there) : there = here := by
  simp only [onCopy] at h
  split at h
  · cases h
  · exact (EStateM.Result.error.inj h).2.symm

/-- Every token but the end of the line is read on a copy. -/
theorem Token.exists_onCopy {t : Token} (h : t ≠ .lineEnd) : ∃ m, t.read = onCopy m := by
  cases t with
  | lineEnd => exact absurd rfl h
  | name => exact ⟨_, rfl⟩
  | integer => exact ⟨_, rfl⟩
  | unsigned max => exact ⟨_, rfl⟩
  | literal => exact ⟨_, rfl⟩
  | operand accepted => exact ⟨_, rfl⟩

/-- That the line does not end is noticed behind the blanks, and the cursor stays there. -/
theorem lineEnd_eq_error {here there : List Char} {e : LexError}
    (h : lineEnd here = .error e there) : there = Scan.skipBlanks here := by
  rw [lineEnd_eq, Scan.endOfLine] at h
  split at h
  · cases h
  · rename_i c rest hskip
    split at h
    · cases h
    · rw [hskip]
      exact (EStateM.Result.error.inj h).2.symm

/-- A space or a tab is next. -/
def StartsBlank (cs : List Char) : Prop := ∃ c ∈ cs.head?, c = ' ' ∨ c = '\t'

theorem skipBlanks_eq_self_iff {cs : List Char} : Scan.skipBlanks cs = cs ↔ ¬ StartsBlank cs := by
  constructor
  · rintro hself ⟨c, hc, hblank⟩
    -- what is left when blanks are skipped does not start with one
    have hends := Scan.ends_dropWhile Scan.isBlank cs
    change Scan.Ends Scan.isBlank (Scan.skipBlanks cs) at hends
    rw [hself] at hends
    exact Bool.false_ne_true ((hends c hc).symm.trans (Scan.isBlank_eq_true.mpr hblank))
  · intro hstart
    cases cs with
    | nil => rfl
    | cons c rest =>
      refine Scan.skipBlanks_cons (Bool.eq_false_iff.mpr fun hblank => hstart ?_) rest
      exact ⟨c, rfl, Scan.isBlank_eq_true.mp hblank⟩

/-- **Where reading leaves a cursor.** After any calls the cursor stands in its line. If a token is
read there, the cursor moves forward, and if it cannot be read, the cursor stays where it was. There
is one exception: if the end of the line is looked for and something else follows, the cursor is
left behind the blanks in front of it, so it has moved exactly if there are any. -/
theorem failed_reads_stay_iff (line : List Char) (calls : List Call) (t : Token) :
    after calls line <:+ line ∧
    (∀ x rest, t.read (after calls line) = .ok x rest → rest <:+ after calls line) ∧
    (∀ e rest, t.read (after calls line) = .error e rest →
      (rest = after calls line ↔ ¬ (t = .lineEnd ∧ StartsBlank (after calls line))) ∧
      (t = .lineEnd → rest = Scan.skipBlanks (after calls line))) := by
  refine ⟨after_suffix calls line, fun x rest h => ?_, fun e rest h => ?_⟩
  · have hforward := t.forward_read (after calls line)
    rwa [h] at hforward
  · by_cases ht : t = .lineEnd
    · subst ht
      have hrest := lineEnd_eq_error h
      refine ⟨?_, fun _ => hrest⟩
      rw [hrest, skipBlanks_eq_self_iff, and_iff_right rfl]
    · obtain ⟨m, hm⟩ := Token.exists_onCopy ht
      rw [hm] at h
      exact ⟨iff_of_true (onCopy_eq_error h) fun hend => ht hend.1, fun hend => absurd hend ht⟩

/-- A name is read, and behind its colon a string breaks off at an unknown escape. -/
theorem failed_reads_stay_escape :
    Token.name.read "x: 'a\\q'".toList = .ok "x" ": 'a\\q'".toList ∧
      ": 'a\\q'".toList <:+ "x: 'a\\q'".toList ∧
      after [.read .name, .eat ':'] "x: 'a\\q'".toList = " 'a\\q'".toList ∧
      ∃ rest, Token.literal.read " 'a\\q'".toList = .error (.unknownEscape 'q') rest ∧
        rest = " 'a\\q'".toList := by
  have hread : Token.name.read "x: 'a\\q'".toList = .ok "x" ": 'a\\q'".toList := rfl
  have hplace : after [.read .name, .eat ':'] "x: 'a\\q'".toList = " 'a\\q'".toList := by decide
  have hfailed : Token.literal.read " 'a\\q'".toList =
      .error (.unknownEscape 'q') " 'a\\q'".toList := rfl
  obtain ⟨-, hok, -⟩ := failed_reads_stay_iff "x: 'a\\q'".toList [] .name
  obtain ⟨-, -, herror⟩ := failed_reads_stay_iff "x: 'a\\q'".toList [.read .name, .eat ':'] .literal
  rw [after, List.foldl_nil] at hok
  rw [hplace] at herror
  have hstays := (herror _ _ hfailed).1.mpr fun hend => absurd hend.1 (by decide)
  exact ⟨hread, hok _ _ hread, hplace, _, hfailed, hstays⟩

/-- Behind the integer a blank and another one follow. The line does not end there, and the blank is
gone. -/
theorem failed_line_end_moves :
    after [.read .integer] "1 2".toList = " 2".toList ∧
      Token.lineEnd.read " 2".toList = .error (.trailingCharacters "2") "2".toList :=
  ⟨by decide, rfl⟩

end ChunkAsm.Cursor
