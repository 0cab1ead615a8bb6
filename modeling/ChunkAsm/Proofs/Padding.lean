import ChunkAsm.Proofs.PrintedOperands

/-!
# Blanks behind what is read

Two runs of a reader are compared, one on the characters of a line and one on the same characters
with blanks behind them. The results **agree**: both are errors, or both are values, and the unread
rest of the second has the blanks at its end. Agreement goes through everything that is read one after
the other (`Agree.bind`).

Readers of tokens agree since no token ends in a blank. Operands agree with one exception
(`Operand.readAll_agree`). The word `const` with a blank behind it is a keyword, also in a slot that
accepts only functions; without the blank it is the name of a function.
-/

namespace ChunkAsm

open Scan

/-! ## Results that agree -/

/-- Two results agree: both are errors, whichever, or both are values, and these are related. -/
inductive Agree {ε α β : Type} (R : α → β → Prop) : Except ε α → Except ε β → Prop where
  | ok {x : α} {y : β} : R x y → Agree R (.ok x) (.ok y)
  | error (e e' : ε) : Agree R (.error e) (.error e')

/-- The same value, and the unread characters with others behind them. -/
def Padded {α : Type} (pad : List Char) (p q : α × List Char) : Prop := q = (p.1, p.2 ++ pad)

namespace Agree

variable {ε ε' α β α' β' : Type} {R : α → β → Prop} {S : α' → β' → Prop} {x : Except ε α}
  {y : Except ε β}

theorem refl (x : Except ε α) : Agree Eq x x := by
  cases x with
  | error e => exact .error e e
  | ok a => exact .ok rfl

theorem bind {f : α → Except ε α'} {g : β → Except ε β'} (h : Agree R x y)
    (hfg : ∀ a b, x = .ok a → R a b → Agree S (f a) (g b)) : Agree S (x >>= f) (y >>= g) := by
  cases h with
  | error e e' => exact .error e e'
  | ok hab => exact hfg _ _ rfl hab

theorem mapError (h : Agree R x y) (f : ε → ε') : Agree R (x.mapError f) (y.mapError f) := by
  cases h with
  | error e e' => exact .error (f e) (f e')
  | ok hab => exact .ok hab

theorem map {y : Except ε α} (h : Agree Eq x y) (f : α → β) : Agree Eq (x.map f) (y.map f) := by
  cases h with
  | error e e' => exact .error e e'
  | ok hxy => exact .ok (congrArg f hxy)

/-- Two readers in a row. -/
theorem bind_padded {pad : List Char} {x y : Except ε (α × List Char)}
    {f : α × List Char → Except ε α'} {g : α × List Char → Except ε β'} (h : Agree (Padded pad) x y)
    (hfg : ∀ a rest, x = .ok (a, rest) → Agree S (f (a, rest)) (g (a, rest ++ pad))) :
    Agree S (x >>= f) (y >>= g) := by
  refine h.bind fun p q hp hq => ?_
  obtain rfl := hq
  exact hfg p.1 p.2 hp

theorem eq_error (h : Agree R x y) {e : ε} (hx : x = .error e) : ∃ e', y = .error e' := by
  subst hx
  cases h with
  | error _ e' => exact ⟨e', rfl⟩

theorem eq_ok {pad rest : List Char} {a : α} {x y : Except ε (α × List Char)}
    (h : Agree (Padded pad) x y) (hx : x = .ok (a, rest)) : y = .ok (a, rest ++ pad) := by
  subst hx
  cases h with
  | ok hq => rw [hq]

end Agree

/-! ## Tokens -/

namespace Scan

variable {cs pad : List Char}

theorem Blanks.skipBlanks_eq_nil (hb : Blanks pad) : skipBlanks pad = [] := by
  rw [← List.append_nil pad, hb.skipBlanks_append]
  rfl

theorem skipBlanks_pad_nil (hb : Blanks pad) (h : skipBlanks cs = []) :
    skipBlanks (cs ++ pad) = [] := by
  rw [skipBlanks] at h
  rw [skipBlanks, List.dropWhile_append, h]
  exact hb.skipBlanks_eq_nil

theorem skipBlanks_pad_cons {c : Char} {rest : List Char} (h : skipBlanks cs = c :: rest) :
    skipBlanks (cs ++ pad) = c :: (rest ++ pad) := by
  rw [skipBlanks] at h
  rw [skipBlanks, List.dropWhile_append, h]
  rfl

section TakesTokens

variable {α : Type} {read : Reader LexError α} {Token : List Char → α → Prop}
  {Stops : List Char → Prop} {text rest : List Char} {x : α}

/-- A line with blanks behind it starts with the same token. -/
theorem TakesTokens.starts_append (h : TakesTokens read Token Stops) (hb : Blanks pad)
    (hs : Starts Token Stops cs text x rest) :
    Starts Token Stops (cs ++ pad) text x (rest ++ pad) := by
  obtain ⟨⟨blanks, hblanks, rfl⟩, htoken, hstops⟩ := hs
  exact ⟨⟨blanks, hblanks, by simp only [List.append_assoc]⟩, htoken,
    (h.stops_append rest pad hb).mpr hstops⟩

/-- A token does not reach into the blanks at the end of the line. -/
theorem TakesTokens.exists_starts (h : TakesTokens read Token Stops) (hb : Blanks pad)
    (hs : Starts Token Stops (cs ++ pad) text x rest) :
    ∃ rest', rest = rest' ++ pad ∧ Starts Token Stops cs text x rest' := by
  obtain ⟨⟨blanks, hblanks, hsplit⟩, htoken, hstops⟩ := hs
  rw [← List.append_assoc] at hsplit
  suffices hrest : ∃ rest', rest = rest' ++ pad ∧ cs = blanks ++ text ++ rest' by
    obtain ⟨rest', rfl, rfl⟩ := hrest
    exact ⟨rest', rfl, ⟨blanks, hblanks, List.append_assoc ..⟩, htoken,
      (h.stops_append rest' pad hb).mp hstops⟩
  rcases List.append_eq_append_iff.mp hsplit with ⟨tail, htext, hpad⟩ | ⟨rest', hcs, hrest⟩
  · obtain ⟨c, hlast, hc⟩ := h.last text x htoken
    -- otherwise the last character of the token is one of the blanks
    have htail : tail = [] := by
      by_contra hne
      have hend := congrArg List.getLast? htext
      rw [List.getLast?_append, hlast, List.getLast?_append,
        List.getLast?_eq_some_getLast hne] at hend
      obtain rfl := Option.some.inj hend
      have hmem : tail.getLast hne ∈ pad := hpad ▸ List.mem_append_left _ (List.getLast_mem hne)
      exact Bool.false_ne_true (hc.symm.trans (isBlank_eq_true.mpr (hb _ hmem)))
    subst htail
    exact ⟨[], hpad.symm, by rw [htext]; simp⟩
  · exact ⟨rest', hrest, hcs⟩

/-- **Blanks at the end of the line mean nothing to a reader of tokens.** -/
theorem TakesTokens.agree (h : TakesTokens read Token Stops) (hb : Blanks pad) (cs : List Char) :
    Agree (Padded pad) (read cs) (read (cs ++ pad)) := by
  cases hread : read cs with
  | ok p =>
    obtain ⟨text, hs⟩ := (h.eq_ok_iff cs p.1 p.2).mp hread
    rw [(h.eq_ok_iff _ _ _).mpr ⟨text, h.starts_append hb hs⟩]
    exact .ok rfl
  | error e =>
    cases hpad : read (cs ++ pad) with
    | error e' => exact .error e e'
    | ok q =>
      obtain ⟨text, hs⟩ := (h.eq_ok_iff _ q.1 q.2).mp hpad
      obtain ⟨rest, -, hs⟩ := h.exists_starts hb hs
      have hok := (h.eq_ok_iff _ _ _).mpr ⟨text, hs⟩
      rw [hread] at hok
      cases hok

end TakesTokens

/-- The comment with the blanks at its end. -/
theorem endOfLine_agree (hb : Blanks pad) (cs : List Char) :
    Agree (fun comment comment' => comment' = comment.map (· ++ String.ofList pad))
      (endOfLine cs).1 (endOfLine (cs ++ pad)).1 := by
  rw [endOfLine, endOfLine]
  cases hskip : skipBlanks cs with
  | nil =>
    rw [skipBlanks_pad_nil hb hskip]
    exact .ok rfl
  | cons c rest =>
    rw [skipBlanks_pad_cons hskip]
    by_cases hc : c = ';'
    · simp only [if_pos hc]
      refine .ok (congrArg some ?_)
      rw [← List.cons_append, String.ofList_append]
    · simp only [if_neg hc]
      exact .error _ _

/-- The run of a class without blanks ends before the blanks. -/
theorem takeWhile_pad (q : Char → Bool) (hb : Blanks pad) (cs : List Char)
    (hq : q ' ' = false ∧ q '\t' = false := by decide) :
    (cs ++ pad).takeWhile q = cs.takeWhile q ∧ (cs ++ pad).dropWhile q = cs.dropWhile q ++ pad := by
  have hends : Ends q (cs.dropWhile q ++ pad) := (Ends.append hb hq).mpr (ends_dropWhile q cs)
  have hrun : ∀ c ∈ cs.takeWhile q, q c = true := List.all_eq_true.mp List.all_takeWhile
  have hsplit : cs ++ pad = cs.takeWhile q ++ (cs.dropWhile q ++ pad) := by
    rw [← List.append_assoc, List.takeWhile_append_dropWhile]
  rw [hsplit]
  exact ⟨takeWhile_append hrun hends, dropWhile_append hrun hends⟩

theorem word_pad (hb : Blanks pad) (cs : List Char) :
    word (cs ++ pad) = ((word cs).1, (word cs).2 ++ pad) := by
  obtain ⟨htake, hdrop⟩ := takeWhile_pad Char.isAlpha hb cs
  rw [word, word, htake, hdrop]

theorem word_append (cs : List Char) : (word cs).1.toList ++ (word cs).2 = cs := by
  rw [word, String.toList_ofList, List.takeWhile_append_dropWhile]

theorem atDelimiter_pad (hb : Blanks pad) (cs : List Char) :
    atDelimiter (cs ++ pad) = atDelimiter cs := by
  rw [Bool.eq_iff_iff, atDelimiter_eq_true, atDelimiter_eq_true, Delimited.append hb]

theorem name_skipBlanks (cs : List Char) : name (skipBlanks cs) = name cs := by
  rw [name, name, skipBlanks_skipBlanks]

/-- Letters are a name. -/
theorem isName_ofList (hne : cs ≠ []) (h : ∀ c ∈ cs, c.isAlpha = true) :
    IsName (String.ofList cs) := by
  refine ⟨?_, ?_⟩
  · rwa [String.toList_ofList]
  · rw [String.toList_ofList]
    exact fun c hc => isNameChar_of_isAlpha (h c hc)

end Scan

/-! ## Operands -/

namespace Operand

variable {cs pad : List Char} {ks : Kinds}

/-- Nothing but the word `const` is left. -/
def BareConst (cs : List Char) : Prop := Keyword.Matches (String.ofList cs) "const"

namespace BareConst

theorem isAlpha (h : BareConst cs) : ∀ c ∈ cs, c.isAlpha = true :=
  isAlpha_of_map_toLower ((matches_ofList (by decide)).mp h) (List.all_eq_true.mp rfl)

theorem ne_nil (h : BareConst cs) : cs ≠ [] := by
  rintro rfl
  cases (matches_ofList (by decide)).mp h

theorem word_append (h : BareConst cs) (hb : Blanks pad) :
    word (cs ++ pad) = (String.ofList cs, pad) := by
  have hends : Ends Char.isAlpha pad := hb.ends
  rw [word, takeWhile_append h.isAlpha hends, dropWhile_append h.isAlpha hends]

theorem word_eq (h : BareConst cs) : word cs = (String.ofList cs, []) := by
  have hword : word (cs ++ []) = (String.ofList cs, []) := h.word_append (by decide)
  rwa [List.append_nil] at hword

/-- Without a blank behind it the word is no keyword. -/
theorem afterConst?_eq_none (h : BareConst cs) : afterConst? cs = none := by
  rw [afterConst?, h.word_eq]

/-- It is no value either. -/
theorem embeddedValue_eq (h : BareConst cs) :
    embeddedValue cs = .error (.lex .expectedInteger) := by
  have hflag : flag? (String.ofList cs) = none := by
    have hfold : Keyword.fold (String.ofList cs) = "const" := h
    simp only [flag?, Keyword.Matches, hfold]
    rfl
  have hinteger : integer cs = .error .expectedInteger := by
    refine integer_eq_expectedInteger ?_
    rintro ⟨_, _, rest, ⟨blanks, -, rfl⟩, ⟨-, hne, hdigits⟩, -⟩
    obtain ⟨c, digits, rfl⟩ := List.exists_cons_of_ne_nil hne
    have hc := h.isAlpha c (by simp)
    rw [not_isAlpha_of_isDigit (hdigits c List.mem_cons_self)] at hc
    cases hc
  rw [embeddedValue, h.word_eq]
  simp only [hflag, token, hinteger]
  rfl

/-- So only a slot for functions accepts the word. -/
theorem bare_eq_error (h : BareConst cs) (hproto : ks.proto = false) :
    ∃ e, bare ks cs = .error e := by
  rw [bare, h.afterConst?_eq_none]
  simp only [hproto, h.embeddedValue_eq]
  split
  · contradiction
  · split
    · exact ⟨_, rfl⟩
    · exact ⟨_, rfl⟩

/-- With a blank behind it the word is a keyword, whatever the slot accepts, and lacks its
literal. -/
theorem bare_pad (h : BareConst cs) (ks : Kinds) (hb : Blanks pad) (hne : pad ≠ []) :
    ∃ e, bare ks (cs ++ pad) = .error e ∧
      (ks.constant = false → e = .illegal .constant ks) := by
  have hafter : afterConst? (cs ++ pad) = some pad := by
    obtain ⟨c, pad, rfl⟩ := List.exists_cons_of_ne_nil hne
    rw [afterConst?, h.word_append hb]
    exact if_pos ⟨h, isBlank_eq_true.mpr (hb c List.mem_cons_self)⟩
  have hliteral : literal pad = .error (.expectedLiteral "") := by
    rw [literal, hb.skipBlanks_eq_nil]
    rfl
  rw [bare, hafter]
  simp only [token, hliteral]
  by_cases hconstant : ks.has .constant = true
  · rw [permit_of_has hconstant]
    exact ⟨_, rfl, fun hno => absurd (hno.symm.trans hconstant) Bool.false_ne_true⟩
  · rw [permit, if_neg hconstant]
    exact ⟨_, rfl, fun _ => rfl⟩

end BareConst

/-- Blanks make a keyword of nothing but the word `const`. -/
theorem afterConst?_pad (hb : Blanks pad) (h : pad = [] ∨ ¬ BareConst cs) :
    afterConst? (cs ++ pad) = (afterConst? cs).map (· ++ pad) := by
  have hsplit := word_append cs
  rw [afterConst?, afterConst?, word_pad hb]
  generalize word cs = w at hsplit
  obtain ⟨w, rest⟩ := w
  cases rest with
  | cons c rest =>
    simp only [List.cons_append]
    split
    · rfl
    · rfl
  | nil =>
    cases pad with
    | nil => rfl
    | cons c pad =>
      have hconst := h.resolve_left (List.cons_ne_nil c pad)
      rw [BareConst, ← hsplit, List.append_nil, String.ofList_toList] at hconst
      exact if_neg fun hc => hconst hc.1

theorem embeddedValue_agree (hb : Blanks pad) (cs : List Char) :
    Agree (Padded pad) (embeddedValue cs) (embeddedValue (cs ++ pad)) := by
  rw [embeddedValue, embeddedValue, Scan.word_pad hb]
  simp only
  cases flag? (word cs).1 with
  | some n => exact .ok rfl
  | none => exact (takesTokens_integer.agree hb cs).mapError _

/-- An operand without a sigil. -/
theorem bare_agree (hb : Blanks pad) (h : ks.proto = false ∨ pad = [] ∨ ¬ BareConst cs) :
    Agree (Padded pad) (bare ks cs) (bare ks (cs ++ pad)) := by
  by_cases hconst : pad = [] ∨ ¬ BareConst cs
  · rw [bare, bare, afterConst?_pad hb hconst]
    cases afterConst? cs with
    | some rest =>
      refine (Agree.refl (permit .constant ks)).bind fun _ _ _ _ => ?_
      exact ((takesTokens_literal.agree hb rest).mapError _).bind_padded fun _ _ _ => .ok rfl
    | none =>
      simp only [Option.map_none]
      by_cases hproto : ks.proto = true
      · simp only [if_pos hproto]
        exact ((takesTokens_name.agree hb cs).mapError _).bind_padded fun _ _ _ => .ok rfl
      · simp only [if_neg hproto]
        split
        · refine (embeddedValue_agree hb cs).bind_padded fun n rest _ => ?_
          simp only [atDelimiter_pad hb]
          split
          · exact .ok rfl
          · exact .error _ _
        · exact .error _ _
  · -- both fail: the word is no value, and the keyword has no literal
    obtain ⟨hne, hbare⟩ := not_or.mp hconst
    obtain ⟨e, he⟩ := (not_not.mp hbare).bare_eq_error (h.resolve_right hconst)
    obtain ⟨e', he', -⟩ := (not_not.mp hbare).bare_pad ks hb hne
    rw [he, he']
    exact .error e e'

theorem read_skipBlanks (cs : List Char) : read ks (skipBlanks cs) = read ks cs := by
  rw [read, read, skipBlanks_skipBlanks]

/-- **Blanks at the end of the line mean nothing to an operand**, except where it is the last one and
the word `const` in a slot for functions. -/
theorem read_agree (hb : Blanks pad)
    (h : ks.proto = false ∨ pad = [] ∨ ¬ BareConst (skipBlanks cs)) :
    Agree (Padded pad) (read ks cs) (read ks (cs ++ pad)) := by
  rw [← read_skipBlanks cs, ← read_skipBlanks (cs ++ pad)]
  cases hskip : skipBlanks cs with
  | nil =>
    rw [skipBlanks_pad_nil hb hskip]
    exact .error _ _
  | cons c rest =>
    rw [skipBlanks_pad_cons hskip]
    by_cases hsigil : c = ';' ∨ c = '%' ∨ c = '@' ∨ c = '$'
    · rcases hsigil with rfl | rfl | rfl | rfl
      · exact .error _ _
      · refine (Agree.refl (permit .stack ks)).bind fun _ _ _ _ => ?_
        exact ((takesTokens_integer.agree hb _).mapError _).bind_padded fun _ _ _ => .ok rfl
      · refine (Agree.refl (permit .upvalue ks)).bind fun _ _ _ _ => ?_
        exact ((takesTokens_integer.agree hb _).mapError _).bind_padded fun _ _ _ => .ok rfl
      · refine (Agree.refl (permit .location ks)).bind fun _ _ _ _ => ?_
        exact ((takesTokens_name.agree hb _).mapError _).bind_padded fun _ _ _ => .ok rfl
    · have hc : isBlank c = false ∧ c ≠ ';' ∧ c ≠ '%' ∧ c ≠ '@' ∧ c ≠ '$' := by
        simp only [not_or] at hsigil
        exact ⟨ends_dropWhile isBlank cs c (congrArg List.head? hskip), hsigil⟩
      rw [hskip] at h
      rw [read_of_start hc, read_of_start hc]
      exact bare_agree hb h

theorem read_eq_stack {rest : List Char} {n : Int} (h : read ks cs = .ok (.stack n, rest)) :
    ∃ cs', skipBlanks cs = '%' :: cs' ∧ integer cs' = .ok (n, rest) := by
  rcases read_cases h with ⟨n', cs', ho, -, hn⟩ | ⟨_, _, ho, -⟩ | ⟨_, _, ho, -⟩ | h
  · obtain rfl := Operand.stack.inj ho
    exact ⟨cs', hn⟩
  · cases ho
  · cases ho
  · rcases bare_cases h with ⟨_, _, ho, -⟩ | ⟨_, ho, -⟩ | ⟨_, ho, -⟩ <;> cases ho

theorem read_eq_proto {rest : List Char} {s : String} (h : read ks cs = .ok (.proto s, rest)) :
    ks.proto = true ∧ name (skipBlanks cs) = .ok (s, rest) := by
  rcases read_cases h with ⟨_, _, ho, -⟩ | ⟨_, _, ho, -⟩ | ⟨_, _, ho, -⟩ | h
  · cases ho
  · cases ho
  · cases ho
  · rcases bare_cases h with ⟨_, _, ho, -⟩ | ⟨s', ho, hs⟩ | ⟨_, ho, -⟩
    · cases ho
    · obtain rfl := Operand.proto.inj ho
      exact hs
    · cases ho

/-! ### The word `const` as the last operand -/

theorem BareConst.read_append (h : BareConst (skipBlanks cs)) :
    read ks (cs ++ pad) = bare ks (skipBlanks cs ++ pad) := by
  obtain ⟨c, rest, hskip⟩ := List.exists_cons_of_ne_nil h.ne_nil
  have hc : isNameChar c = true :=
    isNameChar_of_isAlpha (h.isAlpha c (hskip ▸ List.mem_cons_self))
  rw [← read_skipBlanks, skipBlanks_pad_cons hskip, hskip]
  exact read_of_start (start_of_isNameChar hc)

theorem BareConst.read_eq (h : BareConst (skipBlanks cs)) (hproto : ks.proto = true) :
    read ks cs = .ok (.proto (String.ofList (skipBlanks cs)), []) := by
  have hname : IsName (String.ofList (skipBlanks cs)) := isName_ofList h.ne_nil h.isAlpha
  have hread : name ((String.ofList (skipBlanks cs)).toList ++ []) = _ :=
    name_append hname (ends_dropWhile isNameChar [])
  have happend : read ks (cs ++ []) = bare ks (skipBlanks cs ++ []) := h.read_append
  rw [List.append_nil, String.toList_ofList] at hread
  rw [List.append_nil, List.append_nil] at happend
  rw [happend]
  exact bare_proto h.afterConst?_eq_none hread hproto

/-- The operands are read to the end of the line, and the last one is a function with the name
`const`. -/
def ConstLast (slots : List Slot) (cs : List Char) : Prop :=
  ∃ os name, readAll slots cs = .ok (os ++ [.proto name], []) ∧ Keyword.Matches name "const"

/-- **Blanks at the end of the line mean nothing to the operands**, unless the last one is a function
with the name `const`. -/
theorem readAll_agree {slots : List Slot} (hslots : Slot.FunctionsLast slots) (hb : Blanks pad)
    (h : pad = [] ∨ ¬ ConstLast slots cs) :
    Agree (Padded pad) (readAll slots cs) (readAll slots (cs ++ pad)) := by
  induction slots generalizing cs with
  | nil => exact .ok rfl
  | cons slot slots ih =>
    have hslot : slot.kinds.proto = false ∨ pad = [] ∨ ¬ BareConst (skipBlanks cs) := by
      by_cases hnil : slots = []
      · subst hnil
        by_contra hbad
        simp only [not_or, not_not, Bool.not_eq_false] at hbad
        obtain ⟨hproto, hpad, hconst⟩ := hbad
        exact h.resolve_left hpad
          ⟨[], _, readAll_cons_eq_ok.mpr ⟨_, [], [], hconst.read_eq hproto, rfl, rfl⟩, hconst⟩
      · exact .inl (hslots.proto_eq_false hnil)
    refine (read_agree hb hslot).bind_padded fun o rest ho => ?_
    refine (ih hslots.tail (h.imp_right fun hno hlast => hno ?_)).bind_padded
      fun os rest' _ => .ok rfl
    obtain ⟨os, name, hread, hname⟩ := hlast
    exact ⟨o :: os, name, readAll_cons_eq_ok.mpr ⟨o, rest, _, ho, hread, rfl⟩, hname⟩

/-- With a blank behind it the name is taken for the keyword. -/
theorem ConstLast.readAll_pad {slots : List Slot} (h : ConstLast slots cs)
    (hslots : Slot.FunctionsLast slots) (hb : Blanks pad) (hne : pad ≠ []) :
    ∃ slot ∈ slots, slot.kinds.proto = true ∧ ∃ e, readAll slots (cs ++ pad) = .error e ∧
      (slot.kinds.constant = false → e = .illegal .constant slot.kinds) := by
  obtain ⟨os, name, hread, hname⟩ := h
  induction slots generalizing cs os with
  | nil =>
    have hnil := (Prod.mk.inj (Except.ok.inj hread)).1
    simp at hnil
  | cons slot slots ih =>
    obtain ⟨o, rest, os', ho, hos, heq⟩ := readAll_cons_eq_ok.mp hread
    cases os with
    | nil =>
      obtain ⟨rfl, rfl⟩ := List.cons.inj heq
      obtain ⟨hproto, hs⟩ := read_eq_proto ho
      have hnil : slots = [] := by
        by_contra hnil
        exact Bool.false_ne_true ((hslots.proto_eq_false hnil).symm.trans hproto)
      subst hnil
      obtain rfl := (Prod.mk.inj (Except.ok.inj hos)).2
      have hconst : BareConst (skipBlanks cs) := by
        have hsplit := (name_split hs).1
        rw [skipBlanks_skipBlanks, List.append_nil] at hsplit
        rwa [BareConst, hsplit, String.ofList_toList]
      obtain ⟨e, he, hillegal⟩ := hconst.bare_pad slot.kinds hb hne
      refine ⟨slot, List.mem_cons_self, hproto, e, ?_, hillegal⟩
      rw [readAll, hconst.read_append, he]
      rfl
    | cons o' os =>
      obtain ⟨rfl, rfl⟩ := List.cons.inj heq
      have hnil : slots ≠ [] := by
        rintro rfl
        have hnil := (Prod.mk.inj (Except.ok.inj hos)).1
        simp at hnil
      obtain ⟨slot', hmem, hproto, e, he, hillegal⟩ := ih hslots.tail os hos
      have hagree : Agree (Padded pad) (read slot.kinds cs) (read slot.kinds (cs ++ pad)) :=
        read_agree hb (.inl (hslots.proto_eq_false hnil))
      refine ⟨slot', List.mem_cons_of_mem _ hmem, hproto, e, ?_, hillegal⟩
      rw [readAll, hagree.eq_ok ho]
      change (readAll slots (rest ++ pad)).bind _ = _
      rw [he]
      rfl

end Operand

end ChunkAsm
