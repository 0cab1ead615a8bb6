import ChunkAsm.Proofs.Literals

/-!
# Printed operands are read back

A printer of operands, as a relation between an operand and the texts that it may be printed as. A
string is printed in quotes of either kind, with a backslash before every backslash and every quote
of that kind, and every other character as it is. Operands are separated by blanks, and a comment may
follow the last one without any.

The operands of an instruction are then read back as they were, and so is the comment
(`printed_operands_read_back`). Two facts about the layouts of instructions are behind this. A slot
for functions accepts nothing else, so an integer is not taken for a name; and it is the last slot, so
that a function with the name `const` has no blank behind it and is not taken for a keyword.
-/

namespace ChunkAsm

open Scan

namespace Constant

/-- A character between quotes. -/
def quotedChar (quote c : Char) : List Char := if c = quote ∨ c = '\\' then ['\\', c] else [c]

/-- A string between quotes. -/
def quoted (quote : Char) (s : List Char) : List Char :=
  quote :: (s.flatMap (quotedChar quote) ++ [quote])

/-- `Prints k text`: the constant `k` may be printed as `text`. -/
inductive Prints : Constant → List Char → Prop where
  | nil : Prints .nil "nil".toList
  | true : Prints (.bool .true) "true".toList
  | false : Prints (.bool .false) "false".toList
  | string {quote : Char} (s : List Char) : quote = '"' ∨ quote = '\'' →
    Prints (.string (s.flatMap String.utf8EncodeChar)) (quoted quote s)

/-- The quotes and the backslash are escapes for themselves. -/
theorem stringBody_quoted {quote : Char} (hquote : quote = '"' ∨ quote = '\'') (s : List Char) :
    StringBody quote (s.flatMap (quotedChar quote)) (s.flatMap String.utf8EncodeChar) := by
  induction s with
  | nil => exact .nil
  | cons c s ih =>
    rw [List.flatMap_cons, List.flatMap_cons, quotedChar]
    split
    · rename_i hc
      have hbyte : ∃ b, (c, b) ∈ escapes ∧ String.utf8EncodeChar c = [b] := by
        rcases hc with rfl | rfl
        · rcases hquote with rfl | rfl
          · exact ⟨34, by decide, by decide⟩
          · exact ⟨39, by decide, by decide⟩
        · exact ⟨92, by decide, by decide⟩
      obtain ⟨b, hb, hcode⟩ := hbyte
      rw [hcode]
      exact .escape hb ih
    · rename_i hc
      rw [not_or] at hc
      exact .char hc.1 hc.2 ih

/-- What is printed is a literal. -/
theorem Prints.literalToken {k : Constant} {text : List Char} (h : Prints k text) :
    LiteralToken text k := by
  cases h with
  | nil => exact .word (by decide : ("nil", Constant.nil) ∈ literalWords) (by decide)
  | true => exact .word (by decide : ("true", Constant.bool .true) ∈ literalWords) (by decide)
  | false => exact .word (by decide : ("false", Constant.bool .false) ∈ literalWords) (by decide)
  | string s hquote => exact .string hquote (stringBody_quoted hquote s)

end Constant

namespace Operand

/-- `Prints o text`: the operand `o` may be printed as `text`. -/
inductive Prints : Operand → List Char → Prop where
  | stack {n : Int} : n.natAbs ≤ 2 ^ 63 - 1 → Prints (.stack n) ('%' :: (toString n).toList)
  | upvalue {n : Int} : n.natAbs ≤ 2 ^ 63 - 1 → Prints (.upvalue n) ('@' :: (toString n).toList)
  | location {label : String} : IsName label → Prints (.location label) ('$' :: label.toList)
  | constant {k : Constant} {text : List Char} : k.Prints text →
    Prints (.constant k) ("const ".toList ++ text)
  | embedded {n : Int} : n.natAbs ≤ 2 ^ 63 - 1 → Prints (.embedded n) (toString n).toList
  | proto {name : String} : IsName name → Prints (.proto name) name.toList

/-- `PrintsAll os text`: the operands `os` may be printed one after the other as `text`. Blanks may
stand before each of them, and there must be one between any two. -/
inductive PrintsAll : List Operand → List Char → Prop where
  | nil : PrintsAll [] []
  | cons {o : Operand} {os : List Operand} {blanks text more : List Char} : Blanks blanks →
    Prints o text → (os ≠ [] → ∃ c ∈ more.head?, c = ' ' ∨ c = '\t') → PrintsAll os more →
    PrintsAll (o :: os) (blanks ++ (text ++ more))

variable {ks : Kinds} {o : Operand} {blanks text rest : List Char}

theorem read_blanks (hb : Blanks blanks) (cs : List Char) : read ks (blanks ++ cs) = read ks cs := by
  rw [read, read, hb.skipBlanks_append]

/-- The word `const` is a keyword only with a blank behind it. -/
theorem afterConst?_of_ends {cs : List Char} (h : ∀ c ∈ (cs.dropWhile Char.isAlpha).head?,
    isBlank c = false) : afterConst? cs = none := by
  rw [afterConst?, word]
  cases hrest : cs.dropWhile Char.isAlpha with
  | nil => rfl
  | cons c cs => simp [h c (by rw [hrest]; rfl)]

/-- A name at the end of the line, or with a comment directly behind it. -/
theorem afterConst?_name {name : String} (hname : IsName name)
    (hrest : ∀ c ∈ rest.head?, c = ';') : afterConst? (name.toList ++ rest) = none := by
  refine afterConst?_of_ends fun c hc => ?_
  rw [List.dropWhile_append] at hc
  split at hc
  · -- the name is a word, and what follows it is no letter
    cases rest with
    | nil => cases hc
    | cons c' rest =>
      obtain rfl := hrest c' rfl
      obtain rfl := Option.some.inj hc
      rfl
  · rename_i hne
    obtain ⟨c', cs, hcs⟩ := List.exists_cons_of_ne_nil fun hnil =>
      hne (List.isEmpty_iff.mpr hnil)
    rw [hcs] at hc
    obtain rfl := Option.some.inj hc
    exact isBlank_of_isNameChar
      (hname.chars c' ((List.dropWhile_suffix _).mem (hcs ▸ List.mem_cons_self)))

/-- Operands other than constants are printed as their text. -/
theorem Prints.eq_text (h : Prints o text) (hk : o.kind ≠ .constant) :
    o.Legible ∧ text = o.text.toList := by
  cases h with
  | stack hn =>
    exact ⟨hn.trans_eq maxInteger_eq.symm, by rw [Operand.text, String.toList_append]; rfl⟩
  | upvalue hn =>
    exact ⟨hn.trans_eq maxInteger_eq.symm, by rw [Operand.text, String.toList_append]; rfl⟩
  | location hname => exact ⟨hname, by rw [Operand.text, String.toList_append]; rfl⟩
  | embedded hn => exact ⟨hn.trans_eq maxInteger_eq.symm, rfl⟩
  | proto hname => exact ⟨hname, rfl⟩
  | constant => exact absurd rfl hk

theorem read_constant {k : Constant} (h : k.Prints text) (hks : ks.constant = true)
    (hrest : Delimited rest) :
    read ks ("const ".toList ++ text ++ rest) = .ok (.constant k, rest) := by
  rw [List.append_assoc]
  refine (read_of_start (by decide)).trans (bare_constant hks ?_)
  exact (takesTokens_literal.eq_ok_iff _ _ _).mpr
    ⟨text, ⟨[' '], by decide, rfl⟩, h.literalToken, hrest⟩

/-- **A printed operand is read back** in a slot that accepts it. -/
theorem Prints.read_eq (h : Prints o text) (hks : ks.has o.kind = true)
    (hembedded : o.kind = .embedded → ks.proto = false)
    (hproto : o.kind = .proto → ∀ c ∈ rest.head?, c = ';') (hrest : Delimited rest) :
    read ks (text ++ rest) = .ok (o, rest) := by
  by_cases hk : o.kind = .constant
  · cases h with
    | constant h => exact read_constant h hks hrest
    | _ => cases hk
  · obtain ⟨ho, rfl⟩ := h.eq_text hk
    refine read_text ho hks hembedded (fun name hname => ?_) (atDelimiter_eq_true.mpr hrest)
    subst hname
    exact afterConst?_name ho (hproto rfl)

/-! ## Operands one after the other -/

theorem readAll_cons_eq_ok {slot : Slot} {slots : List Slot} {os : List Operand}
    {cs : List Char} :
    readAll (slot :: slots) cs = .ok (os, rest) ↔
      ∃ o rest' os', read slot.kinds cs = .ok (o, rest') ∧ readAll slots rest' = .ok (os', rest) ∧
        os = o :: os' := by
  rw [readAll]
  constructor
  · intro h
    obtain ⟨⟨o, rest'⟩, ho, h⟩ := bind_eq_ok.mp h
    obtain ⟨⟨os', rest''⟩, hos, h⟩ := bind_eq_ok.mp h
    obtain ⟨rfl, rfl⟩ := Prod.mk.inj (Except.ok.inj h)
    exact ⟨o, rest', os', ho, hos, rfl⟩
  · rintro ⟨o, rest', os', ho, hos, rfl⟩
    exact bind_eq_ok.mpr ⟨(o, rest'), ho, bind_eq_ok.mpr ⟨(os', rest), hos, rfl⟩⟩

end Operand

/-- A slot for functions takes no integers, and no slot follows it. -/
structure Slot.FunctionsLast (slots : List Slot) : Prop where
  integers : ∀ slot ∈ slots, slot.kinds.embedded = true → slot.kinds.proto = false
  last : ∀ slot ∈ slots.dropLast, slot.kinds.proto = false

theorem Opcode.functionsLast (op : Opcode) : Slot.FunctionsLast op.slots := by
  cases op <;> exact ⟨by decide, by decide⟩

theorem Slot.FunctionsLast.tail {slot : Slot} {slots : List Slot}
    (h : FunctionsLast (slot :: slots)) : FunctionsLast slots := by
  refine ⟨fun s hs => h.integers s (List.mem_cons_of_mem _ hs), fun s hs => ?_⟩
  cases slots with
  | nil => cases hs
  | cons slot' slots => exact h.last s (List.mem_cons_of_mem _ hs)

/-- A slot that is followed by another one is for no function. -/
theorem Slot.FunctionsLast.proto_eq_false {slot : Slot} {slots : List Slot}
    (h : FunctionsLast (slot :: slots)) (hne : slots ≠ []) : slot.kinds.proto = false := by
  obtain ⟨slot', slots, rfl⟩ := List.exists_cons_of_ne_nil hne
  exact h.last slot List.mem_cons_self

/-- The kind of every operand is one that its slot accepts. -/
def Slot.AcceptAll (slots : List Slot) (os : List Operand) : Prop :=
  List.Forall₂ (fun slot o => slot.kinds.has o.kind = true) slots os

/-- **Printed operands are read back slot by slot**, up to the end of the line or a comment. -/
theorem Operand.PrintsAll.readAll_eq {slots : List Slot} {os : List Operand} {text rest : List Char}
    (h : PrintsAll os text) (hkinds : Slot.AcceptAll slots os) (hslots : Slot.FunctionsLast slots)
    (hrest : ∀ c ∈ rest.head?, c = ';') : readAll slots (text ++ rest) = .ok (os, rest) := by
  induction hkinds generalizing text with
  | nil =>
    cases h
    rfl
  | @cons slot o slots os hkind hkinds ih =>
    cases h with
    | @cons _ _ blanks text more hb hprint hsep hmore =>
      have hnil : os = [] → more = [] := by
        rintro rfl
        cases hmore
        rfl
      have hdelimited : Delimited (more ++ rest) := by
        intro c hc
        by_cases hos : os = []
        · rw [hnil hos] at hc
          exact .inl (hrest c hc)
        · obtain ⟨c', hc', hblank⟩ := hsep hos
          rw [List.head?_append, Option.mem_def.mp hc'] at hc
          obtain rfl := Option.some.inj hc
          exact .inr hblank
      have hread : read slot.kinds (text ++ (more ++ rest)) = .ok (o, more ++ rest) := by
        refine hprint.read_eq hkind (fun hk => ?_) (fun hk => ?_) hdelimited
        · exact hslots.integers slot List.mem_cons_self (by rw [hk] at hkind; exact hkind)
        · -- only the last operand is a function
          have hos : os = [] := by
            by_contra hos
            have hslot := hslots.proto_eq_false fun hnone => by
              subst hnone
              cases hkinds
              exact hos rfl
            rw [hk, Kinds.has, hslot] at hkind
            cases hkind
          rwa [hnil hos]
      rw [List.append_assoc, List.append_assoc]
      rw [← read_blanks hb] at hread
      exact readAll_cons_eq_ok.mpr ⟨o, more ++ rest, os, hread, ih hmore hslots.tail, rfl⟩

/-- The text of a comment, if there is one. -/
def commentText (comment : Option String) : List Char := comment.elim [] String.toList

/-- The comment is what is left of the line. -/
theorem noMore_commentText {comment : Option String}
    (h : ∀ s ∈ comment, ∃ body, s.toList = ';' :: body) :
    Operand.noMore (commentText comment) = (.ok comment, []) := by
  cases comment with
  | none => rfl
  | some s =>
    obtain ⟨body, hs⟩ := h s rfl
    have hback : String.ofList (';' :: body) = s := by rw [← hs, String.ofList_toList]
    change Operand.noMore s.toList = _
    rw [hs, Operand.noMore, endOfLine, skipBlanks_cons (by decide)]
    simp only [if_true, hback]

/-- **Printed operands are read back.** For every opcode, operands of the kinds that its slots accept
are read back from any way of printing them, slot by slot, whatever their strings contain; and what
is left is exactly the comment. -/
theorem printed_operands_read_back {op : Opcode} {os : List Operand} {text : List Char}
    {comment : Option String} (hkinds : Slot.AcceptAll op.slots os)
    (hprint : Operand.PrintsAll os text) (hcomment : ∀ s ∈ comment, ∃ body, s.toList = ';' :: body) :
    ∃ rest, Operand.readAll op.slots (text ++ commentText comment) = .ok (os, rest) ∧
      Operand.noMore rest = (.ok comment, []) := by
  refine ⟨commentText comment, ?_, noMore_commentText hcomment⟩
  refine hprint.readAll_eq hkinds op.functionsLast fun c hc => ?_
  cases comment with
  | none => cases hc
  | some s =>
    obtain ⟨body, hs⟩ := hcomment s rfl
    change c ∈ s.toList.head? at hc
    rw [hs] at hc
    exact (Option.some.inj hc).symm

/-- Operands of which the second is a string with a quote, a semicolon and a sigil in it. -/
def storedString : List Operand :=
  [.upvalue (-1), .constant (.string ("it's; %1 \"".toList.flatMap String.utf8EncodeChar)), .stack 0]

/-- The string is printed in the quotes that it contains, and a comment follows directly. -/
theorem printed_operands_read_back_quoted :
    ∃ rest, Operand.readAll (Opcode.slots .setTabUp) "@-1 const 'it\\'s; %1 \"'\t%0;L3;".toList =
        .ok (storedString, rest) ∧
      Operand.noMore rest = (.ok (some ";L3;"), []) := by
  have hkinds : Slot.AcceptAll (Opcode.slots .setTabUp) storedString :=
    .cons rfl (.cons rfl (.cons rfl .nil))
  have hprint : Operand.PrintsAll storedString "@-1 const 'it\\'s; %1 \"'\t%0".toList := by
    have htext : "@-1 const 'it\\'s; %1 \"'\t%0".toList =
        [] ++ ('@' :: (toString (-1 : Int)).toList ++ ([' '] ++ ("const ".toList ++
          Constant.quoted '\'' "it's; %1 \"".toList ++
          (['\t'] ++ ('%' :: (toString (0 : Int)).toList ++ []))))) := by
      decide +kernel
    rw [htext]
    exact .cons (by decide) (.upvalue (by decide)) (fun _ => ⟨' ', rfl, .inl rfl⟩)
      (.cons (by decide) (.constant (.string _ (.inr rfl))) (fun _ => ⟨'\t', rfl, .inr rfl⟩)
        (.cons (by decide) (.stack (by decide)) (absurd rfl) .nil))
  have hcomment : ∀ s ∈ some ";L3;", ∃ body, s.toList = ';' :: body := by
    rintro _ ⟨⟩
    exact ⟨"L3;".toList, by decide +kernel⟩
  have hline : "@-1 const 'it\\'s; %1 \"'\t%0;L3;".toList =
      "@-1 const 'it\\'s; %1 \"'\t%0".toList ++ commentText (some ";L3;") := by
    decide +kernel
  rw [hline]
  exact printed_operands_read_back hkinds hprint hcomment

end ChunkAsm
