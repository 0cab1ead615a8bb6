import ChunkAsm.Proofs.InPlace
import ChunkAsm.Proofs.Padding

/-!
# Blanks at the end of a line

Blanks at the end of a line should mean nothing: the assembler accepts the line with them if and only
if it accepts the line without, and makes the same changes. This holds of all lines but those that
make a closure of a function with the name `const` and end in this name. Such a line is accepted,
and it is rejected with a blank at its end (`trailing_blanks_insignificant_iff`).
-/

namespace ChunkAsm

open Scan

/-! ## Instructions -/

namespace Scan

theorem lineMarker_eq_none {comment : List Char} (h : ∀ body, comment ≠ ';' :: 'L' :: body) :
    lineMarker comment = .ok none := by
  rw [lineMarker]
  exact h

theorem lineMarker_eq_ite (body : List Char) :
    lineMarker (';' :: 'L' :: body) =
      if body.takeWhile Char.isDigit ≠ [] ∧ (body.dropWhile Char.isDigit).head? = some ';' then
        if maxLine < decimalValue (body.takeWhile Char.isDigit) then
          .error (.integerOverflow (String.ofList (body.takeWhile Char.isDigit)))
        else .ok (some (decimalValue (body.takeWhile Char.isDigit)))
      else .ok none := by
  rw [lineMarker]
  simp only
  generalize body.takeWhile Char.isDigit = digits
  split
  · rename_i hrest
    exact (if_pos ⟨List.cons_ne_nil _ _, congrArg List.head? hrest⟩).symm
  · rename_i hno
    refine (if_neg ?_).symm
    rintro ⟨hne, hhead⟩
    obtain ⟨d, ds, rfl⟩ := List.exists_cons_of_ne_nil hne
    obtain ⟨rest, hrest⟩ := List.head?_eq_some_iff.mp hhead
    exact hno d ds rest rfl hrest

/-- Blanks at the end of a comment do not make it a marker, and do not change the line that it
marks. -/
theorem lineMarker_pad {pad : List Char} (hb : Blanks pad) (comment : List Char) :
    lineMarker (comment ++ pad) = lineMarker comment := by
  have hpad (c : Char) (rest : List Char) (h : pad = c :: rest) : isBlank c = true :=
    isBlank_eq_true.mpr (hb c (h ▸ List.mem_cons_self))
  by_cases h : ∃ body, comment = ';' :: 'L' :: body
  · obtain ⟨body, rfl⟩ := h
    obtain ⟨htake, hdrop⟩ := takeWhile_pad Char.isDigit hb body
    have hhead : (body.dropWhile Char.isDigit ++ pad).head? = some ';' ↔
        (body.dropWhile Char.isDigit).head? = some ';' := by
      cases body.dropWhile Char.isDigit with
      | cons c rest => rfl
      | nil =>
        refine iff_of_false (fun hsome => ?_) (Option.some_ne_none _).symm
        obtain ⟨rest, hrest⟩ := List.head?_eq_some_iff.mp hsome
        exact absurd (hpad _ _ hrest) (by decide)
    simp only [List.cons_append, lineMarker_eq_ite, htake, hdrop, hhead]
  · have hno (body : List Char) : comment ≠ ';' :: 'L' :: body := fun hbody => h ⟨body, hbody⟩
    rw [lineMarker_eq_none hno, lineMarker_eq_none]
    intro body hbody
    match comment with
    | [] => exact absurd (hpad _ _ hbody) (by decide)
    | [c] => exact absurd (hpad _ _ (List.cons.inj hbody).2) (by decide)
    | c :: c' :: rest =>
      obtain ⟨hc, htail⟩ := List.cons.inj hbody
      exact hno rest (by rw [hc, (List.cons.inj htail).1])

end Scan

theorem Operand.noMore_agree {pad : List Char} (hb : Blanks pad) (cs : List Char) :
    Agree (fun comment comment' => comment' = comment.map (· ++ String.ofList pad))
      (noMore cs).1 (noMore (cs ++ pad)).1 := by
  have hagree := endOfLine_agree hb cs
  rw [noMore, noMore]
  generalize endOfLine cs = x, endOfLine (cs ++ pad) = y at hagree
  obtain ⟨x, rest⟩ := x
  obtain ⟨y, rest'⟩ := y
  cases hagree with
  | ok hcomment => exact .ok hcomment
  | error e e' => cases e <;> cases e' <;> exact .error _ _

theorem Draft.markedLine_pad {pad : List Char} (hb : Blanks pad) (comment : Option String) :
    markedLine (comment.map (· ++ String.ofList pad)) = markedLine comment := by
  cases comment with
  | none => rfl
  | some s =>
    change lineMarker (s ++ String.ofList pad).toList = lineMarker s.toList
    rw [String.toList_append, String.toList_ofList, lineMarker_pad hb]

theorem Draft.instruction_agree {pad cs : List Char} {mnemonic : String} (d : Draft)
    (owners : Owners) (hb : Blanks pad)
    (h : pad = [] ∨ ∀ op, Opcode.lookup mnemonic = some op → ¬ Operand.ConstLast op.slots cs) :
    Agree Eq (d.instruction owners mnemonic cs) (d.instruction owners mnemonic (cs ++ pad)) := by
  rw [instruction, instruction]
  cases hop : Opcode.lookup mnemonic with
  | none => exact .error _ _
  | some op =>
    have hread := Operand.readAll_agree op.functionsLast hb (h.imp_right fun h => h op hop)
    refine (hread.mapError _).bind_padded fun os rest _ => ?_
    refine ((Operand.noMore_agree hb rest).mapError _).bind fun comment comment' _ hcomment => ?_
    rw [hcomment, markedLine_pad hb]
    exact .refl _

/-! ## Lines -/

/-- Two reactions are alike: they make the same edits, and both accept the line or both reject it. -/
structure Reaction.Alike (r r' : Reaction) : Prop where
  edits : r'.edits = r.edits
  refusal : r'.refusal = none ↔ r.refusal = none

namespace Reaction

theorem Alike.refl (r : Reaction) : r.Alike r := ⟨rfl, Iff.rfl⟩

theorem alike_refuse (e e' : LineError) (log log' : List Log.Event) :
    (refuse e log).Alike (refuse e' log') :=
  ⟨rfl, iff_of_false (Option.some_ne_none _) (Option.some_ne_none _)⟩

theorem alike_ofExcept {x y : Except LineError (List Edit)} (h : Agree Eq x y)
    (log : List Log.Event) : (ofExcept x log).Alike (ofExcept y log) := by
  cases h with
  | error e e' => exact alike_refuse e e' log log
  | ok hxy =>
    subst hxy
    exact .refl _

end Reaction

namespace Assembler

variable {a : Assembler} {pad : List Char}

theorem byte_agree (hb : Blanks pad) (what : ByteRole) (cs : List Char) :
    Agree (Padded pad) (byte what cs) (byte what (cs ++ pad)) := by
  refine ((takesTokens_integer.agree hb cs).mapError _).bind_padded fun n rest _ => ?_
  simp only
  split
  · exact .ok rfl
  · exact .error _ _

theorem nothingMore_agree (hb : Blanks pad) (cs : List Char) :
    Agree Eq (nothingMore cs) (nothingMore (cs ++ pad)) := by
  have hagree := endOfLine_agree hb cs
  rw [nothingMore, nothingMore]
  generalize (endOfLine cs).1 = x, (endOfLine (cs ++ pad)).1 = y at hagree
  cases hagree with
  | ok _ => exact .ok rfl
  | error e e' => exact .error _ _

theorem declaration_agree (hb : Blanks pad) (cs : List Char) :
    Agree Eq (declaration cs) (declaration (cs ++ pad)) := by
  refine ((takesTokens_name.agree hb cs).mapError _).bind_padded fun fname rest _ => ?_
  refine (byte_agree hb _ rest).bind_padded fun maxStack rest _ => ?_
  refine (byte_agree hb _ rest).bind_padded fun params rest _ => ?_
  refine ((takesTokens_integer.agree hb rest).mapError _).bind_padded fun n rest _ => ?_
  simp only
  cases VarargMode.ofNumber? n with
  | none => exact .error _ _
  | some mode => exact (nothingMore_agree hb rest).bind fun _ _ _ _ => .refl _

theorem otherDirective_agree (hb : Blanks pad) (d : Directive) (cs : List Char) :
    Agree Eq (a.otherDirective d cs) (a.otherDirective d (cs ++ pad)) := by
  rw [otherDirective, otherDirective]
  by_cases hd : d = .upvalues
  · simp only [if_pos hd]
    split
    · exact .error _ _
    · refine (byte_agree hb _ cs).bind_padded fun n rest _ => ?_
      exact (nothingMore_agree hb rest).bind fun _ _ _ _ => .refl _
  · simp only [if_neg hd]
    cases d.next? a.segment with
    | none => exact .error _ _
    | some s => exact (nothingMore_agree hb cs).bind fun _ _ _ _ => .refl _

theorem constLine_agree (hb : Blanks pad) (cs : List Char) :
    Agree Eq (a.constLine cs) (a.constLine (cs ++ pad)) := by
  refine ((takesTokens_literal.agree hb cs).mapError _).bind_padded fun c rest _ => ?_
  exact (nothingMore_agree hb rest).bind fun _ _ _ _ => .refl _

theorem upvalueLine_agree (hb : Blanks pad) (cs : List Char) :
    Agree Eq (a.upvalueLine cs) (a.upvalueLine (cs ++ pad)) := by
  refine (byte_agree hb _ cs).bind_padded fun inStack rest _ => ?_
  refine (byte_agree hb _ rest).bind_padded fun index rest _ => ?_
  exact (nothingMore_agree hb rest).bind fun _ _ _ _ => .refl _

theorem directiveLine_alike (hb : Blanks pad) (cs : List Char) :
    (a.directiveLine cs).Alike (a.directiveLine (cs ++ pad)) := by
  have hname := takesTokens_name.agree hb cs
  rw [directiveLine, directiveLine]
  generalize name cs = x, name (cs ++ pad) = y at hname
  cases hname with
  | error e e' => exact Reaction.alike_refuse _ _ _ _
  | @ok p q hq =>
    subst hq
    obtain ⟨word, rest⟩ := p
    simp only
    cases Directive.lookup word with
    | none => exact .refl _
    | some d =>
      simp only
      by_cases hd : d = .func ∧ ¬ a.segment.isOpen = true
      · simp only [if_pos hd]
        have hdecl := declaration_agree hb rest
        generalize declaration rest = x, declaration (rest ++ pad) = y at hdecl
        cases hdecl with
        | error e e' => exact Reaction.alike_refuse _ _ _ _
        | ok hxy =>
          subst hxy
          exact .refl _
      · simp only [if_neg hd]
        exact Reaction.alike_ofExcept (otherDirective_agree hb d rest) _

/-- The line is read to its end as an instruction whose last operand is a function with the name
`const`. -/
def ConstLast (line : List Char) : Prop :=
  ∃ word rest op, name line = .ok (word, rest) ∧ Opcode.lookup word = some op ∧
    Operand.ConstLast op.slots rest

theorem codeLine_alike (hb : Blanks pad) {cs : List Char} (h : pad = [] ∨ ¬ ConstLast cs) :
    (a.codeLine cs).Alike (a.codeLine (cs ++ pad)) := by
  have hagree := takesTokens_name.agree hb cs
  cases hname : name cs with
  | error e =>
    obtain ⟨e', hname'⟩ := hagree.eq_error hname
    simp only [codeLine, hname, hname']
    exact Reaction.alike_refuse _ _ _ _
  | ok p =>
    obtain ⟨word, rest⟩ := p
    have hname' := hagree.eq_ok hname
    by_cases hcolon : ∃ rest', rest = ':' :: rest'
    · obtain ⟨rest', rfl⟩ := hcolon
      rw [List.cons_append] at hname'
      have hmore := nothingMore_agree hb rest'
      simp only [codeLine, hname, hname']
      generalize nothingMore rest' = x, nothingMore (rest' ++ pad) = y at hmore
      cases hmore with
      | error e e' => exact Reaction.alike_refuse _ _ _ _
      | ok hxy =>
        subst hxy
        exact .refl _
    · have hcolon' : ¬ ∃ rest', rest ++ pad = ':' :: rest' := by
        rintro ⟨rest', hrest⟩
        cases rest with
        | cons c rest => exact hcolon ⟨rest, by rw [(List.cons.inj hrest).1]⟩
        | nil =>
          have hmem : ':' ∈ pad := by
            rw [← List.nil_append pad, hrest]
            exact List.mem_cons_self
          exact absurd (hb ':' hmem) (by decide)
      rw [codeLine_of_not_colon hname fun rest' hrest => hcolon ⟨rest', hrest⟩,
        codeLine_of_not_colon hname' fun rest' hrest => hcolon' ⟨rest', hrest⟩]
      cases a.draft with
      | none => exact .refl _
      | some d =>
        have hd : Agree Eq (d.instruction a.owners word rest) _ := d.instruction_agree a.owners hb
          (h.imp_right fun hno op hop hlast => hno ⟨word, rest, op, hname, hop, hlast⟩)
        exact Reaction.alike_ofExcept (hd.map _) _

/-- A line with neither a directive nor a comment at its start. -/
theorem react_of_start {line rest : List Char} {c : Char} (hskip : skipBlanks line = c :: rest)
    (hcomment : c ≠ ';') (hdot : c ≠ '.') :
    a.react line =
      match a.segment with
      | .code => a.codeLine (c :: rest)
      | .const => .ofExcept (a.constLine (c :: rest))
      | .upvalue => .ofExcept (a.upvalueLine (c :: rest))
      | .topLevel | .function => .refuse (.outsideSegment a.segment) := by
  rw [react, hskip]
  split
  · rename_i heq
    cases heq
  · rename_i heq
    exact absurd (List.cons.inj heq).1 hcomment
  · rename_i heq
    exact absurd (List.cons.inj heq).1 hdot
  · rfl

/-- **Blanks at the end mean nothing to a line**, with one exception in a list of instructions. -/
theorem react_alike (hb : Blanks pad) {line : List Char}
    (h : pad = [] ∨ ¬ (a.segment = .code ∧ ConstLast line)) :
    (a.react line).Alike (a.react (line ++ pad)) := by
  cases hskip : skipBlanks line with
  | nil =>
    rw [react, react, hskip, skipBlanks_pad_nil hb hskip]
    exact .refl _
  | cons c rest =>
    have hskip' : skipBlanks (line ++ pad) = c :: (rest ++ pad) := skipBlanks_pad_cons hskip
    by_cases hcomment : c = ';'
    · subst hcomment
      rw [react, react, hskip, hskip']
      exact .refl _
    · by_cases hdot : c = '.'
      · subst hdot
        rw [react, react, hskip, hskip']
        exact directiveLine_alike hb rest
      · rw [react_of_start hskip hcomment hdot, react_of_start hskip' hcomment hdot,
          ← List.cons_append, ← hskip]
        cases hseg : a.segment with
        | code =>
          refine codeLine_alike hb (h.imp_right fun hno hlast => hno ⟨hseg, ?_⟩)
          rwa [ConstLast, name_skipBlanks] at hlast
        | const => exact Reaction.alike_ofExcept (constLine_agree hb _) _
        | upvalue => exact Reaction.alike_ofExcept (upvalueLine_agree hb _) _
        | topLevel => exact .refl _
        | function => exact .refl _

end Assembler

/-! ## The exception -/

/-- A line that makes a closure of a function with the name `const`, and ends in the name. The letter
case does not matter. -/
inductive ConstClosure : List Char → Prop where
  | intro {b₁ b₂ b₃ b₄ mnemonic register name : List Char} {n : Int} :
    Blanks b₁ → Blanks b₂ → Blanks b₃ → Blanks b₄ → b₄ ≠ [] →
    mnemonic.map Char.toLower = "closure".toList → IntegerToken register n →
    name.map Char.toLower = "const".toList →
    ConstClosure (b₁ ++ (mnemonic ++ (b₂ ++ '%' :: (b₃ ++ (register ++ (b₄ ++ name))))))

/-- Only a closure refers to a function, and it names a register before. -/
theorem Operand.ConstLast.of_closure {op : Opcode} {cs : List Char} (h : ConstLast op.slots cs) :
    op = .closure ∧ ∃ cs' n rest s, skipBlanks cs = '%' :: cs' ∧ integer cs' = .ok (n, rest) ∧
      name (skipBlanks rest) = .ok (s, []) ∧ Keyword.Matches s "const" := by
  obtain ⟨os, s, hread, hs⟩ := h
  have hsuits := readAll_suits hread
  have hop : op = .closure := by
    by_contra hop
    exact hsuits.proto_not_mem hop s (List.mem_append_right _ List.mem_cons_self)
  subst hop
  obtain ⟨n, s', hos⟩ := hsuits.of_closure
  have happend : os ++ [.proto s] = [.stack n] ++ [.proto s'] := hos
  obtain ⟨hos, hlast⟩ := List.append_inj' happend rfl
  obtain rfl := Operand.proto.inj (List.cons.inj hlast).1
  rw [hos] at hread
  obtain ⟨o₁, rest₁, os₁, h₁, hread, heq⟩ := readAll_cons_eq_ok.mp hread
  obtain ⟨rfl, rfl⟩ := List.cons.inj heq
  obtain ⟨o₂, rest₂, os₂, h₂, hread, heq⟩ := readAll_cons_eq_ok.mp hread
  obtain ⟨rfl, rfl⟩ := List.cons.inj heq
  obtain ⟨-, rfl⟩ := Prod.mk.inj (Except.ok.inj hread)
  obtain ⟨cs', hskip, hn⟩ := read_eq_stack h₁
  exact ⟨rfl, cs', n, rest₁, s, hskip, hn, (read_eq_proto h₂).2, hs⟩

namespace ConstClosure

variable {line : List Char}

theorem constLast (h : ConstClosure line) : Assembler.ConstLast line := by
  obtain ⟨h₁, h₂, h₃, h₄, hne, hmnemonic, hregister, hconst⟩ := h
  rename_i b₁ b₂ b₃ b₄ mnemonic register s n
  have hbare : Operand.BareConst s := (matches_ofList (by decide)).mpr hconst
  have hskip : skipBlanks (b₄ ++ s) = s := by
    obtain ⟨c, s, rfl⟩ := List.exists_cons_of_ne_nil hbare.ne_nil
    have hc := isNameChar_of_isAlpha (hbare.isAlpha c List.mem_cons_self)
    exact h₄.skipBlanks_eq (isBlank_of_isNameChar hc) s
  have hname : name (b₁ ++ (mnemonic ++ (b₂ ++ '%' :: (b₃ ++ (register ++ (b₄ ++ s)))))) =
      .ok (String.ofList mnemonic, b₂ ++ '%' :: (b₃ ++ (register ++ (b₄ ++ s)))) := by
    have hletters := isAlpha_of_map_toLower hmnemonic (List.all_eq_true.mp rfl)
    have hnil : mnemonic ≠ [] := by
      rintro rfl
      cases hmnemonic
    refine (takesTokens_name.eq_ok_iff _ _ _).mpr ⟨mnemonic, ⟨b₁, h₁, rfl⟩,
      ⟨isName_ofList hnil hletters, String.toList_ofList.symm⟩, ?_⟩
    intro c hc
    cases b₂ with
    | nil =>
      obtain rfl := Option.some.inj hc
      rfl
    | cons c' b₂ =>
      obtain rfl := Option.some.inj hc
      exact (h₂.ends : Ends isNameChar _) c' rfl
  have hlookup : Opcode.lookup (String.ofList mnemonic) = some .closure := by
    have hfold : Keyword.fold (String.ofList mnemonic) = "closure" :=
      (matches_ofList (by decide)).mpr hmnemonic
    rw [Opcode.lookup, Keyword.find?, hfold]
    decide
  have hinteger : integer (b₃ ++ (register ++ (b₄ ++ s))) = .ok (n, b₄ ++ s) := by
    refine (takesTokens_integer.eq_ok_iff _ _ _).mpr ⟨register, ⟨b₃, h₃, rfl⟩, hregister, ?_⟩
    obtain ⟨c, b₄, rfl⟩ := List.exists_cons_of_ne_nil hne
    intro c' hc'
    obtain rfl := Option.some.inj hc'
    exact .inr (h₄ c List.mem_cons_self)
  have hstack : Operand.read (.only .stack) (b₂ ++ '%' :: (b₃ ++ (register ++ (b₄ ++ s)))) =
      .ok (.stack n, b₄ ++ s) := by
    rw [Operand.read_blanks h₂]
    exact Operand.read_stack rfl hinteger
  have hproto : Operand.read (.only .proto) (b₄ ++ s) = .ok (.proto (String.ofList s), []) := by
    rw [← hskip] at hbare
    have hread : Operand.read (.only .proto) (b₄ ++ s) = _ := hbare.read_eq rfl
    rwa [hskip] at hread
  exact ⟨_, _, .closure, hname, hlookup, [.stack n], _,
    Operand.readAll_cons_eq_ok.mpr ⟨_, _, _, hstack,
      Operand.readAll_cons_eq_ok.mpr ⟨_, _, _, hproto, rfl, rfl⟩, rfl⟩, hbare⟩

theorem of_constLast (h : Assembler.ConstLast line) : ConstClosure line := by
  obtain ⟨word, rest, op, hname, hop, hlast⟩ := h
  obtain ⟨rfl, cs, n, rest₁, s, hskip, hn, hs, hconst⟩ := hlast.of_closure
  have hfound := List.find?_some hop
  have hmnemonic : Keyword.Matches word "closure" := (eq_of_beq hfound).symm
  obtain ⟨b₁, h₁, hline⟩ := exists_blanks line
  obtain ⟨b₂, h₂, hrest⟩ := exists_blanks rest
  obtain ⟨register, ⟨b₃, h₃, hcs⟩, hregister, hdelimited⟩ :=
    (takesTokens_integer.eq_ok_iff _ _ _).mp hn
  obtain ⟨b₄, h₄, hrest₁⟩ := exists_blanks rest₁
  have hsplit := (name_split hs).1
  rw [skipBlanks_skipBlanks, List.append_nil] at hsplit
  rw [hsplit] at hrest₁
  rw [(name_split hname).1, hrest, hskip, hcs, hrest₁] at hline
  rw [← s.ofList_toList] at hconst
  rw [← word.ofList_toList] at hmnemonic
  have hne : b₄ ≠ [] := by
    rintro rfl
    obtain ⟨c, tail, hcons⟩ := List.exists_cons_of_ne_nil (isName_of_name hs).nonempty
    have hc := (isName_of_name hs).chars c (hcons ▸ List.mem_cons_self)
    rw [hrest₁, List.nil_append, hcons] at hdelimited
    rcases hdelimited c rfl with rfl | rfl | rfl <;> exact absurd hc (by decide)
  rw [hline]
  exact .intro h₁ h₂ h₃ h₄ hne ((matches_ofList (by decide)).mp hmnemonic) hregister
    ((matches_ofList (by decide)).mp hconst)

end ConstClosure

namespace Assembler

variable {a : Assembler} {line pad rest : List Char} {word : String}

/-- A line of code that starts with a name and is no label. -/
theorem react_of_name (hseg : a.segment = .code) (hname : name line = .ok (word, rest))
    (hcolon : ∀ rest', rest ≠ ':' :: rest') :
    a.react line =
      match a.draft with
      | none => .refuse (.outsideSegment .code)
      | some d => .ofExcept ((d.instruction a.owners word rest).map fun m => [.emit m]) := by
  have hword := isName_of_name hname
  obtain ⟨c, tail, hcons⟩ := List.exists_cons_of_ne_nil hword.nonempty
  have hc := hword.chars c (hcons ▸ List.mem_cons_self)
  have hskip : skipBlanks line = c :: (tail ++ rest) := by
    rw [(name_split hname).1, hcons, List.cons_append]
  rw [← name_skipBlanks, hskip] at hname
  have hcode := codeLine_of_not_colon hname hcolon (a := a)
  rw [hseg] at hcode
  rw [react_of_start hskip (ne_of_isNameChar hc _) (ne_of_isNameChar hc _), hseg]
  exact hcode

/-- Behind a mnemonic with operands there is no colon. -/
theorem ne_colon {cs : List Char} (hskip : skipBlanks rest = '%' :: cs) (rest' : List Char) :
    rest ≠ ':' :: rest' := by
  rintro rfl
  rw [skipBlanks_cons (by decide)] at hskip
  cases hskip

/-- An instruction that is rejected makes no edits. -/
theorem edits_eq_nil_of_name (hseg : a.segment = .code) (hname : name line = .ok (word, rest))
    (hcolon : ∀ rest', rest ≠ ':' :: rest') (hrefusal : (a.react line).refusal ≠ none) :
    (a.react line).edits = [] := by
  rw [react_of_name hseg hname hcolon] at hrefusal ⊢
  cases hd : a.draft with
  | none => rfl
  | some d =>
    simp only [hd] at hrefusal ⊢
    cases hm : d.instruction a.owners word rest with
    | error e => rfl
    | ok m =>
      rw [hm] at hrefusal
      exact absurd rfl hrefusal

/-- **The exception.** With a blank at its end, a line that ends in the name `const` is rejected and
changes nothing. If it would be accepted without, then because the name is taken for the keyword. -/
theorem ConstLast.react_pad (hseg : a.segment = .code) (h : ConstLast line) (hb : Blanks pad)
    (hne : pad ≠ []) :
    ((a.react line).refusal ≠ none → (a.react line).edits = []) ∧
    ∃ e, a.react (line ++ pad) = .refuse e ∧
      ((a.react line).refusal = none → e = .operand (.illegal .constant (.only .proto))) := by
  obtain ⟨word, rest, op, hname, hop, hlast⟩ := h
  obtain ⟨rfl, cs, n, rest₁, s, hskip, -⟩ := hlast.of_closure
  have hname' := (takesTokens_name.agree hb line).eq_ok hname
  refine ⟨edits_eq_nil_of_name hseg hname (ne_colon hskip), ?_⟩
  rw [react_of_name hseg hname' (ne_colon (skipBlanks_pad_cons hskip)),
    react_of_name hseg hname (ne_colon hskip)]
  cases a.draft with
  | none => exact ⟨_, rfl, fun h => absurd h (Option.some_ne_none _)⟩
  | some d =>
    obtain ⟨slot, hslot, hproto, e, hread, hillegal⟩ :=
      hlast.readAll_pad (Opcode.functionsLast .closure) hb hne
    have hkinds : ∀ slot ∈ Opcode.slots .closure, slot.kinds.proto = true →
        slot.kinds = .only .proto := by decide
    rw [hkinds slot hslot hproto] at hillegal
    simp only [Draft.instruction, hop, hread, hillegal rfl]
    exact ⟨_, rfl, fun _ => rfl⟩

/-- The line is accepted, and blanks make a keyword of the name that it ends in. -/
structure LosesName (a : Assembler) (line blanks : String) : Prop where
  /-- there are blanks -/
  blanks : blanks ≠ ""
  /-- the line stands in a list of instructions -/
  code : a.segment = .code
  /-- it makes a closure of a function with the name `const`, and ends in the name -/
  closure : ConstClosure line.toList
  /-- without blanks it is accepted -/
  accepted : (a.feed line).1 = none

/-- Then the name is a constant out of place. -/
theorem LosesName.feed_eq {line blanks : String} (h : a.LosesName line blanks)
    (hb : Blanks blanks.toList) :
    a.feed (line ++ blanks) = (some (.operand (.illegal .constant (.only .proto))), a) := by
  have hne : blanks.toList ≠ [] := fun hnil => h.blanks (String.toList_eq_nil_iff.mp hnil)
  obtain ⟨-, e, hreact, he⟩ := h.closure.constLast.react_pad h.code hb hne
  rw [he h.accepted] at hreact
  rw [feed, String.toList_append, hreact]
  rfl

/-- Otherwise the blanks mean nothing. -/
theorem alike_of_not_losesName {line blanks : String} (h : ¬ a.LosesName line blanks)
    (hb : Blanks blanks.toList) :
    (a.react line.toList).Alike (a.react (line ++ blanks).toList) := by
  rw [String.toList_append]
  by_cases hconst : blanks.toList = [] ∨ ¬ (a.segment = .code ∧ ConstLast line.toList)
  · exact react_alike hb hconst
  · -- the line ends in the name, so it is rejected without the blanks already
    obtain ⟨hne, hconst⟩ := not_or.mp hconst
    obtain ⟨hseg, hconst⟩ := not_not.mp hconst
    have hrefusal : (a.react line.toList).refusal ≠ none := fun haccepted =>
      h ⟨fun hnil => hne (String.toList_eq_nil_iff.mpr hnil), hseg, .of_constLast hconst, haccepted⟩
    obtain ⟨hedits, e, hreact, -⟩ := hconst.react_pad hseg hb hne
    rw [hreact]
    exact ⟨(hedits hrefusal).symm, iff_of_false (Option.some_ne_none _) hrefusal⟩

/-- **Blanks at the end of a line mean nothing**, with one exception. A line is accepted with blanks
at its end if and only if it is accepted without, unless the blanks make a keyword of a name. Except
in this case the state after the line is the same, also if the line is rejected. In this case the line
with the blanks is rejected, since a constant may not stand in the place of a function, and changes
nothing. -/
theorem trailing_blanks_insignificant_iff {a : Assembler} {line blanks : String}
    (hb : Blanks blanks.toList) :
    (((a.feed (line ++ blanks)).1 = none ↔ (a.feed line).1 = none) ↔ ¬ a.LosesName line blanks) ∧
    (¬ a.LosesName line blanks → (a.feed (line ++ blanks)).2 = (a.feed line).2) ∧
    (a.LosesName line blanks →
      a.feed (line ++ blanks) = (some (.operand (.illegal .constant (.only .proto))), a)) := by
  refine ⟨⟨fun hiff h => ?_, fun h => (alike_of_not_losesName h hb).refusal⟩, fun h => ?_,
    fun h => h.feed_eq hb⟩
  · have haccepted := hiff.mpr h.accepted
    rw [h.feed_eq hb] at haccepted
    cases haccepted
  · rw [feed, feed, (alike_of_not_losesName h hb).edits]

/-- The assembler in the list of instructions of its first function. -/
def inFirstCode : Assembler :=
  ({} : Assembler).feedAll [".upvalues 0", ".func main 2 0 0", ".begin_code"]

/-- A closure of a function with another name. -/
theorem trailing_blanks_insignificant_inner :
    (inFirstCode.feed ("closure %0 inner" ++ " \t")).1 = none ∧
      (inFirstCode.feed ("closure %0 inner" ++ " \t")).2 =
        (inFirstCode.feed "closure %0 inner").2 := by
  have hb : Blanks " \t".toList := by decide
  have hpadded : (inFirstCode.feed ("closure %0 inner" ++ " \t")).1 = none := by decide +kernel
  have hplain : (inFirstCode.feed "closure %0 inner").1 = none := by decide +kernel
  obtain ⟨hiff, hstate, -⟩ := trailing_blanks_insignificant_iff hb
  exact ⟨hpadded, hstate (hiff.mp (iff_of_true hpadded hplain))⟩

/-- A blank at the end of the line, and the function with the name `const` is a constant out of
place. -/
theorem closure_of_const_needs_line_end :
    (inFirstCode.feed "closure %0 const").1 = none ∧
      (inFirstCode.feed "closure %0 const ").1.map LineError.message =
        some "invalid operand: const is not allowed here, expected function" := by
  decide +kernel

end Assembler

end ChunkAsm
