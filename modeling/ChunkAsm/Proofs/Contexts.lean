import ChunkAsm.Proofs.Rejection
import ChunkAsm.Proofs.Sources

/-!
# A function among others

The lines of a function can be fed to an assembler that has seen no other line. What that makes of
them is what every assembler makes of them, apart from the number of the function: the functions
before it can only forbid a reference. `Hosts c a a₀ d` says that the state `a` is the state `c`
with a function added to it whose lines have led to `a₀` from the beginning, and to the draft `d`
there. Every line of the function keeps this, in both directions: a line that is accepted among
others is accepted alone (`Hosts.feed_alone`), and one that is accepted alone is accepted among
others, if they own nothing that the function refers to (`Hosts.feed_among`).
-/

namespace ChunkAsm

/-! ## Instructions -/

theorem Owners.exists_isFirstUse {o : Owners} {name : String} {user : Nat}
    (h : o.owner? name = none ∨ o.owner? name = some user) :
    ∃ first, o.isFirstUse name user = .ok first := by
  rcases h with h | h
  · exact ⟨true, by rw [isFirstUse, h]⟩
  · exact ⟨false, by simp [isFirstUse, h]⟩

namespace Draft

/-- The draft of the same function with another number. -/
def renumber (d : Draft) (id : Nat) : Draft := { d with id }

variable {d : Draft} {o o' : Owners} {id : Nat}

/-- An operand has the same value wherever its function may refer to it. -/
theorem bind_renumber {ks : Kinds} {e : Encoding} {x : Operand} {r : Int × Encoding}
    (h : d.bind o ks e x = .ok r)
    (hfree : ∀ name, x = .proto name → o'.owner? name = none ∨ o'.owner? name = some id) :
    (d.renumber id).bind o' ks e x = .ok r := by
  cases x with
  | proto name =>
    obtain ⟨first, hfirst⟩ := Owners.exists_isFirstUse (hfree name rfl)
    simp only [bind] at h
    split at h
    · simpa only [bind, renumber, hfirst] using h
    · cases h
  | _ => exact h

theorem encode_renumber {xs : List (Slot × Operand)} {e e' : Encoding}
    (h : d.encode o xs e = .ok e')
    (hfree : ∀ x ∈ xs, ∀ name, x.2 = .proto name →
      o'.owner? name = none ∨ o'.owner? name = some id) :
    (d.renumber id).encode o' xs e = .ok e' := by
  induction xs generalizing e with
  | nil => exact h
  | cons x xs ih =>
    obtain ⟨r, hbind, h⟩ := bind_eq_ok.mp h
    obtain ⟨e₁, hplace, h⟩ := bind_eq_ok.mp h
    have hrest := ih h fun y hy => hfree y (List.mem_cons_of_mem _ hy)
    exact bind_eq_ok.mpr ⟨r, bind_renumber hbind (hfree x List.mem_cons_self),
      bind_eq_ok.mpr ⟨e₁, hplace, hrest⟩⟩

/-- **An instruction line adds the same** to its function, wherever the function may refer to what
the line refers to. -/
theorem instruction_renumber {mnemonic : String} {cs : List Char} {m : Emission}
    (h : d.instruction o mnemonic cs = .ok m)
    (hfree : ∀ name ∈ m.subroutines, o'.owner? name = none ∨ o'.owner? name = some id) :
    (d.renumber id).instruction o' mnemonic cs = .ok m := by
  obtain ⟨op, os, rest, comment, line, hop, hread, hmore, hline, hasm⟩ := instruction_eq_ok.mp h
  refine instruction_eq_ok.mpr ⟨op, os, rest, comment, line, hop, hread, hmore, hline, ?_⟩
  have hsub := (assemble_spec hasm (Operand.readAll_suits hread)).subroutines
  obtain ⟨e, he, hasm⟩ := bind_eq_ok.mp hasm
  refine bind_eq_ok.mpr ⟨e, encode_renumber he ?_, hasm⟩
  rintro ⟨slot, x⟩ hx name rfl
  refine hfree name ?_
  rw [hsub]
  exact List.mem_filterMap.mpr ⟨_, (List.of_mem_zip hx).2, rfl⟩

/-- What an accepted instruction line refers to belongs to nobody else. -/
theorem instruction_owned {mnemonic : String} {cs : List Char} {m : Emission}
    (h : d.instruction o mnemonic cs = .ok m) {name : String} (hn : name ∈ m.subroutines) :
    o.owner? name = none ∨ o.owner? name = some d.id := by
  obtain ⟨op, os, rest, comment, line, -, hread, -, -, hasm⟩ := instruction_eq_ok.mp h
  exact assemble_owned hasm (Operand.readAll_suits hread) hn

theorem mem_subroutines_emit {m : Emission} {fresh : List String} {name : String} :
    name ∈ (d.emit m fresh).subroutines ↔ name ∈ d.subroutines ∨ name ∈ fresh := by
  rw [Array.mem_def, toList_subroutines_emit, List.mem_append, ← Array.mem_def]

/-- What every line of a function leaves to it: its name and its subroutines. -/
structure Grows (d d' : Draft) : Prop where
  /-- the name is the same -/
  name : d'.name = d.name
  /-- no subroutine is lost -/
  subroutines : ∀ name ∈ d.subroutines, name ∈ d'.subroutines

theorem Grows.refl (d : Draft) : d.Grows d := ⟨rfl, fun _ h => h⟩

theorem Grows.trans {d₁ d₂ d₃ : Draft} (h : d₁.Grows d₂) (h' : d₂.Grows d₃) : d₁.Grows d₃ where
  name := h'.name.trans h.name
  subroutines name hname := h'.subroutines name (h.subroutines name hname)

end Draft

/-! ## Lines inside a function -/

/-- Whether a line belongs to the function that it stands in: it neither begins another one nor
gives the number of upvalues. -/
def Directive.isInner (line : String) : Bool :=
  ofLine? line != some .func && ofLine? line != some .upvalues

/-- A line inside a function does not declare one. -/
theorem Statement.read?_of_isInner {s : Segment} {line : String}
    (hin : Directive.isInner line = true) (name : String) (header : FunctionHeader) :
    read? s line.toList ≠ some (.function name header) := by
  intro h
  obtain ⟨rest, hstart, h⟩ := read?_eq_function h
  obtain ⟨word, rest', hword, hfunc, -⟩ := directive?_eq_function h
  simp [Directive.isInner, Directive.ofLine?_of_dot hstart hword, hfunc] at hin

/-- Whether an edit is about the open function and gives it no subroutines. -/
def Edit.isPlain : Edit → Bool
  | .enter _ | .declareLabel _ | .addConstant _ | .addUpvalue _ => true
  | _ => false

namespace Assembler

variable {a a' a₀ c : Assembler} {d : Draft} {line : String}

/-- The state `a` is the state `c` and a function, whose lines by themselves lead to the state `a₀`
with the draft `d`. -/
structure Hosts (c a a₀ : Assembler) (d : Draft) : Prop where
  /-- the draft, if there is nothing else -/
  alone : a₀.draft = some d
  /-- the draft among the others has another number, and the others are as they were -/
  among : a =
    { c with
      segment := a₀.segment
      owners := a.owners
      nextId := c.nextId + 1
      draft := some (d.renumber c.nextId) }
  /-- the function owns its subroutines -/
  owner? : ∀ name, a.owners.owner? name =
    if name ∈ d.subroutines then some c.nextId else c.owners.owner? name
  /-- if there is nothing else, nothing else has an owner -/
  owner?_alone : ∀ name, a₀.owners.owner? name = if name ∈ d.subroutines then some d.id else none
  /-- the subroutines did not belong to the others -/
  free : ∀ name ∈ d.subroutines, c.owners.owner? name = none

namespace Hosts

theorem segment (h : c.Hosts a a₀ d) : a.segment = a₀.segment := by rw [h.among]

theorem draft (h : c.Hosts a a₀ d) : a.draft = some (d.renumber c.nextId) := by rw [h.among]

/-- A directive does the same among others as alone. -/
theorem directiveLine_eq (h : c.Hosts a a₀ d) {rest : List Char}
    (hstart : Scan.skipBlanks line.toList = '.' :: rest) (hin : Directive.isInner line = true) :
    a.directiveLine rest = a₀.directiveLine rest ∧
      ∀ e ∈ (a₀.directiveLine rest).edits, e.isPlain = true := by
  rw [directiveLine, directiveLine]
  cases hname : Scan.name rest with
  | error e => exact ⟨rfl, fun _ he => absurd he List.not_mem_nil⟩
  | ok r =>
    obtain ⟨word, rest'⟩ := r
    rw [Directive.isInner, Directive.ofLine?_of_dot hstart hname] at hin
    cases hd : Directive.lookup word with
    | none => exact ⟨by simp only [hd], by simp [hd, Reaction.refuse]⟩
    | some dir =>
      obtain ⟨hfunc, hupvalues⟩ : dir ≠ .func ∧ dir ≠ .upvalues := by simpa [hd] using hin
      simp only [hd, hfunc, hupvalues, false_and, if_false, otherDirective, h.segment]
      refine ⟨trivial, ?_⟩
      split
      · exact fun _ he => absurd he List.not_mem_nil
      · cases nothingMore rest' with
        | error e => exact fun _ he => absurd he List.not_mem_nil
        | ok u =>
          intro e he
          obtain rfl := List.mem_singleton.mp he
          rfl

/-- A label or a constant does the same among others as alone, and an instruction is assembled. -/
theorem codeLine_eq (h : c.Hosts a a₀ d) (cs : List Char) :
    (a.codeLine cs = a₀.codeLine cs ∧ ∀ e ∈ (a₀.codeLine cs).edits, e.isPlain = true) ∨
      ∃ word rest,
        a.codeLine cs = .ofExcept
          (((d.renumber c.nextId).instruction a.owners word rest).map fun m => [.emit m]) ∧
        a₀.codeLine cs =
          .ofExcept ((d.instruction a₀.owners word rest).map fun m => [.emit m]) := by
  rw [codeLine, codeLine, h.draft, h.alone]
  split
  · exact .inl ⟨rfl, fun _ he => absurd he List.not_mem_nil⟩
  · rename_i word rest hname
    left
    cases nothingMore rest with
    | error e => exact ⟨rfl, fun _ he => absurd he List.not_mem_nil⟩
    | ok u =>
      refine ⟨rfl, ?_⟩
      simp only
      split
      · exact fun _ he => absurd he List.not_mem_nil
      · intro e he
        obtain rfl := List.mem_singleton.mp he
        rfl
  · rename_i word rest hcolon hname
    exact .inr ⟨word, rest, rfl, rfl⟩

theorem onDraft_eq (h : c.Hosts a a₀ d) (edit : Edit) : a.onDraft edit = a₀.onDraft edit := by
  rw [onDraft, onDraft, h.draft, h.alone]
  rfl

theorem constLine_eq (h : c.Hosts a a₀ d) (cs : List Char) : a.constLine cs = a₀.constLine cs := by
  simp only [constLine, h.onDraft_eq]

theorem upvalueLine_eq (h : c.Hosts a a₀ d) (cs : List Char) :
    a.upvalueLine cs = a₀.upvalueLine cs := by
  simp only [upvalueLine, h.onDraft_eq]

/-- **A line of the function does the same** among others as alone, unless it is an instruction. -/
theorem react_eq (h : c.Hosts a a₀ d) (hin : Directive.isInner line = true) :
    (a.react line.toList = a₀.react line.toList ∧
        ∀ e ∈ (a₀.react line.toList).edits, e.isPlain = true) ∨
      ∃ word rest,
        a.react line.toList = .ofExcept
          (((d.renumber c.nextId).instruction a.owners word rest).map fun m => [.emit m]) ∧
        a₀.react line.toList =
          .ofExcept ((d.instruction a₀.owners word rest).map fun m => [.emit m]) := by
  rw [react, react]
  split
  · exact .inl ⟨rfl, fun _ he => absurd he List.not_mem_nil⟩
  · exact .inl ⟨rfl, fun _ he => absurd he List.not_mem_nil⟩
  · rename_i rest hstart
    exact .inl (h.directiveLine_eq hstart hin)
  · rw [h.segment]
    cases a₀.segment with
    | code => exact h.codeLine_eq _
    | const =>
      rw [h.constLine_eq]
      exact .inl ⟨rfl, forall_constLine fun _ => rfl⟩
    | upvalue =>
      rw [h.upvalueLine_eq]
      exact .inl ⟨rfl, forall_upvalueLine fun _ => rfl⟩
    | topLevel => exact .inl ⟨rfl, fun _ he => absurd he List.not_mem_nil⟩
    | function => exact .inl ⟨rfl, fun _ he => absurd he List.not_mem_nil⟩

/-! ### Steps -/

/-- A change of the draft that leaves its subroutines alone. -/
theorem modifyDraft (h : c.Hosts a a₀ d) {f : Draft → Draft}
    (hsub : (f d).subroutines = d.subroutines) (hid : (f d).id = d.id)
    (hf : f (d.renumber c.nextId) = (f d).renumber c.nextId) :
    c.Hosts (a.modifyDraft f) (a₀.modifyDraft f) (f d) := by
  rw [modifyDraft_of_some h.draft, modifyDraft_of_some h.alone, hf]
  exact {
    alone := rfl
    among := by rw [h.among]
    owner? := by
      rw [hsub]
      exact h.owner?
    owner?_alone := by
      rw [hsub, hid]
      exact h.owner?_alone
    free := by
      rw [hsub]
      exact h.free }

theorem plain (h : c.Hosts a a₀ d) {e : Edit} (he : e.isPlain = true) :
    ∃ d', c.Hosts (a.apply e) (a₀.apply e) d' := by
  cases e with
  | enter s => exact ⟨d, { h with among := by rw [Assembler.apply, h.among]; rfl }⟩
  | declareLabel name => exact ⟨_, h.modifyDraft rfl rfl rfl⟩
  | addConstant k => exact ⟨_, h.modifyDraft rfl rfl rfl⟩
  | addUpvalue u => exact ⟨_, h.modifyDraft rfl rfl rfl⟩
  | _ => cases he

theorem applyAll (h : c.Hosts a a₀ d) {edits : List Edit}
    (hedits : ∀ e ∈ edits, e.isPlain = true) :
    ∃ d', c.Hosts (a.applyAll edits) (a₀.applyAll edits) d' := by
  induction edits generalizing a a₀ d with
  | nil => exact ⟨d, h⟩
  | cons e edits ih =>
    obtain ⟨d', h'⟩ := h.plain (hedits e List.mem_cons_self)
    exact ih h' fun e' he' => hedits e' (List.mem_cons_of_mem _ he')

/-- An instruction line that refers to nothing of the others. -/
theorem emit (h : c.Hosts a a₀ d) {m : Emission}
    (hfree : ∀ name ∈ m.subroutines, c.owners.owner? name = none) :
    ∃ d', c.Hosts (a.emit m) (a₀.emit m) d' := by
  -- what is new to the function has no owner, among others and alone
  have hfresh : ∀ o : Owners, (∀ name ∈ m.subroutines,
        (o.owner? name).isNone = decide (name ∉ d.subroutines)) →
      (m.subroutines.filter fun name => (o.owner? name).isNone) =
        m.subroutines.filter fun name => name ∉ d.subroutines :=
    fun o ho => List.filter_congr ho
  rw [emit_of_some h.draft, emit_of_some h.alone, hfresh a.owners, hfresh a₀.owners]
  · refine ⟨d.emit m (m.subroutines.filter fun name => name ∉ d.subroutines), rfl, ?_, ?_, ?_, ?_⟩
    · rw [h.among]
      rfl
    · intro name
      simp only [Owners.owner?_claimAll, h.owner?, Draft.mem_subroutines_emit, List.mem_filter]
      by_cases hd : name ∈ d.subroutines
      · simp [hd]
      · by_cases hm : name ∈ m.subroutines
        · simp [hd, hm, hfree name hm, Draft.renumber]
        · simp [hd, hm]
    · intro name
      simp only [Owners.owner?_claimAll, h.owner?_alone, Draft.mem_subroutines_emit,
        List.mem_filter]
      by_cases hd : name ∈ d.subroutines
      · simp [hd, Draft.emit]
      · by_cases hm : name ∈ m.subroutines <;> simp [hd, hm, Draft.emit]
    · intro name hname
      rcases Draft.mem_subroutines_emit.mp hname with hd | hm
      · exact h.free name hd
      · exact hfree name (List.mem_filter.mp hm).1
  · intro name _
    by_cases hd : name ∈ d.subroutines <;> simp [h.owner?_alone, hd]
  · intro name hm
    by_cases hd : name ∈ d.subroutines <;> simp [h.owner?, hd, hfree name hm]

/-- What an instruction line refers to are subroutines of its function afterwards. -/
theorem mem_subroutines_emit (h : c.Hosts a a₀ d) {m : Emission} {name : String}
    (hname : name ∈ m.subroutines) :
    ∃ d', (a₀.emit m).draft = some d' ∧ name ∈ d'.subroutines := by
  rw [emit_of_some h.alone]
  refine ⟨_, rfl, Draft.mem_subroutines_emit.mpr ?_⟩
  by_cases hd : name ∈ d.subroutines
  · exact .inl hd
  · exact .inr (List.mem_filter.mpr ⟨hname, by simp [h.owner?_alone, hd]⟩)

/-- **What is accepted among others is accepted alone.** The numbers of the others are smaller. -/
theorem feed_alone (h : c.Hosts a a₀ d) (hin : Directive.isInner line = true)
    (howned : ∀ name i, c.owners.owner? name = some i → i < c.nextId)
    (hacc : (a.feed line).1 = none) :
    (a₀.feed line).1 = none ∧ ∃ d', c.Hosts (a.feed line).2 (a₀.feed line).2 d' := by
  change (a.react line.toList).refusal = none at hacc
  change (a₀.react line.toList).refusal = none ∧ ∃ d',
    c.Hosts (a.applyAll (a.react line.toList).edits) (a₀.applyAll (a₀.react line.toList).edits) d'
  rcases h.react_eq hin with ⟨heq, hplain⟩ | ⟨word, rest, heq, heq₀⟩
  · rw [heq] at hacc ⊢
    exact ⟨hacc, h.applyAll hplain⟩
  · rw [heq] at hacc ⊢
    cases hm : (d.renumber c.nextId).instruction a.owners word rest with
    | error e =>
      rw [hm] at hacc
      cases hacc
    | ok m =>
      -- the line refers to subroutines of the function and to what nobody owns
      have hown : ∀ name ∈ m.subroutines,
          name ∈ d.subroutines ∨ c.owners.owner? name = none := by
        intro name hname
        by_cases hd : name ∈ d.subroutines
        · exact .inl hd
        · have ho := Draft.instruction_owned hm hname
          rw [h.owner?, if_neg hd] at ho
          exact .inr (ho.resolve_right fun ho => Nat.lt_irrefl _ (howned name _ ho))
      have hm₀ : d.instruction a₀.owners word rest = .ok m := by
        change ((d.renumber c.nextId).renumber d.id).instruction a₀.owners word rest = .ok m
        refine Draft.instruction_renumber hm fun name _ => ?_
        by_cases hd : name ∈ d.subroutines <;> simp [h.owner?_alone, hd]
      rw [heq₀, hm₀]
      exact ⟨rfl, h.emit fun name hname => (hown name hname).elim (h.free name) id⟩

/-- **What is accepted alone is accepted among others**, if they own none of its subroutines. -/
theorem feed_among (h : c.Hosts a a₀ d) (hin : Directive.isInner line = true)
    (hacc : (a₀.feed line).1 = none)
    (hfree : ∀ d', (a₀.feed line).2.draft = some d' →
      ∀ name ∈ d'.subroutines, c.owners.owner? name = none) :
    (a.feed line).1 = none ∧ ∃ d', c.Hosts (a.feed line).2 (a₀.feed line).2 d' := by
  change (a₀.react line.toList).refusal = none at hacc
  change ∀ d', (a₀.applyAll (a₀.react line.toList).edits).draft = some d' → _ at hfree
  change (a.react line.toList).refusal = none ∧ ∃ d',
    c.Hosts (a.applyAll (a.react line.toList).edits) (a₀.applyAll (a₀.react line.toList).edits) d'
  rcases h.react_eq hin with ⟨heq, hplain⟩ | ⟨word, rest, heq, heq₀⟩
  · rw [heq]
    exact ⟨hacc, h.applyAll hplain⟩
  · rw [heq₀] at hacc hfree ⊢
    cases hm : d.instruction a₀.owners word rest with
    | error e =>
      rw [hm] at hacc
      cases hacc
    | ok m =>
      rw [hm] at hfree
      have hnone : ∀ name ∈ m.subroutines, c.owners.owner? name = none := by
        intro name hname
        obtain ⟨d', hd', hmem⟩ := h.mem_subroutines_emit hname
        exact hfree d' hd' name hmem
      have hm' : (d.renumber c.nextId).instruction a.owners word rest = .ok m := by
        refine Draft.instruction_renumber hm fun name hname => ?_
        by_cases hd : name ∈ d.subroutines <;> simp [h.owner?, hd, hnone name hname]
      rw [heq, hm']
      exact ⟨rfl, h.emit hnone⟩

end Hosts

/-! ### Runs -/

theorem grows_feed (hin : Directive.isInner line = true) (hd : a.draft = some d) :
    ∃ d', (a.feed line).2.draft = some d' ∧ d.Grows d' := by
  have hsaid := Statement.read?_of_isInner (s := a.segment) hin
  have hstep := feed_step a line
  generalize Statement.read? a.segment line.toList = said at hsaid hstep
  generalize (a.feed line).1 = refusal, (a.feed line).2 = a' at hstep
  cases hstep with
  | rejected => exact ⟨d, hd, .refl d⟩
  | dropped name header => exact absurd rfl (hsaid name header)
  | taken name header => exact absurd rfl (hsaid name header)
  | blank => exact ⟨d, hd, .refl d⟩
  | upvalues => exact ⟨d, hd, .refl d⟩
  | segment => exact ⟨d, hd, .refl d⟩
  | function name header => exact absurd rfl (hsaid name header)
  | label d₁ name hseg hd₁ =>
    obtain rfl := Option.some.inj (hd.symm.trans hd₁)
    exact ⟨_, rfl, rfl, fun _ h => h⟩
  | constant d₁ k hseg hd₁ =>
    obtain rfl := Option.some.inj (hd.symm.trans hd₁)
    exact ⟨_, rfl, rfl, fun _ h => h⟩
  | upvalue d₁ u hseg hd₁ =>
    obtain rfl := Option.some.inj (hd.symm.trans hd₁)
    exact ⟨_, rfl, rfl, fun _ h => h⟩
  | instruction d₁ op os line m hseg hd₁ hsuit hm =>
    rw [emit_of_some hd]
    exact ⟨_, rfl, rfl, fun name h => Draft.mem_subroutines_emit.mpr (.inl h)⟩

theorem grows_accept? {lines : List String} (hin : ∀ line ∈ lines, Directive.isInner line = true)
    (hd : a.draft = some d) (hacc : a.accept? lines = some a') :
    ∃ d', a'.draft = some d' ∧ d.Grows d' := by
  induction lines generalizing a d with
  | nil => exact ⟨d, Option.some.inj hacc ▸ hd, .refl d⟩
  | cons line lines ih =>
    obtain ⟨hone, hrest⟩ := accept?_cons_eq_some.mp hacc
    obtain ⟨d₁, hd₁, hone⟩ := grows_feed (hin line List.mem_cons_self) hd
    obtain ⟨d', hd', hrest⟩ := ih (fun l hl => hin l (List.mem_cons_of_mem _ hl)) hd₁ hrest
    exact ⟨d', hd', hone.trans hrest⟩

namespace Hosts

theorem accept?_alone (h : c.Hosts a a₀ d) {lines : List String}
    (hin : ∀ line ∈ lines, Directive.isInner line = true)
    (howned : ∀ name i, c.owners.owner? name = some i → i < c.nextId)
    (hacc : a.accept? lines = some a') :
    ∃ a₀' d', a₀.accept? lines = some a₀' ∧ c.Hosts a' a₀' d' := by
  induction lines generalizing a a₀ d with
  | nil => exact ⟨a₀, d, rfl, Option.some.inj hacc ▸ h⟩
  | cons line lines ih =>
    obtain ⟨hone, hrest⟩ := accept?_cons_eq_some.mp hacc
    obtain ⟨hone₀, d₁, h₁⟩ := h.feed_alone (hin line List.mem_cons_self) howned hone
    obtain ⟨a₀', d', hrest₀, h'⟩ := ih h₁ (fun l hl => hin l (List.mem_cons_of_mem _ hl)) hrest
    exact ⟨a₀', d', accept?_cons_eq_some.mpr ⟨hone₀, hrest₀⟩, h'⟩

theorem accept?_among (h : c.Hosts a a₀ d) {lines : List String} {a₀' : Assembler}
    (hin : ∀ line ∈ lines, Directive.isInner line = true) (hacc : a₀.accept? lines = some a₀')
    (hfree : ∀ d', a₀'.draft = some d' → ∀ name ∈ d'.subroutines, c.owners.owner? name = none) :
    ∃ a' d', a.accept? lines = some a' ∧ c.Hosts a' a₀' d' := by
  induction lines generalizing a a₀ d with
  | nil => exact ⟨a, d, rfl, Option.some.inj hacc ▸ h⟩
  | cons line lines ih =>
    obtain ⟨hone₀, hrest₀⟩ := accept?_cons_eq_some.mp hacc
    have hin' : ∀ l ∈ lines, Directive.isInner l = true :=
      fun l hl => hin l (List.mem_cons_of_mem _ hl)
    -- the subroutines after this line are among those after the last one
    have hfree₁ : ∀ d₁, (a₀.feed line).2.draft = some d₁ →
        ∀ name ∈ d₁.subroutines, c.owners.owner? name = none := by
      intro d₁ hd₁ name hname
      obtain ⟨d', hd', hgrows⟩ := grows_accept? hin' hd₁ hrest₀
      exact hfree d' hd' name (hgrows.subroutines name hname)
    obtain ⟨hone, d₁, h₁⟩ := h.feed_among (hin line List.mem_cons_self) hone₀ hfree₁
    obtain ⟨a', d', hrest, h'⟩ := ih h₁ hin' hrest₀
    exact ⟨a', d', accept?_cons_eq_some.mpr ⟨hone, hrest⟩, h'⟩

end Hosts

end Assembler

end ChunkAsm
