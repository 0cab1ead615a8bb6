import ChunkAsm.Proofs.Closures

/-!
# The assembler in place

An assembler need not decide on a whole line before it changes anything. It can change its state as
it goes, and stop in the middle of a line when something fails; the state is then left as it is at
that moment. This file describes such an assembler, and shows that in every run it does the same as
the one that collects edits first (`InPlace.feed_eq`).

The point is the **second pass** over a line. A label is checked against all jumps that wait for it
before the first distance is stored, an instruction is assembled before its constants, labels and
subroutines are noted. The second pass repeats steps that may fail: storing a distance, looking up
an instruction by its index, claiming a subroutine. After the first pass none of them does.

Declarations of functions are different. The function before is taken out of the state before it is
known whether it can be finished, and nothing puts it back.
-/

namespace ChunkAsm

/-- Why an assembler that works in place stops in the middle of a line. -/
inductive Stop where
  /-- the line is rejected -/
  | refused (e : LineError)
  /-- an instruction is to be changed that is not there -/
  | noWord (site : Nat)
  deriving DecidableEq, Repr

/-- A program that changes a state as it goes. If it stops, the state stays as it is then. -/
abbrev InPlace (σ : Type) := EStateM Stop σ

namespace InPlace

/-! ## Programs -/

/-- Go on with a result, or reject the line. -/
def require {σ α : Type} : Except LineError α → InPlace σ α
  | .ok x => pure x
  | .error e => throw (.refused e)

/-- Change the function that is being assembled. -/
def modifyDraft (f : Draft → Draft) : InPlace (Owners × Draft) Unit :=
  modify fun s => (s.1, f s.2)

/-- The instruction at a place with a distance stored in it. -/
def jumpWord (d : Draft) (site : Nat) (delta : Int) : InPlace (Owners × Draft) Word :=
  match d.words[site]? with
  | none => throw (.noWord site)
  | some w => require ((w.set .sbx delta).mapError .field)

/-- Store the distance of a jump. -/
def storeJump (site : Nat) (delta : Int) : InPlace (Owners × Draft) Unit := do
  let s ← get
  let w ← jumpWord s.2 site delta
  modifyDraft fun d => { d with words := d.words.setIfInBounds site w }

/-- Declare a label: first see that all distances fit, then note the target and store them. -/
def declareLabel (label : String) : InPlace (Owners × Draft) Unit := do
  let s ← get
  let found := s.2.resolutions label
  forM found fun r => do
    let _ ← jumpWord s.2 r.1 r.2
  modifyDraft fun d => { d with labels := d.labels.declare label d.words.size }
  forM found fun r => storeJump r.1 r.2

/-- Note that the instruction at `site` refers to a function. The first use makes the function its
owner. -/
def useSubroutine (site : Nat) (name : String) : InPlace (Owners × Draft) Unit := do
  let s ← get
  let first ← require ((s.1.isFirstUse name s.2.id).mapError .owner)
  if first then
    set (s.1.claim name s.2.id, { s.2 with subroutines := s.2.subroutines.push name })
  modifyDraft fun d => { d with protoSites := d.protoSites.defer name site }

/-- Assemble an instruction line, then note what it brings and append its words. -/
def instruction (mnemonic : String) (cs : List Char) : InPlace (Owners × Draft) Unit := do
  let s ← get
  let m ← require (s.2.instruction s.1 mnemonic cs)
  let site := s.2.words.size
  forM m.constants fun c => modifyDraft fun d => { d with constants := d.constants.insert c }
  forM m.labels fun l => modifyDraft fun d => { d with labels := d.labels.defer l site }
  forM m.subroutines (useSubroutine site)
  modifyDraft fun d => { d with words := d.words.push m.word }
  forM m.line fun (n : Nat) => modifyDraft fun d => { d with lines := d.lines.push n }
  forM m.extra fun x => modifyDraft fun d => { d with words := d.words.push x }

/-- Work on the function that is being assembled, which there must be. What is done to it stays done
if the work stops. -/
def onDraft (work : InPlace (Owners × Draft) Unit) : InPlace Assembler Unit := do
  let a ← get
  match a.draft with
  | none => throw (.refused (.outsideSegment a.segment))
  | some d =>
    match work.run (a.owners, d) with
    | .ok _ s => set { a with owners := s.1, draft := some s.2 }
    | .error e s =>
      set { a with owners := s.1, draft := some s.2 }
      throw e

/-- Finish the function that is being assembled. It is taken out of the state first. -/
def finishFunction : InPlace Assembler Unit := do
  let a ← get
  match a.draft with
  | none => pure ()
  | some d =>
    set { a with draft := none }
    if d.words.isEmpty then pure ()
    else
      match d.labels.unresolved with
      | [] =>
        if a.isFinished d.name then throw (.refused (.duplicateFunction d.name))
        else modify fun a => { a with finished := (d.name, d.toFunction) :: a.finished }
      | names => throw (.refused (.undeclaredLocations names))

/-- Finish the function before and begin a new one. -/
def beginFunction (fname : String) (header : FunctionHeader) : InPlace Assembler Unit := do
  finishFunction
  let a ← get
  if a.isFinished fname then throw (.refused (.duplicateFunction fname))
  else
    set
      { a with
        segment := .function
        nextId := a.nextId + 1
        draft := some { id := a.nextId, name := fname, header } }

/-- A directive that does not begin a function. -/
def otherDirective (d : Directive) (cs : List Char) : InPlace Assembler Unit := do
  let a ← get
  if d = .upvalues then
    if a.upvalueCount.isSome then throw (.refused .upvaluesRedeclared)
    else
      let (n, rest) ← require (Assembler.byte .upvalueAmount cs)
      require (Assembler.nothingMore rest)
      set { a with upvalueCount := some n }
  else
    match d.next? a.segment with
    | none => throw (.refused (.misplacedDirective d a.segment))
    | some s =>
      require (Assembler.nothingMore cs)
      set { a with segment := s }

/-- A line that starts with a dot, after the dot. -/
def directiveLine (cs : List Char) : InPlace Assembler Unit := do
  let (word, rest) ← require ((Scan.name cs).mapError .lex)
  match Directive.lookup word with
  | none => throw (.refused (.unknownDirective word))
  | some d =>
    let a ← get
    if d = .func ∧ ¬ a.segment.isOpen then
      let (fname, header) ← require (Assembler.declaration rest)
      beginFunction fname header
    else otherDirective d rest

/-- A label or an instruction. -/
def codeLine (cs : List Char) : InPlace Assembler Unit := do
  let (word, rest) ← require ((Scan.name cs).mapError .lex)
  if rest.head? = some ':' then
    require (Assembler.nothingMore rest.tail)
    onDraft (declareLabel word)
  else onDraft (instruction word rest)

/-- A line in a list of constants. -/
def constLine (cs : List Char) : InPlace Assembler Unit := do
  let (c, rest) ← require ((Scan.literal cs).mapError .lex)
  require (Assembler.nothingMore rest)
  onDraft (modifyDraft (·.addConstant c))

/-- A line in a list of captured variables. -/
def upvalueLine (cs : List Char) : InPlace Assembler Unit := do
  let (inStack, rest) ← require (Assembler.byte .upvalueInStack cs)
  let (index, rest) ← require (Assembler.byte .upvalueIndex rest)
  require (Assembler.nothingMore rest)
  onDraft (modifyDraft (·.addUpvalue ⟨inStack, index⟩))

/-- Feed a line. -/
def feed (line : String) : InPlace Assembler Unit := do
  let a ← get
  let start := Scan.skipBlanks line.toList
  if start = [] ∨ start.head? = some ';' then pure ()
  else if start.head? = some '.' then directiveLine start.tail
  else
    match a.segment with
    | .code => codeLine start
    | .const => constLine start
    | .upvalue => upvalueLine start
    | .topLevel | .function => throw (.refused (.outsideSegment a.segment))

end InPlace

/-- What a reaction comes to: whether the line is accepted, and the state after its edits. -/
def Reaction.outcome (r : Reaction) (a : Assembler) : EStateM.Result Stop Assembler Unit :=
  match r.refusal with
  | none => .ok () (a.applyAll r.edits)
  | some e => .error (.refused e) (a.applyAll r.edits)

/-- A line of code that is no label. -/
theorem Assembler.codeLine_of_not_colon {a : Assembler} {cs rest : List Char} {word : String}
    (h : Scan.name cs = .ok (word, rest)) (hc : ∀ rest', rest ≠ ':' :: rest') :
    a.codeLine cs =
      match a.draft with
      | none => .refuse (.outsideSegment a.segment)
      | some d => .ofExcept ((d.instruction a.owners word rest).map fun m => [.emit m]) := by
  rw [codeLine, h]
  split
  · rename_i he
    cases he
  · rename_i he
    cases he
    exact absurd rfl (hc _)
  · rename_i he
    cases he
    rfl

namespace InPlace

/-! ## Going on and stopping -/

section

variable {σ α : Type}

@[simp] theorem run_require_ok (v : α) (s : σ) :
    (require (.ok v) : InPlace σ α).run s = .ok v s :=
  rfl

@[simp] theorem run_require_error (e : LineError) (s : σ) :
    (require (.error e) : InPlace σ α).run s = .error (.refused e) s :=
  rfl

theorem run_get_bind (f : σ → InPlace σ α) (s : σ) : (get >>= f).run s = (f s).run s := rfl

@[simp] theorem run_modifyDraft (f : Draft → Draft) (s : Owners × Draft) :
    (modifyDraft f).run s = .ok () (s.1, f s.2) :=
  rfl

/-- A loop of changes is a fold. -/
theorem run_forM_modifyDraft (f : α → Draft → Draft) (xs : List α) (o : Owners) (d : Draft) :
    (forM xs fun x => modifyDraft (f x)).run (o, d) =
      .ok () (o, xs.foldl (fun d x => f x d) d) := by
  induction xs generalizing d with
  | nil => rfl
  | cons x xs ih =>
    rw [List.forM_cons, EStateM.run_bind]
    exact ih (f x d)

end

/-- A check that is made before anything is changed has the same effect in both assemblers. -/
theorem run_require_bind {α : Type} {a : Assembler} {r : Except LineError α}
    {f : α → InPlace Assembler Unit} {g : α → Except LineError (List Edit)} {log : List Log.Event}
    (h : ∀ v, r = .ok v → (f v).run a = (Reaction.ofExcept (g v) log).outcome a) :
    (require r >>= f).run a = (Reaction.ofExcept (r >>= g) log).outcome a := by
  cases r with
  | error e => rfl
  | ok v => exact h v rfl

section

variable {a : Assembler} {work : InPlace (Owners × Draft) Unit}

theorem run_onDraft_of_none (h : a.draft = none) :
    (onDraft work).run a = .error (.refused (.outsideSegment a.segment)) a := by
  simp [onDraft, h]

theorem run_onDraft_of_ok {d : Draft} {s : Owners × Draft} (h : a.draft = some d)
    (hw : work.run (a.owners, d) = .ok () s) :
    (onDraft work).run a = .ok () { a with owners := s.1, draft := some s.2 } := by
  simp [onDraft, h, hw]

/-- Work that stops without having changed anything leaves the whole state alone. -/
theorem run_onDraft_of_error {d : Draft} {e : Stop} (h : a.draft = some d)
    (hw : work.run (a.owners, d) = .error e (a.owners, d)) : (onDraft work).run a = .error e a := by
  rw [onDraft, run_get_bind]
  simp only [h, hw, EStateM.run_bind, EStateM.run_set, EStateM.run_throw]
  rw [← h]

end

/-! ## Labels -/

/-- A jump that is there can be given a distance that fits. -/
theorem run_jumpWord_of_fits {d : Draft} {site : Nat} {delta : Int} {w : Word}
    (hw : d.words[site]? = some w) (hfit : Field.sbx.Fits delta) (s : Owners × Draft) :
    (jumpWord d site delta).run s = .ok (w.store .sbx (delta + Field.sbx.bias).toNat) s := by
  simp [jumpWord, hw, Word.set, hfit, Except.mapError]

theorem run_jumpWord_of_not_fits {d : Draft} {site : Nat} {delta : Int} {w : Word}
    (hw : d.words[site]? = some w) (hfit : ¬ Field.sbx.Fits delta) (s : Owners × Draft) :
    (jumpWord d site delta).run s = .error (.refused (.field ⟨.sbx, delta⟩)) s := by
  simp [jumpWord, hw, Word.set, hfit, Except.mapError]

/-- **First pass.** The check finds the first distance that does not fit, and changes nothing. -/
theorem run_forM_jumpWord {d : Draft} {found : List (Nat × Int)} (s : Owners × Draft)
    (hsites : ∀ r ∈ found, r.1 < d.words.size) :
    (forM found fun (r : Nat × Int) => do let _ ← jumpWord d r.1 r.2).run s =
      match found.findSome? fun r =>
        if Field.sbx.Fits r.2 then none else some (⟨.sbx, r.2⟩ : FieldOverflow) with
      | some e => .error (.refused (.field e)) s
      | none => .ok () s := by
  induction found with
  | nil => rfl
  | cons r found ih =>
    have hword := Array.getElem?_eq_getElem (hsites r List.mem_cons_self)
    rw [List.forM_cons, EStateM.run_bind, EStateM.run_bind, List.findSome?_cons]
    by_cases hfit : Field.sbx.Fits r.2
    · rw [if_pos hfit, run_jumpWord_of_fits hword hfit]
      exact ih fun r' hr => hsites r' (List.mem_cons_of_mem _ hr)
    · rw [if_neg hfit, run_jumpWord_of_not_fits hword hfit]

/-- **Second pass.** Distances that fit are stored in jumps that are there. -/
theorem run_forM_storeJump {found : List (Nat × Int)} (o : Owners) (d : Draft)
    (hsites : ∀ r ∈ found, r.1 < d.words.size) (hfits : ∀ r ∈ found, Field.sbx.Fits r.2) :
    (forM found fun r => storeJump r.1 r.2).run (o, d) =
      .ok () (o, { d with
        words := found.foldl (fun words r => Draft.setJump words r.1 r.2) d.words }) := by
  induction found generalizing d with
  | nil => rfl
  | cons r found ih =>
    have hword := Array.getElem?_eq_getElem (hsites r List.mem_cons_self)
    have hone : (storeJump r.1 r.2).run (o, d) =
        .ok () (o, { d with words := Draft.setJump d.words r.1 r.2 }) := by
      rw [storeJump, run_get_bind]
      simp only [EStateM.run_bind, run_jumpWord_of_fits hword (hfits r List.mem_cons_self),
        run_modifyDraft, Draft.setJump, hword]
    rw [List.forM_cons, EStateM.run_bind, hone]
    refine ih _ ?_ fun r' hr => hfits r' (List.mem_cons_of_mem _ hr)
    intro r' hr
    simpa [Draft.size_setJump] using hsites r' (List.mem_cons_of_mem _ hr)

/-- **Labels.** The second pass stores what the first has checked. -/
theorem run_declareLabel {d : Draft} {label : String} (o : Owners)
    (hsites : ∀ s ∈ d.labels.sites label, s < d.words.size) :
    (declareLabel label).run (o, d) =
      match d.labelOverflow? label with
      | some e => .error (.refused (.field e)) (o, d)
      | none => .ok () (o, d.declareLabel label) := by
  have hfound : ∀ r ∈ d.resolutions label, r.1 < d.words.size := by
    intro r hr
    obtain ⟨s, hs, rfl⟩ := List.mem_map.mp hr
    exact hsites s hs
  have hcheck := run_forM_jumpWord (d := d) (o, d) hfound
  rw [declareLabel, run_get_bind]
  simp only [EStateM.run_bind]
  cases hover : d.labelOverflow? label with
  | some e =>
    rw [Draft.labelOverflow?] at hover
    rw [hcheck, hover]
  | none =>
    have hfits : ∀ r ∈ d.resolutions label, Field.sbx.Fits r.2 := fun r hr =>
      Draft.fits_of_labelOverflow? hover hr
    rw [Draft.labelOverflow?] at hover
    rw [hcheck, hover]
    exact run_forM_storeJump o { d with labels := d.labels.declare label d.words.size } hfound hfits

/-! ## Instructions -/

/-- The functions that a line refers to are noted, if they belong to nobody else. There is at most
one of them. -/
theorem run_forM_useSubroutine {o : Owners} {d : Draft} {site : Nat} {names : List String}
    (hone : names.length ≤ 1)
    (howned : ∀ name ∈ names, o.owner? name = none ∨ o.owner? name = some d.id) :
    (forM names (useSubroutine site)).run (o, d) =
      .ok () (names.foldl (fun o name => o.claim name d.id) o,
        { d with
          subroutines :=
            (names.filter fun name => (o.owner? name).isNone).foldl Array.push d.subroutines
          protoSites := names.foldl (fun p name => p.defer name site) d.protoSites }) := by
  match names, hone with
  | [], _ => rfl
  | [name], _ =>
    rcases howned name (List.mem_singleton_self name) with h | h
    · simp [useSubroutine, Owners.isFirstUse, h, Except.mapError]
    · simp [useSubroutine, Owners.isFirstUse, h, Except.mapError, Owners.claim]

theorem foldl_insertConstant (cs : List Constant) (d : Draft) :
    cs.foldl (fun d c => { d with constants := d.constants.insert c }) d =
      { d with constants := cs.foldl Pool.insert d.constants } := by
  induction cs generalizing d with
  | nil => rfl
  | cons c cs ih => exact ih _

theorem foldl_deferLabel (names : List String) (site : Nat) (d : Draft) :
    names.foldl (fun d l => { d with labels := d.labels.defer l site }) d =
      { d with labels := names.foldl (fun l name => l.defer name site) d.labels } := by
  induction names generalizing d with
  | nil => rfl
  | cons name names ih => exact ih _

/-- **Instructions.** After the first pass nothing that a line brings is refused. -/
theorem run_instruction (o : Owners) (d : Draft) (mnemonic : String) (cs : List Char) :
    (instruction mnemonic cs).run (o, d) =
      match d.instruction o mnemonic cs with
      | .error e => .error (.refused e) (o, d)
      | .ok m => .ok ()
        (m.subroutines.foldl (fun o name => o.claim name d.id) o,
          d.emit m (m.subroutines.filter fun name => (o.owner? name).isNone)) := by
  rw [instruction, run_get_bind]
  simp only [EStateM.run_bind]
  cases hm : d.instruction o mnemonic cs with
  | error e => rfl
  | ok m =>
    obtain ⟨op, os, rest, comment, line, -, hread, -, -, hasm⟩ := Draft.instruction_eq_ok.mp hm
    have hs := Operand.readAll_suits hread
    have hone : m.subroutines.length ≤ 1 := by
      rw [(Draft.assemble_spec hasm hs).subroutines]
      rcases hs.filterMap_proto? with ⟨a, name, -, -, h⟩ | ⟨-, h⟩ <;> simp [h]
    simp only [run_require_ok, run_forM_modifyDraft, foldl_insertConstant, foldl_deferLabel]
    rw [run_forM_useSubroutine hone]
    · cases hl : m.line <;> cases hx : m.extra <;> simp [Draft.emit, hl, hx]
    · exact fun name hn => Draft.assemble_owned hasm hs hn

/-! ## Lines -/

/-- Finishing the function before: it is out of the state, whether it can be finished or not. -/
theorem run_finishFunction (a : Assembler) :
    finishFunction.run a =
      match a.closing.2 with
      | some e => .error (.refused e) { a with draft := none }
      | none => .ok () a.close := by
  rw [finishFunction, run_get_bind, Assembler.closing, Assembler.close]
  cases hd : a.draft with
  | none => rfl
  | some d =>
    simp only [EStateM.run_bind, EStateM.run_set]
    cases hw : d.words.isEmpty with
    | true => rfl
    | false =>
      simp only [Bool.false_eq_true, if_false]
      cases hu : d.labels.unresolved with
      | cons name names => rfl
      | nil =>
        cases hf : a.isFinished d.name with
        | true => rfl
        | false => rfl

/-- **Declarations.** What is done before a declaration is rejected stays done. -/
theorem run_beginFunction (a : Assembler) (fname : String) (header : FunctionHeader) :
    (beginFunction fname header).run a = (a.beginFunction fname header).outcome a := by
  rw [beginFunction, EStateM.run_bind, run_finishFunction, Assembler.beginFunction]
  obtain ⟨log, e⟩ := a.closing
  cases e with
  | some e => rfl
  | none =>
    simp only [run_get_bind]
    cases hf : a.close.isFinished fname with
    | true => rfl
    | false => rfl

theorem run_otherDirective (a : Assembler) (d : Directive) (cs : List Char)
    (log : List Log.Event) :
    (otherDirective d cs).run a = (Reaction.ofExcept (a.otherDirective d cs) log).outcome a := by
  rw [otherDirective, Assembler.otherDirective, run_get_bind]
  by_cases hd : d = .upvalues
  · simp only [if_pos hd]
    cases hc : a.upvalueCount with
    | some n => rfl
    | none =>
      apply run_require_bind
      rintro ⟨n, rest⟩ -
      apply run_require_bind
      rintro ⟨⟩ -
      rfl
  · simp only [if_neg hd]
    cases hs : d.next? a.segment with
    | none => rfl
    | some s =>
      apply run_require_bind
      rintro ⟨⟩ -
      rfl

theorem run_directiveLine (a : Assembler) (cs : List Char) :
    (directiveLine cs).run a = (a.directiveLine cs).outcome a := by
  rw [directiveLine, Assembler.directiveLine, EStateM.run_bind]
  cases hn : Scan.name cs with
  | error e => rfl
  | ok r =>
    obtain ⟨word, rest⟩ := r
    simp only [Except.mapError, run_require_ok]
    cases hl : Directive.lookup word with
    | none => rfl
    | some d =>
      simp only [run_get_bind]
      by_cases hf : d = .func ∧ ¬ a.segment.isOpen
      · simp only [if_pos hf, EStateM.run_bind]
        cases hdecl : Assembler.declaration rest with
        | error e => rfl
        | ok r => exact run_beginFunction a r.1 r.2
      · simp only [if_neg hf]
        exact run_otherDirective a d rest _

/-- A change of the function that is being assembled. -/
theorem run_onDraft_modifyDraft {a : Assembler} {edit : Edit} {f : Draft → Draft}
    (log : List Log.Event) (h : a.apply edit = a.modifyDraft f) :
    (onDraft (modifyDraft f)).run a = (Reaction.ofExcept (a.onDraft edit) log).outcome a := by
  rw [Assembler.onDraft]
  cases hd : a.draft with
  | none => exact run_onDraft_of_none hd
  | some d =>
    rw [run_onDraft_of_ok hd (run_modifyDraft f _)]
    have hafter : a.applyAll [edit] = { a with draft := some (f d) } :=
      h.trans (Assembler.modifyDraft_of_some hd f)
    simp only [Option.isSome_some, if_true, Reaction.ofExcept, Reaction.outcome, hafter]

theorem run_constLine (a : Assembler) (cs : List Char) :
    (constLine cs).run a = (Reaction.ofExcept (a.constLine cs)).outcome a := by
  apply run_require_bind
  rintro ⟨c, rest⟩ -
  apply run_require_bind
  rintro ⟨⟩ -
  exact run_onDraft_modifyDraft _ rfl

theorem run_upvalueLine (a : Assembler) (cs : List Char) :
    (upvalueLine cs).run a = (Reaction.ofExcept (a.upvalueLine cs)).outcome a := by
  apply run_require_bind
  rintro ⟨inStack, rest⟩ -
  apply run_require_bind
  rintro ⟨index, rest'⟩ -
  apply run_require_bind
  rintro ⟨⟩ -
  exact run_onDraft_modifyDraft _ rfl

theorem run_onDraft_declareLabel {a : Assembler} {d : Draft} {label : String}
    (hd : a.draft = some d) (hsites : ∀ s ∈ d.labels.sites label, s < d.words.size) :
    (onDraft (declareLabel label)).run a =
      match d.labelOverflow? label with
      | some e => .error (.refused (.field e)) a
      | none => .ok () (a.apply (.declareLabel label)) := by
  have hrun := run_declareLabel a.owners hsites
  cases hover : d.labelOverflow? label with
  | some e =>
    rw [hover] at hrun
    exact run_onDraft_of_error hd hrun
  | none =>
    rw [hover] at hrun
    rw [run_onDraft_of_ok hd hrun]
    exact congrArg _ (Assembler.modifyDraft_of_some hd (·.declareLabel label)).symm

theorem run_onDraft_instruction {a : Assembler} {d : Draft} (hd : a.draft = some d)
    (mnemonic : String) (cs : List Char) :
    (onDraft (instruction mnemonic cs)).run a =
      match d.instruction a.owners mnemonic cs with
      | .error e => .error (.refused e) a
      | .ok m => .ok () (a.apply (.emit m)) := by
  have hrun := run_instruction a.owners d mnemonic cs
  cases hm : d.instruction a.owners mnemonic cs with
  | error e =>
    rw [hm] at hrun
    exact run_onDraft_of_error hd hrun
  | ok m =>
    rw [hm] at hrun
    rw [run_onDraft_of_ok hd hrun]
    exact congrArg _ (Assembler.emit_of_some hd m).symm

/-- Labels and instructions, if every jump that waits is there. -/
theorem run_codeLine {a : Assembler} (cs : List Char)
    (hsites : ∀ d, a.draft = some d → ∀ label, ∀ s ∈ d.labels.sites label, s < d.words.size) :
    (codeLine cs).run a = (a.codeLine cs).outcome a := by
  rw [codeLine, EStateM.run_bind]
  cases hn : Scan.name cs with
  | error e =>
    rw [Assembler.codeLine, hn]
    rfl
  | ok r =>
    obtain ⟨word, rest⟩ := r
    simp only [Except.mapError, run_require_ok]
    by_cases hcolon : rest.head? = some ':'
    · obtain ⟨rest, rfl⟩ := List.head?_eq_some_iff.mp hcolon
      rw [Assembler.codeLine, hn]
      simp only [if_pos hcolon, List.tail_cons, EStateM.run_bind]
      cases hmore : Assembler.nothingMore rest with
      | error e => rfl
      | ok u =>
        cases hd : a.draft with
        | none => exact run_onDraft_of_none hd
        | some d =>
          simp only [run_require_ok, run_onDraft_declareLabel hd (hsites d hd word)]
          cases d.labelOverflow? word with
          | some e => rfl
          | none => rfl
    · have hne : ∀ rest', rest ≠ ':' :: rest' := by
        rintro rest' rfl
        exact hcolon rfl
      rw [if_neg hcolon, Assembler.codeLine_of_not_colon hn hne]
      cases hd : a.draft with
      | none => exact run_onDraft_of_none hd
      | some d =>
        simp only [run_onDraft_instruction hd]
        cases d.instruction a.owners word rest with
        | error e => rfl
        | ok m => rfl

end InPlace

/-- In a run every jump that waits is there. -/
theorem Assembles.lt_size_of_mem_sites {b : Block} {d : Draft} (h : Assembles b d) {label : String}
    {s : Nat} (hs : s ∈ d.labels.sites label) : s < d.words.size := by
  obtain ⟨before, op, os, line, after, hitems, -, rfl⟩ := h.exists_of_mem_sites hs
  exact h.offset_lt_size hitems

/-- **In place.** In every run the assembler that changes its state as it goes does the same as the
one that collects edits first: it accepts the same lines and has the same state after them. -/
theorem InPlace.feed_eq {a : Assembler} {blocks : List Block} (h : a.Tracks blocks)
    (line : String) :
    (InPlace.feed line).run a =
      match a.feed line with
      | (none, a') => .ok () a'
      | (some e, a') => .error (.refused e) a' := by
  have hreact : (InPlace.feed line).run a = (a.react line.toList).outcome a := by
    rw [Assembler.react]
    split
    · rename_i hstart
      simp only [InPlace.feed, run_get_bind, hstart]
      rfl
    · rename_i hstart
      simp only [InPlace.feed, run_get_bind, hstart]
      rfl
    · rename_i rest hstart
      simp only [InPlace.feed, run_get_bind, hstart]
      exact run_directiveLine a rest
    · rename_i hnil hcomment hdot
      have hhead : ∀ c, (∀ rest, Scan.skipBlanks line.toList ≠ c :: rest) →
          (Scan.skipBlanks line.toList).head? ≠ some c := by
        intro c hc hhead
        obtain ⟨rest, hrest⟩ := List.head?_eq_some_iff.mp hhead
        exact hc rest hrest
      rw [InPlace.feed, run_get_bind, if_neg (not_or.mpr ⟨hnil, hhead _ hcomment⟩),
        if_neg (hhead _ hdot)]
      cases hseg : a.segment with
      | code =>
        apply run_codeLine
        intro d hd label s hs
        obtain ⟨b, rest, -, hb⟩ := h.draft d hd
        exact hb.lt_size_of_mem_sites hs
      | const => exact run_constLine a _
      | upvalue => exact run_upvalueLine a _
      | topLevel => rfl
      | function => rfl
  rw [hreact, Reaction.outcome, Assembler.feed]
  cases (a.react line.toList).refusal with
  | none => rfl
  | some e => rfl

end ChunkAsm
