import ChunkAsm.Proofs.Derivation

/-!
# Sources without an assembler

A source that gives a program is read line by line, and every line is accepted. Such a source can be
divided into blocks without an assembler: the segment that a line stands in depends on the
directives before it and on nothing else (`Assembler.segment_feed`). `Block.ofLines` reads the blocks
of a source this way, and `Assembler.blocksFrom_eq` says that it finds those of the accepted lines.
-/

namespace ChunkAsm

/-! ## Directives and segments -/

/-- The directive that a line starts with, in any letter case. What follows its name is not looked
at. -/
def Directive.ofLine? (line : String) : Option Directive :=
  match Scan.skipBlanks line.toList with
  | '.' :: rest => do
    let (word, _) ← (Scan.name rest).toOption
    lookup word
  | _ => none

/-- The segment behind a line that stands in a segment. -/
def Segment.behind (s : Segment) (line : String) : Segment :=
  match Directive.ofLine? line with
  | some .func => .function
  | some d => (d.next? s).getD s
  | none => s

theorem Directive.ofLine?_of_dot {line : String} {rest rest' : List Char} {word : String}
    (hstart : Scan.skipBlanks line.toList = '.' :: rest)
    (hname : Scan.name rest = .ok (word, rest')) : ofLine? line = lookup word := by
  simp [ofLine?, hstart, toOption_eq_some.mpr hname]

theorem Directive.ofLine?_of_not_dot {line : String}
    (hdot : ∀ rest, Scan.skipBlanks line.toList ≠ '.' :: rest) : ofLine? line = none := by
  rw [ofLine?]
  split
  · exact absurd ‹_› (hdot _)
  · rfl

/-- Whether an edit changes the open function and nothing else but the owners. -/
def Edit.isLocal : Edit → Bool
  | .declareLabel _ | .addConstant _ | .addUpvalue _ | .emit _ => true
  | _ => false

namespace Assembler

variable {a a' : Assembler} {line : String}

section

variable {P : Edit → Prop} {cs : List Char}

/-- What holds of the edits that are decided on holds of those that are made. -/
theorem forall_ofExcept {r : Except LineError (List Edit)} {log : List Log.Event}
    (h : ∀ edits, r = .ok edits → ∀ e ∈ edits, P e) :
    ∀ e ∈ (Reaction.ofExcept r log).edits, P e := by
  cases r with
  | error e => exact fun _ he => absurd he List.not_mem_nil
  | ok edits => exact h edits rfl

theorem forall_constLine (h : ∀ c, P (.addConstant c)) :
    ∀ e ∈ (Reaction.ofExcept (a.constLine cs)).edits, P e := by
  apply forall_ofExcept
  intro edits hedits
  obtain ⟨⟨c, rest⟩, -, hedits⟩ := bind_eq_ok.mp hedits
  obtain ⟨u, -, hedits⟩ := bind_eq_ok.mp hedits
  obtain ⟨rfl, -⟩ := onDraft_eq_ok hedits
  simpa using h c

theorem forall_upvalueLine (h : ∀ u, P (.addUpvalue u)) :
    ∀ e ∈ (Reaction.ofExcept (a.upvalueLine cs)).edits, P e := by
  apply forall_ofExcept
  intro edits hedits
  obtain ⟨⟨inStack, rest⟩, -, hedits⟩ := bind_eq_ok.mp hedits
  obtain ⟨⟨index, rest⟩, -, hedits⟩ := bind_eq_ok.mp hedits
  obtain ⟨u, -, hedits⟩ := bind_eq_ok.mp hedits
  obtain ⟨rfl, -⟩ := onDraft_eq_ok hedits
  simpa using h ⟨inStack, index⟩

end

theorem isLocal_codeLine (cs : List Char) :
    ∀ e ∈ (a.codeLine cs).edits, e.isLocal = true := by
  rw [codeLine]
  split
  · exact fun _ he => absurd he List.not_mem_nil
  · split
    · exact fun _ he => absurd he List.not_mem_nil
    · exact fun _ he => absurd he List.not_mem_nil
    · split
      · exact fun _ he => absurd he List.not_mem_nil
      · simp [Edit.isLocal]
  · split
    · exact fun _ he => absurd he List.not_mem_nil
    · rename_i word rest _ _ _ d _
      apply forall_ofExcept
      intro edits h
      cases hm : d.instruction a.owners word rest with
      | error e =>
        rw [hm] at h
        cases h
      | ok m =>
        rw [hm] at h
        obtain rfl := Except.ok.inj h
        simp [Edit.isLocal]

/-- A line without a directive makes local edits only. -/
theorem isLocal_react (hdot : ∀ rest, Scan.skipBlanks line.toList ≠ '.' :: rest) :
    ∀ e ∈ (a.react line.toList).edits, e.isLocal = true := by
  rw [react]
  split
  · exact fun _ he => absurd he List.not_mem_nil
  · exact fun _ he => absurd he List.not_mem_nil
  · exact absurd ‹_› (hdot _)
  · split
    · exact isLocal_codeLine _
    · exact forall_constLine fun _ => rfl
    · exact forall_upvalueLine fun _ => rfl
    · exact fun _ he => absurd he List.not_mem_nil
    · exact fun _ he => absurd he List.not_mem_nil

theorem segment_modifyDraft (a : Assembler) (f : Draft → Draft) :
    (a.modifyDraft f).segment = a.segment := by
  obtain ⟨segment, upvalueCount, finished, owners, nextId, draft⟩ := a
  cases draft <;> rfl

theorem segment_emit (a : Assembler) (m : Emission) : (a.emit m).segment = a.segment := by
  obtain ⟨segment, upvalueCount, finished, owners, nextId, draft⟩ := a
  cases draft <;> rfl

/-- Local edits do not lead to another segment. -/
theorem segment_applyAll {edits : List Edit} (h : ∀ e ∈ edits, e.isLocal = true) :
    (a.applyAll edits).segment = a.segment := by
  induction edits generalizing a with
  | nil => rfl
  | cons e edits ih =>
    refine (ih (a := a.apply e) fun e' he' => h e' (List.mem_cons_of_mem _ he')).trans ?_
    have he := h e List.mem_cons_self
    cases e with
    | declareLabel | addConstant | addUpvalue => exact segment_modifyDraft a _
    | emit m => exact segment_emit a m
    | _ => cases he

/-- A declaration that is accepted leads into its function. -/
theorem segment_beginFunction {name : String} {header : FunctionHeader}
    (h : (a.beginFunction name header).refusal = none) :
    (a.applyAll (a.beginFunction name header).edits).segment = .function := by
  rw [beginFunction] at h ⊢
  split at h
  · cases h
  · rename_i log hclose
    split at h
    · cases h
    · rename_i hfree
      rw [if_neg hfree]
      rfl

/-- Any other directive leads where it says. -/
theorem segment_otherDirective {d : Directive} {cs : List Char} {edits : List Edit}
    (h : a.otherDirective d cs = .ok edits) :
    (a.applyAll edits).segment = (d.next? a.segment).getD a.segment := by
  rw [otherDirective] at h
  split at h
  · rename_i hd
    subst hd
    split at h
    · cases h
    · obtain ⟨⟨n, rest⟩, -, h⟩ := bind_eq_ok.mp h
      obtain ⟨u, -, h⟩ := bind_eq_ok.mp h
      obtain rfl := Except.ok.inj h
      rfl
  · split at h
    · cases h
    · rename_i s hs
      obtain ⟨u, -, h⟩ := bind_eq_ok.mp h
      obtain rfl := Except.ok.inj h
      rw [hs]
      rfl

/-- The segment behind a directive. -/
theorem segment_directiveLine {rest : List Char}
    (hstart : Scan.skipBlanks line.toList = '.' :: rest)
    (h : (a.directiveLine rest).refusal = none) :
    (a.applyAll (a.directiveLine rest).edits).segment = a.segment.behind line := by
  rw [directiveLine] at h ⊢
  split at h
  · cases h
  · rename_i word rest' hname
    rw [Segment.behind, Directive.ofLine?_of_dot hstart hname]
    split at h
    · cases h
    · rename_i d hd
      rw [hd]
      split at h
      · rename_i hfunc
        obtain ⟨rfl, hopen⟩ := hfunc
        rw [if_pos ⟨rfl, hopen⟩]
        split at h
        · cases h
        · exact segment_beginFunction h
      · rename_i hother
        rw [if_neg hother]
        cases hedits : a.otherDirective d rest' with
        | error e =>
          rw [hedits] at h
          cases h
        | ok edits =>
          have hsegment := segment_otherDirective hedits
          refine hsegment.trans ?_
          have hfunc : d ≠ .func := by
            rintro rfl
            exact (otherDirective_step hedits).1 rfl
          cases d with
          | func => exact absurd rfl hfunc
          | _ => rfl

/-- **The segment behind an accepted line** depends on the directive in it only. -/
theorem segment_feed (h : (a.feed line).1 = none) :
    (a.feed line).2.segment = a.segment.behind line := by
  change (a.react line.toList).refusal = none at h
  change (a.applyAll (a.react line.toList).edits).segment = _
  by_cases hdot : ∃ rest, Scan.skipBlanks line.toList = '.' :: rest
  · obtain ⟨rest, hstart⟩ := hdot
    have hreact : a.react line.toList = a.directiveLine rest := by simp only [react, hstart]
    rw [hreact] at h ⊢
    exact segment_directiveLine hstart h
  · have hno : ∀ rest, Scan.skipBlanks line.toList ≠ '.' :: rest := fun rest h => hdot ⟨rest, h⟩
    rw [segment_applyAll (isLocal_react hno), Segment.behind, Directive.ofLine?_of_not_dot hno]

/-! ## Runs without rejected lines -/

/-- Feed lines, all of which must be accepted. -/
def accept? (a : Assembler) : List String → Option Assembler
  | [] => some a
  | line :: rest => if (a.feed line).1.isNone then (a.feed line).2.accept? rest else none

theorem accept?_cons_eq_some {line : String} {lines : List String} :
    a.accept? (line :: lines) = some a' ↔
      (a.feed line).1 = none ∧ (a.feed line).2.accept? lines = some a' := by
  rw [accept?]
  split
  · rename_i h
    simp [Option.isNone_iff_eq_none.mp h]
  · rename_i h
    simp [mt Option.isNone_iff_eq_none.mpr h]

theorem accept?_append (a : Assembler) (xs ys : List String) :
    a.accept? (xs ++ ys) = (a.accept? xs).bind fun a => a.accept? ys := by
  induction xs generalizing a with
  | nil => rfl
  | cons line xs ih =>
    rw [List.cons_append, accept?, accept?]
    split
    · exact ih _
    · rfl

/-- A run without rejected lines is a run. -/
theorem feedAll_of_accept? {lines : List String} (h : a.accept? lines = some a') :
    a.feedAll lines = a' := by
  induction lines generalizing a with
  | nil => exact Option.some.inj h
  | cons line lines ih => exact ih (accept?_cons_eq_some.mp h).2

/-- The segment behind accepted lines. -/
theorem segment_accept? {lines : List String} (h : a.accept? lines = some a') :
    a'.segment = lines.foldl Segment.behind a.segment := by
  induction lines generalizing a with
  | nil => exact congrArg segment (Option.some.inj h).symm
  | cons line lines ih =>
    obtain ⟨hone, hrest⟩ := accept?_cons_eq_some.mp h
    rw [ih hrest, segment_feed hone, List.foldl_cons]

end Assembler

/-- **A source gives a program** exactly if all its lines can be read, are accepted, and may end
where they do. -/
theorem Assembly.run_ok_iff {strict : Bool} {log : List Log.Event} {n : Nat} {a : Assembler}
    {ls : List (Except ReadError String)} {p : Program} :
    (Assembly.run strict log n a ls).result = .ok p ↔
      ∃ lines a', ls = lines.map .ok ∧ a.accept? lines = some a' ∧
        (a'.finish strict).2 = .ok p := by
  induction ls generalizing log n a with
  | nil =>
    refine mapError_eq_ok.trans ?_
    constructor
    · exact fun h => ⟨[], a, rfl, rfl, h⟩
    · rintro ⟨lines, a', hls, ha, h⟩
      obtain rfl := List.map_eq_nil_iff.mp hls.symm
      obtain rfl := Option.some.inj ha
      exact h
  | cons l ls ih =>
    cases l with
    | error e =>
      constructor
      · rintro ⟨⟩
      · rintro ⟨lines, a', hls, -⟩
        cases lines <;> cases hls
    | ok line =>
      have hrefusal : (a.react line.toList).refusal = (a.feed line).1 := rfl
      rw [Assembly.run]
      constructor
      · intro h
        split at h
        · cases h
        · rename_i hnone
          obtain ⟨lines, a', rfl, ha, hp⟩ := ih.mp h
          exact ⟨line :: lines, a', rfl, Assembler.accept?_cons_eq_some.mpr ⟨hnone, ha⟩, hp⟩
      · rintro ⟨lines, a', hls, ha, hp⟩
        obtain ⟨line', lines, rfl, hline, hrest⟩ := List.map_eq_cons_iff.mp hls.symm
        obtain rfl := Except.ok.inj hline
        obtain ⟨hnone, ha⟩ := Assembler.accept?_cons_eq_some.mp ha
        simp only [hrefusal, hnone]
        exact ih.mpr ⟨lines, a', hrest.symm, ha, hp⟩

/-! ## The blocks of a source -/

namespace Block

/-- Read the remaining lines, of which the first stands in the given segment, after the blocks that
there are already. The latest block is the first. -/
def readFrom (s : Segment) (blocks : List Block) : List String → List Block
  | [] => blocks
  | line :: rest => readFrom (s.behind line) (note blocks (Statement.read? s line.toList)) rest

/-- The blocks of lines, in order. -/
def ofLines (lines : List String) : List Block := (readFrom .topLevel [] lines).reverse

end Block

end ChunkAsm
