import ChunkAsm.Proofs.InPlace

/-!
# Rejected lines

A line that is rejected leaves no trace, whatever the lines before it were: this is how a session
can go on after an error. The exception is a well-formed declaration of a function. It first closes
the function before it, and that cannot be taken back. If the function before is not complete it is
**lost**: the declaration is rejected because of it, but it is gone from the state, the segments of
a function can be opened although there is none, and the input can end as if it had never been
there.
-/

namespace ChunkAsm

namespace Assembler

/-- The states that occur in runs. -/
def Reachable (a : Assembler) : Prop := ∃ lines, ({} : Assembler).feedAll lines = a

/-- The function that a line declares: the line begins with `.func`, does not stand in an open
segment, and is well formed to its end. -/
def declaration? (a : Assembler) (line : String) : Option (String × FunctionHeader) :=
  match Statement.read? a.segment line.toList with
  | some (.function name header) => if a.segment.isOpen then none else some (name, header)
  | _ => none

variable {a : Assembler} {line name : String} {header : FunctionHeader} {e : LineError}

theorem Reachable.tracks (h : a.Reachable) : ∃ blocks, a.Tracks blocks := by
  obtain ⟨lines, rfl⟩ := h
  exact ⟨_, tracks_empty.feedAll lines⟩

/-- A rejected line changes nothing, unless it declares a function. -/
theorem feed_eq_of_rejected (he : (a.feed line).1 = some e) (hd : a.declaration? line = none) :
    a.feed line = (some e, a) := by
  refine Prod.ext he ?_
  have hstep := feed_step a line
  rw [declaration?] at hd
  rw [he] at hstep
  generalize Statement.read? a.segment line.toList = said at hd hstep
  generalize (a.feed line).2 = a' at hstep
  cases hstep with
  | rejected => rfl
  | dropped name header e hseg =>
    simp only [hseg] at hd
    cases hd
  | taken name header hseg =>
    simp only [hseg] at hd
    cases hd

end Assembler

/-- **Rejected lines leave no trace.** In every run a line that is rejected, and does not declare a
function, leaves the whole state as it was. This holds for the assembler in place as well: whatever
it has done when it stops, it has changed nothing. -/
theorem rejected_lines_leave_no_trace {a : Assembler} {line : String} {e : LineError}
    (ha : a.Reachable) (he : (a.feed line).1 = some e) (hd : a.declaration? line = none) :
    (a.feed line).2 = a ∧ (InPlace.feed line).run a = .error (.refused e) a := by
  have hfeed := Assembler.feed_eq_of_rejected he hd
  obtain ⟨blocks, htracks⟩ := ha.tracks
  have hrun := InPlace.feed_eq htracks line
  rw [hfeed] at hrun ⊢
  exact ⟨rfl, hrun⟩

/-- Two functions; the first has claimed a subroutine. -/
def conflictLines : List String :=
  [".upvalues 0", ".func first 2 0 0", ".begin_code", "closure %0 shared", ".end_code",
    ".func second 2 0 0", ".begin_code", "jmp 0 $end"]

/-- The second function cannot use the subroutine, and stays as it was. -/
theorem rejected_lines_leave_no_trace_conflict :
    ∃ a : Assembler, a.Reachable ∧ a.draft.isSome ∧
      (a.feed "closure %1 shared").1 = some (.owner ⟨"shared", 0, 1⟩) ∧
      (a.feed "closure %1 shared").2 = a ∧
      (InPlace.feed "closure %1 shared").run a =
        .error (.refused (.owner ⟨"shared", 0, 1⟩)) a := by
  have hopen : (({} : Assembler).feedAll conflictLines).draft.isSome = true := by decide +kernel
  have he : ((({} : Assembler).feedAll conflictLines).feed "closure %1 shared").1 =
      some (.owner ⟨"shared", 0, 1⟩) := by
    decide +kernel
  have hd : (({} : Assembler).feedAll conflictLines).declaration? "closure %1 shared" = none := by
    decide +kernel
  obtain ⟨hsame, hplace⟩ := rejected_lines_leave_no_trace ⟨conflictLines, rfl⟩ he hd
  exact ⟨_, ⟨conflictLines, rfl⟩, hopen, he, hsame, hplace⟩

/-! ## Declarations -/

namespace Statement

/-- Only a directive declares a function. -/
theorem read?_eq_function {s : Segment} {line : List Char} {name : String} {header : FunctionHeader}
    (h : read? s line = some (.function name header)) :
    ∃ rest, Scan.skipBlanks line = '.' :: rest ∧
      directive? rest = some (.function name header) := by
  have hitem : ∀ i : Option Item, i.map Statement.item ≠ some (.function name header) := by
    rintro (_ | i) ⟨⟩
  rw [read?] at h
  split at h
  · cases h
  · cases h
  · rename_i rest hstart
    exact ⟨rest, hstart, h⟩
  · split at h
    · exact absurd h (hitem _)
    · exact absurd h (hitem _)
    · exact absurd h (hitem _)
    · cases h
    · cases h

theorem directive?_eq_function {cs : List Char} {name : String} {header : FunctionHeader}
    (h : directive? cs = some (.function name header)) :
    ∃ word rest, Scan.name cs = .ok (word, rest) ∧ Directive.lookup word = some .func ∧
      Assembler.declaration rest = .ok (name, header) := by
  obtain ⟨⟨word, rest⟩, hname, h⟩ := Option.bind_eq_some_iff.mp h
  obtain ⟨d, hd, h⟩ := Option.bind_eq_some_iff.mp h
  split at h
  · rename_i hfunc
    subst hfunc
    obtain ⟨⟨name', header'⟩, hdecl, h⟩ := Option.bind_eq_some_iff.mp h
    obtain ⟨rfl, rfl⟩ : name' = name ∧ header' = header := by simpa using h
    exact ⟨word, rest, toOption_eq_some.mp hname, hd, toOption_eq_some.mp hdecl⟩
  · cases h

end Statement

/-- No directive leads out of all functions. -/
theorem Directive.next?_ne_topLevel (d : Directive) (s : Segment) :
    d.next? s ≠ some .topLevel := by
  cases d <;> cases s <;> exact nofun

namespace Assembler

variable {a : Assembler} {line name : String} {header : FunctionHeader} {e : LineError}

theorem declaration?_eq_some (h : a.declaration? line = some (name, header)) :
    a.segment.isOpen = false ∧
      Statement.read? a.segment line.toList = some (.function name header) := by
  rw [declaration?] at h
  split at h
  · rename_i hread
    split at h
    · cases h
    · rename_i hopen
      obtain ⟨rfl, rfl⟩ := Prod.mk.inj (Option.some.inj h)
      exact ⟨Bool.eq_false_iff.mpr hopen, hread⟩
  · cases h

/-- What a declaration does. -/
theorem feed_declaration (h : a.declaration? line = some (name, header)) :
    a.feed line =
      ((a.beginFunction name header).refusal, a.applyAll (a.beginFunction name header).edits) := by
  obtain ⟨hopen, hread⟩ := declaration?_eq_some h
  obtain ⟨cs, hstart, hdirective⟩ := Statement.read?_eq_function hread
  obtain ⟨word, rest, hname, hlookup, hdecl⟩ := Statement.directive?_eq_function hdirective
  simp [feed, react, hstart, directiveLine, hname, hlookup, hopen, hdecl]

/-- `Yields a d name e a'`: the function `d` is open in the state `a` when the declaration of `name`
is rejected with the error `e`, and `a'` is the state after it. -/
inductive Yields (a : Assembler) (d : Draft) (name : String) : LineError → Assembler → Prop where
  /-- jumps of the function wait for labels: it is lost -/
  | lost : d.words.isEmpty = false → d.labels.unresolved ≠ [] →
    Yields a d name (.undeclaredLocations d.labels.unresolved) { a with draft := none }
  /-- the function has no instructions, and the new name is taken: it is dropped -/
  | dropped : d.words.isEmpty = true → a.isFinished name = true →
    Yields a d name (.duplicateFunction name) { a with draft := none }
  /-- the function is complete, and the new name is taken, maybe by this function: it is finished -/
  | finished : d.words.isEmpty = false → d.labels.unresolved = [] →
    (name = d.name ∨ a.isFinished name = true) →
    Yields a d name (.duplicateFunction name)
      { a with draft := none, finished := (d.name, d.toFunction) :: a.finished }

/-- Whatever a rejected declaration yields, no function is open after it. -/
theorem Yields.draft_eq_none {a' : Assembler} {d : Draft} (h : a.Yields d name e a') :
    a'.draft = none := by
  cases h <;> rfl

theorem Yields.segment_eq {a' : Assembler} {d : Draft} (h : a.Yields d name e a') :
    a'.segment = a.segment := by
  cases h <;> rfl

/-- Inversion for a rejected declaration: either the function before cannot be closed, or it is
closed and the name is taken. -/
theorem beginFunction_rejected (he : (a.beginFunction name header).refusal = some e) :
    (a.closing.2 = some e ∧
      a.applyAll (a.beginFunction name header).edits = { a with draft := none }) ∨
    (a.closing.2 = none ∧ a.close.isFinished name = true ∧ e = .duplicateFunction name ∧
      a.applyAll (a.beginFunction name header).edits = a.close) := by
  rw [beginFunction] at he ⊢
  split at he
  · rename_i log e' hc
    obtain rfl := Option.some.inj he
    exact .inl ⟨congrArg Prod.snd hc, rfl⟩
  · rename_i log hc
    split at he
    · rename_i htaken
      obtain rfl := Option.some.inj he
      refine .inr ⟨congrArg Prod.snd hc, htaken, rfl, ?_⟩
      rw [if_pos htaken]
      rfl
    · cases he

/-- Inversion for `closing`: in a run only jumps that wait can keep a function from being closed. -/
theorem Tracks.closing_eq_some {blocks : List Block} {d : Draft} (h : a.Tracks blocks)
    (hd : a.draft = some d) (he : a.closing.2 = some e) :
    d.words.isEmpty = false ∧ d.labels.unresolved ≠ [] ∧
      e = .undeclaredLocations d.labels.unresolved := by
  have hfree : a.isFinished d.name = false := by simp [isFinished, h.unfinished d hd]
  rw [closing, hd] at he
  simp only at he
  split at he
  · cases he
  · rename_i hw
    split at he
    · simp [hfree] at he
    · rename_i hu
      exact ⟨Bool.eq_false_iff.mpr hw, hu, (Option.some.inj he).symm⟩

/-- **A rejected declaration** loses, drops or finishes the function before it. -/
theorem beginFunction_yields {blocks : List Block} {d : Draft} (h : a.Tracks blocks)
    (hd : a.draft = some d) (he : (a.beginFunction name header).refusal = some e) :
    a.Yields d name e (a.applyAll (a.beginFunction name header).edits) := by
  obtain ⟨hc, hafter⟩ | ⟨hc, htaken, rfl, hafter⟩ := beginFunction_rejected he
  · rw [hafter]
    obtain ⟨hw, hu, rfl⟩ := h.closing_eq_some hd hc
    exact .lost hw hu
  · rw [hafter]
    cases hw : d.words.isEmpty with
    | true =>
      have hclose : a.close = { a with draft := none } := by simp [close, hd, hw]
      rw [hclose] at htaken ⊢
      exact .dropped hw htaken
    | false =>
      have hclose : a.close =
          { a with draft := none, finished := (d.name, d.toFunction) :: a.finished } := by
        simp [close, hd, hw]
      rw [hclose] at htaken ⊢
      refine .finished hw (closing_eq_none hc hd hw) ?_
      by_cases hname : name = d.name
      · exact .inl hname
      · right
        rwa [isFinished, List.lookup_cons, beq_eq_false_iff_ne.mpr hname] at htaken

/-! ## After a rejected declaration -/

theorem draft_close (a : Assembler) : a.close.draft = none := by
  rw [close]
  cases hd : a.draft with
  | none => exact hd
  | some d =>
    simp only
    split <;> rfl

/-- Before the first function none is open. -/
theorem Reachable.draft_eq_none (h : a.Reachable) (hs : a.segment = .topLevel) :
    a.draft = none := by
  obtain ⟨lines, rfl⟩ := h
  refine tracks_empty.feedAll_keeps (P := fun a => a.segment = .topLevel → a.draft = none) ?_
    (fun _ => rfl) lines hs
  intro a a' blocks said refusal _ hstep h hs
  cases hstep with
  | rejected => exact h hs
  | dropped => rfl
  | taken => exact draft_close a
  | blank => exact h hs
  | upvalues => exact h hs
  | segment d s hn =>
    obtain rfl : s = .topLevel := hs
    exact absurd hn (d.next?_ne_topLevel a.segment)
  | function => cases hs
  | label d name hseg => cases hseg.symm.trans hs
  | constant d c hseg => cases hseg.symm.trans hs
  | upvalue d u hseg => cases hseg.symm.trans hs
  | instruction d op os line m hseg hd =>
    rw [emit_of_some hd] at hs
    cases hseg.symm.trans hs

/-- Closing the open function keeps the finished ones: its name is free. -/
theorem Tracks.lookup_close {blocks : List Block} {key : String} {f : Function}
    (h : a.Tracks blocks)
    (hf : a.finished.lookup key = some f) : a.close.finished.lookup key = some f := by
  rw [Assembler.close]
  cases hd : a.draft with
  | none => exact hf
  | some d =>
    simp only
    split
    · exact hf
    · have hne : key ≠ d.name := by
        rintro rfl
        cases hf.symm.trans (h.unfinished d hd)
      rw [List.lookup_cons, beq_eq_false_iff_ne.mpr hne]
      exact hf

/-- **A finished function stays**, whatever lines follow. -/
theorem Tracks.lookup_feedAll {blocks : List Block} {key : String} {f : Function}
    (h : a.Tracks blocks) (hf : a.finished.lookup key = some f) (lines : List String) :
    (a.feedAll lines).finished.lookup key = some f := by
  refine h.feedAll_keeps (P := fun a => a.finished.lookup key = some f) ?_ hf lines
  intro a a' blocks said refusal h hstep hf
  cases hstep with
  | taken => exact h.lookup_close hf
  | function => exact h.lookup_close hf
  | instruction d op os line m hseg hd =>
    rw [emit_of_some hd]
    exact hf
  | _ => exact hf

/-- A function that is finished is in every program that a run ends with. -/
theorem Tracks.function?_finish {blocks : List Block} {key : String} {f : Function}
    {lines : List String} {strict : Bool} {p : Program} (h : a.Tracks blocks)
    (hf : a.finished.lookup key = some f) (hp : ((a.feedAll lines).finish strict).2 = .ok p) :
    p.function? key = some f := by
  rw [Program.function?, (finish_eq_ok hp).2]
  exact (h.feedAll lines).lookup_close (h.lookup_feedAll hf lines)

/-- A function that is lost is not missed when the input ends. -/
theorem Yields.finish_of_lost {a' : Assembler} {d : Draft} {n : UInt8} {strict : Bool}
    (h : a.Yields d name e a') (hw : d.words.isEmpty = false) (hu : d.labels.unresolved ≠ [])
    (hs : a.segment.isOpen = false) (hn : a.upvalueCount = some n) :
    (a'.finish strict).2 = .ok { upvalueCount := n, functions := a.finished } := by
  cases h with
  | lost => simp [finish, closing, close, hs, hn]
  | dropped hw' => cases hw.symm.trans hw'
  | finished _ hu' => exact absurd hu' hu

/-- A complete function is finished. -/
theorem Yields.lookup_of_complete {a' : Assembler} {d : Draft} (h : a.Yields d name e a')
    (hw : d.words.isEmpty = false) (hu : d.labels.unresolved = []) :
    a'.finished.lookup d.name = some d.toFunction := by
  cases h with
  | lost _ hu' => exact absurd hu hu'
  | dropped hw' => cases hw.symm.trans hw'
  | finished => exact List.lookup_cons_self

/-- A line with the name of a directive that leads to another segment. Nothing is asked about the
function that is open. -/
theorem feed_directive {d : Directive} {s : Segment} (hnext : d.next? a.segment = some s) :
    a.feed ("." ++ d.name) = (none, { a with segment := s }) := by
  have hstart : Scan.skipBlanks ("." ++ d.name).toList = '.' :: d.name.toList := by
    cases d <;> decide +kernel
  have hname : Scan.name d.name.toList = .ok (d.name, []) := by cases d <;> decide +kernel
  have hlookup : Directive.lookup d.name = some d := by cases d <;> decide +kernel
  have hmore : nothingMore [] = .ok () := by decide
  have hfunc : d ≠ .func := by
    rintro rfl
    cases hnext
  have hupvalues : d ≠ .upvalues := by
    rintro rfl
    cases hnext
  simp only [feed, react, hstart, directiveLine, hname, hlookup, hfunc, false_and, if_false,
    otherDirective, hupvalues, hnext, hmore]
  rfl

end Assembler

/-- **A rejected declaration loses what is open.** In every run a declaration that is rejected
leaves the state as it was exactly if no function is open. Otherwise no function is open after it,
and yet the segments of a function can be opened. A function with waiting jumps is lost: the input
may end at once, with a program that does not have it. A complete function is kept, in every later
program. -/
theorem rejected_declaration_unchanged_iff {a : Assembler} {line name : String}
    {header : FunctionHeader} {e : LineError} (ha : a.Reachable)
    (hdecl : a.declaration? line = some (name, header))
    (he : (a.feed line).1 = some e) :
    ((a.feed line).2 = a ↔ a.draft = none) ∧
    ∀ d, a.draft = some d →
      a.Yields d name e (a.feed line).2 ∧
      (∀ (dir : Directive) s, dir.next? .function = some s →
        (a.feed line).2.feed ("." ++ dir.name) = (none, { (a.feed line).2 with segment := s })) ∧
      (d.words.isEmpty = false → d.labels.unresolved ≠ [] → ∀ n strict, a.upvalueCount = some n →
        ((a.feed line).2.finish strict).2 = .ok { upvalueCount := n, functions := a.finished } ∧
          a.finished.lookup d.name = none) ∧
      (d.words.isEmpty = false → d.labels.unresolved = [] → ∀ later strict p,
        (((a.feed line).2.feedAll later).finish strict).2 = .ok p →
          p.function? d.name = some d.toFunction) := by
  obtain ⟨blocks, htracks⟩ := ha.tracks
  obtain ⟨hopen, -⟩ := Assembler.declaration?_eq_some hdecl
  have hfeed := Assembler.feed_declaration hdecl
  have hyields : ∀ d, a.draft = some d → a.Yields d name e (a.feed line).2 := by
    intro d hd
    rw [hfeed] at he ⊢
    exact Assembler.beginFunction_yields htracks hd he
  refine ⟨⟨?_, ?_⟩, ?_⟩
  · intro hsame
    cases hd : a.draft with
    | none => rfl
    | some d =>
      have hnone := (hyields d hd).draft_eq_none
      rw [hsame, hd] at hnone
      cases hnone
  · intro hd
    rw [hfeed] at he ⊢
    obtain ⟨hc, -⟩ | ⟨-, -, -, hafter⟩ := Assembler.beginFunction_rejected he
    · rw [Assembler.closing, hd] at hc
      cases hc
    · rw [hafter, Assembler.close, hd]
  · intro d hd
    have hy := hyields d hd
    have hseg : (a.feed line).2.segment = .function := by
      rw [hy.segment_eq]
      cases hs : a.segment with
      | function => rfl
      | topLevel =>
        rw [ha.draft_eq_none hs] at hd
        cases hd
      | _ =>
        rw [hs] at hopen
        cases hopen
    refine ⟨hy, fun dir s hs => Assembler.feed_directive (by rw [hseg]; exact hs), ?_, ?_⟩
    · exact fun hw hu n strict hn => ⟨hy.finish_of_lost hw hu hopen hn, htracks.unfinished d hd⟩
    · exact fun hw hu later strict p hp =>
        (htracks.step (Assembler.feed_step a line)).function?_finish
          (hy.lookup_of_complete hw hu) hp

/-- A complete main function, and a second one. -/
def mainTwiceLines : List String :=
  [".upvalues 0", ".func main 2 0 0", ".begin_code", "return %0 1", ".end_code"]

/-- The second declaration of the main function is rejected. The first main function is then not
open any more, but in every later program. -/
theorem rejected_declaration_twice :
    ∃ (a : Assembler) (d : Draft), a.Reachable ∧ a.draft = some d ∧ d.words.size = 1 ∧
      (a.feed ".func main 2 0 0").1 = some (.duplicateFunction "main") ∧
      (a.feed ".func main 2 0 0").2 ≠ a ∧
      ∀ later strict p, (((a.feed ".func main 2 0 0").2.feedAll later).finish strict).2 = .ok p →
        p.function? "main" = some d.toFunction := by
  have hdecl : (({} : Assembler).feedAll mainTwiceLines).declaration? ".func main 2 0 0" =
      some ("main", ⟨2, 0, .fixed⟩) := by
    decide +kernel
  have he : ((({} : Assembler).feedAll mainTwiceLines).feed ".func main 2 0 0").1 =
      some (.duplicateFunction "main") := by
    decide +kernel
  have hopen : (({} : Assembler).feedAll mainTwiceLines).draft.map (fun d =>
      (d.name, d.words.size, d.words.isEmpty, d.labels.unresolved)) =
      some ("main", 1, false, []) := by
    decide +kernel
  obtain ⟨d, hd, hprops⟩ := Option.map_eq_some_iff.mp hopen
  simp only [Prod.mk.injEq] at hprops
  obtain ⟨hname, hsize, hw, hu⟩ := hprops
  obtain ⟨hsame, hlost⟩ := rejected_declaration_unchanged_iff ⟨mainTwiceLines, rfl⟩ hdecl he
  obtain ⟨-, -, -, hkept⟩ := hlost d hd
  refine ⟨_, d, ⟨mainTwiceLines, rfl⟩, hd, hsize, he, ?_, ?_⟩
  · rw [Ne, hsame, hd]
    exact nofun
  · rw [← hname]
    exact hkept hw hu

/-- A main function with a jump to a label that is still to come. -/
def waitingLines : List String :=
  [".upvalues 0", ".func main 2 0 0", ".begin_code", "jmp 0 $end", ".end_code"]

/-- A declaration is rejected because a jump of the main function waits. After that the main
function cannot be completed, since it is not open; but an empty program can be made. -/
theorem rejected_declaration_loses_main :
    ∃ a : Assembler, a.Reachable ∧ a.draft.isSome ∧
      (a.feed ".func other 2 0 0").1 = some (.undeclaredLocations ["end"]) ∧
      (a.feed ".func other 2 0 0").2 ≠ a ∧
      ((a.feed ".func other 2 0 0").2.feed ".begin_code").1 = none ∧
      ((((a.feed ".func other 2 0 0").2.feed ".begin_code").2.feed "end:").1 =
        some (.outsideSegment .code)) ∧
      ((a.feed ".func other 2 0 0").2.finish true).2 = .ok { upvalueCount := 0, functions := [] } :=
  ⟨({} : Assembler).feedAll waitingLines, ⟨waitingLines, rfl⟩, by decide +kernel⟩

end ChunkAsm
