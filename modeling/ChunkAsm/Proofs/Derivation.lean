import ChunkAsm.Proofs.Transcript

/-!
# Every function is assembled from its block

The draft of a function depends on the accepted lines of the function and on nothing else:
`Assembles b d` derives the draft `d` from the items of the block `b`, one rule per kind of line.
The invariant `Assembler.Tracks` says that in every run the open draft and every finished function
have such derivations (`Produces.completes`).

The rules do not mention the table of owners. An accepted line may find a subroutine that belongs to
this function or to none, and the first is the case exactly if the function has referred to it
before. What is true of drafts is therefore proved by induction over `Assembles`, without a look at
other functions.
-/

namespace ChunkAsm

/-! ## Derivations -/

/-- `Assembles b d`: the items of the block `b` make the draft `d`. -/
inductive Assembles : Block → Draft → Prop where
  /-- a function begins empty -/
  | begin (id : Nat) (name : String) (header : FunctionHeader) :
    Assembles { name, header } { id, name, header }
  /-- a label, all of whose jumps are short enough -/
  | label {b : Block} {d : Draft} (name : String) :
    Assembles b d → d.labelOverflow? name = none →
    Assembles (b.add (.label name)) (d.declareLabel name)
  /-- a constant -/
  | constant {b : Block} {d : Draft} (c : Constant) :
    Assembles b d → c.same c = true → Assembles (b.add (.constant c)) (d.addConstant c)
  /-- a captured variable -/
  | upvalue {b : Block} {d : Draft} (u : Upvalue) :
    Assembles b d → Assembles (b.add (.upvalue u)) (d.addUpvalue u)
  /-- an instruction; the functions that it is the first to refer to become subroutines -/
  | instruction {b : Block} {d : Draft} (owners : Owners) (op : Opcode) (os : List Operand)
    (line : Option Nat) (m : Emission) :
    Assembles b d → Operand.SuitAll op.slots os → d.assemble owners op os line = .ok m →
    Assembles (b.add (.instruction op os line))
      (d.emit m (m.subroutines.filter fun name => name ∉ d.subroutines))

/-- A draft has the name of its block. -/
theorem Assembles.name_eq {b : Block} {d : Draft} (h : Assembles b d) : d.name = b.name := by
  induction h with
  | begin => rfl
  | label _ _ _ ih => exact ih
  | constant _ _ _ ih => exact ih
  | upvalue _ _ ih => exact ih
  | instruction _ _ _ _ _ _ _ _ ih => exact ih

/-- `Completes b f`: the items of the block `b` make the function `f`, and leave no jump waiting. -/
def Completes (b : Block) (f : Function) : Prop :=
  ∃ d, Assembles b d ∧ d.labels.unresolved = [] ∧ d.toFunction = f

/-! ## Owners -/

namespace Owners

theorem owner?_claim (o : Owners) (name : String) (user : Nat) (n : String) :
    (o.claim name user).owner? n = (o.owner? n).or (if n = name then some user else none) := by
  rw [claim]
  cases ho : o.owner? name with
  | some i =>
    by_cases hn : n = name
    · subst hn
      simp [ho]
    · simp [hn]
  | none =>
    by_cases hn : n = name
    · subst hn
      rw [ho]
      simp [owner?]
    · simp [owner?, List.lookup_cons, beq_eq_false_iff_ne.mpr hn, hn]

/-- The owners after a function has claimed some names: who had an owner keeps it. -/
theorem owner?_claimAll (o : Owners) (names : List String) (user : Nat) (n : String) :
    (names.foldl (fun o name => o.claim name user) o).owner? n =
      (o.owner? n).or (if n ∈ names then some user else none) := by
  induction names generalizing o with
  | nil => simp
  | cons name names ih =>
    rw [List.foldl_cons, ih, owner?_claim]
    cases o.owner? n with
    | some i => rfl
    | none =>
      by_cases hn : n = name
      · simp [hn]
      · simp [hn]

end Owners

/-! ## The invariant of a run -/

namespace Assembler

/-- The state agrees with the blocks of the lines accepted so far, the latest of which is the
first. -/
structure Tracks (a : Assembler) (blocks : List Block) : Prop where
  /-- the open draft is assembled from the latest block -/
  draft : ∀ d, a.draft = some d → ∃ b rest, blocks = b :: rest ∧ Assembles b d
  /-- the open function is not one of the finished ones -/
  unfinished : ∀ d, a.draft = some d → a.finished.lookup d.name = none
  /-- a finished function is completed by the last block of its name -/
  finished : ∀ key f, a.finished.lookup key = some f →
    ∃ b, blocks.find? (·.name == key) = some b ∧ Completes b f
  /-- only functions that have been declared own something -/
  owned : ∀ name i, a.owners.owner? name = some i → i < a.nextId
  /-- the open function has been declared -/
  declared : ∀ d, a.draft = some d → d.id < a.nextId
  /-- the open function owns its subroutines and nothing else -/
  mine : ∀ d, a.draft = some d → ∀ name,
    a.owners.owner? name = some d.id ↔ name ∈ d.subroutines

variable {a : Assembler} {blocks : List Block}

theorem tracks_empty : Tracks {} [] where
  draft := nofun
  unfinished := nofun
  finished := nofun
  owned := nofun
  declared := nofun
  mine := nofun

/-- Without a draft nothing is said of one. -/
theorem Tracks.dropDraft (h : a.Tracks blocks) : Tracks { a with draft := none } blocks where
  draft := nofun
  unfinished := nofun
  finished := h.finished
  owned := h.owned
  declared := nofun
  mine := nofun

/-- Inversion for `closing`: a function that can be closed leaves no jump waiting. -/
theorem closing_eq_none {d : Draft} (h : a.closing.2 = none) (hd : a.draft = some d)
    (hw : d.words.isEmpty = false) : d.labels.unresolved = [] := by
  rw [closing, hd] at h
  simp only [hw, Bool.false_eq_true, if_false] at h
  split at h
  · assumption
  · cases h

/-- Closing adds at most the open function to the finished ones, and that leaves no jump waiting. -/
theorem finished_close (hc : a.closing.2 = none) :
    a.close.finished = a.finished ∨
      ∃ d, a.draft = some d ∧ d.words.isEmpty = false ∧ d.labels.unresolved = [] ∧
        a.close.finished = (d.name, d.toFunction) :: a.finished := by
  rw [Assembler.close]
  cases hd : a.draft with
  | none => exact .inl rfl
  | some d =>
    cases hw : d.words.isEmpty with
    | true => exact .inl (by simp [hw])
    | false => exact .inr ⟨d, rfl, hw, closing_eq_none hc hd hw, by simp [hw]⟩

/-- A line adds at most the open function to the finished ones, and that leaves no jump waiting. -/
theorem Step.finished {said : Option Statement} {refusal : Option LineError} {a' : Assembler}
    (hs : a.Step said refusal a') :
    a'.finished = a.finished ∨
      ∃ d, a.draft = some d ∧ d.words.isEmpty = false ∧ d.labels.unresolved = [] ∧
        a'.finished = (d.name, d.toFunction) :: a.finished := by
  cases hs with
  | rejected => exact .inl rfl
  | dropped => exact .inl rfl
  | taken name header hseg hc hf => exact finished_close hc
  | blank => exact .inl rfl
  | upvalues => exact .inl rfl
  | segment => exact .inl rfl
  | function name header hseg hc hf => exact finished_close hc
  | label => exact .inl rfl
  | constant => exact .inl rfl
  | upvalue => exact .inl rfl
  | instruction d op os line m hseg hd hsuit hm =>
    rw [emit_of_some hd]
    exact .inl rfl

/-- Closing the open function keeps the invariant: its block is the last one of its name. -/
theorem Tracks.close (h : a.Tracks blocks) (hc : a.closing.2 = none) : a.close.Tracks blocks := by
  rw [Assembler.close]
  cases hd : a.draft with
  | none => exact h
  | some d =>
    simp only
    cases hw : d.words.isEmpty with
    | true => exact h.dropDraft
    | false =>
      have hopen := closing_eq_none hc hd hw
      obtain ⟨b, rest, rfl, hb⟩ := h.draft d hd
      exact {
        draft := nofun
        unfinished := nofun
        finished := by
          intro key f hf
          simp only [Bool.false_eq_true, if_false, List.lookup_cons] at hf
          by_cases hk : key = d.name
          · subst hk
            simp only [beq_self_eq_true, Option.some.injEq] at hf
            refine ⟨b, ?_, d, hb, hopen, hf⟩
            simp [hb.name_eq]
          · rw [beq_eq_false_iff_ne.mpr hk] at hf
            exact h.finished key f hf
        owned := h.owned
        declared := nofun
        mine := nofun }

/-- A declaration keeps the invariant, if there is no draft and the name is free. -/
theorem Tracks.begin (h : a.Tracks blocks) (name : String) (header : FunctionHeader)
    (hfree : a.isFinished name = false) :
    Tracks
      { a with
        segment := .function
        nextId := a.nextId + 1
        draft := some { id := a.nextId, name, header } }
      (Block.note blocks (some (.function name header))) := by
  have hnone : a.finished.lookup name = none := by simpa [isFinished] using hfree
  exact {
    draft := by
      rintro d ⟨⟩
      exact ⟨_, _, rfl, .begin _ _ _⟩
    unfinished := by
      rintro d ⟨⟩
      exact hnone
    finished := by
      intro key f hf
      obtain ⟨b, hb, hc⟩ := h.finished key f hf
      have hk : name ≠ key := by
        rintro rfl
        rw [hnone] at hf
        cases hf
      refine ⟨b, ?_, hc⟩
      rw [Block.note, List.find?_cons_of_neg (by simpa using hk)]
      exact hb
    owned := fun n i hi => Nat.lt_succ_of_lt (h.owned n i hi)
    declared := by
      rintro d ⟨⟩
      exact Nat.lt_succ_self _
    mine := by
      rintro d ⟨⟩ n
      constructor
      · intro hn
        exact absurd (h.owned n _ hn) (Nat.lt_irrefl _)
      · intro hn
        exact absurd hn (Array.not_mem_empty n) }

/-- An item keeps the invariant, if the new draft is assembled with it and owns its subroutines. -/
theorem Tracks.item {d d' : Draft} {i : Item} {o : Owners} (h : a.Tracks blocks)
    (hd : a.draft = some d) (hname : d'.name = d.name) (hid : d'.id = d.id)
    (hasm : ∀ b, Assembles b d → Assembles (b.add i) d')
    (howned : ∀ name i, o.owner? name = some i → i < a.nextId)
    (hmine : ∀ name, o.owner? name = some d.id ↔ name ∈ d'.subroutines) :
    Tracks { a with draft := some d', owners := o } (Block.note blocks (some (.item i))) := by
  obtain ⟨b, rest, rfl, hb⟩ := h.draft d hd
  exact {
    draft := by
      rintro _ ⟨⟩
      exact ⟨_, _, rfl, hasm b hb⟩
    unfinished := by
      rintro _ ⟨⟩
      rw [hname]
      exact h.unfinished d hd
    finished := by
      intro key f hf
      obtain ⟨b', hb', hc⟩ := h.finished key f hf
      -- the open block is not the last one of a finished name
      have hk : b.name ≠ key := by
        rintro rfl
        have hfree := h.unfinished d hd
        rw [hb.name_eq, show a.finished.lookup b.name = some f from hf] at hfree
        cases hfree
      refine ⟨b', ?_, hc⟩
      rw [List.find?_cons_of_neg (by simpa using hk)] at hb'
      rw [Block.note, List.find?_cons_of_neg (by simpa [Block.add] using hk)]
      exact hb'
    owned := howned
    declared := by
      rintro _ ⟨⟩
      rw [hid]
      exact h.declared d hd
    mine := by
      rintro _ ⟨⟩
      rw [hid]
      exact hmine }

/-- An instruction gives its function what nobody owns. -/
theorem Tracks.emit {d : Draft} {op : Opcode} {os : List Operand} {line : Option Nat}
    {m : Emission} (h : a.Tracks blocks) (hd : a.draft = some d)
    (hs : Operand.SuitAll op.slots os) (hm : d.assemble a.owners op os line = .ok m) :
    (a.emit m).Tracks (Block.note blocks (some (.item (.instruction op os line)))) := by
  -- a subroutine is fresh for the table of owners exactly if it is new to the function
  have hfresh : (m.subroutines.filter fun name => (a.owners.owner? name).isNone) =
      m.subroutines.filter fun name => name ∉ d.subroutines := by
    apply List.filter_congr
    intro name hn
    have hmine := h.mine d hd name
    rcases Draft.assemble_owned hm hs hn with ho | ho
    · simp [ho] at hmine ⊢
      exact hmine
    · simp [ho] at hmine ⊢
      exact hmine
  rw [emit_of_some hd m, hfresh]
  refine h.item hd rfl rfl (fun b hb => .instruction a.owners op os line m hb hs hm) ?_ ?_
  · intro name i hi
    rw [Owners.owner?_claimAll] at hi
    cases ho : a.owners.owner? name with
    | some j =>
      rw [ho] at hi
      obtain rfl := Option.some.inj hi
      exact h.owned name j ho
    | none =>
      rw [ho, Option.none_or] at hi
      split at hi
      · obtain rfl := Option.some.inj hi
        exact h.declared d hd
      · cases hi
  · intro name
    have hmine := h.mine d hd name
    rw [Owners.owner?_claimAll, Array.mem_def, Draft.toList_subroutines_emit, List.mem_append,
      List.mem_filter, ← Array.mem_def]
    by_cases hn : name ∈ m.subroutines
    · rcases Draft.assemble_owned hm hs hn with ho | ho
      · have hnot : name ∉ d.subroutines := by
          rw [← hmine, ho]
          exact nofun
        simp [ho, hn, hnot]
      · simp [ho, hmine.mp ho]
    · simp [hn, hmine]

/-- **A step keeps the invariant.** -/
theorem Tracks.step {said : Option Statement} {refusal : Option LineError} {a' : Assembler}
    (h : a.Tracks blocks) (hs : a.Step said refusal a') :
    a'.Tracks (if refusal.isNone then Block.note blocks said else blocks) := by
  cases hs with
  | rejected said e => exact h
  | dropped name header e hseg hc => exact h.dropDraft
  | taken name header hseg hc hf => exact h.close hc
  | blank => exact h
  | upvalues n hn => exact { h with }
  | segment d s hn => exact { h with }
  | function name header hseg hc hf => exact (h.close hc).begin name header hf
  | label d name hseg hd hfit =>
    exact h.item hd rfl rfl (fun b hb => .label name hb hfit) h.owned (h.mine d hd)
  | constant d c hseg hd hc =>
    exact h.item hd rfl rfl (fun b hb => .constant c hb hc) h.owned (h.mine d hd)
  | upvalue d u hseg hd =>
    exact h.item hd rfl rfl (fun b hb => .upvalue u hb) h.owned (h.mine d hd)
  | instruction d op os line m hseg hd hsuit hm => exact h.emit hd hsuit hm

/-- **A run keeps the invariant**, from any state in which it holds. -/
theorem Tracks.feedAll (h : a.Tracks blocks) (lines : List String) :
    (a.feedAll lines).Tracks (a.blocksFrom blocks lines) := by
  induction lines generalizing a blocks with
  | nil => exact h
  | cons line lines ih => exact ih (h.step (feed_step a line))

/-- **What every step keeps is kept in every run.** The step may use the invariant. -/
theorem Tracks.feedAll_keeps {P : Assembler → Prop}
    (hstep : ∀ {a a' blocks said refusal}, a.Tracks blocks → a.Step said refusal a' → P a → P a')
    (h : a.Tracks blocks) (hP : P a) (lines : List String) : P (a.feedAll lines) := by
  induction lines generalizing a blocks with
  | nil => exact hP
  | cons line lines ih =>
    have hone := feed_step a line
    exact ih (h.step hone) (hstep h hone hP)

/-- Inversion for `finish`: the last function can be closed, and the program has the table that
closing it leaves. -/
theorem finish_eq_ok {strict : Bool} {p : Program} (h : (a.finish strict).2 = .ok p) :
    a.closing.2 = none ∧ p.functions = a.close.finished := by
  rw [finish] at h
  split at h
  · cases h
  · split at h
    · cases h
    · rename_i log hc
      split at h
      · cases h
      · obtain rfl := Except.ok.inj h
        exact ⟨congrArg Prod.snd hc, rfl⟩

end Assembler

/-! ## Where programs come from -/

/-- The texts of the lines of a source. -/
def Source.texts (bytes : List UInt8) : List String :=
  (Source.lines bytes).filterMap Except.toOption

/-- `Produces lines p`: the program `p` comes from the lines. They are fed one by one, and what is
rejected is passed over; or they are the lines of a source that is assembled as a whole. -/
inductive Produces : List String → Program → Prop where
  /-- the lines are fed, and the input ends -/
  | fed {lines : List String} {strict : Bool} {p : Program} :
    (((({} : Assembler).feedAll lines)).finish strict).2 = .ok p → Produces lines p
  /-- a source is assembled -/
  | assembled {bytes : List UInt8} {strict : Bool} {p : Program} :
    (Assembly.ofBytes strict bytes).result = .ok p → Produces (Source.texts bytes) p

/-- Assembling a source is feeding its lines, all of which are readable and accepted. -/
theorem Assembly.run_eq_ok {strict : Bool} {log : List Log.Event} {n : Nat} {a : Assembler}
    {ls : List (Except ReadError String)} {p : Program}
    (h : (Assembly.run strict log n a ls).result = .ok p) :
    ((a.feedAll (ls.filterMap Except.toOption)).finish strict).2 = .ok p := by
  induction ls generalizing log n a with
  | nil => exact mapError_eq_ok.mp h
  | cons l ls ih =>
    cases l with
    | error e => cases h
    | ok line =>
      simp only [Assembly.run] at h
      split at h
      · cases h
      · exact ih h

theorem Produces.exists_finish {lines : List String} {p : Program} (h : Produces lines p) :
    ∃ strict, ((({} : Assembler).feedAll lines).finish strict).2 = .ok p := by
  cases h with
  | fed h => exact ⟨_, h⟩
  | assembled h => exact ⟨_, Assembly.run_eq_ok h⟩

/-- To see what a program has that lines produce it is enough to run them. -/
theorem Produces.of_run {lines : List String} {α : Type} {look : Program → Option α} {x : α}
    (h : ((({} : Assembler).feedAll lines).finish false).2.toOption.bind look = some x) :
    ∃ p, Produces lines p ∧ look p = some x := by
  obtain ⟨p, hp, hx⟩ := Option.bind_eq_some_iff.mp h
  exact ⟨p, .fed (toOption_eq_some.mp hp), hx⟩

/-- **Every function is assembled from its block**: from the last block of its name among the
accepted lines. -/
theorem Produces.completes {lines : List String} {p : Program} (h : Produces lines p)
    {key : String} {f : Function} (hf : p.function? key = some f) :
    ∃ b, Block.last? lines key = some b ∧ Completes b f := by
  obtain ⟨strict, hfin⟩ := h.exists_finish
  obtain ⟨hc, hp⟩ := Assembler.finish_eq_ok hfin
  rw [Program.function?, hp] at hf
  exact ((Assembler.tracks_empty.feedAll lines).close hc).finished key f hf

end ChunkAsm
