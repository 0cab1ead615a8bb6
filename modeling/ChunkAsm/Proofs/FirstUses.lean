import ChunkAsm.Proofs.Bookkeeping
import ChunkAsm.Proofs.Repetitions
import ChunkAsm.Proofs.Tables
import ChunkAsm.Proofs.TwoPasses

/-!
# In order of first use

Two collections of a function are lists without repetitions, in the order in which the source first
uses their members: the labels that jumps still wait for, and the constants.

* The **undeclared labels** are what is left of the waiting jumps after any mixture of uses,
  declarations and repeated declarations. A label that is never declared keeps the place of its
  first use, so the list is that of all uses without the declared ones (`Assembles.unresolved_eq`).
* The **constants** come from lists and from instructions. Those of an instruction are only
  predicted while the line is read and added when it is accepted. Either way the pool is the list of
  all written constants without the later ones of those that are the same (`Block.entries_pool`).
-/

namespace ChunkAsm

/-! ## Undeclared labels -/

/-- The label that an operand names. -/
def Operand.location? : Operand → Option String
  | .location label => some label
  | _ => none

/-- The labels that an item refers to. -/
def Item.locations : Item → List String
  | .instruction _ os _ => os.filterMap Operand.location?
  | .label _ | .constant _ | .upvalue _ => []

namespace Block

/-- The labels that a block refers to, in order. -/
def references (b : Block) : List String := b.items.flatMap Item.locations

/-- An instruction of the block refers to the label, and the block declares it nowhere. -/
def Undeclared (b : Block) (label : String) : Prop :=
  (∃ op os mark, .instruction op os mark ∈ b.items ∧ .location label ∈ os) ∧
    .label label ∉ b.items

/-- The undeclared labels of a block, in the order of their first use. -/
def undeclared (b : Block) : List String :=
  (b.references.filter fun label => .label label ∉ b.items).eraseDups

variable {b : Block} {label : String}

theorem mem_references :
    label ∈ b.references ↔ ∃ op os mark, .instruction op os mark ∈ b.items ∧
      .location label ∈ os := by
  rw [references, List.mem_flatMap]
  constructor
  · rintro ⟨i, hi, hl⟩
    cases i with
    | instruction op os mark =>
      obtain ⟨o, ho, hlabel⟩ := List.mem_filterMap.mp hl
      cases o with
      | location l =>
        obtain rfl := Option.some.inj hlabel
        exact ⟨op, os, mark, hi, ho⟩
      | _ => cases hlabel
    | _ => exact absurd hl List.not_mem_nil
  · rintro ⟨op, os, mark, hi, hl⟩
    exact ⟨_, hi, List.mem_filterMap.mpr ⟨_, hl, rfl⟩⟩

theorem mem_undeclared : label ∈ b.undeclared ↔ b.Undeclared label := by
  rw [undeclared, List.mem_eraseDups, List.mem_filter, mem_references, decide_eq_true_iff,
    Undeclared]

theorem undeclared_ne_nil : b.undeclared ≠ [] ↔ ∃ label, b.Undeclared label := by
  constructor
  · intro hne
    obtain ⟨label, hl⟩ := List.exists_mem_of_ne_nil _ hne
    exact ⟨label, mem_undeclared.mp hl⟩
  · rintro ⟨label, hl⟩
    exact List.ne_nil_of_mem (mem_undeclared.mpr hl)

theorem pairwise_undeclared (b : Block) :
    b.undeclared.Pairwise fun l m => b.references.idxOf l < b.references.idxOf m := by
  rw [undeclared, eraseDups_filter]
  exact (pairwise_idxOf_eraseDups b.references).filter _

/-- A block without instructions has no undeclared labels. -/
theorem undeclared_of_not_hasInstruction (h : b.hasInstruction = false) : b.undeclared = [] := by
  by_contra hne
  obtain ⟨label, ⟨op, os, mark, hi, -⟩, -⟩ := undeclared_ne_nil.mp hne
  exact Bool.false_ne_true (h.symm.trans (List.any_eq_true.mpr ⟨_, hi, rfl⟩))

end Block

namespace Patches

variable {p : Patches} {used : List String}

/-- The names after one site is deferred for several: in order of first use. -/
theorem names_foldl_defer (h : p.names = used.eraseDups) (names : List String) (site : Nat) :
    (names.foldl (fun p name => p.defer name site) p).names = (used ++ names).eraseDups := by
  induction names generalizing p used with
  | nil => rw [List.append_nil]; exact h
  | cons name names ih =>
    rw [List.foldl_cons, ← List.singleton_append, ← List.append_assoc]
    apply ih
    rw [names_defer, eraseDups_concat, h]
    simp only [List.mem_eraseDups]
    split
    · exact (List.append_nil _).symm
    · rfl

end Patches

/-- The labels that an instruction waits for are those that it names and that are not declared. -/
theorem Assembles.filterMap_waiting? {b : Block} {d : Draft} (h : Assembles b d)
    (os : List Operand) :
    os.filterMap d.waiting? =
      (os.filterMap Operand.location?).filter fun label => .label label ∉ b.items := by
  induction os with
  | nil => rfl
  | cons o os ih =>
    have hone : d.waiting? o = o.location?.filter fun label => .label label ∉ b.items := by
      cases o with
      | location label =>
        have hnone := h.lookup_targets_eq_none label
        simp only [Draft.waiting?, Labels.resolved?, Option.isNone_map, Option.isNone_iff_eq_none,
          hnone, Operand.location?, Option.filter_some, decide_eq_true_iff]
      | _ => rfl
    rw [List.filterMap_cons, List.filterMap_cons, ih, hone]
    cases o.location? with
    | none => rfl
    | some label =>
      rw [Option.filter_some, List.filter_cons]
      by_cases hl : .label label ∈ b.items
      · simp [hl]
      · simp [hl]

/-- **What waits at the end.** The labels that jumps of a draft wait for are the undeclared ones of
its block. -/
theorem Assembles.unresolved_eq {b : Block} {d : Draft} (h : Assembles b d) :
    d.labels.unresolved = b.undeclared := by
  -- an item that is no label adds its labels to the references
  have hadd : ∀ (b : Block) (i : Item), (∀ label, i ≠ .label label) →
      (b.add i).undeclared = ((b.references ++ i.locations).filter
        fun label => .label label ∉ b.items).eraseDups := by
    intro b i hi
    rw [Block.undeclared, Block.references, Block.add, List.flatMap_append, List.flatMap_singleton]
    congr 2
    funext label
    simp [Ne.symm (hi label)]
  induction h with
  | begin => rfl
  | @label b d name h hfit ih =>
    have hpending : (d.declareLabel name).labels.unresolved =
        d.labels.unresolved.filter (· != name) := Patches.names_erase _ _
    rw [hpending, ih, Block.undeclared, ← eraseDups_filter, List.filter_filter, Block.undeclared,
      Block.references, Block.references, Block.add, List.flatMap_append, List.flatMap_singleton,
      Item.locations, List.append_nil]
    congr 2
    funext label
    by_cases hl : label = name
    · simp [hl]
    · simp [hl]
  | constant c h hc ih =>
    rw [hadd _ _ (by simp), Item.locations, List.append_nil]
    exact ih
  | upvalue u h ih =>
    rw [hadd _ _ (by simp), Item.locations, List.append_nil]
    exact ih
  | @instruction b d owners op os mark m h hs hm ih =>
    rw [hadd _ _ (by simp), List.filter_append, Item.locations, ← h.filterMap_waiting? os]
    have hlabels : (d.emit m (m.subroutines.filter fun name => name ∉ d.subroutines)).labels =
        m.labels.foldl (fun l label => l.defer label d.words.size) d.labels := rfl
    rw [hlabels, Labels.foldl_defer, (Draft.assemble_spec hm hs).labels]
    exact Patches.names_foldl_defer ih _ _

namespace Assembler

variable {a : Assembler} {b : Block} {d : Draft} {names : List String}

/-- A function cannot be closed on account of its labels exactly if some are undeclared. -/
theorem closing_eq_undeclaredLocations (hd : a.draft = some d) (hb : Assembles b d) :
    a.closing.2 = some (.undeclaredLocations names) ↔ names ≠ [] ∧ names = b.undeclared := by
  have hempty := hb.isEmpty_words
  rw [closing, hd]
  cases hi : b.hasInstruction with
  | false =>
    -- nothing is left to close, and nothing refers to a label
    have hnone := Block.undeclared_of_not_hasInstruction hi
    rw [hi] at hempty
    simp [hempty, hnone]
  | true =>
    rw [hi] at hempty
    simp only [hempty, hb.unresolved_eq, Bool.not_true, Bool.false_eq_true, if_false]
    cases hu : b.undeclared with
    | nil => split <;> simp
    | cons label labels =>
      simp only [Option.some.injEq, LineError.undeclaredLocations.injEq]
      constructor
      · rintro rfl
        exact ⟨List.cons_ne_nil _ _, rfl⟩
      · rintro ⟨-, rfl⟩
        rfl

/-- A declaration reports undeclared labels exactly if the open function cannot be closed. -/
theorem feed_eq_undeclaredLocations {line name : String} {header : FunctionHeader}
    (h : a.declaration? line = some (name, header)) :
    (a.feed line).1 = some (.undeclaredLocations names) ↔
      a.closing.2 = some (.undeclaredLocations names) := by
  rw [feed_declaration h, beginFunction]
  split
  · rename_i hc
    rw [hc]
  · rename_i hc
    rw [hc]
    split <;> simp

/-- So does the end of the input. -/
theorem finish_eq_undeclaredLocations {strict : Bool}
    (hs : (strict && a.segment.isOpen) = false) :
    (a.finish strict).2 = .error (.undeclaredLocations names) ↔
      a.closing.2 = some (.undeclaredLocations names) := by
  rw [finish, hs, if_neg Bool.false_ne_true]
  split
  · rename_i hc
    simp [hc]
  · rename_i hc
    rw [hc]
    split <;> simp

end Assembler

/-- `b.Reports Fails`: an attempt to close the function with the block `b`, which fails with the
labels `names` if `Fails names`, reports the undeclared labels of the block. -/
structure Block.Reports (b : Block) (Fails : List String → Prop) : Prop where
  /-- it fails exactly if there are some -/
  fails_iff : (∃ names, Fails names) ↔ ∃ label, b.Undeclared label
  /-- and then names all of them, and nothing else -/
  mem_iff : ∀ names, Fails names → ∀ label, label ∈ names ↔ b.Undeclared label
  /-- each once -/
  nodup : ∀ names, Fails names → names.Nodup
  /-- in the order of their first use -/
  ordered : ∀ names, Fails names →
    names.Pairwise fun l m => b.references.idxOf l < b.references.idxOf m

theorem Block.reports_of_iff {b : Block} {Fails : List String → Prop}
    (h : ∀ names, Fails names ↔ names ≠ [] ∧ names = b.undeclared) : b.Reports Fails where
  fails_iff := by
    rw [← undeclared_ne_nil]
    constructor
    · rintro ⟨names, hn⟩
      obtain ⟨hne, rfl⟩ := (h names).mp hn
      exact hne
    · exact fun hne => ⟨b.undeclared, (h _).mpr ⟨hne, rfl⟩⟩
  mem_iff := by
    intro names hn label
    rw [((h names).mp hn).2, mem_undeclared]
  nodup := by
    intro names hn
    rw [((h names).mp hn).2]
    exact nodup_eraseDups _
  ordered := by
    intro names hn
    rw [((h names).mp hn).2]
    exact b.pairwise_undeclared

/-- **Undeclared labels are named exactly.** Whenever a function is open, it has a block of accepted
lines. A well-formed declaration of the next function, and likewise the end of the input, fails on
account of labels exactly if an instruction of the block refers to a label that is declared nowhere
in it, before or after. The error then names these labels, each once, in the order of their first
use. -/
theorem undeclared_labels_named_exactly {lines : List String} {d : Draft}
    (hd : (({} : Assembler).feedAll lines).draft = some d) :
    ∃ b rest, Assembler.blocksFrom {} [] lines = b :: rest ∧ b.name = d.name ∧
      (∀ line name header,
        (({} : Assembler).feedAll lines).declaration? line = some (name, header) →
        b.Reports fun names => ((({} : Assembler).feedAll lines).feed line).1 =
          some (.undeclaredLocations names)) ∧
      ∀ strict, (strict && (({} : Assembler).feedAll lines).segment.isOpen) = false →
        b.Reports fun names => ((({} : Assembler).feedAll lines).finish strict).2 =
          .error (.undeclaredLocations names) := by
  obtain ⟨b, rest, hblocks, hb⟩ := (Assembler.tracks_empty.feedAll lines).draft d hd
  refine ⟨b, rest, hblocks, hb.name_eq.symm, ?_, ?_⟩
  · intro line name header hline
    refine Block.reports_of_iff fun names => ?_
    rw [Assembler.feed_eq_undeclaredLocations hline,
      Assembler.closing_eq_undeclaredLocations hd hb]
  · intro strict hs
    refine Block.reports_of_iff fun names => ?_
    rw [Assembler.finish_eq_undeclaredLocations hs,
      Assembler.closing_eq_undeclaredLocations hd hb]

/-- Jumps to five labels, some of them twice. One is declared before it is used, one after and
twice, and one only in another function. -/
def scatteredLines : List String :=
  [".upvalues 0", ".func done 2 0 0", ".begin_code", "far:", "jmp 0 $far", ".end_code",
    ".func open 2 0 0", ".begin_code", "top:", "jmp 0 $near", "jmp 0 $far", "jmp 0 $end",
    "jmp 0 $top", "jmp 0 $near", "jmp 0 $last", "end:", "jmp 0 $end", "end:", "jmp 0 $far",
    ".end_code"]

/-- The declaration of the next function names three labels, in the order of their first use. -/
theorem undeclared_labels_named_exactly_scattered :
    ∃ (d : Draft) (b : Block) (rest : List Block),
      (({} : Assembler).feedAll scatteredLines).draft = some d ∧
      Assembler.blocksFrom {} [] scatteredLines = b :: rest ∧
      (({} : Assembler).feedAll scatteredLines).declaration? ".func next 2 0 0" =
        some ("next", ⟨2, 0, .fixed⟩) ∧
      ((({} : Assembler).feedAll scatteredLines).feed ".func next 2 0 0").1 =
        some (.undeclaredLocations ["near", "far", "last"]) ∧
      b.Reports fun names => ((({} : Assembler).feedAll scatteredLines).feed
        ".func next 2 0 0").1 = some (.undeclaredLocations names) := by
  have hopen : (({} : Assembler).feedAll scatteredLines).draft.isSome = true := by
    decide +kernel
  have hline : (({} : Assembler).feedAll scatteredLines).declaration? ".func next 2 0 0" =
      some ("next", ⟨2, 0, .fixed⟩) := by
    decide +kernel
  have hfeed : ((({} : Assembler).feedAll scatteredLines).feed ".func next 2 0 0").1 =
      some (.undeclaredLocations ["near", "far", "last"]) := by
    decide +kernel
  obtain ⟨d, hd⟩ := Option.isSome_iff_exists.mp hopen
  obtain ⟨b, rest, hblocks, -, hreports, -⟩ := undeclared_labels_named_exactly hd
  exact ⟨d, b, rest, hd, hblocks, hline, hfeed, hreports _ _ _ hline⟩

/-! ## Constants -/

namespace Constant

/-- Being the same value does not depend on the order. -/
theorem same_comm (x y : Constant) : x.same y = y.same x := by
  cases x with
  | number v =>
    cases y with
    | number w =>
      by_cases h : v = w
      · rw [h]
      · have hbits : v.bits ≠ w.bits := fun hb => h (congrArg Binary64.mk hb)
        simp only [same, Binary64.same, beq_eq_false_iff_ne.mpr hbits,
          beq_eq_false_iff_ne.mpr (Ne.symm hbits), Bool.false_and, Bool.false_or,
          Bool.and_comm w.isZero]
    | _ => rfl
  | nil => cases y <;> rfl
  | bool v => cases y <;> simp [same, Bool.beq_comm]
  | string v => cases y <;> simp [same, Bool.beq_comm]

end Constant

namespace Pool

variable {p : Pool} {c : Constant}

theorem entries_insert (p : Pool) (c : Constant) :
    (p.insert c).entries.toList =
      p.entries.toList ++ if p.entries.toList.any (c.same ·) then [] else [c] := by
  have hany : p.entries.toList.any (c.same ·) = (p.position? c).isSome := by
    simp only [position?, List.findIdx?_isSome, Constant.same_comm c]
  rw [hany]
  cases h : p.position? c with
  | some i => rw [insert_of_some h]; exact (List.append_nil _).symm
  | none => rw [insert_of_none h, Array.toList_push]; rfl

/-- **First of each class.** A pool that is filled in order holds what is left of the constants when
each is dropped that is the same as an earlier one. -/
theorem entries_insertAll (cs : List Constant) :
    (({} : Pool).insertAll cs).entries.toList = cs.eraseDupsBy Constant.same := by
  induction cs using List.reverseRecOn with
  | nil => rfl
  | append_singleton cs c ih =>
    rw [insertAll_append, eraseDupsBy_concat, ← ih]
    exact entries_insert _ c

theorem prefix_insertAll (p : Pool) (cs : List Constant) :
    p.entries.toList <+: (p.insertAll cs).entries.toList := by
  induction cs generalizing p with
  | nil => exact List.prefix_rfl
  | cons c cs ih => exact (p.prefix_insert c).trans (ih (p.insert c))

/-- Intern constants one by one: their indices, and the pool that has them. -/
def internAll (p : Pool) : List Constant → List Nat × Pool
  | [] => ([], p)
  | c :: cs =>
    let (i, p) := p.intern c
    let (is, p) := p.internAll cs
    (i :: is, p)

/-- A constant has the index that interning it returns. -/
theorem position?_insert_self (p : Pool) (hc : c.same c = true) :
    (p.insert c).position? c = some (p.intern c).1 := by
  rw [intern]
  cases h : p.position? c with
  | some i => rw [insert_of_some h, h]; rfl
  | none =>
    rw [insert_of_none h, position?, Array.toList_push, List.findIdx?_append]
    rw [position?] at h
    simp [h, hc, size]

end Pool

namespace Encoding

/-- The indices that are predicted for constants of one line, and what is noted of them. -/
def predict (e : Encoding) (pool : Pool) : List Constant → List Nat × Encoding
  | [] => ([], e)
  | c :: cs =>
    let (i, e) := e.constantIndex pool c
    let (is, e) := e.predict pool cs
    (i :: is, e)

/-- **Prediction is interning**, for all constants of a line. The predicted indices are those that
interning them one by one returns, and adding what is noted as new leaves the same pool. -/
theorem predict_eq_internAll {e : Encoding} {p : Pool} {cs : List Constant}
    (hcs : ∀ c ∈ cs, c.same c = true) (hnew : p.New e.constants) :
    ((e.predict p cs).1, p.insertAll (e.predict p cs).2.constants) =
      (p.insertAll e.constants).internAll cs := by
  induction cs generalizing e with
  | nil => rfl
  | cons c cs ih =>
    have hc : c.same c = true := hcs c List.mem_cons_self
    obtain ⟨new, hnext, hnew', hpool, hpos⟩ := constantIndex_spec hc hnew
    have hindex : (e.constantIndex p c).1 = ((p.insertAll e.constants).intern c).1 := by
      rw [hpool, Pool.position?_insert_self _ hc] at hpos
      exact (Option.some.inj hpos).symm
    have hrest := ih (e := (e.constantIndex p c).2)
      (fun c' h => hcs c' (List.mem_cons_of_mem _ h)) (by rw [hnext]; exact hnew')
    have hpool' : p.insertAll (e.constantIndex p c).2.constants =
        ((p.insertAll e.constants).intern c).2 := by
      rw [hnext]
      exact hpool
    rw [hpool'] at hrest
    obtain ⟨his, hp⟩ := Prod.mk.inj hrest
    simp only [predict, Pool.internAll, hindex, his, hp]

end Encoding

namespace Block

/-- The constants that a block writes, in order. -/
def literals (b : Block) : List Constant := b.items.flatMap Item.constants

theorem entries_pool (b : Block) :
    b.pool.entries.toList = b.literals.eraseDupsBy Constant.same :=
  Pool.entries_insertAll _

end Block

/-- What is written is the same as itself, so no NaN is. -/
theorem Assembles.same_self {b : Block} {d : Draft} (h : Assembles b d) {c : Constant}
    (hc : c ∈ b.literals) : c.same c = true := by
  have hadd : ∀ {b : Block} {i : Item}, c ∈ (b.add i).literals →
      c ∈ b.literals ∨ c ∈ i.constants := by
    intro b i hmem
    simpa [Block.literals, Block.add] using hmem
  induction h with
  | begin => exact absurd hc List.not_mem_nil
  | label name _ _ ih => exact (hadd hc).elim ih fun h => absurd h List.not_mem_nil
  | constant c' _ hsame ih =>
    rcases hadd hc with h | h
    · exact ih h
    · obtain rfl := List.mem_singleton.mp h
      exact hsame
  | upvalue u _ ih => exact (hadd hc).elim ih fun h => absurd h List.not_mem_nil
  | instruction owners op os mark m _ hs _ ih =>
    rcases hadd hc with h | h
    · exact ih h
    · obtain ⟨o, ho, hoc⟩ := List.mem_filterMap.mp h
      obtain ⟨slot, -, hsuits⟩ := hs.exists_slot ho
      exact hsuits.same c (by cases o <;> simp_all [Operand.constant?])

/-- **An entry never moves.** As long as a function is open its pool only grows at the end. -/
theorem Assembler.Reachable.prefix_constants {a : Assembler} (ha : a.Reachable) {d d' : Draft}
    {more : List String} (hd : a.draft = some d) (hd' : (a.feedAll more).draft = some d')
    (hid : d'.id = d.id) : d.constants.entries.toList <+: d'.constants.entries.toList := by
  -- a function that is declared later has another number
  let P (a' : Assembler) : Prop := d.id < a'.nextId ∧ ∀ d', a'.draft = some d' → d'.id = d.id →
    d.constants.entries.toList <+: d'.constants.entries.toList
  have hclose : ∀ a' : Assembler, a'.close.nextId = a'.nextId := by
    intro a'
    rw [Assembler.close]
    split
    · rfl
    · split <;> rfl
  -- what a line of the function leaves of its draft
  have hgrow : ∀ {a a' : Assembler} {e e' : Draft}, P a → a.draft = some e →
      a'.draft = some e' → a'.nextId = a.nextId → e'.id = e.id →
      e.constants.entries.toList <+: e'.constants.entries.toList → P a' := by
    rintro a a' e e' ⟨hlt, hpre⟩ he he' hnext hsame hgrows
    refine ⟨hnext ▸ hlt, fun e'' he'' heq => ?_⟩
    obtain rfl := Option.some.inj (he'.symm.trans he'')
    exact (hpre e he (hsame.symm.trans heq)).trans hgrows
  obtain ⟨blocks, htracks⟩ := ha.tracks
  have hrun : P (a.feedAll more) := by
    refine htracks.feedAll_keeps (P := P) ?_ ⟨htracks.declared d hd, ?_⟩ more
    · intro a a' blocks said refusal _ hstep hP
      cases hstep with
      | rejected => exact hP
      | dropped => exact ⟨hP.1, fun _ h => by cases h⟩
      | taken =>
        refine ⟨(hclose a).symm ▸ hP.1, fun _ h => ?_⟩
        cases (draft_close a).symm.trans h
      | blank => exact hP
      | upvalues => exact hP
      | segment => exact hP
      | function name header =>
        refine ⟨Nat.lt_succ_of_lt ((hclose a).symm ▸ hP.1), ?_⟩
        rintro _ hnew heq
        obtain rfl := Option.some.inj hnew
        exact absurd ((hclose a).symm.trans heq) (Nat.ne_of_gt hP.1)
      | label e name _ he => exact hgrow hP he rfl rfl rfl List.prefix_rfl
      | constant e c _ he => exact hgrow hP he rfl rfl rfl (Pool.prefix_insert _ _)
      | upvalue e u _ he => exact hgrow hP he rfl rfl rfl List.prefix_rfl
      | instruction e op os mark m _ he =>
        rw [emit_of_some he]
        exact hgrow hP he rfl rfl rfl (Pool.prefix_insertAll _ _)
    · rintro _ hsame -
      obtain rfl := Option.some.inj (hd.symm.trans hsame)
      exact List.prefix_rfl
  exact hrun.2 d' hd' hid

/-- A function is finished by lines if it is in the table after them or in the program that they
produce. -/
def Finished (lines : List String) (key : String) (f : Function) : Prop :=
  (({} : Assembler).feedAll lines).finished.lookup key = some f ∨
    ∃ p, Produces lines p ∧ p.function? key = some f

theorem Finished.completes {lines : List String} {key : String} {f : Function}
    (h : Finished lines key f) : ∃ b, Block.last? lines key = some b ∧ Completes b f := by
  rcases h with hf | ⟨p, hp, hf⟩
  · exact (Assembler.tracks_empty.feedAll lines).finished key f hf
  · exact hp.completes hf

/-- **A pool holds the first of each class.** The constants of a finished function are those that its
accepted lines write, in order, without those that are the same as an earlier one. Every written
constant is the same as itself, so there is no NaN among them, and no two entries are the same.

An entry never moves: what the first items of the block put in the pool stands at its beginning, and
as long as a function is open its pool only grows at the end. Lastly, the indices that are predicted
for constants of one line are those that interning them one by one returns. -/
theorem pool_holds_first_occurrences :
    (∀ lines key f, Finished lines key f →
      ∃ b, Block.last? lines key = some b ∧
        f.constants.entries.toList = b.literals.eraseDupsBy Constant.same ∧
        (∀ c ∈ b.literals, c.same c = true) ∧
        f.constants.entries.toList.Pairwise (fun x y => x.same y = false) ∧
        ∀ before after, b.items = before ++ after →
          (before.flatMap Item.constants).eraseDupsBy Constant.same <+:
            f.constants.entries.toList) ∧
    (∀ (a : Assembler) (more : List String) (d d' : Draft), a.Reachable → a.draft = some d →
      (a.feedAll more).draft = some d' → d'.id = d.id →
      d.constants.entries.toList <+: d'.constants.entries.toList) ∧
    ∀ (p : Pool) (e : Encoding) (cs : List Constant), e.constants = [] →
      (∀ c ∈ cs, c.same c = true) →
      (e.predict p cs).1 = (p.internAll cs).1 ∧
        p.insertAll (e.predict p cs).2.constants = (p.internAll cs).2 := by
  refine ⟨?_, fun a more d d' ha hd hd' hid => ha.prefix_constants hd hd' hid, ?_⟩
  · intro lines key f hf
    obtain ⟨b, hlast, d, hb, -, rfl⟩ := hf.completes
    have hpool : d.toFunction.constants = b.pool := hb.constants_eq
    rw [hpool, b.entries_pool]
    refine ⟨b, hlast, rfl, fun c hc => hb.same_self hc, ?_, ?_⟩
    · refine (pairwise_eraseDupsBy Constant.same b.literals).imp ?_
      intro x y h
      rwa [Constant.same_comm]
    · intro before after hitems
      rw [← Pool.entries_insertAll, ← Pool.entries_insertAll, Block.literals, hitems,
        List.flatMap_append, Pool.insertAll_append]
      exact Pool.prefix_insertAll _ _
  · intro p e cs he hcs
    have hnew : p.New e.constants := by
      rw [he]
      exact p.new_nil
    have hpredict := Encoding.predict_eq_internAll hcs hnew
    rw [he] at hpredict
    exact Prod.mk.inj hpredict

/-- Constants in a list and in instructions, among them both zeros, one that two operands of a line
write, and a rejected line that writes another. -/
def repeatedLines : List String :=
  [".upvalues 0", ".func main 2 0 0", ".begin_const", "0", "'a'", "-0", ".end_const", ".begin_code",
    "add %0 const true const 'a'", "add %0 const nil const nil", "add %300 const 7 const 8",
    "loadk %1 const 1", "eq 0 const -0 const 1.0", ".end_code"]

/-- Of the ten constants that are accepted, five are in the pool. Two of them are there before the
first instruction and stay where they are, and the pair of equal operands is predicted to have one
index. -/
theorem pool_holds_first_occurrences_repeated :
    (∃ f b, Finished repeatedLines "main" f ∧ Block.last? repeatedLines "main" = some b ∧
      b.literals.length = 10 ∧ f.constants.entries.toList.length = 5 ∧
      f.constants.entries.toList = b.literals.eraseDupsBy Constant.same) ∧
    (∃ d d', (({} : Assembler).feedAll (repeatedLines.take 8)).draft = some d ∧
      ((({} : Assembler).feedAll (repeatedLines.take 8)).feedAll (repeatedLines.drop 8)).draft =
        some d' ∧ d.constants.size = 2 ∧ d'.constants.size = 5 ∧
      d.constants.entries.toList <+: d'.constants.entries.toList) ∧
    (({ word := .ofOpcode .add } : Encoding).predict (.ofList [.bool true]) [.nil, .nil]).1 =
      [1, 1] ∧
    ((Pool.ofList [.bool true]).internAll [.nil, .nil]).1 = [1, 1] := by
  have hrun : ((({} : Assembler).feedAll repeatedLines).finish false).2.toOption.bind
      (fun p => (p.function? "main").map fun f => f.constants.entries.toList.length) =
        some 5 := by
    decide +kernel
  have hwritten : (Block.last? repeatedLines "main").map (·.literals.length) = some 10 := by
    decide +kernel
  have hbefore : (({} : Assembler).feedAll (repeatedLines.take 8)).draft.map
      (fun d => (d.id, d.constants.size)) = some (0, 2) := by
    decide +kernel
  have hafter : ((({} : Assembler).feedAll (repeatedLines.take 8)).feedAll
      (repeatedLines.drop 8)).draft.map (fun d => (d.id, d.constants.size)) = some (0, 5) := by
    decide +kernel
  obtain ⟨hpool, hmoves, hpredict⟩ := pool_holds_first_occurrences
  obtain ⟨d, hd, hlook⟩ := Option.map_eq_some_iff.mp hbefore
  obtain ⟨d', hd', hlook'⟩ := Option.map_eq_some_iff.mp hafter
  obtain ⟨hid, hsize⟩ := Prod.mk.inj hlook
  obtain ⟨hid', hsize'⟩ := Prod.mk.inj hlook'
  obtain ⟨p, hp, hlook⟩ := Produces.of_run hrun
  obtain ⟨f, hf, hlength⟩ := Option.map_eq_some_iff.mp hlook
  have hfin : Finished repeatedLines "main" f := .inr ⟨p, hp, hf⟩
  obtain ⟨b, hlast, hentries, -⟩ := hpool _ _ _ hfin
  rw [hlast] at hwritten
  have hintern : ((Pool.ofList [.bool true]).internAll [.nil, .nil]).1 = [1, 1] := by decide
  refine ⟨⟨f, b, hfin, hlast, Option.some.inj hwritten, hlength, hentries⟩,
    ⟨d, d', hd, hd', hsize, hsize', ?_⟩, ?_, hintern⟩
  · exact hmoves _ _ d d' ⟨_, rfl⟩ hd hd' (hid'.trans hid.symm)
  · exact (hpredict _ _ _ rfl (by decide)).1.trans hintern

end ChunkAsm
