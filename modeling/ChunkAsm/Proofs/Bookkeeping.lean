import ChunkAsm.Proofs.Rejection
import Mathlib.Data.List.Induction

/-!
# Patches never dangle

Two collections of a draft hold indices of its words: the jumps that wait for labels, and the
closures that wait for the numbers of their functions. Both are used later on to change a word,
without a look at whether it is there. This file says what they hold in every run.

* A jump that waits is an instruction with a label, and has the provisional distance stored. No
  label is waited for once it is declared, and no target lies behind the words (`Labels.Booked`).
* The closures are the instructions that wait for subroutines. Each of them waits once, and the
  names that they wait for are the subroutines, in the same order (`Patches.Booked`).

So no index is ever out of range, neither when a label is declared nor when a function is linked.
-/

namespace ChunkAsm

/-! ## Closures among words -/

/-- The indices of the closures among words. -/
def closureIndices (words : List Word) : List Nat :=
  (List.range words.length).filter fun i => words[i]?.bind Word.opcode? == some .closure

/-- Only the opcodes matter. -/
theorem closureIndices_congr {ws ws' : List Word}
    (h : ws.map Word.opcode? = ws'.map Word.opcode?) : closureIndices ws = closureIndices ws' := by
  have hlen : ws.length = ws'.length := by simpa using congrArg List.length h
  rw [closureIndices, closureIndices, hlen]
  congr 1
  funext i
  have hi : ws[i]?.map Word.opcode? = ws'[i]?.map Word.opcode? := by
    rw [← List.getElem?_map, h, List.getElem?_map]
  have hbind : ∀ x : Option Word, x.bind Word.opcode? = (x.map Word.opcode?).join := by
    rintro (_ | w) <;> rfl
  rw [hbind, hbind, hi]

/-- Closures that are appended come behind the others. -/
theorem closureIndices_append (ws ws' : List Word) :
    closureIndices (ws ++ ws') =
      closureIndices ws ++ (closureIndices ws').map (ws.length + ·) := by
  rw [closureIndices, List.length_append, List.range_add, List.filter_append, List.filter_map]
  congr 1
  · apply List.filter_congr
    intro i hi
    rw [List.getElem?_append_left (List.mem_range.mp hi)]
  · congr 1
    apply List.filter_congr
    intro i hi
    rw [Function.comp_apply, List.getElem?_append_right (Nat.le_add_right _ _),
      Nat.add_sub_cancel_left]

/-- Of the words of an instruction only the first can be a closure. -/
theorem Draft.Emits.closureIndices_words {d : Draft} {op : Opcode} {os : List Operand}
    {m : Emission} (h : d.Emits op os m) :
    closureIndices m.words = if op = .closure then [0] else [] := by
  cases hx : m.extra with
  | none => simp [closureIndices, Emission.words, hx, h.opcode, List.range_succ, List.filter_cons]
  | some x =>
    simp [closureIndices, Emission.words, hx, h.opcode, h.extra x hx, List.range_succ,
      List.filter_cons]

/-! ## What is booked -/

/-- The labels of a draft with the given words are booked correctly. -/
structure Labels.Booked (l : Labels) (words : Array Word) : Prop where
  /-- what waits is an instruction with a label, and has the provisional distance stored -/
  waiting : ∀ site ∈ l.pending.allSites, ∃ w op, words[site]? = some w ∧ w.opcode? = some op ∧
    Opcode.fieldSlot .sbx .location ∈ op.slots ∧ w.get .sbx = -1
  /-- a label that is waited for is not declared -/
  undeclared : ∀ label ∈ l.pending.names, l.targets.lookup label = none
  /-- a target is at most behind the last word -/
  targets : ∀ label t, l.targets.lookup label = some t → t ≤ words.size

/-- The closures among the given words are booked correctly, for the given subroutines. -/
structure Patches.Booked (p : Patches) (subroutines : Array String) (words : Array Word) :
    Prop where
  /-- the names are the subroutines, in the same order -/
  names : p.names = subroutines.toList
  /-- every closure waits, and nothing else waits -/
  sites : p.allSites.Perm (closureIndices words.toList)
  /-- nothing waits twice, be it in one bucket or in two -/
  once : p.allSites.Nodup

/-- What waits for a subroutine is there. -/
theorem Patches.Booked.lt_size {p : Patches} {subroutines : Array String} {words : Array Word}
    (h : p.Booked subroutines words) {name : String} {site : Nat} (hs : site ∈ p.sites name) :
    site < words.size := by
  have hall : site ∈ p.allSites := by
    rw [Patches.sites] at hs
    split at hs
    · rename_i b hb
      exact List.mem_flatMap.mpr ⟨b, List.mem_of_find?_eq_some hb, hs⟩
    · exact absurd hs List.not_mem_nil
  have hmem := h.sites.mem_iff.mp hall
  simpa using (List.mem_filter.mp hmem).1

/-! ## Drafts are booked correctly -/

namespace Assembles

variable {b : Block} {d : Draft}

/-- No label has two buckets, and none that has one is declared. -/
theorem names_pending (h : Assembles b d) :
    d.labels.pending.names.Nodup ∧
      ∀ label ∈ d.labels.pending.names, d.labels.targets.lookup label = none := by
  induction h with
  | begin => exact ⟨.nil, fun _ hl => absurd hl List.not_mem_nil⟩
  | label name _ _ ih =>
    rw [Draft.labels_declareLabel, Labels.declare]
    simp only [Patches.names_erase, List.mem_filter, bne_iff_ne, ne_eq]
    refine ⟨ih.1.filter _, ?_⟩
    rintro label ⟨hl, hne⟩
    rw [List.lookup_cons, beq_eq_false_iff_ne.mpr hne]
    exact ih.2 label hl
  | constant _ _ _ ih => exact ih
  | upvalue _ _ ih => exact ih
  | instruction owners op os line m _ hs hm ih =>
    simp only [Draft.emit, Labels.foldl_defer]
    refine ⟨Patches.nodup_names_foldl_defer _ ih.1, ?_⟩
    intro label hl
    rcases Patches.mem_names_foldl_defer.mp hl with hl | hl
    · exact ih.2 label hl
    · rw [(Draft.assemble_spec hm hs).labels] at hl
      obtain ⟨o, -, hw⟩ := List.mem_filterMap.mp hl
      exact (Draft.waiting?_eq_some.mp hw).2

/-- **Provisional distances.** A jump that waits has the distance stored that stands for none. -/
theorem unresolved (h : Assembles b d) {label : String} {site : Nat}
    (hs : site ∈ d.labels.sites label) :
    ∃ w, d.words[site]? = some w ∧ w.get .sbx = Labels.unresolvedDelta := by
  induction h with
  | begin => exact absurd hs List.not_mem_nil
  | @label b d name h hfit ih =>
    rw [Draft.labels_declareLabel, Labels.sites_declare] at hs
    by_cases hl : label = name
    · rw [if_pos hl] at hs
      exact absurd hs List.not_mem_nil
    · rw [if_neg hl] at hs
      obtain ⟨w, hw, hd⟩ := ih hs
      obtain ⟨w', hw', hset⟩ := Draft.getElem?_words_declareLabel hfit hw
      -- an instruction has one label, so this one does not wait for the label that is declared
      have hno : site ∉ d.labels.sites name := by
        intro hs'
        obtain ⟨before, op, os, line, after, hitems, hmem, rfl⟩ := h.exists_of_mem_sites hs
        obtain ⟨-, -, -, hsuit, -⟩ := h.emitted hitems
        obtain ⟨slot, o, -, rfl, hne⟩ := hsuit.of_location hmem
        rcases List.mem_pair.mp (h.location_of_mem_sites hitems hs') with he | he
        · exact hne name he.symm
        · exact hl (Operand.location.inj he).symm
      rw [if_neg hno] at hset
      exact ⟨w', hw', hset ▸ hd⟩
  | constant _ _ _ ih => exact ih hs
  | upvalue _ _ ih => exact ih hs
  | @instruction b d owners op os line m h hsuit hm ih =>
    have hspec := Draft.assemble_spec hm hsuit
    rw [Draft.sites_emit, List.mem_append] at hs
    rcases hs with hs | hs
    · obtain ⟨w, hw, hd⟩ := ih hs
      exact ⟨w, Draft.getElem?_words_emit_of_some hw, hd⟩
    · obtain ⟨hcount, rfl⟩ := List.mem_replicate.mp hs
      refine ⟨m.word, Draft.getElem?_words_emit_self _ _ _, ?_⟩
      -- the instruction waits for the label, which is its second operand
      have hmem : label ∈ m.labels := List.count_pos_iff.mp (Nat.pos_of_ne_zero hcount)
      rw [hspec.labels] at hmem
      obtain ⟨o, ho, hw⟩ := List.mem_filterMap.mp hmem
      obtain ⟨rfl, hnone⟩ := Draft.waiting?_eq_some.mp hw
      obtain ⟨slot, o, hslots, rfl, -⟩ := hsuit.of_location ho
      obtain ⟨v, hv, hheld⟩ := hspec.placed
        (Opcode.fieldSlot .sbx .location, .location label) (by simp [hslots])
      have hval : v = Labels.unresolvedDelta := by
        simpa [Draft.Means, Labels.resolved?, hnone] using hv
      rw [← hval]
      exact hheld

/-- **The labels of a draft are booked correctly.** -/
theorem booked_labels (h : Assembles b d) : d.labels.Booked d.words where
  waiting := by
    intro site hs
    obtain ⟨label, -, hs⟩ := Patches.exists_of_mem_allSites h.names_pending.1 hs
    obtain ⟨w, hw, hd⟩ := h.unresolved hs
    obtain ⟨before, op, os, line, after, hitems, hmem, rfl⟩ := h.exists_of_mem_sites hs
    obtain ⟨d₀, m, -, hsuit, he, hk, -⟩ := h.emitted hitems
    obtain ⟨w', hw', hop, -⟩ := hk.word
    obtain rfl := Option.some.inj (hw.symm.trans hw')
    obtain ⟨slot, o, hslots, -, -⟩ := hsuit.of_location hmem
    exact ⟨w, op, hw, hop.trans he.opcode, by simp [hslots], hd⟩
  undeclared := h.names_pending.2
  targets := by
    intro label t ht
    rw [h.lookup_targets] at ht
    obtain ⟨before, i, after, hitems, -, rfl⟩ := Item.mem_places.mp (List.mem_of_getLast? ht)
    rw [h.size_words, hitems, Item.offset_append, Nat.zero_add]
    exact Nat.le_add_right _ _

/-- A label leaves the opcodes alone. -/
theorem map_opcode?_declareLabel {label : String} (hfit : d.labelOverflow? label = none) :
    (d.declareLabel label).words.toList.map Word.opcode? = d.words.toList.map Word.opcode? := by
  apply List.ext_getElem?
  intro i
  rw [List.getElem?_map, List.getElem?_map, Array.getElem?_toList, Array.getElem?_toList]
  cases hw : d.words[i]? with
  | none =>
    have hsize := Array.getElem?_eq_none_iff.mp hw
    rw [Array.getElem?_eq_none_iff.mpr (by simpa using hsize)]
  | some w =>
    obtain ⟨w', hw', hset⟩ := Draft.getElem?_words_declareLabel hfit hw
    rw [hw', Option.map_some, Option.map_some]
    split at hset
    · rw [Word.opcode?_set hset]
    · rw [hset]

/-- The names that closures wait for are the subroutines, and the closures are what waits. -/
theorem names_protoSites (h : Assembles b d) :
    d.protoSites.names = d.subroutines.toList ∧
      d.protoSites.allSites.Perm (closureIndices d.words.toList) := by
  induction h with
  | begin => exact ⟨rfl, .nil⟩
  | label name _ hfit ih =>
    refine ⟨ih.1, ?_⟩
    rw [closureIndices_congr (map_opcode?_declareLabel hfit)]
    exact ih.2
  | constant _ _ _ ih => exact ih
  | upvalue _ _ ih => exact ih
  | @instruction b d owners op os line m h hs hm ih =>
    have hspec := Draft.assemble_spec hm hs
    constructor
    · rw [Draft.toList_subroutines_emit, Draft.emit]
      simp only [hspec.subroutines]
      rcases hs.filterMap_proto? with ⟨a, name, -, -, hone⟩ | ⟨-, hnil⟩
      · rw [hone, List.foldl_cons, List.foldl_nil, Patches.names_defer, ih.1]
        by_cases hn : name ∈ d.subroutines
        · rw [if_pos (Array.mem_def.mp hn)]
          simp [hn]
        · rw [if_neg (mt Array.mem_def.mpr hn)]
          simp [hn]
      · rw [hnil]
        simpa using ih.1
    · rw [Draft.toList_words_emit, closureIndices_append, hspec.closureIndices_words, Draft.emit]
      simp only [hspec.subroutines]
      rcases hs.filterMap_proto? with ⟨a, name, rfl, -, hone⟩ | ⟨hno, hnil⟩
      · rw [hone, List.foldl_cons, List.foldl_nil, if_pos rfl]
        exact (Patches.perm_allSites_defer _ _ _).trans
          ((ih.2.cons _).trans (List.perm_append_singleton _ _).symm)
      · have hop : op ≠ .closure := by
          rintro rfl
          obtain ⟨a, name, rfl⟩ := hs.of_closure
          exact hno name (by simp)
        rw [hnil, if_neg hop]
        simpa using ih.2

/-- **The closures of a draft are booked correctly.** -/
theorem booked_protos (h : Assembles b d) : d.protoSites.Booked d.subroutines d.words where
  names := h.names_protoSites.1
  sites := h.names_protoSites.2
  once := h.names_protoSites.2.nodup_iff.mpr (List.nodup_range.filter _)

end Assembles

/-! ## Linking in place -/

/-- Why linking in place stops. -/
inductive LinkStop where
  /-- the function cannot be linked -/
  | refused (e : LinkError)
  /-- an instruction is to be changed that is not there -/
  | noWord (site : Nat)
  deriving DecidableEq, Repr

namespace InPlace

/-- Store the number of a proto in one instruction, which must be there. -/
def setProto (caller : String) (index : Nat) (words : Array Word) (site : Nat) :
    Except LinkStop (Array Word) :=
  match words[site]? with
  | none => .error (.noWord site)
  | some w => do
    let w ← (w.set .bx index).mapError fun e => .refused (.field caller e)
    .ok (words.setIfInBounds site w)

/-- Link the remaining subroutines of a function, of which the first has the number `index`. -/
def linkFrom (p : Program) (caller : String) (index : Nat) (sites : Patches) (words : Array Word)
    (protos : Array Function) : List String → Except LinkStop (Array Word × Array Function)
  | [] => .ok (words, protos)
  | name :: rest =>
    match p.function? name with
    | none => .error (.refused (.missingSubroutine caller name))
    | some sub => do
      let words ← (sites.take name).1.foldlM (setProto caller index) words
      linkFrom p caller (index + 1) (sites.take name).2 words (protos.push sub) rest

/-- Link a function. Its instructions are looked up by their indices, and linking stops where there
is none. -/
def link (p : Program) (f : Function) : Except LinkStop Linked := do
  let (words, protos) ← linkFrom p f.name 0 f.protoSites f.words #[] f.subroutines.toList
  .ok ⟨f, words, protos⟩

variable {p : Program} {caller : String} {index : Nat} {words : Array Word}

/-- What is there can be changed, if the number fits. -/
theorem setProto_eq {site : Nat} (h : site < words.size) :
    setProto caller index words site =
      (Program.setProto index words site).mapError fun e => .refused (.field caller e) := by
  rw [setProto, Program.setProto, Array.getElem?_eq_getElem h]
  dsimp only
  cases words[site].set .bx index with
  | error e => rfl
  | ok w => rfl

theorem foldlM_setProto {sites : List Nat} (h : ∀ s ∈ sites, s < words.size) :
    sites.foldlM (setProto caller index) words =
      (sites.foldlM (Program.setProto index) words).mapError fun e =>
        .refused (.field caller e) := by
  induction sites generalizing words with
  | nil => rfl
  | cons site sites ih =>
    rw [List.foldlM_cons, List.foldlM_cons, setProto_eq (h site List.mem_cons_self)]
    cases hset : Program.setProto index words site with
    | error e => rfl
    | ok words' =>
      refine ih (fun s hs => ?_)
      rw [(Program.setProto_spec hset).1]
      exact h s (List.mem_cons_of_mem _ hs)

theorem linkFrom_eq {sites : Patches} {protos : Array Function} {names : List String}
    (h : ∀ name, ∀ s ∈ sites.sites name, s < words.size) :
    linkFrom p caller index sites words protos names =
      (p.linkFrom caller index sites words protos names).mapError .refused := by
  induction names generalizing index sites words protos with
  | nil => rfl
  | cons name rest ih =>
    rw [linkFrom, Program.linkFrom]
    cases p.function? name with
    | none => rfl
    | some sub =>
      simp only [Patches.take, foldlM_setProto (h name)]
      cases hfold : (sites.sites name).foldlM (Program.setProto index) words with
      | error e => rfl
      | ok words' =>
        refine ih ?_
        intro n s hs
        rw [(Program.foldlM_setProto_spec hfold).1]
        exact h n s (Patches.mem_sites_erase.mp hs).2

/-- Linking in place does what linking does, if everything that waits is there. -/
theorem link_eq {f : Function} (h : ∀ name, ∀ s ∈ f.protoSites.sites name, s < f.words.size) :
    link p f = (p.link f).mapError .refused := by
  rw [link, Program.link, linkFrom_eq h]
  cases p.linkFrom f.name 0 f.protoSites f.words #[] f.subroutines.toList with
  | error e => rfl
  | ok r => rfl

end InPlace

/-! ## Runs -/

/-- **Where finished functions come from.** Each of them was the open function of some state of a
run, and nothing of it waited for a label then. -/
theorem Assembler.Reachable.exists_draft {a : Assembler} (ha : a.Reachable) {key : String}
    {f : Function} (hf : (key, f) ∈ a.finished) :
    ∃ (a₀ : Assembler) (d : Draft), a₀.Reachable ∧ a₀.draft = some d ∧ d.toFunction = f ∧
      d.labels.pending.isEmpty = true := by
  obtain ⟨lines, rfl⟩ := ha
  induction lines using List.reverseRecOn with
  | nil => exact absurd hf List.not_mem_nil
  | append_singleton lines line ih =>
    rw [feedAll_append] at hf
    rcases (feed_step (({} : Assembler).feedAll lines) line).finished with
      hkeep | ⟨d, hd, -, hopen, hadd⟩
    · exact ih (hkeep ▸ hf)
    · rcases List.mem_cons.mp (hadd ▸ hf) with hnew | hold
      · refine ⟨_, d, ⟨lines, rfl⟩, hd, (Prod.mk.inj hnew).2.symm, ?_⟩
        exact List.isEmpty_iff.mpr (List.map_eq_nil_iff.mp hopen)
      · exact ih hold

/-- The open function is booked correctly. -/
theorem Assembler.Reachable.booked {a : Assembler} (ha : a.Reachable) {d : Draft}
    (hd : a.draft = some d) :
    d.labels.Booked d.words ∧ d.protoSites.Booked d.subroutines d.words := by
  obtain ⟨blocks, htracks⟩ := ha.tracks
  obtain ⟨b, rest, -, hb⟩ := htracks.draft d hd
  exact ⟨hb.booked_labels, hb.booked_protos⟩

/-- **Patches never dangle.** In every state of every run the open function is booked correctly. So
is every finished one; it was the open function of a state of a run, and nothing of it waited for a
label then. Hence an assembler that works in place never looks for an instruction that is not there,
whatever line is fed next, and neither does linking in place, for any function of a program that the
input ends with. -/
theorem patches_never_dangle {a : Assembler} (ha : a.Reachable) :
    (∀ d, a.draft = some d →
      d.labels.Booked d.words ∧ d.protoSites.Booked d.subroutines d.words) ∧
    (∀ key f, (key, f) ∈ a.finished →
      f.protoSites.Booked f.subroutines f.words ∧
        ∃ (a₀ : Assembler) (d : Draft), a₀.Reachable ∧ a₀.draft = some d ∧ d.toFunction = f ∧
          d.labels.Booked d.words ∧ d.labels.pending.isEmpty = true) ∧
    (∀ line site a', (InPlace.feed line).run a ≠ .error (.noWord site) a') ∧
    ∀ strict p, (a.finish strict).2 = .ok p → ∀ key f, p.function? key = some f →
      InPlace.link p f = (p.link f).mapError .refused := by
  obtain ⟨blocks, htracks⟩ := ha.tracks
  refine ⟨fun d hd => ha.booked hd, ?_, ?_, ?_⟩
  · intro key f hf
    obtain ⟨a₀, d, ha₀, hd, rfl, hnone⟩ := ha.exists_draft hf
    obtain ⟨hlabels, hprotos⟩ := ha₀.booked hd
    exact ⟨hprotos, a₀, d, ha₀, hd, rfl, hlabels, hnone⟩
  · intro line site a' hstop
    rw [InPlace.feed_eq htracks line] at hstop
    split at hstop <;> cases hstop
  · intro strict p hp key f hf
    obtain ⟨hclose, hfunctions⟩ := Assembler.finish_eq_ok hp
    rw [Program.function?, hfunctions] at hf
    obtain ⟨b, -, d, hb, -, rfl⟩ := (htracks.close hclose).finished key f hf
    exact InPlace.link_eq fun name s hs => hb.booked_protos.lt_size hs

/-- A function with two subroutines, one of which it refers to twice, a label, a jump that waits and
a rejected line, behind a finished function. -/
def bookedLines : List String :=
  [".upvalues 0", ".func done 2 0 0", ".begin_code", "jmp 0 $out", "closure %0 leaf", "out:",
    ".end_code", ".func open 3 0 0", ".begin_code", "closure %0 first", "top:", "jmp 0 $end",
    "closure %1 second", "closure %2 leaf", "jmp 0 $top", "closure %2 first"]

/-- In the open function one jump waits, and three closures in two buckets. -/
theorem patches_never_dangle_waiting :
    ∃ (a : Assembler) (d : Draft), a.Reachable ∧ a.draft = some d ∧
      d.labels.pending.allSites = [1] ∧ d.protoSites.allSites = [0, 4, 2] ∧
      (a.finished.map Prod.fst = ["done"]) ∧
      d.labels.Booked d.words ∧ d.protoSites.Booked d.subroutines d.words := by
  have hlook : (({} : Assembler).feedAll bookedLines).draft.map
      (fun d => (d.labels.pending.allSites, d.protoSites.allSites)) = some ([1], [0, 4, 2]) := by
    decide +kernel
  have hkeys : (({} : Assembler).feedAll bookedLines).finished.map Prod.fst = ["done"] := by
    decide +kernel
  obtain ⟨d, hd, hsites⟩ := Option.map_eq_some_iff.mp hlook
  obtain ⟨hlabels, hprotos⟩ := Prod.mk.inj hsites
  have hbooked := (patches_never_dangle ⟨bookedLines, rfl⟩).1 d hd
  exact ⟨_, d, ⟨bookedLines, rfl⟩, hd, hlabels, hprotos, hkeys, hbooked.1, hbooked.2⟩

end ChunkAsm
