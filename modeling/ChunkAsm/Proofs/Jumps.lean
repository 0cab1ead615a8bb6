import ChunkAsm.Proofs.Offsets

/-!
# Jumps reach their labels

A jump to a label goes to the last declaration before it or, if there is none, to the first one after
it. `Item.target?` says so in terms of the items of a block; `jumps_reach_labels` says that the
finished function has the distance to this place stored in the jump.

A place where a label may stand is a border between items. So no jump goes to the second word of an
instruction.
-/

namespace ChunkAsm

namespace Item

/-- The target of an operand `$label` of the item `use`, which stands between `before` and `after`:
the place of the last declaration before it or, if there is none, of the first one after it. -/
def target? (label : String) (before : List Item) (use : Item) (after : List Item) : Option Nat :=
  (places (· == .label label) 0 before).getLast?.or
    (places (· == .label label) (offset (before ++ [use])) after).head?

/-- The places of the extra words behind instructions of two words. -/
def extraPlaces (items : List Item) : List Nat := (places (·.width == 2) 0 items).map (· + 1)

variable {label : String} {before after : List Item} {use : Item}

/-- Without another declaration of the label the target stays. -/
theorem target?_concat_of_ne {i : Item} (hi : i ≠ .label label) :
    target? label before use (after ++ [i]) = target? label before use after := by
  rw [target?, target?, places_concat, if_neg (by simpa using hi), List.append_nil]

/-- Another declaration is the target if there was none before. -/
theorem target?_concat_label :
    target? label before use (after ++ [.label label]) =
      (target? label before use after).or (some (offset (before ++ use :: after))) := by
  rw [target?, target?, places_concat, if_pos (by simp), List.head?_append, Option.or_assoc]
  simp [Nat.add_assoc]

theorem target?_eq_none :
    target? label before use after = none ↔ .label label ∉ before ∧ .label label ∉ after := by
  have hnil : ∀ start items,
      places (· == .label label) start items = [] ↔ .label label ∉ items := by
    intro start items
    rw [places_eq_nil]
    constructor
    · intro hall hmem
      simpa using hall _ hmem
    · intro hno i hi
      rw [beq_eq_false_iff_ne]
      rintro rfl
      exact hno hi
  rw [target?, Option.or_eq_none_iff, List.getLast?_eq_none_iff, List.head?_eq_none_iff, hnil, hnil]

/-- A target is the place of a declaration. -/
theorem exists_of_target? {t : Nat} (h : target? label before use after = some t) :
    ∃ pre post, before ++ use :: after = pre ++ .label label :: post ∧ t = offset pre := by
  rw [target?, Option.or_eq_some_iff] at h
  rcases h with h | ⟨-, h⟩
  · obtain ⟨pre, i, post, rfl, hi, rfl⟩ := mem_places.mp (List.mem_of_getLast? h)
    obtain rfl := eq_of_beq hi
    exact ⟨pre, post ++ use :: after, by simp, Nat.zero_add _⟩
  · obtain ⟨pre, i, post, rfl, hi, rfl⟩ := mem_places.mp (List.mem_of_head? h)
    obtain rfl := eq_of_beq hi
    exact ⟨before ++ use :: pre, post, by simp, by simp [Nat.add_assoc]⟩

/-- A border between items is not the place of an extra word. -/
theorem ne_of_mem_extraPlaces {pre post : List Item} {i : Item} {j : Nat}
    (hj : j ∈ extraPlaces (pre ++ i :: post)) : j ≠ offset pre := by
  obtain ⟨s, hs, rfl⟩ := List.mem_map.mp hj
  obtain ⟨before, x, after, hitems, hx, rfl⟩ := mem_places.mp hs
  have htwo : x.width = 2 := by simpa using hx
  rcases offset_apart hitems with ⟨rfl, -, -⟩ | hlt | hlt
  · omega
  · omega
  · omega

end Item

namespace Assembles

variable {b : Block} {d : Draft}

/-- The extra words of a draft are extra arguments. -/
theorem extraArg_of_mem_extraPlaces (h : Assembles b d) {j : Nat}
    (hj : j ∈ Item.extraPlaces b.items) :
    ∃ x, d.words[j]? = some x ∧ x.opcode? = some .extraArg := by
  obtain ⟨s, hs, rfl⟩ := List.mem_map.mp hj
  obtain ⟨before, i, after, hitems, htwo, rfl⟩ := Item.mem_places.mp hs
  cases i with
  | instruction op os line =>
    obtain ⟨d₀, m, -, -, he, hk, -⟩ := h.emitted hitems
    have hlen : m.words.length = 2 := he.length.trans (by simpa [Item.width] using htwo)
    cases hx : m.extra with
    | none => simp [Emission.words, hx] at hlen
    | some x => exact ⟨x, by simpa using hk.extra x hx, he.extra x hx⟩
  | _ => cases htwo

/-- **A label stores the distances of the jumps that wait for it** and leaves those of the other
jumps alone. -/
theorem distance_declareLabel (h : Assembles b d) {name label : String}
    (hfit : d.labelOverflow? name = none) {before after : List Item} {op : Opcode}
    {os : List Operand} {line : Option Nat} {t : Nat}
    (hitems : b.items = before ++ .instruction op os line :: after) (hl : .location label ∈ os)
    (hold : ∀ t, Item.target? label before (.instruction op os line) after = some t →
      ∃ w, d.words[Item.offset before]? = some w ∧ w.get .sbx = jumpDelta t (Item.offset before))
    (ht : Item.target? label before (.instruction op os line) (after ++ [.label name]) = some t) :
    ∃ w, (d.declareLabel name).words[Item.offset before]? = some w ∧
      w.get .sbx = jumpDelta t (Item.offset before) := by
  obtain ⟨d₀, m, -, hs, -, hk, -⟩ := h.emitted hitems
  obtain ⟨w, hw, -⟩ := hk.word
  obtain ⟨w', hw', hset⟩ := Draft.getElem?_words_declareLabel hfit hw
  refine ⟨w', hw', ?_⟩
  by_cases hn : name = label
  · subst hn
    rw [Item.target?_concat_label] at ht
    cases hprev : Item.target? name before (.instruction op os line) after with
    | some t' =>
      -- the label was declared, so nothing waits for it
      rw [hprev, Option.some_or] at ht
      obtain rfl := Option.some.inj ht
      obtain ⟨pre, post, hsplit, -⟩ := Item.exists_of_target? hprev
      have hmem : .label name ∈ b.items := by
        rw [hitems, hsplit]
        simp
      rw [h.sites_labels, if_pos hmem, if_neg List.not_mem_nil] at hset
      obtain ⟨w₀, hw₀, hg⟩ := hold t' hprev
      obtain rfl := Option.some.inj (hw.symm.trans hw₀)
      rw [hset, hg]
    | none =>
      -- the jump waits, and this declaration is the target
      rw [hprev, Option.none_or] at ht
      obtain rfl := Option.some.inj ht
      obtain ⟨hb, ha⟩ := Item.target?_eq_none.mp hprev
      have hno : .label name ∉ b.items := by
        rw [hitems]
        simp [hb, ha]
      have hwait : Item.offset before ∈ d.labels.sites name := by
        rw [h.sites_labels, if_neg hno]
        exact Item.mem_places.mpr
          ⟨before, _, after, hitems, decide_eq_true hl, (Nat.zero_add _).symm⟩
      rw [if_pos hwait, h.size_words, hitems] at hset
      exact Word.get_set hset
  · -- a declaration of another label, for which this jump does not wait
    rw [Item.target?_concat_of_ne (by simpa using hn)] at ht
    have hnot : Item.offset before ∉ d.labels.sites name := by
      intro hwait
      obtain ⟨slot, o, -, rfl, hne⟩ := hs.of_location hl
      rcases List.mem_pair.mp (h.location_of_mem_sites hitems hwait) with he | he
      · exact hne name he.symm
      · exact hn (Operand.location.inj he)
    rw [if_neg hnot] at hset
    obtain ⟨w₀, hw₀, hg⟩ := hold t ht
    obtain rfl := Option.some.inj (hw.symm.trans hw₀)
    rw [hset, hg]

/-- **Distances.** In every draft a jump to a label that is declared has the distance to its target
stored. -/
theorem distance (h : Assembles b d) {before after : List Item} {op : Opcode} {os : List Operand}
    {line : Option Nat} {label : String} {t : Nat}
    (hitems : b.items = before ++ .instruction op os line :: after) (hl : .location label ∈ os)
    (ht : Item.target? label before (.instruction op os line) after = some t) :
    ∃ w, d.words[Item.offset before]? = some w ∧
      w.get .sbx = jumpDelta t (Item.offset before) := by
  induction h generalizing after t with
  | begin => exact absurd hitems (by simp)
  | label name h hfit ih =>
    rcases Item.concat_eq_split hitems with ⟨-, hi, -⟩ | ⟨after', rfl, hrest⟩
    · cases hi
    · exact h.distance_declareLabel hfit hrest hl (fun t => ih hrest) ht
  | constant c h hc ih =>
    rcases Item.concat_eq_split hitems with ⟨-, hi, -⟩ | ⟨after', rfl, hrest⟩
    · cases hi
    · rw [Item.target?_concat_of_ne (i := .constant c) (by simp)] at ht
      exact ih hrest ht
  | upvalue u h ih =>
    rcases Item.concat_eq_split hitems with ⟨-, hi, -⟩ | ⟨after', rfl, hrest⟩
    · cases hi
    · rw [Item.target?_concat_of_ne (i := .upvalue u) (by simp)] at ht
      exact ih hrest ht
  | @instruction b d owners op' os' line' m' h hs' hm' ih =>
    rcases Item.concat_eq_split hitems with ⟨rfl, hi, rfl⟩ | ⟨after', rfl, hrest⟩
    · obtain ⟨rfl, rfl, rfl⟩ := Item.instruction.inj hi
      -- the target lies before the jump, so the label has it when the jump is assembled
      have hlookup : d.labels.targets.lookup label = some t := by
        rw [h.lookup_targets]
        simpa [Item.target?, Item.places] using ht
      obtain ⟨slot, o, hslots, rfl, -⟩ := hs'.of_location hl
      obtain ⟨v, hv, hheld⟩ := (Draft.assemble_spec hm' hs').placed
        (Opcode.fieldSlot .sbx .location, .location label) (by simp [hslots])
      have hval : v = jumpDelta t d.words.size := by
        simpa [Draft.Means, Labels.resolved?, hlookup] using hv
      rw [← h.size_words, ← hval]
      exact ⟨m'.word, Draft.getElem?_words_emit_self _ _ _, hheld⟩
    · rw [Item.target?_concat_of_ne (i := .instruction op' os' line') (by simp)] at ht
      obtain ⟨w, hw, hg⟩ := ih hrest ht
      exact ⟨w, Draft.getElem?_words_emit_of_some hw, hg⟩

end Assembles

/-- In a completed function every label that a jump names is declared. -/
theorem Completes.exists_target {b : Block} {f : Function} (h : Completes b f)
    {before after : List Item} {op : Opcode} {os : List Operand} {line : Option Nat}
    {label : String} (hitems : b.items = before ++ .instruction op os line :: after)
    (hl : .location label ∈ os) :
    ∃ t, Item.target? label before (.instruction op os line) after = some t := by
  obtain ⟨d, hd, hopen, -⟩ := h
  rw [← Option.ne_none_iff_exists']
  intro hnone
  obtain ⟨hb, ha⟩ := Item.target?_eq_none.mp hnone
  have hno : .label label ∉ b.items := by
    rw [hitems]
    simp [hb, ha]
  -- otherwise the jump would still wait
  have hwait : Item.offset before ∈ d.labels.sites label := by
    rw [hd.sites_labels, if_neg hno]
    exact Item.mem_places.mpr
      ⟨before, _, after, hitems, decide_eq_true hl, (Nat.zero_add _).symm⟩
  rw [Labels.sites, Patches.sites_of_names_eq_nil _ hopen] at hwait
  exact absurd hwait List.not_mem_nil

/-- **Jumps reach their labels.** In every function of a program that comes from lines, a jump has
the distance to the target of its label stored, and the label has a target. No jump leaves the
function or goes to an extra word. -/
theorem jumps_reach_labels {lines : List String} {p : Program} {key : String} {f : Function}
    (h : Produces lines p) (hf : p.function? key = some f) :
    ∃ b, Block.last? lines key = some b ∧ f.words.size = Item.offset b.items ∧
      (∀ j ∈ Item.extraPlaces b.items, ∃ x, f.words[j]? = some x ∧ x.opcode? = some .extraArg) ∧
      ∀ before op os line after label,
        b.items = before ++ .instruction op os line :: after → .location label ∈ os →
        ∃ w t, f.words[Item.offset before]? = some w ∧ w.opcode? = some op ∧
          Item.target? label before (.instruction op os line) after = some t ∧
          w.get .sbx = (t : Int) - Item.offset before - 1 ∧
          0 ≤ Item.offset before + 1 + w.get .sbx ∧
          Item.offset before + 1 + w.get .sbx ≤ f.words.size ∧
          ∀ j ∈ Item.extraPlaces b.items, Item.offset before + 1 + w.get .sbx ≠ j := by
  obtain ⟨b, hb, hc⟩ := h.completes hf
  obtain ⟨d, hd, hopen, rfl⟩ := hc
  refine ⟨b, hb, hd.size_words, fun j hj => hd.extraArg_of_mem_extraPlaces hj, ?_⟩
  intro before op os line after label hitems hl
  obtain ⟨t, ht⟩ := Completes.exists_target ⟨d, hd, hopen, rfl⟩ hitems hl
  obtain ⟨w, hw, hg⟩ := hd.distance hitems hl ht
  obtain ⟨d₀, m, -, -, he, hk, -⟩ := hd.emitted hitems
  obtain ⟨w', hw', ho, -⟩ := hk.word
  obtain rfl := Option.some.inj (hw.symm.trans hw')
  obtain ⟨pre, post, hsplit, htp⟩ := Item.exists_of_target? ht
  rw [jumpDelta] at hg
  have hle : t ≤ d.words.size := by
    rw [hd.size_words, hitems, hsplit, htp, Item.offset_append]
    exact Nat.le_add_right _ _
  refine ⟨w, t, hw, ho.trans he.opcode, ht, hg, by omega, ?_, ?_⟩
  · have hsize : d.toFunction.words.size = d.words.size := rfl
    omega
  · intro j hj
    rw [hitems, hsplit] at hj
    have hne := Item.ne_of_mem_extraPlaces hj
    omega

/-- Lines with jumps in both directions, a label that is declared twice, an instruction of two words
and a line that is rejected. -/
def loopLines : List String :=
  [".upvalues 0", ".func main 2 0 0", ".begin_code", "jmp 0 $end", "top:", "loadkx %0 const nil",
    "jmp 0 $top", "jmp", "top:", "jmp 0 $top", "end:", ".end_code"]

/-- The jump behind the instruction of two words goes to the first of the two declarations. -/
theorem jumps_reach_labels_loop :
    ∃ p f w, Produces loopLines p ∧ p.function? "main" = some f ∧ f.words[3]? = some w ∧
      w.get .sbx = -3 := by
  have hrun : (((({} : Assembler).feedAll loopLines).finish false).2.toOption.bind
      (·.function? "main")).isSome = true := by
    decide +kernel
  obtain ⟨f, hf⟩ := Option.isSome_iff_exists.mp hrun
  obtain ⟨p, hp, hf⟩ := Produces.of_run hf
  obtain ⟨b, hb, -, -, hall⟩ := jumps_reach_labels hp hf
  have hlast : Block.last? loopLines "main" = some
      { name := "main"
        header := ⟨2, 0, .fixed⟩
        items :=
          [.instruction .jmp [.embedded 0, .location "end"] none, .label "top",
            .instruction .loadKX [.stack 0, .constant .nil] none] ++
          .instruction .jmp [.embedded 0, .location "top"] none ::
          [.label "top", .instruction .jmp [.embedded 0, .location "top"] none, .label "end"] } := by
    decide +kernel
  obtain rfl := Option.some.inj (hlast.symm.trans hb)
  obtain ⟨w, t, hw, -, ht, hg, -⟩ := hall _ _ _ _ _ "top" rfl (by decide)
  obtain rfl : 1 = t := Option.some.inj ht
  exact ⟨p, f, w, hp, hf, hw, hg⟩

end ChunkAsm
