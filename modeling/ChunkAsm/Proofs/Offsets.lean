import ChunkAsm.Proofs.Derivation
import ChunkAsm.Proofs.Patches
import Mathlib.Algebra.Ring.Nat

/-!
# Where the items stand

An instruction takes one word or two, every other item none, so the items of a block tell where each
of them stands among the words of the function. `Item.places` lists the places of the items with a
given property.

The bookkeeping of a draft is then a function of its items: the number of words, the targets of the
labels, the jumps that wait. From it follows what becomes of an instruction once it is assembled
(`Assembles.emitted`): later lines add words and constants behind it and change nothing in it but
the distance of a jump.
-/

namespace ChunkAsm

namespace Item

/-- The number of words that an item takes. -/
def width : Item → Nat
  | .instruction op os _ => op.wordCount os
  | _ => 0

/-- The number of words that items take. -/
def offset (items : List Item) : Nat := (items.map width).sum

/-- Whether an item is an instruction with a given operand. -/
def writes (o : Operand) : Item → Bool
  | .instruction _ os _ => decide (o ∈ os)
  | _ => false

/-- The places of the items with a given property: the number of words before each of them, in
order, counted from `start`. -/
def places (q : Item → Bool) (start : Nat) : List Item → List Nat
  | [] => []
  | i :: rest =>
    if q i then start :: places q (start + i.width) rest else places q (start + i.width) rest

@[simp] theorem offset_nil : offset [] = 0 := rfl

@[simp] theorem offset_cons (i : Item) (items : List Item) :
    offset (i :: items) = i.width + offset items := by
  simp [offset]

@[simp] theorem offset_append (xs ys : List Item) : offset (xs ++ ys) = offset xs + offset ys := by
  simp [offset]

theorem places_append (q : Item → Bool) (start : Nat) (xs ys : List Item) :
    places q start (xs ++ ys) = places q start xs ++ places q (start + offset xs) ys := by
  induction xs generalizing start with
  | nil => rfl
  | cons i xs ih =>
    simp only [List.cons_append, places, offset_cons, ih, Nat.add_assoc]
    split <;> rfl

/-- What one more item adds to the places. -/
theorem places_concat (q : Item → Bool) (start : Nat) (xs : List Item) (i : Item) :
    places q start (xs ++ [i]) = places q start xs ++ if q i then [start + offset xs] else [] := by
  rw [places_append]
  rfl

theorem mem_places {q : Item → Bool} {start s : Nat} {items : List Item} :
    s ∈ places q start items ↔
      ∃ before i after, items = before ++ i :: after ∧ q i = true ∧ s = start + offset before := by
  constructor
  · intro h
    induction items generalizing start with
    | nil => exact absurd h List.not_mem_nil
    | cons i rest ih =>
      rw [places] at h
      by_cases hq : q i
      · rw [if_pos hq] at h
        rcases List.mem_cons.mp h with rfl | h
        · exact ⟨[], i, rest, rfl, hq, rfl⟩
        · obtain ⟨before, j, after, rfl, hj, rfl⟩ := ih h
          exact ⟨i :: before, j, after, rfl, hj, by simp [Nat.add_assoc]⟩
      · rw [if_neg hq] at h
        obtain ⟨before, j, after, rfl, hj, rfl⟩ := ih h
        exact ⟨i :: before, j, after, rfl, hj, by simp [Nat.add_assoc]⟩
  · rintro ⟨before, i, after, rfl, hq, rfl⟩
    simp [places_append, places, hq]

theorem places_eq_nil {q : Item → Bool} {start : Nat} {items : List Item} :
    places q start items = [] ↔ ∀ i ∈ items, q i = false := by
  rw [List.eq_nil_iff_forall_not_mem]
  constructor
  · intro h i hi
    obtain ⟨before, after, rfl⟩ := List.append_of_mem hi
    by_contra hq
    exact h _ (mem_places.mpr ⟨before, i, after, rfl, by simpa using hq, rfl⟩)
  · intro h s hs
    obtain ⟨before, i, after, rfl, hq, -⟩ := mem_places.mp hs
    rw [h i (by simp)] at hq
    cases hq

/-- Two items of a list are one and the same, or the words of one come before those of the other. -/
theorem offset_apart {before after before' after' : List Item} {x x' : Item}
    (h : before ++ x :: after = before' ++ x' :: after') :
    (before = before' ∧ x = x' ∧ after = after') ∨
      offset before + x.width ≤ offset before' ∨ offset before' + x'.width ≤ offset before := by
  rcases List.append_eq_append_iff.mp h with ⟨mid, rfl, hmid⟩ | ⟨mid, rfl, hmid⟩
  · rcases List.cons_eq_append_iff.mp hmid with ⟨rfl, hx⟩ | ⟨mid', rfl, -⟩
    · obtain ⟨rfl, rfl⟩ := List.cons.inj hx
      exact .inl ⟨(List.append_nil _).symm, rfl, rfl⟩
    · right; left
      simp only [offset_append, offset_cons]
      omega
  · rcases List.cons_eq_append_iff.mp hmid with ⟨rfl, hx⟩ | ⟨mid', rfl, -⟩
    · obtain ⟨rfl, rfl⟩ := List.cons.inj hx
      exact .inl ⟨List.append_nil _, rfl, rfl⟩
    · right; right
      simp only [offset_append, offset_cons]
      omega

/-- Two instructions do not stand at one place: what has its place among those that write an operand
writes it. -/
theorem mem_of_offset_mem_places {before after : List Item} {op : Opcode} {os : List Operand}
    {line : Option Nat} {o : Operand}
    (h : offset before ∈ places (writes o) 0 (before ++ .instruction op os line :: after)) :
    o ∈ os := by
  obtain ⟨before', i, after', hitems, hi, hoff⟩ := mem_places.mp h
  cases i with
  | instruction op' os' line' =>
    have hpos := op.wordCount_pos os
    have hpos' := op'.wordCount_pos os'
    rcases offset_apart hitems with ⟨-, hi', -⟩ | hlt | hlt
    · obtain ⟨-, rfl, -⟩ := Item.instruction.inj hi'
      exact of_decide_eq_true hi
    · simp only [width] at hlt
      omega
    · simp only [width] at hlt
      omega
  | _ => cases hi

/-- The splits of a list with one more item: the new item is the one that is split off, or it comes
last behind it. -/
theorem concat_eq_split {items before after : List Item} {x y : Item}
    (h : items ++ [y] = before ++ x :: after) :
    (before = items ∧ x = y ∧ after = []) ∨
      ∃ after', after = after' ++ [y] ∧ items = before ++ x :: after' := by
  rcases List.eq_nil_or_concat after with rfl | ⟨after', z, rfl⟩
  · obtain ⟨rfl, hx⟩ := List.append_inj' h rfl
    exact .inl ⟨rfl, (List.cons.inj hx).1.symm, rfl⟩
  · rw [List.concat_eq_append, ← List.cons_append, ← List.append_assoc] at h
    obtain ⟨rfl, hz⟩ := List.append_inj' h rfl
    obtain rfl := (List.cons.inj hz).1
    exact .inr ⟨after', List.concat_eq_append, rfl⟩

end Item

/-! ## Labels of a draft -/

namespace Labels

variable (l : Labels) (name : String)

theorem sites_declare (target : Nat) (n : String) :
    (l.declare name target).sites n = if n = name then [] else l.sites n :=
  Patches.sites_erase l.pending name n

theorem foldl_defer (names : List String) (site : Nat) :
    names.foldl (fun l name => l.defer name site) l =
      { l with pending := names.foldl (fun p name => p.defer name site) l.pending } := by
  induction names generalizing l with
  | nil => rfl
  | cons name names ih => exact ih (l.defer name site)

end Labels

namespace Draft

variable {d : Draft} {label : String}

theorem waiting?_eq_some {o : Operand} :
    d.waiting? o = some label ↔ o = .location label ∧ d.labels.targets.lookup label = none := by
  cases o with
  | location l =>
    simp only [waiting?, Labels.resolved?, Option.isNone_map, Option.isNone_iff_eq_none]
    by_cases hl : d.labels.targets.lookup l = none
    · rw [if_pos hl]
      constructor
      · rintro ⟨⟩
        exact ⟨rfl, hl⟩
      · rintro ⟨⟨⟩, -⟩
        rfl
    · rw [if_neg hl]
      constructor
      · rintro ⟨⟩
      · rintro ⟨⟨⟩, h⟩
        exact absurd h hl
  | _ => simp [waiting?]

/-- An instruction waits for a label at most once. -/
theorem count_waiting? {op : Opcode} {os : List Operand} (hs : Operand.SuitAll op.slots os) :
    (os.filterMap d.waiting?).count label =
      if .location label ∈ os ∧ d.labels.targets.lookup label = none then 1 else 0 := by
  by_cases hl : .location label ∈ os
  · obtain ⟨slot, o, -, rfl, hne⟩ := hs.of_location hl
    have ho : d.waiting? o = none := by
      cases o with
      | location l => exact absurd rfl (hne l)
      | _ => rfl
    by_cases hd : d.labels.targets.lookup label = none
    · have hw : d.waiting? (.location label) = some label := waiting?_eq_some.mpr ⟨rfl, hd⟩
      simp [ho, hw, hd]
    · have hw : d.waiting? (.location label) = none := by
        rw [Option.eq_none_iff_forall_ne_some]
        intro l hl
        obtain ⟨⟨⟩, hn⟩ := waiting?_eq_some.mp hl
        exact hd hn
      simp [ho, hw, hd]
  · rw [if_neg fun h => hl h.1, List.count_eq_zero]
    intro hmem
    obtain ⟨o, ho, hw⟩ := List.mem_filterMap.mp hmem
    obtain ⟨rfl, -⟩ := waiting?_eq_some.mp hw
    exact hl ho

/-- What a label stores: the distances of the jumps that wait for it. -/
theorem getElem?_foldl_setJump {sites : List Nat} {delta : Nat → Int}
    (hf : ∀ s ∈ sites, Field.sbx.Fits (delta s)) (words : Array Word) (i : Nat) :
    (sites.foldl (fun words s => setJump words s (delta s)) words)[i]? =
      if i ∈ sites then words[i]?.map (·.store .sbx (delta i + Field.sbx.bias).toNat)
      else words[i]? := by
  have hone : ∀ (words : Array Word) (s : Nat), (setJump words s (delta s))[i]? =
      if i = s then words[i]?.map (·.store .sbx (delta i + Field.sbx.bias).toNat)
      else words[i]? := by
    intro words s
    rw [setJump]
    by_cases hi : i = s
    · subst hi
      cases hw : words[i]? with
      | none => simp [hw]
      | some w =>
        obtain ⟨hlt, -⟩ := Array.getElem?_eq_some_iff.mp hw
        simp [hlt]
    · cases hw : words[s]? with
      | none => simp [hi]
      | some w => simp [hi, Array.getElem?_setIfInBounds_ne (Ne.symm hi)]
  induction sites generalizing words with
  | nil => rfl
  | cons s sites ih =>
    rw [List.foldl_cons, ih (fun t ht => hf t (List.mem_cons_of_mem _ ht)), hone]
    by_cases hi : i = s
    · subst hi
      -- a site that comes twice is stored twice, which is the same
      have hfit := hf i List.mem_cons_self
      by_cases hin : i ∈ sites
      · simp [hin, Function.comp_def, Word.store_store _ _ hfit.toNat_lt]
      · simp [hin]
    · simp [hi]

theorem size_setJump (words : Array Word) (site : Nat) (delta : Int) :
    (setJump words site delta).size = words.size := by
  rw [setJump]
  split <;> simp

/-- If no distance of a jump to a label is too long, they all fit. -/
theorem fits_of_labelOverflow? (h : d.labelOverflow? label = none) {r : Nat × Int}
    (hr : r ∈ d.resolutions label) : Field.sbx.Fits r.2 := by
  by_contra hno
  have := List.findSome?_eq_none_iff.mp h _ hr
  rw [if_neg hno] at this
  cases this

/-- The words after a label: the jumps that wait for it have their distances, the others stay. -/
theorem getElem?_words_declareLabel {i : Nat} {w : Word} (h : d.labelOverflow? label = none)
    (hw : d.words[i]? = some w) :
    ∃ w', (d.declareLabel label).words[i]? = some w' ∧
      if i ∈ d.labels.sites label then w.set .sbx (jumpDelta d.words.size i) = .ok w'
      else w' = w := by
  have hfits : ∀ s ∈ d.labels.sites label, Field.sbx.Fits (jumpDelta d.words.size s) := fun s hs =>
    fits_of_labelOverflow? h (List.mem_map.mpr ⟨s, hs, rfl⟩)
  have hwords : (d.declareLabel label).words[i]? =
      if i ∈ d.labels.sites label then
        d.words[i]?.map (·.store .sbx (jumpDelta d.words.size i + Field.sbx.bias).toNat)
      else d.words[i]? := by
    simp only [declareLabel, resolutions, Labels.resolutions, List.foldl_map]
    exact getElem?_foldl_setJump hfits d.words i
  rw [hwords, hw]
  by_cases hi : i ∈ d.labels.sites label
  · refine ⟨_, if_pos hi, ?_⟩
    rw [if_pos hi]
    exact Word.set_eq_ok.mpr ⟨hfits i hi, rfl⟩
  · exact ⟨w, if_neg hi, by rw [if_neg hi]⟩

@[simp] theorem size_words_declareLabel (d : Draft) (label : String) :
    (d.declareLabel label).words.size = d.words.size := by
  have hall : ∀ (found : List (Nat × Int)) (words : Array Word),
      (found.foldl (fun words r => setJump words r.1 r.2) words).size = words.size := by
    intro found
    induction found with
    | nil => exact fun _ => rfl
    | cons r found ih => exact fun words => (ih _).trans (size_setJump words r.1 r.2)
  exact hall _ _

@[simp] theorem targets_emit (d : Draft) (m : Emission) (fresh : List String) :
    (d.emit m fresh).labels.targets = d.labels.targets := by
  simp [emit, Labels.foldl_defer]

/-- The jumps that wait after an instruction: it waits as often as it names a label. -/
theorem sites_emit (d : Draft) (m : Emission) (fresh : List String) (n : String) :
    (d.emit m fresh).labels.sites n =
      d.labels.sites n ++ List.replicate (m.labels.count n) d.words.size := by
  simp only [emit, Labels.foldl_defer, Labels.sites]
  exact Patches.sites_foldl_defer _ _ _ _

theorem getElem?_words_emit (d : Draft) (m : Emission) (fresh : List String) (i : Nat) :
    (d.emit m fresh).words[i]? = (d.words.toList ++ m.words)[i]? := by
  rw [← Array.getElem?_toList, toList_words_emit]

theorem getElem?_words_emit_self (d : Draft) (m : Emission) (fresh : List String) :
    (d.emit m fresh).words[d.words.size]? = some m.word := by
  rw [getElem?_words_emit, List.getElem?_append_right (by simp)]
  simp [Emission.words]

/-- Words that are there stay when others are appended. -/
theorem getElem?_words_emit_of_some {m : Emission} {fresh : List String} {i : Nat} {w : Word}
    (hw : d.words[i]? = some w) : (d.emit m fresh).words[i]? = some w := by
  obtain ⟨hlt, -⟩ := Array.getElem?_eq_some_iff.mp hw
  rw [getElem?_words_emit, List.getElem?_append_left (by simpa using hlt), Array.getElem?_toList,
    hw]

end Draft

/-! ## The bookkeeping of a draft -/

namespace Assembles

variable {b : Block} {d : Draft}

/-- **Size.** A draft has as many words as its items take. -/
theorem size_words (h : Assembles b d) : d.words.size = Item.offset b.items := by
  induction h with
  | begin => rfl
  | label name _ _ ih => simpa [Block.add, Item.width] using ih
  | constant c _ _ ih => simpa [Block.add, Item.width] using ih
  | upvalue u _ ih => simpa [Block.add, Item.width] using ih
  | instruction owners op os line m _ hs hm ih =>
    have hlen := (Draft.assemble_spec hm hs).length
    rw [← Array.length_toList, Draft.toList_words_emit]
    simp [Block.add, Item.width, ih, hlen]

/-- **Targets.** The target of a label is the place of its last declaration. -/
theorem lookup_targets (h : Assembles b d) (label : String) :
    d.labels.targets.lookup label =
      (Item.places (· == .label label) 0 b.items).getLast? := by
  induction h with
  | begin => rfl
  | label name h _ ih =>
    rw [Block.add, Item.places_concat]
    simp only [Draft.labels_declareLabel, Labels.declare, List.lookup_cons, h.size_words]
    by_cases hl : label = name
    · simp [hl]
    · rw [beq_eq_false_iff_ne.mpr hl, ih]
      simp [Ne.symm hl]
  | constant c _ _ ih =>
    rw [Block.add, Item.places_concat]
    simpa using ih
  | upvalue u _ ih =>
    rw [Block.add, Item.places_concat]
    simpa using ih
  | instruction owners op os line m _ hs hm ih =>
    rw [Block.add, Item.places_concat]
    simpa using ih

/-- A label has a target exactly if it is declared. -/
theorem lookup_targets_eq_none (h : Assembles b d) (label : String) :
    d.labels.targets.lookup label = none ↔ .label label ∉ b.items := by
  rw [h.lookup_targets, List.getLast?_eq_none_iff, Item.places_eq_nil]
  constructor
  · intro hall hmem
    simpa using hall _ hmem
  · rintro hno i hi
    simp only [beq_eq_false_iff_ne]
    rintro rfl
    exact hno hi

/-- **Waiting jumps.** What waits for a label are all jumps to it until it is declared, and nothing
afterwards. -/
theorem sites_labels (h : Assembles b d) (label : String) :
    d.labels.sites label =
      if .label label ∈ b.items then []
      else Item.places (Item.writes (.location label)) 0 b.items := by
  induction h with
  | begin => rfl
  | label name _ _ ih =>
    rw [Block.add, Item.places_concat, Draft.labels_declareLabel, Labels.sites_declare]
    by_cases hl : label = name
    · simp [hl]
    · rw [if_neg hl]
      simpa [hl, Item.writes] using ih
  | constant c _ _ ih =>
    rw [Block.add, Item.places_concat]
    simpa [Item.writes] using ih
  | upvalue u _ ih =>
    rw [Block.add, Item.places_concat]
    simpa [Item.writes] using ih
  | @instruction b d owners op os line m h hs hm ih =>
    have hnone := h.lookup_targets_eq_none label
    rw [Block.add, Item.places_concat, Draft.sites_emit, (Draft.assemble_spec hm hs).labels,
      Draft.count_waiting? hs, h.size_words, ih]
    by_cases hl : .label label ∈ b.items
    · simp [hl, mt hnone.mp (not_not_intro hl)]
    · by_cases hw : .location label ∈ os
      · simp [hl, hw, hnone.mpr hl, Item.writes]
      · simp [hl, hw, Item.writes]

/-- A jump that waits is an instruction with the label as its operand. -/
theorem exists_of_mem_sites (h : Assembles b d) {label : String} {s : Nat}
    (hs : s ∈ d.labels.sites label) :
    ∃ before op os line after, b.items = before ++ .instruction op os line :: after ∧
      .location label ∈ os ∧ s = Item.offset before := by
  rw [h.sites_labels] at hs
  split at hs
  · exact absurd hs List.not_mem_nil
  · obtain ⟨before, i, after, hitems, hw, rfl⟩ := Item.mem_places.mp hs
    cases i with
    | instruction op os line =>
      exact ⟨before, op, os, line, after, hitems, of_decide_eq_true hw, Nat.zero_add _⟩
    | _ => cases hw

/-- An instruction that waits for a label has the label as its operand. -/
theorem location_of_mem_sites (h : Assembles b d) {before after : List Item} {op : Opcode}
    {os : List Operand} {line : Option Nat} {label : String}
    (hitems : b.items = before ++ .instruction op os line :: after)
    (hs : Item.offset before ∈ d.labels.sites label) : .location label ∈ os := by
  rw [h.sites_labels] at hs
  split at hs
  · exact absurd hs List.not_mem_nil
  · rw [hitems] at hs
    exact Item.mem_of_offset_mem_places hs

end Assembles

/-! ## What becomes of an instruction -/

/-- The words of an emission stand at a place of a draft. The distance of a jump may have been
stored since. -/
structure Draft.Keeps (d : Draft) (site : Nat) (os : List Operand) (m : Emission) : Prop where
  /-- the instruction has its opcode, and unless it is a jump it is as it was -/
  word : ∃ w, d.words[site]? = some w ∧ w.opcode? = m.word.opcode? ∧
    ((∀ label, .location label ∉ os) → w = m.word)
  /-- the extra word comes next -/
  extra : ∀ x, m.extra = some x → d.words[site + 1]? = some x

namespace Draft.Keeps

variable {d : Draft} {site : Nat} {os : List Operand} {m : Emission}

/-- What is appended stands at the end. -/
theorem of_emit (d : Draft) (os : List Operand) (m : Emission) (fresh : List String) :
    (d.emit m fresh).Keeps d.words.size os m where
  word := ⟨m.word, getElem?_words_emit_self d m fresh, rfl, fun _ => rfl⟩
  extra := by
    intro x hx
    rw [getElem?_words_emit, List.getElem?_append_right (by simp)]
    simp [Emission.words, hx]

/-- What other instructions append does not matter. -/
theorem emit (h : d.Keeps site os m) (m' : Emission) (fresh : List String) :
    (d.emit m' fresh).Keeps site os m where
  word := by
    obtain ⟨w, hw, ho, hj⟩ := h.word
    exact ⟨w, getElem?_words_emit_of_some hw, ho, hj⟩
  extra := fun x hx => getElem?_words_emit_of_some (h.extra x hx)

/-- A label changes an instruction only if it is a jump, and never an extra word. -/
theorem declareLabel {b : Block} {before after : List Item} {op : Opcode} {line : Option Nat}
    {label : String} (h : d.Keeps (Item.offset before) os m) (hd : Assembles b d)
    (hitems : b.items = before ++ .instruction op os line :: after)
    (hlen : m.words.length = op.wordCount os) (hfit : d.labelOverflow? label = none) :
    (d.declareLabel label).Keeps (Item.offset before) os m where
  word := by
    obtain ⟨w, hw, ho, hj⟩ := h.word
    obtain ⟨w', hw', hset⟩ := getElem?_words_declareLabel hfit hw
    refine ⟨w', hw', ?_, ?_⟩
    · split at hset
      · rw [Word.opcode?_set hset, ho]
      · rw [hset, ho]
    · intro hno
      split at hset
      · rename_i hs
        exact absurd (hd.location_of_mem_sites hitems hs) (hno label)
      · rw [hset, hj hno]
  extra := by
    intro x hx
    obtain ⟨w', hw', hset⟩ := getElem?_words_declareLabel hfit (h.extra x hx)
    rw [hw']
    split at hset
    · -- no instruction stands at the place of an extra word
      rename_i hs
      obtain ⟨before', op', os', line', after', hitems', hl, hoff⟩ := hd.exists_of_mem_sites hs
      have htwo : op.wordCount os = 2 := by
        rw [← hlen, Emission.words, hx]
        rfl
      rcases Item.offset_apart (hitems.symm.trans hitems') with ⟨rfl, -, -⟩ | hlt | hlt
      · omega
      · simp only [Item.width] at hlt
        omega
      · have hpos := op'.wordCount_pos os'
        simp only [Item.width] at hlt
        omega
    · rw [hset]

end Draft.Keeps

/-- **An instruction stays.** Every instruction of a block was assembled in the draft of the items
before it. Its words stand at its place, and the pool has grown behind its constants. -/
theorem Assembles.emitted {b : Block} {d : Draft} (h : Assembles b d) {before after : List Item}
    {op : Opcode} {os : List Operand} {line : Option Nat}
    (hitems : b.items = before ++ .instruction op os line :: after) :
    ∃ d₀ m, Assembles { b with items := before } d₀ ∧ Operand.SuitAll op.slots os ∧
      d₀.Emits op os m ∧ d.Keeps (Item.offset before) os m ∧
      ∃ cs, d.constants = (d₀.constants.insertAll m.constants).insertAll cs := by
  induction h generalizing after with
  | begin => exact absurd hitems (by simp)
  | label name h hfit ih =>
    rcases Item.concat_eq_split hitems with ⟨-, hi, -⟩ | ⟨after', -, hitems⟩
    · cases hi
    · obtain ⟨d₀, m, h₀, hs, he, hk, hp⟩ := ih hitems
      exact ⟨d₀, m, h₀, hs, he, hk.declareLabel h hitems he.length hfit, hp⟩
  | constant c h hc ih =>
    rcases Item.concat_eq_split hitems with ⟨-, hi, -⟩ | ⟨after', -, hitems⟩
    · cases hi
    · obtain ⟨d₀, m, h₀, hs, he, hk, cs, hp⟩ := ih hitems
      refine ⟨d₀, m, h₀, hs, he, { hk with }, cs ++ [c], ?_⟩
      rw [Draft.constants_addConstant, hp, Pool.insertAll_append]
      rfl
  | upvalue u h ih =>
    rcases Item.concat_eq_split hitems with ⟨-, hi, -⟩ | ⟨after', -, hitems⟩
    · cases hi
    · obtain ⟨d₀, m, h₀, hs, he, hk, hp⟩ := ih hitems
      exact ⟨d₀, m, h₀, hs, he, { hk with }, hp⟩
  | instruction owners op' os' line' m' h hs' hm' ih =>
    rcases Item.concat_eq_split hitems with ⟨rfl, hi, -⟩ | ⟨after', -, hitems⟩
    · obtain ⟨rfl, rfl, rfl⟩ := Item.instruction.inj hi
      refine ⟨_, m', h, hs', Draft.assemble_spec hm' hs', ?_, [], rfl⟩
      rw [← h.size_words]
      exact .of_emit _ _ _ _
    · obtain ⟨d₀, m, h₀, hs, he, hk, cs, hp⟩ := ih hitems
      refine ⟨d₀, m, h₀, hs, he, hk.emit m' _, cs ++ m'.constants, ?_⟩
      rw [Draft.constants_emit, hp, Pool.insertAll_append]

/-- The place of an instruction is the index of one of the words. -/
theorem Assembles.offset_lt_size {b : Block} {d : Draft} (h : Assembles b d)
    {before after : List Item} {op : Opcode} {os : List Operand} {line : Option Nat}
    (hitems : b.items = before ++ .instruction op os line :: after) :
    Item.offset before < d.words.size := by
  obtain ⟨d₀, m, -, -, -, hk, -⟩ := h.emitted hitems
  obtain ⟨w, hw, -⟩ := hk.word
  exact (Array.getElem?_eq_some_iff.mp hw).1

end ChunkAsm
