import ChunkAsm.Proofs.Jumps

/-!
# The words of a block in two passes

The words of a function are assembled line by line, with labels and constants that may come later. A
block that is known as a whole can be encoded in **two passes** instead: the first collects the
constants and the places of the labels, the second encodes every instruction by itself, with the
values that its operands have in the end (`Item.words`). The words of a block are those of its
instructions, one after the other (`Block.words`).

Both ways lead to the same words (`Assembles.words_eq`). The induction is over the lines: an
instruction is encoded with the labels that are known, and a label that is declared later makes it
what the second pass makes of it at once.
-/

namespace ChunkAsm

/-! ## The second pass -/

/-- The value of an operand in a slot that accepts the given kinds, when all constants are in the
pool and the distances of all labels are known. -/
def Operand.value (pool : Pool) (distance : String → Int) (ks : Kinds) : Operand → Int
  | .stack n | .upvalue n | .embedded n => n
  | .location label => distance label
  | .constant c =>
    let i := (pool.position? c).getD 0
    if ks.stack then ((i ||| rkFlag : Nat) : Int) else i
  | .proto _ => 0

/-- The words of an instruction whose operands are placed. -/
def Encoding.words (e : Encoding) : Except FieldOverflow (List Word) :=
  match e.extra with
  | none => .ok [e.word]
  | some v => do .ok [e.word, ← Word.extraArg v]

/-- The words of an instruction. -/
def Opcode.encode (op : Opcode) (pool : Pool) (distance : String → Int) (os : List Operand) :
    Except FieldOverflow (List Word) := do
  let e ← (op.slots.zip os).foldlM
    (fun e x => e.place (x.2.value pool distance x.1.kinds) x.1.dest)
    { word := Word.ofOpcode op : Encoding }
  e.words

namespace Item

/-- The constants that an item writes. -/
def constants : Item → List Constant
  | .constant c => [c]
  | .instruction _ os _ => os.filterMap Operand.constant?
  | _ => []

/-- The distance from an item that stands between `before` and `after` to a label. -/
def distance (before : List Item) (i : Item) (after : List Item) (label : String) : Int :=
  ((target? label before i after).map (jumpDelta · (offset before))).getD Labels.unresolvedDelta

/-- The words of an item that stands between `before` and `after`. -/
def words (pool : Pool) (before : List Item) (i : Item) (after : List Item) :
    Except FieldOverflow (List Word) :=
  match i with
  | .instruction op os _ => op.encode pool (distance before i after) os
  | _ => .ok []

/-- The words of the items behind `before`, one after the other. -/
def wordsFrom (pool : Pool) (before : List Item) : List Item → Except FieldOverflow (List Word)
  | [] => .ok []
  | i :: after => do
    let here ← i.words pool before after
    let rest ← wordsFrom pool (before ++ [i]) after
    .ok (here ++ rest)

end Item

namespace Block

/-- The constants of a block. -/
def pool (b : Block) : Pool := ({} : Pool).insertAll (b.items.flatMap Item.constants)

/-- The words of a block. -/
def words (b : Block) : Except FieldOverflow (List Word) := Item.wordsFrom b.pool [] b.items

end Block

/-! ## Encoding again -/

/-- Only the last value that is stored in a field counts. -/
theorem Word.set_of_set {w w₁ w₂ : Word} {f : Field} {u v : Int} (h₁ : w.set f u = .ok w₁)
    (h₂ : w₁.set f v = .ok w₂) : w.set f v = .ok w₂ := by
  obtain ⟨hu, rfl⟩ := set_eq_ok.mp h₁
  obtain ⟨hv, rfl⟩ := set_eq_ok.mp h₂
  refine set_eq_ok.mpr ⟨hv, ext_toNat ?_⟩
  have hraw := raw_store_self w f hu.toNat_lt
  have hle : w.raw f * f.unit ≤ w.bits.toNat := by
    rw [raw]
    cases f <;> simp only [Field.unit, Field.size] <;> omega
  rw [toNat_store _ f hv.toNat_lt, hraw, toNat_store w f hu.toNat_lt, toNat_store w f hv.toNat_lt]
  omega

namespace Encoding

/-- What counts for the words: the constants, labels and subroutines of a line are left out. -/
def bare (e : Encoding) : Encoding := { word := e.word, extra := e.extra }

theorem place_bare {e e' : Encoding} {v : Int} {dest : Destination} (h : e.place v dest = .ok e') :
    e.bare.place v dest = .ok e'.bare := by
  cases dest with
  | field f =>
    obtain ⟨w, hw, h⟩ := bind_eq_ok.mp h
    obtain rfl := Except.ok.inj h
    exact bind_eq_ok.mpr ⟨w, hw, rfl⟩
  | extra =>
    obtain rfl := Except.ok.inj h
    rfl
  | cOrExtra =>
    simp only [place] at h ⊢
    split at h
    · rename_i hlt
      obtain ⟨w, hw, h⟩ := bind_eq_ok.mp h
      obtain rfl := Except.ok.inj h
      rw [if_pos hlt]
      exact bind_eq_ok.mpr ⟨w, hw, rfl⟩
    · rename_i hlt
      obtain ⟨w, hw, h⟩ := bind_eq_ok.mp h
      obtain rfl := Except.ok.inj h
      rw [if_neg hlt]
      exact bind_eq_ok.mpr ⟨w, hw, rfl⟩

/-- The first of the words can be exchanged without the others. -/
theorem words_eq_cons {e : Encoding} {w : Word} {rest : List Word} (h : e.words = .ok (w :: rest)) :
    e.word = w ∧ ∀ w', ({ e with word := w' } : Encoding).words = .ok (w' :: rest) := by
  rw [words] at h
  split at h
  · rename_i hx
    obtain ⟨rfl, rfl⟩ := List.cons.inj (Except.ok.inj h)
    exact ⟨rfl, fun w' => by simp only [words, hx]⟩
  · rename_i v hx
    obtain ⟨x, hextra, h⟩ := bind_eq_ok.mp h
    obtain ⟨rfl, rfl⟩ := List.cons.inj (Except.ok.inj h)
    refine ⟨rfl, fun w' => ?_⟩
    simp only [words, hx]
    exact bind_eq_ok.mpr ⟨x, hextra, rfl⟩

end Encoding

namespace Draft

variable {d : Draft}

/-- The distance to a label from the next instruction, as far as it is known. -/
def distance (d : Draft) (label : String) : Int :=
  (d.labels.resolved? label d.words.size).getD Labels.unresolvedDelta

/-- What an operand means when it is bound is its value in the second pass. -/
theorem Means.value_eq {pool : Pool} {ks : Kinds} {o : Operand} {v : Int} (h : d.Means pool ks o v)
    {distance : String → Int}
    (hd : ∀ label, o = .location label → distance label = d.distance label) :
    o.value pool distance ks = v := by
  cases o with
  | location label => exact (hd label rfl).trans (Eq.symm h)
  | constant c =>
    obtain ⟨k, hk, rfl⟩ := h
    simp [Operand.value, hk]
  | _ => exact Eq.symm h

/-- Operands that are encoded one by one are encoded alike in the second pass. -/
theorem encode_bare {owners : Owners} {xs : List (Slot × Operand)} {e e' : Encoding}
    (h : d.encode owners xs e = .ok e') (hs : ∀ x ∈ xs, x.2.Suits x.1.kinds)
    (hk : ∀ x ∈ xs, x.1.dest = .cOrExtra → x.1.kinds = .only .embedded)
    (ha : xs.Pairwise fun x y => x.1.dest.Apart y.1.dest) (hnew : d.constants.New e.constants)
    (cs : List Constant) {distance : String → Int}
    (hd : ∀ x ∈ xs, ∀ label, x.2 = .location label → distance label = d.distance label) :
    xs.foldlM (fun e x => e.place
        (x.2.value ((d.constants.insertAll e'.constants).insertAll cs) distance x.1.kinds) x.1.dest)
      e.bare = .ok e'.bare := by
  induction xs generalizing e with
  | nil =>
    obtain rfl := Except.ok.inj h
    rfl
  | cons x xs ih =>
    obtain ⟨slot, o⟩ := x
    obtain ⟨⟨v, e₁⟩, hb, h⟩ := bind_eq_ok.mp h
    obtain ⟨e₂, hp, h⟩ := bind_eq_ok.mp h
    obtain ⟨hw, hx, hnew₁, -, -, -, hmean⟩ := Draft.bind_spec hb (hs _ List.mem_cons_self) hnew
    have hp := mapError_eq_ok.mp hp
    obtain ⟨⟨hc₂, -, -⟩, -⟩ := Encoding.place_spec hp
    have hs' : ∀ y ∈ xs, y.2.Suits y.1.kinds := fun y hy => hs y (List.mem_cons_of_mem _ hy)
    have hk' : ∀ y ∈ xs, y.1.dest = .cOrExtra → y.1.kinds = .only .embedded :=
      fun y hy => hk y (List.mem_cons_of_mem _ hy)
    have ha' := (List.pairwise_cons.mp ha).2
    have hrest := Draft.encode_spec h hs' hk' ha' (hc₂ ▸ hnew₁)
    -- later operands extend the pool, which leaves this value alone
    have hvalue : o.value ((d.constants.insertAll e'.constants).insertAll cs) distance slot.kinds =
        v := by
      rw [hrest.pool, hc₂]
      exact ((hmean.insertAll _).insertAll _).value_eq (hd _ List.mem_cons_self)
    have hbare : e.bare = e₁.bare := by rw [Encoding.bare, Encoding.bare, hw, hx]
    rw [List.foldlM_cons, hvalue, hbare, Encoding.place_bare hp]
    exact ih h hs' hk' ha' (hc₂ ▸ hnew₁) fun y hy => hd y (List.mem_cons_of_mem _ hy)

/-- **What is assembled is what the second pass encodes**, if the distances are those that are known
when it is assembled. -/
theorem encode_eq_words {owners : Owners} {op : Opcode} {os : List Operand} {line : Option Nat}
    {m : Emission} (h : d.assemble owners op os line = .ok m) (hs : Operand.SuitAll op.slots os)
    (cs : List Constant) {distance : String → Int}
    (hd : ∀ label, .location label ∈ os → distance label = d.distance label) :
    op.encode ((d.constants.insertAll m.constants).insertAll cs) distance os = .ok m.words := by
  obtain ⟨e, he, h⟩ := bind_eq_ok.mp h
  have hbare := encode_bare he (fun x hx => List.forall₂_zip hs hx)
    (fun x hx => Opcode.kinds_of_cOrExtra (List.of_mem_zip hx).1) (Opcode.zip_apart hs)
    (Pool.new_nil _) cs (fun x hx label hl => hd label (hl ▸ (List.of_mem_zip hx).2))
  simp only at h
  split at h
  · rename_i hx
    obtain rfl := Except.ok.inj h
    refine bind_eq_ok.mpr ⟨e.bare, hbare, ?_⟩
    simp [Encoding.words, Encoding.bare, hx, Emission.words]
  · rename_i v hx
    obtain ⟨extra, hw, h⟩ := bind_eq_ok.mp h
    obtain rfl := Except.ok.inj h
    refine bind_eq_ok.mpr ⟨e.bare, hbare, ?_⟩
    have hw := mapError_eq_ok.mp hw
    cases hv : Word.extraArg v with
    | error err =>
      rw [hv] at hw
      cases hw
    | ok w =>
      rw [hv] at hw
      obtain rfl := Except.ok.inj hw
      simp only [Encoding.words, Encoding.bare, hx, hv]
      rfl

end Draft

/-- A jump with another distance differs in `sBx` only. -/
theorem Opcode.encode_jump {op : Opcode} {os : List Operand} {pool : Pool} {label : String}
    {old new : String → Int} {w w' : Word} {rest : List Word} (hs : Operand.SuitAll op.slots os)
    (hl : .location label ∈ os) (h : op.encode pool old os = .ok (w :: rest))
    (hset : w.set .sbx (new label) = .ok w') : op.encode pool new os = .ok (w' :: rest) := by
  obtain ⟨slot, o, hslots, rfl, hne⟩ := hs.of_location hl
  have hvalue : o.value pool old slot.kinds = o.value pool new slot.kinds := by
    cases o with
    | location l => exact absurd rfl (hne l)
    | _ => rfl
  simp only [encode, hslots, List.zip_cons_cons, List.zip_nil_left, List.foldlM_cons,
    List.foldlM_nil, bind_assoc, pure_bind] at h ⊢
  obtain ⟨e₁, hone, h⟩ := bind_eq_ok.mp h
  obtain ⟨e₂, htwo, h⟩ := bind_eq_ok.mp h
  obtain ⟨w₂, hset₂, htwo⟩ := bind_eq_ok.mp htwo
  obtain rfl := Except.ok.inj htwo
  obtain ⟨rfl, hwords⟩ := Encoding.words_eq_cons h
  have hplace : e₁.place (new label) (.field .sbx) = .ok { e₁ with word := w' } :=
    bind_eq_ok.mpr ⟨w', Word.set_of_set hset₂ hset, rfl⟩
  rw [← hvalue]
  exact bind_eq_ok.mpr ⟨e₁, hone, bind_eq_ok.mpr ⟨_, hplace, hwords w'⟩⟩

/-- Only the distances of the labels that are written matter. -/
theorem Opcode.encode_congr {op : Opcode} {os : List Operand} {pool : Pool}
    {old new : String → Int} (h : ∀ label, .location label ∈ os → new label = old label) :
    op.encode pool new os = op.encode pool old os := by
  have hfold : ∀ (xs : List (Slot × Operand)) (e : Encoding), (∀ x ∈ xs, x.2 ∈ os) →
      xs.foldlM (fun e x => e.place (x.2.value pool new x.1.kinds) x.1.dest) e =
        xs.foldlM (fun e x => e.place (x.2.value pool old x.1.kinds) x.1.dest) e := by
    intro xs
    induction xs with
    | nil => exact fun _ _ => rfl
    | cons x xs ih =>
      intro e hxs
      have hvalue : x.2.value pool new x.1.kinds = x.2.value pool old x.1.kinds := by
        have hmem := hxs x List.mem_cons_self
        cases hx : x.2 with
        | location label => exact h label (hx ▸ hmem)
        | _ => rfl
      rw [List.foldlM_cons, List.foldlM_cons, hvalue]
      exact bind_congr fun e' => ih e' fun y hy => hxs y (List.mem_cons_of_mem _ hy)
  rw [encode, encode, hfold _ _ fun x hx => (List.of_mem_zip hx).2]

/-! ## Both ways lead to the same words -/

namespace Assembles

variable {b : Block} {d : Draft}

/-- **Constants.** The pool of a draft holds the constants of its block. -/
theorem constants_eq (h : Assembles b d) : d.constants = b.pool := by
  have hadd : ∀ (b : Block) (i : Item), (b.add i).pool = b.pool.insertAll i.constants := by
    intro b i
    simp [Block.pool, Block.add, Pool.insertAll_append]
  induction h with
  | begin => rfl
  | label name _ _ ih => rw [hadd, ← ih]; rfl
  | constant c _ _ ih => rw [hadd, ← ih]; rfl
  | upvalue u _ ih => rw [hadd, ← ih]; rfl
  | instruction owners op os line m _ hs hm ih =>
    rw [hadd, ← ih, Draft.constants_emit, (Draft.assemble_spec hm hs).pool]
    rfl

/-- No jump waits at the place of an extra word. -/
theorem not_mem_sites_of_extra (h : Assembles b d) {j : Nat} (hj : j ∈ Item.extraPlaces b.items)
    (label : String) : j ∉ d.labels.sites label := by
  intro hs
  obtain ⟨before, op, os, line, after, hitems, -, rfl⟩ := h.exists_of_mem_sites hs
  exact Item.ne_of_mem_extraPlaces (hitems ▸ hj) rfl

/-- When an instruction is assembled, the distances that are known are those in the second pass. -/
theorem distance_eq (h : Assembles b d) (i : Item) (label : String) :
    Item.distance b.items i [] label = d.distance label := by
  have htarget : Item.target? label b.items i [] = d.labels.targets.lookup label := by
    rw [h.lookup_targets, Item.target?]
    simp [Item.places]
  rw [Item.distance, Draft.distance, htarget, Labels.resolved?, h.size_words]

/-- A declaration of a label that an instruction does not wait for leaves its distances alone. -/
theorem distance_concat_label (h : Assembles b d) {before after : List Item} {op : Opcode}
    {os : List Operand} {line : Option Nat} {name label : String}
    (hitems : b.items = before ++ .instruction op os line :: after) (hl : .location label ∈ os)
    (hno : Item.offset before ∉ d.labels.sites name) :
    Item.distance before (.instruction op os line) (after ++ [.label name]) label =
      Item.distance before (.instruction op os line) after label := by
  rw [Item.distance, Item.distance]
  congr 2
  by_cases hn : name = label
  · subst hn
    -- the label is declared already, since otherwise the instruction would wait for it
    have hmem : .label name ∈ b.items := by
      by_contra hnot
      rw [h.sites_labels, if_neg hnot] at hno
      exact hno (Item.mem_places.mpr
        ⟨before, _, after, hitems, decide_eq_true hl, (Nat.zero_add _).symm⟩)
    rw [Item.target?_concat_label]
    cases ht : Item.target? name before (.instruction op os line) after with
    | some t => rfl
    | none =>
      obtain ⟨hb, ha⟩ := Item.target?_eq_none.mp ht
      rw [hitems] at hmem
      simp [hb, ha] at hmem
  · exact Item.target?_concat_of_ne (by simpa using hn)

/-- A declaration of the label that an instruction waits for gives it its distance. -/
theorem distance_concat_waiting (h : Assembles b d) {before after : List Item} {op : Opcode}
    {os : List Operand} {line : Option Nat} {name : String}
    (hitems : b.items = before ++ .instruction op os line :: after)
    (hwait : Item.offset before ∈ d.labels.sites name) :
    Item.distance before (.instruction op os line) (after ++ [.label name]) name =
      jumpDelta d.words.size (Item.offset before) := by
  have hnot : .label name ∉ b.items := by
    intro hmem
    rw [h.sites_labels, if_pos hmem] at hwait
    exact absurd hwait List.not_mem_nil
  have hnone : Item.target? name before (.instruction op os line) after = none := by
    rw [hitems] at hnot
    exact Item.target?_eq_none.mpr ⟨fun hb => hnot (by simp [hb]), fun ha => hnot (by simp [ha])⟩
  rw [Item.distance, Item.target?_concat_label, hnone, h.size_words, hitems]
  rfl

/-- **An instruction of a draft is what the second pass makes of it**, with the labels that are
declared so far. Constants that come later do not matter. -/
theorem encoded (h : Assembles b d) {before after : List Item} {op : Opcode} {os : List Operand}
    {line : Option Nat} (hitems : b.items = before ++ .instruction op os line :: after)
    (cs : List Constant) :
    ∃ w x, op.encode (d.constants.insertAll cs)
        (Item.distance before (.instruction op os line) after) os = .ok (w :: x.toList) ∧
      (w :: x.toList).length = op.wordCount os ∧ d.words[Item.offset before]? = some w ∧
      ∀ y, x = some y → d.words[Item.offset before + 1]? = some y := by
  induction h generalizing after cs with
  | begin => exact absurd hitems (by simp)
  | @label b d name h hfit ih =>
    rcases Item.concat_eq_split hitems with ⟨-, hi, -⟩ | ⟨after', rfl, hrest⟩
    · cases hi
    · obtain ⟨w, x, henc, hlen, hw, hx⟩ := ih hrest cs
      obtain ⟨w', hw', hset⟩ := Draft.getElem?_words_declareLabel hfit hw
      have hextra : ∀ y, x = some y →
          (d.declareLabel name).words[Item.offset before + 1]? = some y := by
        intro y hy
        obtain ⟨y', hy', hsame⟩ := Draft.getElem?_words_declareLabel hfit (hx y hy)
        have htwo : (Item.instruction op os line).width = 2 := by
          rw [hy] at hlen
          exact hlen.symm
        have hplace : Item.offset before + 1 ∈ Item.extraPlaces b.items :=
          List.mem_map_of_mem (Item.mem_places.mpr
            ⟨before, _, after', hrest, by simp [htwo], (Nat.zero_add _).symm⟩)
        rw [if_neg (h.not_mem_sites_of_extra hplace name)] at hsame
        rw [hy', hsame]
      by_cases hwait : Item.offset before ∈ d.labels.sites name
      · obtain ⟨-, -, -, hs, -⟩ := h.emitted hrest
        rw [if_pos hwait, ← h.distance_concat_waiting hrest hwait] at hset
        exact ⟨w', x, Opcode.encode_jump hs (h.location_of_mem_sites hrest hwait) henc hset, hlen,
          hw', hextra⟩
      · rw [if_neg hwait] at hset
        subst hset
        refine ⟨w', x, ?_, hlen, hw', hextra⟩
        rw [← henc]
        exact Opcode.encode_congr fun label hl => h.distance_concat_label hrest hl hwait
  | constant c h hc ih =>
    rcases Item.concat_eq_split hitems with ⟨-, hi, -⟩ | ⟨after', rfl, hrest⟩
    · cases hi
    · obtain ⟨w, x, henc, hw⟩ := ih hrest (c :: cs)
      refine ⟨w, x, ?_, hw⟩
      rw [← henc]
      refine Opcode.encode_congr fun label hl => ?_
      rw [Item.distance, Item.distance, Item.target?_concat_of_ne (by simp)]
  | upvalue u h ih =>
    rcases Item.concat_eq_split hitems with ⟨-, hi, -⟩ | ⟨after', rfl, hrest⟩
    · cases hi
    · obtain ⟨w, x, henc, hw⟩ := ih hrest cs
      refine ⟨w, x, ?_, hw⟩
      rw [← henc]
      refine Opcode.encode_congr fun label hl => ?_
      rw [Item.distance, Item.distance, Item.target?_concat_of_ne (by simp)]
  | @instruction b d owners op' os' line' m' h hs' hm' ih =>
    rcases Item.concat_eq_split hitems with ⟨rfl, hi, rfl⟩ | ⟨after', rfl, hrest⟩
    · obtain ⟨rfl, rfl, rfl⟩ := Item.instruction.inj hi
      have hkeeps := Draft.Keeps.of_emit d os m'
        (m'.subroutines.filter fun name => name ∉ d.subroutines)
      rw [h.size_words] at hkeeps
      refine ⟨m'.word, m'.extra, ?_, (Draft.assemble_spec hm' hs').length, ?_, hkeeps.extra⟩
      · exact Draft.encode_eq_words hm' hs' cs fun label _ => h.distance_eq _ label
      · rw [← h.size_words]
        exact Draft.getElem?_words_emit_self _ _ _
    · obtain ⟨w, x, henc, hlen, hw, hx⟩ := ih hrest (m'.constants ++ cs)
      refine ⟨w, x, ?_, hlen, Draft.getElem?_words_emit_of_some hw,
        fun y hy => Draft.getElem?_words_emit_of_some (hx y hy)⟩
      rw [← henc, Draft.constants_emit, Pool.insertAll_append]
      refine Opcode.encode_congr fun label hl => ?_
      rw [Item.distance, Item.distance, Item.target?_concat_of_ne (by simp)]

/-- The words of the items behind `before` are the words of the draft from their place on. -/
theorem wordsFrom_eq (h : Assembles b d) {before after : List Item}
    (hitems : b.items = before ++ after) :
    Item.wordsFrom d.constants before after =
      .ok (d.words.toList.drop (Item.offset before)) := by
  induction after generalizing before with
  | nil =>
    have hsize := h.size_words
    rw [hitems, List.append_nil] at hsize
    rw [Item.wordsFrom, List.drop_eq_nil_of_le (by simp [hsize])]
  | cons i after ih =>
    have hrest : Item.wordsFrom d.constants (before ++ [i]) after =
        .ok (d.words.toList.drop (Item.offset (before ++ [i]))) := ih (by simp [hitems])
    rw [Item.wordsFrom]
    refine bind_eq_ok.mpr ?_
    cases i with
    | instruction op os line =>
      obtain ⟨w, x, henc, hlen, hw, hx⟩ := h.encoded hitems []
      refine ⟨w :: x.toList, henc, bind_eq_ok.mpr ⟨_, hrest, ?_⟩⟩
      rw [Item.offset_append, Item.offset_cons, Item.width, ← hlen, Item.offset_nil, Nat.add_zero]
      obtain ⟨hlt, hget⟩ := Array.getElem?_eq_some_iff.mp hw
      cases x with
      | none => simp [List.drop_eq_getElem_cons (l := d.words.toList) hlt, hget]
      | some y =>
        obtain ⟨hlt', hget'⟩ := Array.getElem?_eq_some_iff.mp (hx y rfl)
        simp [List.drop_eq_getElem_cons (l := d.words.toList) hlt, hget,
          List.drop_eq_getElem_cons (l := d.words.toList) hlt', hget']
    | _ =>
      refine ⟨[], rfl, bind_eq_ok.mpr ⟨_, hrest, ?_⟩⟩
      simp [Item.width]

/-- **Words.** The words of a draft are those of the instructions of its block, in order. -/
theorem words_eq (h : Assembles b d) : b.words = .ok d.words.toList := by
  rw [Block.words, ← h.constants_eq, h.wordsFrom_eq rfl]
  rfl

end Assembles

end ChunkAsm
