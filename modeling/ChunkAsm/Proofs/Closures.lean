import ChunkAsm.Proofs.Linking
import ChunkAsm.Proofs.Offsets
import Mathlib.Data.List.Nodup

/-!
# Closures get the functions they name

A closure is assembled with a name and gets the number of a proto when its function is linked. Three
things have to agree for the number to be the right one: the list of subroutines, the buckets of
waiting instructions, and the table of owners that decides whether a name is new. The derivation of
a draft has already replaced the last one by the list (`Assembles`). This file gives the other two
as functions of the items:

* the subroutines are the names in the order of their first use (`Assembles.subroutines_eq`);
* what waits for a name are the closures that write it (`Assembles.sites_protos`).

With them `closures_linked` follows from what linking stores.
-/

namespace ChunkAsm

namespace Item

/-- The functions that an item refers to. -/
def protoNames : Item → List String
  | .instruction _ os _ => os.filterMap Operand.proto?
  | _ => []

/-- Whether an item is a closure. -/
def isClosure : Item → Bool
  | .instruction .closure _ _ => true
  | _ => false

end Item

theorem Draft.sites_protos_emit (d : Draft) (m : Emission) (fresh : List String) (n : String) :
    (d.emit m fresh).protoSites.sites n =
      d.protoSites.sites n ++ List.replicate (m.subroutines.count n) d.words.size :=
  Patches.sites_foldl_defer _ _ _ _

/-- An instruction refers to one function if it is a closure, and to none otherwise. -/
theorem Operand.SuitAll.filterMap_proto? {op : Opcode} {os : List Operand}
    (h : SuitAll op.slots os) :
    (∃ a name, op = .closure ∧ os = [.stack a, .proto name] ∧
        os.filterMap Operand.proto? = [name]) ∨
      ((∀ name, .proto name ∉ os) ∧ os.filterMap Operand.proto? = []) := by
  by_cases hop : op = .closure
  · subst hop
    obtain ⟨a, name, rfl⟩ := h.of_closure
    exact .inl ⟨a, name, rfl, rfl, rfl⟩
  · refine .inr ⟨h.proto_not_mem hop, List.filterMap_eq_nil_iff.mpr ?_⟩
    intro o ho
    cases o with
    | proto name => exact absurd ho (h.proto_not_mem hop name)
    | _ => rfl

namespace Assembles

variable {b : Block} {d : Draft}

/-- **Subroutines** are the names that closures write, in the order of their first use. -/
theorem subroutines_eq (h : Assembles b d) :
    d.subroutines.toList = (b.items.flatMap Item.protoNames).eraseDups := by
  induction h with
  | begin => rfl
  | label name _ _ ih =>
    rw [Block.add, List.flatMap_append]
    simpa [Item.protoNames] using ih
  | constant c _ _ ih =>
    rw [Block.add, List.flatMap_append]
    simpa [Item.protoNames] using ih
  | upvalue u _ ih =>
    rw [Block.add, List.flatMap_append]
    simpa [Item.protoNames] using ih
  | @instruction b d owners op os line m h hs hm ih =>
    rw [Draft.toList_subroutines_emit, Block.add, List.flatMap_append, List.eraseDups_append, ← ih,
      (Draft.assemble_spec hm hs).subroutines, List.flatMap_singleton, Item.protoNames]
    congr 1
    rcases hs.filterMap_proto? with ⟨a, name, -, -, hone⟩ | ⟨-, hnil⟩
    · have hmem : name ∈ b.items.flatMap Item.protoNames ↔ name ∈ d.subroutines := by
        rw [Array.mem_def, ih, List.mem_eraseDups]
      rw [hone]
      generalize b.items.flatMap Item.protoNames = used at hmem
      by_cases hn : name ∈ d.subroutines
      · simp [List.removeAll, hn, hmem.mpr hn]
      · simp [List.removeAll, List.eraseDups_cons, hn, mt hmem.mp hn]
    · rw [hnil]
      rfl

/-- No subroutine is listed twice. -/
theorem nodup_subroutines (h : Assembles b d) : d.subroutines.toList.Nodup := by
  induction h with
  | begin => exact .nil
  | label _ _ _ ih => exact ih
  | constant _ _ _ ih => exact ih
  | upvalue _ _ ih => exact ih
  | instruction owners op os line m h hs hm ih =>
    rw [Draft.toList_subroutines_emit, List.nodup_append]
    refine ⟨ih, List.Nodup.filter _ ?_, ?_⟩
    · rw [(Draft.assemble_spec hm hs).subroutines]
      rcases hs.filterMap_proto? with ⟨a, name, -, -, hone⟩ | ⟨-, hnil⟩
      · rw [hone]
        exact List.nodup_singleton name
      · rw [hnil]
        exact .nil
    · rintro x hx _ hy rfl
      exact of_decide_eq_true (List.mem_filter.mp hy).2 (Array.mem_def.mpr hx)

/-- **Waiting closures.** What waits for a function are all closures that write its name. -/
theorem sites_protos (h : Assembles b d) (name : String) :
    d.protoSites.sites name = Item.places (Item.writes (.proto name)) 0 b.items := by
  induction h with
  | begin => rfl
  | label l _ _ ih =>
    rw [Block.add, Item.places_concat]
    simpa [Item.writes] using ih
  | constant c _ _ ih =>
    rw [Block.add, Item.places_concat]
    simpa [Item.writes] using ih
  | upvalue u _ ih =>
    rw [Block.add, Item.places_concat]
    simpa [Item.writes] using ih
  | @instruction b d owners op os line m h hs hm ih =>
    rw [Block.add, Item.places_concat, Draft.sites_protos_emit,
      (Draft.assemble_spec hm hs).subroutines, h.size_words, ih]
    congr 1
    rcases hs.filterMap_proto? with ⟨a, n, -, rfl, hone⟩ | ⟨hno, hnil⟩
    · rw [hone]
      by_cases hn : name = n
      · simp [Item.writes, hn]
      · simp [Item.writes, hn, Ne.symm hn]
    · simp [hnil, Item.writes, hno name]

/-- What waits for a function are closures, and none of them waits for another one. -/
theorem mem_sites_protos (h : Assembles b d) {name : String} {i : Nat}
    (hi : i ∈ d.protoSites.sites name) :
    i ∈ Item.places Item.isClosure 0 b.items ∧ ∀ n, i ∈ d.protoSites.sites n → n = name := by
  rw [h.sites_protos] at hi
  obtain ⟨before, item, after, hitems, hw, rfl⟩ := Item.mem_places.mp hi
  cases item with
  | instruction op os line =>
    obtain ⟨-, -, -, hs, -⟩ := h.emitted hitems
    have hmem : .proto name ∈ os := of_decide_eq_true hw
    rcases hs.filterMap_proto? with ⟨a, m, rfl, rfl, -⟩ | ⟨hno, -⟩
    · refine ⟨Item.mem_places.mpr ⟨before, _, after, hitems, rfl, rfl⟩, ?_⟩
      intro n hn
      rw [h.sites_protos, hitems, Nat.zero_add] at hn
      have hboth := Item.mem_of_offset_mem_places hn
      simp only [List.mem_cons, reduceCtorEq, Operand.proto.injEq, List.not_mem_nil, or_false,
        false_or] at hmem hboth
      rw [hmem, hboth]
    · exact absurd hmem (hno name)
  | _ => cases hw

/-- What waits for a function is there. -/
theorem lt_size_of_mem_protoSites (h : Assembles b d) {name : String} {i : Nat}
    (hi : i ∈ d.protoSites.sites name) : i < d.words.size := by
  rw [h.sites_protos] at hi
  obtain ⟨before, item, after, hitems, hw, rfl⟩ := Item.mem_places.mp hi
  cases item with
  | instruction op os line =>
    rw [Nat.zero_add]
    exact h.offset_lt_size hitems
  | _ => cases hw

/-- A closure as it is assembled: it has its opcode and its register, its name is one of the
subroutines, and it waits for it. -/
theorem closure (h : Assembles b d) {before after : List Item} {os : List Operand}
    {line : Option Nat} (hitems : b.items = before ++ .instruction .closure os line :: after) :
    ∃ a name w, os = [.stack a, .proto name] ∧ d.words[Item.offset before]? = some w ∧
      w.opcode? = some .closure ∧ w.get .a = a ∧ name ∈ d.subroutines.toList ∧
      Item.offset before ∈ d.protoSites.sites name := by
  obtain ⟨d₀, m, -, hs, he, hk, -⟩ := h.emitted hitems
  obtain ⟨a, name, rfl⟩ := hs.of_closure
  obtain ⟨w, hw, -, hsame⟩ := hk.word
  obtain rfl := hsame (by simp)
  obtain ⟨v, hv, hheld⟩ := he.placed (Opcode.fieldSlot .a .stack, .stack a) (by simp [Opcode.slots])
  obtain rfl : v = a := hv
  refine ⟨v, name, m.word, rfl, hw, he.opcode, hheld, ?_, ?_⟩
  · rw [h.subroutines_eq, List.mem_eraseDups, hitems]
    simp [Item.protoNames, Operand.proto?]
  · rw [h.sites_protos]
    exact Item.mem_places.mpr
      ⟨before, _, after, hitems, by simp [Item.writes], (Nat.zero_add _).symm⟩

/-- What waits for a function is a closure. -/
theorem opcode?_of_mem_sites (h : Assembles b d) {name : String} {i : Nat}
    (hi : i ∈ d.protoSites.sites name) {w : Word} (hw : d.words[i]? = some w) :
    w.opcode? = some .closure := by
  obtain ⟨before, item, after, hitems, hclosure, rfl⟩ :=
    Item.mem_places.mp (h.mem_sites_protos hi).1
  rw [Nat.zero_add] at hw
  cases item with
  | instruction op os line =>
    cases op with
    | closure =>
      obtain ⟨-, -, w', -, hw', hop, -⟩ := h.closure hitems
      obtain rfl := Option.some.inj (hw.symm.trans hw')
      exact hop
    | _ => cases hclosure
  | _ => cases hclosure

/-- Linking keeps the opcodes, and all words but closures. -/
theorem exists_linked_word (h : Assembles b d) {p : Program} {l : Linked}
    (hl : p.link d.toFunction = .ok l) {i : Nat} {w : Word} (hw : d.words[i]? = some w) :
    ∃ w', l.words[i]? = some w' ∧ w'.opcode? = w.opcode? ∧
      (w.opcode? ≠ some .closure → w' = w) := by
  obtain ⟨w', hw', hstored, hkept⟩ := Program.link_words hl h.nodup_subroutines hw
    fun n n' hn hn' => (h.mem_sites_protos hn').2 n hn
  refine ⟨w', hw', ?_⟩
  by_cases hsite : ∃ name ∈ d.subroutines.toList, i ∈ d.protoSites.sites name
  · obtain ⟨name, hname, hi⟩ := hsite
    obtain ⟨k, hk⟩ := List.getElem?_of_mem hname
    exact ⟨Word.opcode?_set (hstored k name hk hi),
      fun hno => absurd (h.opcode?_of_mem_sites hi hw) hno⟩
  · have hsame := hkept fun name hname hi => hsite ⟨name, hname, hi⟩
    exact ⟨congrArg Word.opcode? hsame, fun _ => hsame⟩

end Assembles

/-- A function of a program has the name under which it is found. -/
theorem Produces.name_eq {lines : List String} {p : Program} (h : Produces lines p) {key : String}
    {f : Function} (hf : p.function? key = some f) : f.name = key := by
  obtain ⟨b, hb, d, hd, -, rfl⟩ := h.completes hf
  have hkey : b.name = key := by simpa using List.find?_some hb
  exact hd.name_eq.trans hkey

/-- **Closures get the functions they name.** In every function that can be linked, of a program
that comes from lines, the protos are the functions that the subroutines name, each once and in the
order of first use. A closure has the number of the proto with its name, and still its opcode and
its register; all other words are as they were. -/
theorem closures_linked {lines : List String} {p : Program} {key : String} {f : Function}
    {l : Linked} (h : Produces lines p) (hf : p.function? key = some f) (hl : p.link f = .ok l) :
    ∃ b, Block.last? lines key = some b ∧
      f.subroutines.toList = (b.items.flatMap Item.protoNames).eraseDups ∧
      f.subroutines.toList.Nodup ∧
      List.Forall₂ (fun name g => p.function? name = some g ∧ g.name = name)
        f.subroutines.toList l.protos.toList ∧
      l.words.size = f.words.size ∧
      (∀ before os line after, b.items = before ++ .instruction .closure os line :: after →
        ∃ a name w k g, os = [.stack a, .proto name] ∧ l.words[Item.offset before]? = some w ∧
          w.opcode? = some .closure ∧ w.get .a = a ∧ w.get .bx = (k : Nat) ∧
          l.protos[k]? = some g ∧ g.name = name) ∧
      ∀ i, i ∉ Item.places Item.isClosure 0 b.items → l.words[i]? = f.words[i]? := by
  obtain ⟨b, hb, d, hd, -, rfl⟩ := h.completes hf
  have hprotos : List.Forall₂ (fun name g => p.function? name = some g ∧ g.name = name)
      d.subroutines.toList l.protos.toList :=
    (Program.link_protos hl).imp fun name g hg => ⟨hg, h.name_eq hg⟩
  refine ⟨b, hb, hd.subroutines_eq, hd.nodup_subroutines, hprotos, Program.link_size hl, ?_, ?_⟩
  · intro before os line after hitems
    obtain ⟨a, name, w, hos, hw, hop, ha, hname, hsite⟩ := hd.closure hitems
    obtain ⟨w', hw', hstored, -⟩ := Program.link_words hl hd.nodup_subroutines hw
      fun n n' hn hn' => (hd.mem_sites_protos hn').2 n hn
    obtain ⟨k, hk⟩ := List.getElem?_of_mem hname
    obtain ⟨g, hg, hgname⟩ := Program.link_getElem?_protos hl hk
    have hset := hstored k name hk hsite
    refine ⟨a, name, w', k, g, hos, hw', ?_, ?_, Word.get_set hset, hg, h.name_eq hgname⟩
    · rw [Word.opcode?_set hset, hop]
    · rw [Word.get_set_of_apart hset (by decide), ha]
  · intro i hi
    cases hw : d.words[i]? with
    | none =>
      have hsize : l.words.size = d.words.size := Program.link_size hl
      rw [Array.getElem?_eq_none_iff] at hw
      rw [Array.getElem?_eq_none_iff.mpr (hsize ▸ hw)]
      exact (Array.getElem?_eq_none_iff.mpr hw).symm
    | some w =>
      obtain ⟨w', hw', -, hkept⟩ := Program.link_words hl hd.nodup_subroutines hw
        fun n n' hn hn' => (hd.mem_sites_protos hn').2 n hn
      rw [hw', hkept fun name _ hn => hi (hd.mem_sites_protos hn).1]
      exact hw.symm

/-- Lines with a function that makes two closures of one function, with another one and an
instruction of two words in between, before the two functions are declared. -/
def closureLines : List String :=
  [".upvalues 0", ".func main 3 0 0", ".begin_code", "closure %0 step", "closure %1 stop",
    "loadkx %0 const nil", "closure %2 step", ".end_code", ".func stop 2 0 0", ".begin_code",
    "return %0 1", ".end_code", ".func step 2 0 0", ".begin_code", "return %0 1", ".end_code"]

/-- The second closure of a function has the number of the first one. -/
theorem closures_linked_twice :
    ∃ p f l w g, Produces closureLines p ∧ p.function? "main" = some f ∧ p.link f = .ok l ∧
      f.subroutines.toList = ["step", "stop"] ∧ l.words[4]? = some w ∧ w.get .a = 2 ∧
      w.get .bx = 0 ∧ l.protos[0]? = some g ∧ g.name = "step" := by
  have hrun : (((({} : Assembler).feedAll closureLines).finish false).2.toOption.bind fun p =>
      (p.function? "main").bind fun f => (p.link f).toOption).isSome = true := by
    decide +kernel
  obtain ⟨l, hl⟩ := Option.isSome_iff_exists.mp hrun
  obtain ⟨p, hp, hl⟩ := Produces.of_run hl
  obtain ⟨f, hf, hl⟩ := Option.bind_eq_some_iff.mp hl
  have hlink := toOption_eq_some.mp hl
  obtain ⟨b, hb, hsub, -, hprotos, -, hall, -⟩ := closures_linked hp hf hlink
  have hlast : Block.last? closureLines "main" = some
      { name := "main"
        header := ⟨3, 0, .fixed⟩
        items :=
          [.instruction .closure [.stack 0, .proto "step"] none,
            .instruction .closure [.stack 1, .proto "stop"] none,
            .instruction .loadKX [.stack 0, .constant .nil] none] ++
          .instruction .closure [.stack 2, .proto "step"] none :: [] } := by
    decide +kernel
  obtain rfl := Option.some.inj (hlast.symm.trans hb)
  have hnames : f.subroutines.toList = ["step", "stop"] := hsub.trans (by decide +kernel)
  obtain ⟨a, name, w, k, g, hos, hw, -, ha, hk, hg, hgn⟩ := hall _ _ _ _ rfl
  obtain ⟨rfl, rfl⟩ : 2 = a ∧ "step" = name := by simpa using hos
  -- of the two protos only the first has this name
  rw [hnames] at hprotos
  obtain ⟨g₀, rest₀, -, hrest, hlist⟩ := List.forall₂_cons_left_iff.mp hprotos
  obtain ⟨g₁, rest₁, ⟨-, hg₁⟩, hnil, rfl⟩ := List.forall₂_cons_left_iff.mp hrest
  obtain rfl := List.forall₂_nil_left_iff.mp hnil
  match k with
  | 0 => exact ⟨p, f, l, w, g, hp, hf, hlink, hnames, hw, ha, hk, hg, hgn⟩
  | 1 =>
    rw [← Array.getElem?_toList, hlist] at hg
    obtain rfl : g₁ = g := Option.some.inj hg
    rw [hg₁] at hgn
    exact absurd hgn (by decide)
  | k + 2 =>
    rw [← Array.getElem?_toList, hlist] at hg
    cases hg

end ChunkAsm
