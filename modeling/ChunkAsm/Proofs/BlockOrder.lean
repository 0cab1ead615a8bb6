import ChunkAsm.Chunk.Write
import ChunkAsm.Proofs.Contexts
import ChunkAsm.Source

/-!
# The order of functions

The functions of a source may stand in any order. Each of them is assembled as if it were alone
(`Assembler.accept?_block` and `Assembler.accept?_of_alone`), so a source gives a program exactly if
each of its functions can be assembled and closed and no two refer to the same subroutine
(`Assembler.Ready.finish_iff`). None of this depends on the order. What does is the order of the
table, and that is not seen in a chunk: the table is only asked for functions by name, and for its
length.
-/

namespace ChunkAsm

/-! ## Functions in source text -/

/-- A function in source text: the line that declares it and the lines behind that one. -/
structure SourceBlock where
  /-- the declaration -/
  head : String
  /-- the other lines -/
  body : List String
  deriving DecidableEq, Repr

namespace SourceBlock

/-- The lines of a function. -/
def lines (b : SourceBlock) : List String := b.head :: b.body

/-- Only the first line declares a function, none gives the number of upvalues, and every segment is
closed where the lines end. -/
structure WellFormed (b : SourceBlock) : Prop where
  /-- the first line starts with `.func` -/
  head : Directive.ofLine? b.head = some .func
  /-- the other lines start with neither `.func` nor `.upvalues` -/
  body : ∀ line ∈ b.body, Directive.isInner line = true
  /-- no segment is open at the end -/
  closed : b.body.foldl Segment.behind .function = .function

/-- The name that a function declares. -/
def name? (b : SourceBlock) : Option String :=
  (({} : Assembler).declaration? b.head).map Prod.fst

/-- The draft of a function that is assembled by itself. -/
def alone? (b : SourceBlock) : Option Draft :=
  (({} : Assembler).accept? b.lines).bind Assembler.draft

end SourceBlock

/-! ## Declarations and ends -/

theorem Directive.exists_of_ofLine? {line : String} {d : Directive} (h : ofLine? line = some d) :
    ∃ rest word rest', Scan.skipBlanks line.toList = '.' :: rest ∧
      Scan.name rest = .ok (word, rest') ∧ lookup word = some d := by
  rw [ofLine?] at h
  split at h
  · rename_i rest hstart
    obtain ⟨⟨word, rest'⟩, hname, hd⟩ := Option.bind_eq_some_iff.mp h
    exact ⟨rest, word, rest', hstart, toOption_eq_some.mp hname, hd⟩
  · cases h

/-- A draft that can be closed: it has no instructions, or no jump waits for a label. -/
def Draft.Closable (d : Draft) : Prop := d.words.isEmpty = true ∨ d.labels.unresolved = []

/-- What a function adds to the table when it is closed. -/
def Draft.finished? (d : Draft) : Option (String × Function) :=
  if d.words.isEmpty then none else some (d.name, d.toFunction)

namespace Assembler

variable {a a' a₀ c : Assembler} {d : Draft} {line name : String} {header : FunctionHeader}

/-- What a line declares does not depend on the functions before it. -/
theorem declaration?_eq (hseg : a.segment.isOpen = false) (line : String) :
    a.declaration? line = ({} : Assembler).declaration? line := by
  have hread : Statement.read? a.segment line.toList = Statement.read? .topLevel line.toList := by
    cases hs : a.segment with
    | topLevel => rfl
    | function => rw [Statement.read?, Statement.read?]
    | _ =>
      rw [hs] at hseg
      cases hseg
  rw [declaration?, declaration?, hread, hseg]
  rfl

/-- A line that begins with `.func` is rejected unless it declares a function. -/
theorem exists_declaration? (hseg : a.segment.isOpen = false)
    (hline : Directive.ofLine? line = some .func) (hacc : (a.feed line).1 = none) :
    ∃ name header, a.declaration? line = some (name, header) := by
  obtain ⟨rest, word, rest', hstart, hname, hlookup⟩ := Directive.exists_of_ofLine? hline
  cases hdecl : declaration rest' with
  | error e =>
    simp [feed, react, hstart, directiveLine, hname, hlookup, hseg, hdecl, Reaction.refuse] at hacc
  | ok r =>
    obtain ⟨name, header⟩ := r
    refine ⟨name, header, ?_⟩
    simp [declaration?, Statement.read?, hstart, Statement.directive?, toOption_eq_some.mpr hname,
      hlookup, toOption_eq_some.mpr hdecl, hseg]

/-- A declaration is accepted if the function before it can be closed and its name is free. -/
theorem feed_declaration_iff (h : a.declaration? line = some (name, header)) :
    (a.feed line).1 = none ↔ a.closing.2 = none ∧ a.close.isFinished name = false := by
  rw [feed_declaration h, beginFunction]
  split
  · rename_i log e hc
    simp [hc]
  · rename_i log hc
    split <;> simp_all

/-- The state after a declaration that is accepted. -/
theorem feed_declaration_snd (h : a.declaration? line = some (name, header))
    (hacc : (a.feed line).1 = none) : (a.feed line).2 = a.close.apply (.begin name header) := by
  obtain ⟨hc, hfree⟩ := (feed_declaration_iff h).mp hacc
  rw [feed_declaration h, beginFunction]
  split
  · rename_i log e he
    rw [he] at hc
    cases hc
  · rw [if_neg (by simp [hfree])]
    rfl

/-- A function can be closed if its draft can, and its name is free. -/
theorem closing_eq_none_iff (hd : a.draft = some d) (hfree : a.finished.lookup d.name = none) :
    a.closing.2 = none ↔ d.Closable := by
  rw [closing, hd, Draft.Closable]
  cases hw : d.words.isEmpty with
  | true => simp [hw]
  | false =>
    simp only [hw, Bool.false_eq_true, if_false, false_or]
    split
    · rename_i hu
      simp [hu, isFinished, hfree]
    · rename_i hu
      exact iff_of_false (Option.some_ne_none _) hu

theorem finished_close_eq (hd : a.draft = some d) :
    a.close.finished = d.finished?.toList ++ a.finished := by
  rw [close, hd, Draft.finished?]
  cases hw : d.words.isEmpty <;> simp [hw]

theorem owners_close (a : Assembler) : a.close.owners = a.owners := by
  rw [close]
  split
  · rfl
  · split <;> rfl

theorem upvalueCount_close (a : Assembler) : a.close.upvalueCount = a.upvalueCount := by
  rw [close]
  split
  · rfl
  · split <;> rfl

/-- The input may end outside of segments if the last function can be closed. -/
theorem finish_eq_ok_iff {strict : Bool} {k : UInt8} {p : Program}
    (hseg : a.segment.isOpen = false) (hk : a.upvalueCount = some k) :
    (a.finish strict).2 = .ok p ↔
      a.closing.2 = none ∧ p = { upvalueCount := k, functions := a.close.finished } := by
  simp only [finish, hseg, Bool.and_false, Bool.false_eq_true, if_false, hk]
  split
  · rename_i log e hc
    simp [hc]
  · rename_i log hc
    simp [hc, eq_comm]

/-! ## A function behind others -/

/-- A function that has just been declared. -/
theorem hosts_begin (c : Assembler) (name : String) (header : FunctionHeader) :
    c.Hosts (c.apply (.begin name header)) (({} : Assembler).apply (.begin name header))
      { id := 0, name, header } where
  alone := rfl
  among := rfl
  owner? n := by simp [apply]
  owner?_alone n := by simp [apply, Owners.owner?]
  free n hn := absurd hn (Array.not_mem_empty n)

variable {b : SourceBlock} {blocks : List Block}

/-- The lines of a function end outside of segments. -/
theorem segment_block (hb : b.WellFormed) (hacc : a.accept? b.lines = some a') :
    a'.segment = .function := by
  rw [segment_accept? hacc, SourceBlock.lines, List.foldl_cons]
  have hhead : a.segment.behind b.head = .function := by rw [Segment.behind, hb.head]
  rw [hhead, hb.closed]

/-- **A function that is accepted behind others is accepted alone.** -/
theorem accept?_block (hb : b.WellFormed) (hseg : a.segment.isOpen = false) (ht : a.Tracks blocks)
    (hacc : a.accept? b.lines = some a') :
    a.closing.2 = none ∧
      ∃ a₀ d, ({} : Assembler).accept? b.lines = some a₀ ∧ a.close.Hosts a' a₀ d := by
  obtain ⟨hhead, hbody⟩ := accept?_cons_eq_some.mp hacc
  obtain ⟨name, header, hdecl⟩ := exists_declaration? hseg hb.head hhead
  obtain ⟨hc, -⟩ := (feed_declaration_iff hdecl).mp hhead
  rw [feed_declaration_snd hdecl hhead] at hbody
  have hdecl₀ : ({} : Assembler).declaration? b.head = some (name, header) :=
    (declaration?_eq hseg _).symm.trans hdecl
  have hhead₀ : (({} : Assembler).feed b.head).1 = none :=
    (feed_declaration_iff hdecl₀).mpr ⟨rfl, rfl⟩
  obtain ⟨a₀, d, hbody₀, h⟩ :=
    (hosts_begin a.close name header).accept?_alone hb.body (ht.close hc).owned hbody
  refine ⟨hc, a₀, d, accept?_cons_eq_some.mpr ⟨hhead₀, ?_⟩, h⟩
  rw [feed_declaration_snd hdecl₀ hhead₀]
  exact hbody₀

/-- **A function that is accepted alone is accepted behind others**, if its name is free and they
own none of its subroutines. -/
theorem accept?_of_alone (hb : b.WellFormed) (hseg : a.segment.isOpen = false)
    (hc : a.closing.2 = none)
    (hname : ∀ name, b.name? = some name → a.close.isFinished name = false)
    (halone : ({} : Assembler).accept? b.lines = some a₀)
    (hfree : ∀ d, a₀.draft = some d → ∀ name ∈ d.subroutines, a.owners.owner? name = none) :
    ∃ a' d, a.accept? b.lines = some a' ∧ a.close.Hosts a' a₀ d := by
  obtain ⟨hhead₀, hbody₀⟩ := accept?_cons_eq_some.mp halone
  obtain ⟨name, header, hdecl₀⟩ := exists_declaration? rfl hb.head hhead₀
  have hdecl : a.declaration? b.head = some (name, header) :=
    (declaration?_eq hseg _).trans hdecl₀
  have hhead : (a.feed b.head).1 = none :=
    (feed_declaration_iff hdecl).mpr ⟨hc, hname name (by simp [SourceBlock.name?, hdecl₀])⟩
  rw [feed_declaration_snd hdecl₀ hhead₀] at hbody₀
  rw [← owners_close] at hfree
  obtain ⟨a', d, hbody, h⟩ :=
    (hosts_begin a.close name header).accept?_among hb.body hbody₀ hfree
  refine ⟨a', d, accept?_cons_eq_some.mpr ⟨hhead, ?_⟩, h⟩
  rw [feed_declaration_snd hdecl hhead]
  exact hbody

end Assembler

namespace SourceBlock

variable {b : SourceBlock} {d : Draft}

/-- A draft has the name that is declared. -/
theorem name?_of_alone? (hb : b.WellFormed) (h : b.alone? = some d) : b.name? = some d.name := by
  obtain ⟨a₀, halone, hd⟩ := Option.bind_eq_some_iff.mp h
  obtain ⟨hhead, hbody⟩ := Assembler.accept?_cons_eq_some.mp halone
  obtain ⟨name, header, hdecl⟩ := Assembler.exists_declaration? rfl hb.head hhead
  rw [Assembler.feed_declaration_snd hdecl hhead] at hbody
  obtain ⟨d', hd', hgrows⟩ := Assembler.grows_accept? hb.body rfl hbody
  obtain rfl := Option.some.inj (hd.symm.trans hd')
  rw [name?, hdecl, hgrows.name]
  rfl

end SourceBlock

/-! ## All functions of a source -/

/-- Two functions without a common subroutine. -/
def Draft.Apart (d d' : Draft) : Prop := ∀ name ∈ d.subroutines, name ∉ d'.subroutines

theorem Draft.Apart.symm {d d' : Draft} (h : d.Apart d') : d'.Apart d :=
  fun name h' hd => h name hd h'

/-- The drafts of functions that are assembled by themselves. -/
def SourceBlock.drafts (bs : List SourceBlock) : List Draft := bs.filterMap alone?

/-- Functions that can stand in one source: each can be assembled and closed, and no two have a
common subroutine. -/
structure SourceBlock.Compatible (bs : List SourceBlock) : Prop where
  /-- each can be assembled and closed by itself -/
  alone : ∀ b ∈ bs, ∃ d, b.alone? = some d ∧ d.Closable
  /-- no two have a common subroutine -/
  apart : (drafts bs).Pairwise Draft.Apart

theorem SourceBlock.drafts_cons {b : SourceBlock} {d : Draft} (h : b.alone? = some d)
    (bs : List SourceBlock) : drafts (b :: bs) = d :: drafts bs :=
  List.filterMap_cons_some h

theorem SourceBlock.compatible_cons {b : SourceBlock} {d : Draft} (h : b.alone? = some d)
    (bs : List SourceBlock) :
    Compatible (b :: bs) ↔ d.Closable ∧ (∀ d' ∈ drafts bs, d.Apart d') ∧ Compatible bs := by
  constructor
  · rintro ⟨halone, hapart⟩
    rw [drafts_cons h, List.pairwise_cons] at hapart
    obtain ⟨⟨d', hd', hclosable⟩, halone⟩ := List.forall_mem_cons.mp halone
    obtain rfl := Option.some.inj (h.symm.trans hd')
    exact ⟨hclosable, hapart.1, halone, hapart.2⟩
  · rintro ⟨hclosable, hd, halone, hapart⟩
    refine ⟨List.forall_mem_cons.mpr ⟨⟨d, h, hclosable⟩, halone⟩, ?_⟩
    rw [drafts_cons h]
    exact List.pairwise_cons.mpr ⟨hd, hapart⟩

namespace Assembler

variable {a a' a₀ c : Assembler} {d : Draft} {b : SourceBlock} {bs : List SourceBlock} {k : UInt8}
  {p : Program}

/-- What neither the others nor the function own. -/
theorem Hosts.owner?_eq_none_iff (h : c.Hosts a a₀ d) {name : String} :
    a.owners.owner? name = none ↔ name ∉ d.subroutines ∧ c.owners.owner? name = none := by
  rw [h.owner?]
  split <;> simp_all

/-- The table after the function is closed. -/
theorem Hosts.finished_close (h : c.Hosts a a₀ d) :
    a.close.finished = d.finished?.toList ++ c.finished := by
  rw [finished_close_eq h.draft, h.among]
  rfl

/-- A state behind which the functions `bs` may stand: their names are free and different. -/
structure Ready (a : Assembler) (k : UInt8) (bs : List SourceBlock) : Prop where
  /-- no segment is open -/
  segment : a.segment.isOpen = false
  /-- the number of upvalues is known -/
  upvalueCount : a.upvalueCount = some k
  /-- the state occurs in a run -/
  tracks : ∃ blocks, a.Tracks blocks
  /-- every function closes its segments -/
  wellFormed : ∀ b ∈ bs, b.WellFormed
  /-- the names are different -/
  nodup : (bs.filterMap SourceBlock.name?).Nodup
  /-- the names are free -/
  free : ∀ b ∈ bs, ∀ name, b.name? = some name → a.close.finished.lookup name = none

/-- The functions `bs` behind the state `a` give the program `p`: the function before them can be
closed, they are compatible, and their subroutines belong to nobody. -/
structure Gives (a : Assembler) (k : UInt8) (bs : List SourceBlock) (p : Program) : Prop where
  /-- the function before them can be closed -/
  closing : a.closing.2 = none
  /-- they can stand in one source -/
  compatible : SourceBlock.Compatible bs
  /-- their subroutines have no owner yet -/
  free : ∀ d ∈ SourceBlock.drafts bs, ∀ name ∈ d.subroutines, a.owners.owner? name = none
  /-- the program has them in its table, the last one first -/
  program : p =
    { upvalueCount := k
      functions := ((SourceBlock.drafts bs).filterMap Draft.finished?).reverse ++ a.close.finished }

/-- After one of the functions the others may follow. -/
theorem Ready.tail (h : a.Ready k (b :: bs)) (hacc : a.accept? b.lines = some a')
    (hhosts : a.close.Hosts a' a₀ d) (hd : b.alone? = some d) : a'.Ready k bs := by
  have hb := h.wellFormed b List.mem_cons_self
  obtain ⟨blocks, ht⟩ := h.tracks
  have hname := SourceBlock.name?_of_alone? hb hd
  have hnodup := h.nodup
  rw [List.filterMap_cons_some hname, List.nodup_cons] at hnodup
  exact {
    segment := by rw [segment_block hb hacc]; rfl
    upvalueCount := by rw [hhosts.among]; exact (upvalueCount_close a).trans h.upvalueCount
    tracks := ⟨_, feedAll_of_accept? hacc ▸ ht.feedAll b.lines⟩
    wellFormed := fun b' hb' => h.wellFormed b' (List.mem_cons_of_mem _ hb')
    nodup := hnodup.2
    free := by
      intro b' hb' name hn
      have hne : name ≠ d.name := by
        rintro rfl
        exact hnodup.1 (List.mem_filterMap.mpr ⟨b', hb', hn⟩)
      have hnone : d.finished?.toList.lookup name = none := by
        rw [Draft.finished?]
        split
        · rfl
        · simp [List.lookup_cons, beq_eq_false_iff_ne.mpr hne]
      rw [hhosts.finished_close, List.lookup_append, hnone]
      exact h.free b' (List.mem_cons_of_mem _ hb') name hn }

/-- The first of the functions can be closed if its draft can. -/
theorem Ready.closing_iff (h : a'.Ready k bs) (hhosts : c.Hosts a' a₀ d) :
    a'.closing.2 = none ↔ d.Closable := by
  obtain ⟨blocks, ht⟩ := h.tracks
  change _ ↔ (d.renumber c.nextId).Closable
  exact closing_eq_none_iff hhosts.draft (ht.unfinished _ hhosts.draft)

/-- **One function after the other.** -/
theorem gives_cons_iff (h : a.Ready k (b :: bs)) (hc : a.closing.2 = none)
    (hacc : a.accept? b.lines = some a') (hhosts : a.close.Hosts a' a₀ d) (hd : b.alone? = some d) :
    a.Gives k (b :: bs) p ↔ a'.Gives k bs p := by
  have hclosing := (h.tail hacc hhosts hd).closing_iff hhosts
  have hdrafts := SourceBlock.drafts_cons hd bs
  have htable : ((SourceBlock.drafts bs).filterMap Draft.finished?).reverse ++ a'.close.finished =
      ((d :: SourceBlock.drafts bs).filterMap Draft.finished?).reverse ++ a.close.finished := by
    rw [hhosts.finished_close, List.filterMap_cons]
    cases d.finished? <;> simp
  constructor
  · rintro ⟨-, hcompatible, hfree, hp⟩
    obtain ⟨hclosable, hapart, hrest⟩ := (SourceBlock.compatible_cons hd bs).mp hcompatible
    rw [hdrafts] at hfree hp
    refine ⟨hclosing.mpr hclosable, hrest, fun d' hd' name hname => ?_, hp.trans (by rw [htable])⟩
    refine hhosts.owner?_eq_none_iff.mpr ⟨(hapart d' hd').symm name hname, ?_⟩
    rw [owners_close]
    exact hfree d' (List.mem_cons_of_mem _ hd') name hname
  · rintro ⟨hclosable, hrest, hfree, hp⟩
    have hnone : ∀ d' ∈ SourceBlock.drafts bs, ∀ name ∈ d'.subroutines,
        name ∉ d.subroutines ∧ a.owners.owner? name = none := by
      intro d' hd' name hname
      rw [← owners_close]
      exact hhosts.owner?_eq_none_iff.mp (hfree d' hd' name hname)
    refine ⟨hc, (SourceBlock.compatible_cons hd bs).mpr ⟨hclosing.mp hclosable, ?_, hrest⟩, ?_, ?_⟩
    · intro d' hd' name hname hname'
      exact (hnone d' hd' name hname').1 hname
    · rw [hdrafts]
      refine List.forall_mem_cons.mpr ⟨fun name hname => ?_, fun d' hd' name hname => ?_⟩
      · rw [← owners_close]
        exact hhosts.free name hname
      · exact (hnone d' hd' name hname).2
    · rw [hp, htable, hdrafts]

/-- **When functions give a program**, and which. -/
theorem Ready.finish_iff {strict : Bool} (h : a.Ready k bs) :
    (∃ a', a.accept? (bs.flatMap SourceBlock.lines) = some a' ∧ (a'.finish strict).2 = .ok p) ↔
      a.Gives k bs p := by
  induction bs generalizing a with
  | nil =>
    constructor
    · rintro ⟨a', hacc, hfin⟩
      obtain rfl := Option.some.inj hacc
      obtain ⟨hc, hp⟩ := (finish_eq_ok_iff h.segment h.upvalueCount).mp hfin
      exact ⟨hc, ⟨nofun, .nil⟩, nofun, hp⟩
    · rintro ⟨hc, -, -, hp⟩
      exact ⟨a, rfl, (finish_eq_ok_iff h.segment h.upvalueCount).mpr ⟨hc, hp⟩⟩
  | cons b bs ih =>
    have hb := h.wellFormed b List.mem_cons_self
    obtain ⟨blocks, ht⟩ := h.tracks
    rw [List.flatMap_cons]
    constructor
    · rintro ⟨a', hacc, hfin⟩
      rw [accept?_append] at hacc
      obtain ⟨a₁, hfirst, hrest⟩ := Option.bind_eq_some_iff.mp hacc
      obtain ⟨hc, a₀, d, halone, hhosts⟩ := accept?_block hb h.segment ht hfirst
      have hd : b.alone? = some d := Option.bind_eq_some_iff.mpr ⟨a₀, halone, hhosts.alone⟩
      exact (gives_cons_iff h hc hfirst hhosts hd).mpr
        ((ih (h.tail hfirst hhosts hd)).mp ⟨a', hrest, hfin⟩)
    · intro hgives
      obtain ⟨d, hd, -⟩ := hgives.compatible.alone b List.mem_cons_self
      obtain ⟨a₀, halone, hd₀⟩ := Option.bind_eq_some_iff.mp hd
      have hname : ∀ name, b.name? = some name → a.close.isFinished name = false := by
        intro name hn
        simp [isFinished, h.free b List.mem_cons_self name hn]
      obtain ⟨a₁, d₁, hfirst, hhosts⟩ :=
        accept?_of_alone hb h.segment hgives.closing hname halone fun d' hd' => by
          obtain rfl := Option.some.inj (hd₀.symm.trans hd')
          refine hgives.free d ?_
          rw [SourceBlock.drafts_cons hd]
          exact List.mem_cons_self
      obtain rfl := Option.some.inj (hd₀.symm.trans hhosts.alone)
      obtain ⟨a', hrest, hfin⟩ := (ih (h.tail hfirst hhosts hd)).mpr
        ((gives_cons_iff h hgives.closing hfirst hhosts hd).mp hgives)
      refine ⟨a', ?_, hfin⟩
      rw [accept?_append, hfirst]
      exact hrest

end Assembler

/-! ## Tables in another order -/

section

variable {α : Type} {table table' : List (String × α)}

/-- If no two entries have one key, every entry is found. -/
theorem lookup_eq_some_iff_mem (h : (table.map Prod.fst).Nodup) {key : String} {x : α} :
    table.lookup key = some x ↔ (key, x) ∈ table := by
  induction table with
  | nil => simp
  | cons entry table ih =>
    obtain ⟨key', x'⟩ := entry
    obtain ⟨hnot, hrest⟩ := List.nodup_cons.mp h
    rw [List.lookup_cons, List.mem_cons]
    by_cases hk : key = key'
    · subst hk
      have hx : (key, x) ∉ table := fun hx => hnot (List.mem_map.mpr ⟨_, hx, rfl⟩)
      simp [hx, eq_comm]
    · simp [beq_eq_false_iff_ne.mpr hk, hk, ih hrest]

theorem lookup_perm (h : table'.Perm table) (hnodup : (table.map Prod.fst).Nodup) (key : String) :
    table'.lookup key = table.lookup key := by
  have hnodup' : (table'.map Prod.fst).Nodup := (h.map Prod.fst).nodup_iff.mpr hnodup
  refine Option.ext fun x => ?_
  rw [lookup_eq_some_iff_mem hnodup', lookup_eq_some_iff_mem hnodup, h.mem_iff]

end

namespace Program

variable {p p' : Program}

theorem linkFrom_congr (h : p'.function? = p.function?) (caller : String) (index : Nat)
    (sites : Patches) (words : Array Word) (protos : Array Function) (names : List String) :
    p'.linkFrom caller index sites words protos names =
      p.linkFrom caller index sites words protos names := by
  induction names generalizing index sites words protos with
  | nil => rfl
  | cons name names ih => simp only [linkFrom, h, ih]

theorem link_congr (h : p'.function? = p.function?) (f : Function) : p'.link f = p.link f := by
  simp only [link, linkFrom_congr h]

theorem unfoldFrom_congr (h : p'.function? = p.function?) (room : Nat) (path : List String)
    (f : Function) : p'.unfoldFrom room path f = p.unfoldFrom room path f := by
  induction room generalizing path f with
  | zero =>
    funext u
    rw [unfoldFrom, unfoldFrom]
  | succ room ih =>
    funext u
    simp only [unfoldFrom, link_congr h, ih]

/-- **What is written depends on the functions that are found by name**, and on the length of the
table. -/
theorem writeChunk_congr (hk : p'.upvalueCount = p.upvalueCount) (h : p'.function? = p.function?)
    (hlen : p'.functions.length = p.functions.length) (s : Sink) :
    p'.writeChunk s = p.writeChunk s := by
  have hmain : p'.main? = p.main? := congrFun h _
  have hpreamble : p'.preamble = p.preamble := by rw [preamble, preamble, hk]
  have hunfolding : p'.unfolding = p.unfolding := by
    rw [unfolding, unfolding, hmain, hlen]
    cases p.main? with
    | none => rfl
    | some f => exact congrFun (unfoldFrom_congr h _ _ _) _
  rw [writeChunk, writeChunk, hmain, hpreamble, hunfolding]

/-- The order of a table is not seen in a chunk, if no two entries have one key. -/
theorem writeChunk_perm (hk : p'.upvalueCount = p.upvalueCount)
    (hperm : p'.functions.Perm p.functions) (hnodup : (p.functions.map Prod.fst).Nodup) (s : Sink) :
    p'.writeChunk s = p.writeChunk s :=
  writeChunk_congr hk (funext (lookup_perm hperm hnodup)) hperm.length_eq s

end Program

/-! ## Functions in another order -/

namespace SourceBlock

variable {bs bs' : List SourceBlock}

theorem Compatible.perm (h : Compatible bs) (hperm : bs'.Perm bs) : Compatible bs' where
  alone b hb := h.alone b (hperm.mem_iff.mp hb)
  apart := ((hperm.filterMap alone?).pairwise_iff Draft.Apart.symm).mpr h.apart

/-- The keys of a table are names that are declared. -/
theorem sublist_keys (hbs : ∀ b ∈ bs, b.WellFormed) :
    (((drafts bs).filterMap Draft.finished?).map Prod.fst).Sublist (bs.filterMap name?) := by
  induction bs with
  | nil => exact .slnil
  | cons b bs ih =>
    obtain ⟨hb, hbs⟩ := List.forall_mem_cons.mp hbs
    cases hd : b.alone? with
    | none =>
      have hdrafts : drafts (b :: bs) = drafts bs := List.filterMap_cons_none hd
      rw [hdrafts, List.filterMap_cons]
      split
      · exact ih hbs
      · exact (ih hbs).cons _
    | some d =>
      rw [drafts_cons hd, List.filterMap_cons_some (name?_of_alone? hb hd), List.filterMap_cons,
        Draft.finished?]
      split
      · rename_i hnone
        exact (ih hbs).cons _
      · rename_i entry hentry
        obtain ⟨-, rfl⟩ : d.words.isEmpty = false ∧ (d.name, d.toFunction) = entry := by
          simpa using hentry
        exact (ih hbs).cons_cons _

/-- `Spells text first bs`: the lines of the text are the first one and those of the functions. -/
def Spells (text first : String) (bs : List SourceBlock) : Prop :=
  (Source.lines (Bytes.utf8 text)).map Except.toOption = (first :: bs.flatMap lines).map some

instance (text first : String) (bs : List SourceBlock) : Decidable (Spells text first bs) :=
  inferInstanceAs (Decidable (_ = _))

instance (b : SourceBlock) : Decidable b.WellFormed :=
  decidable_of_iff
    (Directive.ofLine? b.head = some .func ∧ (∀ line ∈ b.body, Directive.isInner line = true) ∧
      b.body.foldl Segment.behind .function = .function)
    ⟨fun ⟨head, body, closed⟩ => ⟨head, body, closed⟩, fun h => ⟨h.head, h.body, h.closed⟩⟩

end SourceBlock

namespace Assembler

/-- The number of upvalues of a source that begins with it. -/
theorem exists_of_upvalues {line : String} (hline : Directive.ofLine? line = some .upvalues)
    (hacc : (({} : Assembler).feed line).1 = none) :
    ∃ k, (({} : Assembler).feed line).2 = { upvalueCount := some k } := by
  obtain ⟨rest, word, rest', hstart, hname, hlookup⟩ := Directive.exists_of_ofLine? hline
  have hreact : ({} : Assembler).react line.toList =
      .ofExcept (({} : Assembler).otherDirective .upvalues rest')
        [.directive .upvalues .topLevel] := by
    simp [react, hstart, directiveLine, hname, hlookup]
  rw [feed, hreact] at hacc ⊢
  cases hedits : ({} : Assembler).otherDirective .upvalues rest' with
  | error e =>
    rw [hedits] at hacc
    cases hacc
  | ok edits =>
    obtain ⟨⟨k, rest''⟩, -, hedits⟩ := bind_eq_ok.mp hedits
    obtain ⟨u, -, hedits⟩ := bind_eq_ok.mp hedits
    obtain rfl := Except.ok.inj hedits
    exact ⟨k, rfl⟩

/-- Behind the number of upvalues any functions may stand. -/
theorem ready_upvalues (k : UInt8) {bs : List SourceBlock} (hbs : ∀ b ∈ bs, b.WellFormed)
    (hnames : (bs.filterMap SourceBlock.name?).Nodup) :
    Ready { upvalueCount := some k } k bs where
  segment := rfl
  upvalueCount := rfl
  tracks := ⟨_, tracks_empty.step (.upvalues k rfl)⟩
  wellFormed := hbs
  nodup := hnames
  free _ _ _ _ := rfl

/-- **Functions in another order** give a program with the same functions. -/
theorem Gives.perm {k : UInt8} {bs bs' : List SourceBlock} {p : Program}
    (h : Gives { upvalueCount := some k } k bs p) (hperm : bs'.Perm bs) :
    ∃ p', Gives { upvalueCount := some k } k bs' p' ∧ p'.upvalueCount = p.upvalueCount ∧
      p'.functions.Perm p.functions := by
  have hdrafts : (SourceBlock.drafts bs').Perm (SourceBlock.drafts bs) := hperm.filterMap _
  refine ⟨_, ⟨rfl, h.compatible.perm hperm, fun _ _ _ _ => rfl, rfl⟩, ?_, ?_⟩
  · rw [h.program]
  · rw [h.program]
    refine List.Perm.append_right _ ?_
    exact (List.reverse_perm _).trans ((hdrafts.filterMap _).trans (List.reverse_perm _).symm)

end Assembler

/-! ## Texts -/

theorem map_toOption_eq_map_some {ε α : Type} {xs : List (Except ε α)} {ys : List α} :
    xs.map Except.toOption = ys.map some ↔ xs = ys.map .ok := by
  induction xs generalizing ys with
  | nil => cases ys <;> simp
  | cons x xs ih =>
    cases ys with
    | nil => simp
    | cons y ys => simp [ih, toOption_eq_some]

/-- **When a text gives a program**, and which. -/
theorem SourceBlock.Spells.result_eq_ok_iff {text first : String} {bs : List SourceBlock}
    {strict : Bool} {p : Program} (h : Spells text first bs)
    (hfirst : Directive.ofLine? first = some .upvalues) (hbs : ∀ b ∈ bs, b.WellFormed)
    (hnames : (bs.filterMap name?).Nodup) :
    (Assembly.ofText strict text).result = .ok p ↔
      ∃ k, ({} : Assembler).feed first = (none, { upvalueCount := some k }) ∧
        Assembler.Gives { upvalueCount := some k } k bs p := by
  rw [Spells, map_toOption_eq_map_some] at h
  rw [Assembly.ofText, Assembly.ofBytes, Assembly.ofLines, Assembly.run_ok_iff, h]
  constructor
  · rintro ⟨lines', a', heq, hacc, hfin⟩
    obtain rfl := List.map_injective_iff.mpr (fun _ _ => Except.ok.inj) heq
    obtain ⟨hone, hrest⟩ := Assembler.accept?_cons_eq_some.mp hacc
    obtain ⟨k, hk⟩ := Assembler.exists_of_upvalues hfirst hone
    rw [hk] at hrest
    have hgives := (Assembler.ready_upvalues k hbs hnames).finish_iff.mp ⟨a', hrest, hfin⟩
    exact ⟨k, Prod.ext hone hk, hgives⟩
  · rintro ⟨k, hfeed, hgives⟩
    obtain ⟨a', hrest, hfin⟩ := (Assembler.ready_upvalues k hbs hnames).finish_iff.mpr hgives
    refine ⟨_, a', rfl, Assembler.accept?_cons_eq_some.mpr ?_, hfin⟩
    rw [hfeed]
    exact ⟨rfl, hrest⟩

/-- Assemble a text and write the chunk to a sink: the sink after that, if nothing fails. -/
def Assembly.written? (strict : Bool) (text : String) (s : Sink) : Option Sink :=
  match (ofText strict text).result with
  | .error _ => none
  | .ok p =>
    match p.writeChunk s with
    | (.error _, _) => none
    | (.ok _, s) => some s

/-- Texts that spell the same functions in another order: what one gives, the other gives. -/
theorem SourceBlock.Spells.reorder {text text' first : String} {bs bs' : List SourceBlock}
    {strict : Bool} {p : Program} (h : Spells text first bs) (h' : Spells text' first bs')
    (hfirst : Directive.ofLine? first = some .upvalues) (hbs : ∀ b ∈ bs, b.WellFormed)
    (hnames : (bs.filterMap name?).Nodup) (hperm : bs'.Perm bs)
    (hp : (Assembly.ofText strict text).result = .ok p) :
    ∃ p', (Assembly.ofText strict text').result = .ok p' ∧ p'.upvalueCount = p.upvalueCount ∧
      p'.functions.Perm p.functions ∧ ∀ s, p'.writeChunk s = p.writeChunk s := by
  obtain ⟨k, hfeed, hgives⟩ := (h.result_eq_ok_iff hfirst hbs hnames).mp hp
  obtain ⟨p', hgives', hk, hfunctions⟩ := hgives.perm hperm
  have hbs' : ∀ b ∈ bs', b.WellFormed := fun b hb => hbs b (hperm.mem_iff.mp hb)
  have hnames' : (bs'.filterMap name?).Nodup := (hperm.filterMap name?).nodup_iff.mpr hnames
  have hkeys : (p.functions.map Prod.fst).Nodup := by
    have hnodup := hnames.sublist (sublist_keys hbs)
    rw [hgives.program]
    simpa [Assembler.close, List.nodup_reverse] using hnodup
  exact ⟨p', (h'.result_eq_ok_iff hfirst hbs' hnames').mpr ⟨k, hfeed, hgives'⟩, hk, hfunctions,
    Program.writeChunk_perm hk hfunctions hkeys⟩

/-- **The order of functions does not matter.** Let a source be the number of upvalues and then
functions with different names, each of which closes its segments. Whatever the order of the
functions, the source gives a program or does not, the program has the same functions with the same
records, and the same is written: a sink is left in the same state, or writing fails. -/
theorem block_order_irrelevant {strict : Bool} {text text' first : String}
    {bs bs' : List SourceBlock} (hfirst : Directive.ofLine? first = some .upvalues)
    (hbs : ∀ b ∈ bs, b.WellFormed) (hnames : (bs.filterMap SourceBlock.name?).Nodup)
    (hperm : bs'.Perm bs) (htext : SourceBlock.Spells text first bs)
    (htext' : SourceBlock.Spells text' first bs') :
    (∀ p, (Assembly.ofText strict text).result = .ok p →
      ∃ p', (Assembly.ofText strict text').result = .ok p' ∧ p'.upvalueCount = p.upvalueCount ∧
        p'.functions.Perm p.functions) ∧
    ∀ s, Assembly.written? strict text' s = Assembly.written? strict text s := by
  have hbs' : ∀ b ∈ bs', b.WellFormed := fun b hb => hbs b (hperm.mem_iff.mp hb)
  have hnames' : (bs'.filterMap SourceBlock.name?).Nodup :=
    (hperm.filterMap SourceBlock.name?).nodup_iff.mpr hnames
  constructor
  · intro p hp
    obtain ⟨p', hp', hk, hfunctions, -⟩ := htext.reorder htext' hfirst hbs hnames hperm hp
    exact ⟨p', hp', hk, hfunctions⟩
  · intro s
    rw [Assembly.written?, Assembly.written?]
    cases hp : (Assembly.ofText strict text).result with
    | ok p =>
      obtain ⟨p', hp', -, -, hwrite⟩ := htext.reorder htext' hfirst hbs hnames hperm hp
      simp only [hp', hwrite]
    | error e =>
      -- otherwise the functions in their first order would give a program as well
      cases hp' : (Assembly.ofText strict text').result with
      | error e' => rfl
      | ok p' =>
        obtain ⟨p, hp₁, -⟩ := htext'.reorder htext hfirst hbs' hnames' hperm.symm hp'
        rw [hp] at hp₁
        cases hp₁

/-- A main function, a function that it refers to, and one without instructions. -/
def orderedBlocks : List SourceBlock :=
  [⟨".func main 2 0 1", [".begin_code", "closure %0 helper", "closure %1 helper", "return %0 1",
      ".end_code"]⟩,
    ⟨".func helper 2 0 0", ["; waits for a label", ".begin_code", "jmp 0 $done", "done:",
      "return %0 1", ".end_code", ".begin_upvalue", "1 0", ".end_upvalue"]⟩,
    ⟨".func unused 2 0 0", [""]⟩]

/-- The text of functions behind the number of upvalues. -/
def blockText (bs : List SourceBlock) : String :=
  Source.ofLines (".upvalues 1" :: bs.flatMap SourceBlock.lines)

/-- The functions in reverse order give another table and the same chunk. -/
theorem block_order_irrelevant_reversed :
    (∀ s, Assembly.written? true (blockText orderedBlocks.reverse) s =
      Assembly.written? true (blockText orderedBlocks) s) ∧
    (Assembly.written? true (blockText orderedBlocks) {}).isSome = true ∧
    (Assembly.ofText true (blockText orderedBlocks.reverse)).result.toOption ≠
      (Assembly.ofText true (blockText orderedBlocks)).result.toOption := by
  have hfirst : Directive.ofLine? ".upvalues 1" = some .upvalues := by decide +kernel
  have hbs : ∀ b ∈ orderedBlocks, b.WellFormed := by decide +kernel
  have hnames : (orderedBlocks.filterMap SourceBlock.name?).Nodup := by decide +kernel
  have htext : SourceBlock.Spells (blockText orderedBlocks) ".upvalues 1" orderedBlocks := by
    decide +kernel
  have htext' : SourceBlock.Spells (blockText orderedBlocks.reverse) ".upvalues 1"
      orderedBlocks.reverse := by
    decide +kernel
  refine ⟨(block_order_irrelevant hfirst hbs hnames (List.reverse_perm _) htext htext').2, ?_, ?_⟩
  · decide +kernel
  · decide +kernel

end ChunkAsm
