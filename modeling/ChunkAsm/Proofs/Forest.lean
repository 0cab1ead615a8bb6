import ChunkAsm.Proofs.Closures
import ChunkAsm.Proofs.References
import Mathlib.Data.List.Chain
import Mathlib.Data.List.Pairwise

/-!
# Protos form a forest

A subroutine is stored inside the function that refers to it, so no two functions may refer to the
same one. The table of owners sees to that while lines are fed: a name belongs to the function that
uses it first, and functions are told apart by their numbers. `Assembler.Shares` is the invariant,
and `Produces.forest` what is left of it in a program: of all subroutines of all functions no two
are the same.

What follows is a matter of graphs. A function has at most one that refers to it, so the way back
from a function is determined. A cycle that can be reached is therefore reached from inside, and the
main function is on it; and two ways from the main function never meet again, so a complete walk
comes to every function once.
-/

namespace ChunkAsm

open Relation

/-- The subroutines of all functions of a table, one after the other. -/
def subroutinesOf (table : List (String × Function)) : List String :=
  table.flatMap fun entry => entry.2.subroutines.toList

/-! ## Functions share out their subroutines -/

namespace Assembler

/-- The finished functions share out their subroutines: no name is listed twice, and none of them
belongs to the open function. -/
structure Shares (a : Assembler) : Prop where
  /-- no name is listed twice -/
  nodup : (subroutinesOf a.finished).Nodup
  /-- a name that is listed belongs to a function that is not open any more -/
  owned : ∀ name ∈ subroutinesOf a.finished, ∃ i, a.owners.owner? name = some i ∧
    ∀ d, a.draft = some d → d.id ≠ i

variable {a : Assembler} {blocks : List Block}

theorem shares_empty : Shares {} where
  nodup := .nil
  owned := nofun

/-- Without an open function it is enough that every name is owned. -/
theorem shares_of_draft_eq_none (hd : a.draft = none) (hnodup : (subroutinesOf a.finished).Nodup)
    (howned : ∀ name ∈ subroutinesOf a.finished, ∃ i, a.owners.owner? name = some i) :
    a.Shares where
  nodup := hnodup
  owned := by
    intro name hn
    obtain ⟨i, hi⟩ := howned name hn
    refine ⟨i, hi, ?_⟩
    intro d hsome
    cases hd.symm.trans hsome

theorem Shares.exists_owner (h : a.Shares) {name : String}
    (hn : name ∈ subroutinesOf a.finished) : ∃ i, a.owners.owner? name = some i := by
  obtain ⟨i, hi, -⟩ := h.owned name hn
  exact ⟨i, hi⟩

theorem Shares.dropDraft (h : a.Shares) : Shares { a with draft := none } :=
  shares_of_draft_eq_none rfl h.nodup fun _ hn => h.exists_owner hn

/-- Closing the open function: it owns what it lists, and the others own what they list. -/
theorem Shares.close (h : a.Shares) (ht : a.Tracks blocks) : a.close.Shares := by
  rw [Assembler.close]
  cases hd : a.draft with
  | none => exact h
  | some d =>
    simp only
    split
    · exact h.dropDraft
    · obtain ⟨b, rest, -, hb⟩ := ht.draft d hd
      have hmine : ∀ name ∈ d.subroutines.toList, a.owners.owner? name = some d.id :=
        fun name hn => (ht.mine d hd name).mpr (Array.mem_def.mpr hn)
      have hlist : subroutinesOf ((d.name, d.toFunction) :: a.finished) =
          d.subroutines.toList ++ subroutinesOf a.finished := List.flatMap_cons
      refine shares_of_draft_eq_none rfl ?_ ?_
      · rw [hlist, List.nodup_append]
        refine ⟨hb.nodup_subroutines, h.nodup, ?_⟩
        rintro name hn _ hother rfl
        obtain ⟨i, hi, hne⟩ := h.owned name hother
        exact hne d hd (Option.some.inj ((hmine name hn).symm.trans hi))
      · intro name hn
        rw [hlist, List.mem_append] at hn
        rcases hn with hn | hn
        · exact ⟨d.id, hmine name hn⟩
        · exact h.exists_owner hn

/-- A declaration: the new function has a number of its own. -/
theorem Shares.begin (h : a.Shares) (ht : a.Tracks blocks) (name : String)
    (header : FunctionHeader) :
    Shares
      { a with
        segment := .function
        nextId := a.nextId + 1
        draft := some { id := a.nextId, name, header } } where
  nodup := h.nodup
  owned := by
    intro n hn
    obtain ⟨i, hi, -⟩ := h.owned n hn
    refine ⟨i, hi, ?_⟩
    rintro d ⟨⟩
    exact Nat.ne_of_gt (ht.owned n i hi)

/-- Lines of the open function: it keeps its number, and owners stay owners. -/
theorem Shares.item {d d' : Draft} {o : Owners} (h : a.Shares) (hd : a.draft = some d)
    (hid : d'.id = d.id) (ho : ∀ name i, a.owners.owner? name = some i → o.owner? name = some i) :
    Shares { a with draft := some d', owners := o } where
  nodup := h.nodup
  owned := by
    intro name hn
    obtain ⟨i, hi, hne⟩ := h.owned name hn
    refine ⟨i, ho name i hi, ?_⟩
    rintro _ ⟨⟩
    rw [hid]
    exact hne d hd

/-- **A step keeps the invariant.** -/
theorem Shares.step {said : Option Statement} {refusal : Option LineError} {a' : Assembler}
    (h : a.Shares) (ht : a.Tracks blocks) (hs : a.Step said refusal a') : a'.Shares := by
  cases hs with
  | rejected => exact h
  | dropped => exact h.dropDraft
  | taken => exact h.close ht
  | blank => exact h
  | upvalues => exact { h with }
  | segment => exact { h with }
  | function name header hseg hc => exact (h.close ht).begin (ht.close hc) name header
  | label d name hseg hd => exact h.item hd rfl fun _ _ hi => hi
  | constant d c hseg hd => exact h.item hd rfl fun _ _ hi => hi
  | upvalue d u hseg hd => exact h.item hd rfl fun _ _ hi => hi
  | instruction d op os line m hseg hd =>
    rw [emit_of_some hd]
    refine h.item hd rfl ?_
    intro name i hi
    rw [Owners.owner?_claimAll, hi]
    rfl

/-- **A run keeps the invariant.** -/
theorem Shares.feedAll (h : a.Shares) (ht : a.Tracks blocks) (lines : List String) :
    (a.feedAll lines).Shares :=
  ht.feedAll_keeps (fun ht hstep h => h.step ht hstep) h lines

end Assembler

/-- A program whose protos form a forest. -/
structure Program.Forest (p : Program) : Prop where
  /-- every function stands under its own name -/
  keys : ∀ key f, p.function? key = some f → f.name = key
  /-- of all subroutines of all functions no two are the same -/
  nodup : (subroutinesOf p.functions).Nodup

/-- **Assembled programs are forests.** -/
theorem Produces.forest {lines : List String} {p : Program} (h : Produces lines p) : p.Forest where
  keys := fun key f hf => h.name_eq hf
  nodup := by
    obtain ⟨strict, hfin⟩ := h.exists_finish
    rw [(Assembler.finish_eq_ok hfin).2]
    have htracks := Assembler.tracks_empty.feedAll lines
    exact ((Assembler.shares_empty.feedAll Assembler.tracks_empty lines).close htracks).nodup

/-! ## The way back -/

section

variable {α : Type} {R : α → α → Prop}

/-- Where the way back is determined, a cycle that can be reached from a root goes through the
root. -/
theorem mem_cycle_of_leftUnique (hR : Relator.LeftUnique R) {root x : α}
    (hreach : ReflTransGen R root x) {cycle : List α}
    (hcycle : List.IsChain R (x :: (cycle ++ [x]))) : root ∈ x :: cycle := by
  induction hreach generalizing cycle with
  | refl => exact List.mem_cons_self
  | @tail y x _ hyx ih =>
    -- one step back on the way from the root is one step back on the cycle
    rcases List.eq_nil_or_concat cycle with rfl | ⟨front, z, rfl⟩
    · have hxx : R x x := by simpa using hcycle
      obtain rfl := hR hyx hxx
      exact ih hcycle
    · rw [List.concat_eq_append, List.append_assoc, List.singleton_append,
        List.isChain_cons_append_cons_cons] at hcycle
      obtain ⟨hfront, hzx, -⟩ := hcycle
      obtain rfl := hR hyx hzx
      have hturned : List.IsChain R (y :: ((x :: front) ++ [y])) :=
        List.isChain_cons_cons.mpr ⟨hyx, hfront⟩
      have hroot := ih hturned
      simp only [List.concat_eq_append, List.mem_cons, List.mem_append, List.not_mem_nil,
        or_false] at hroot ⊢
      tauto

/-- A chain that comes back to one of its members comes back to the first one, if the way back is
determined. The chain is written backwards. -/
theorem getLast?_of_isChain (hR : Relator.LeftUnique R) {x : α} {path : List α}
    (hchain : List.IsChain (fun x y => R y x) (x :: path)) (hnodup : path.Nodup) (hx : x ∈ path) :
    path.getLast? = some x := by
  obtain ⟨before, after, rfl⟩ := List.append_of_mem hx
  cases after with
  | nil => simp
  | cons y after =>
    -- the first step of the chain and the one after the repetition lead back to the same place
    obtain ⟨hbefore, hyx, -⟩ := List.isChain_cons_append_cons_cons.mp hchain
    cases before with
    | nil =>
      have hxx : R x x := (List.isChain_cons_cons.mp hbefore).1
      obtain rfl := hR hyx hxx
      simp at hnodup
    | cons z before =>
      have hzx : R z x := (List.isChain_cons_cons.mp hbefore).1
      obtain rfl := hR hyx hzx
      simp at hnodup

/-- Two ways that start with different steps from a place on no cycle do not meet, if the way back
is determined. -/
theorem not_meet_of_leftUnique (hR : Relator.LeftUnique R) {root x y z : α} (hx : R root x)
    (hy : R root y) (hne : x ≠ y) (hroot : ¬ TransGen R root root) (hxz : ReflTransGen R x z)
    (hyz : ReflTransGen R y z) : False := by
  -- one of the two is on the way of the other, and so is the root before it
  have hback : ∀ {x y}, R root x → R root y → x ≠ y → ¬ ReflTransGen R x y := by
    intro x y hx hy hne hxy
    rcases hxy.cases_tail with rfl | ⟨w, hxw, hwy⟩
    · exact hne rfl
    · obtain rfl := hR hy hwy
      exact hroot (.head' hx hxw)
  have hswap : Relator.RightUnique (Function.swap R) := fun _ _ _ h h' => hR h h'
  rcases ReflTransGen.total_of_right_unique hswap
    (reflTransGen_swap.mpr hxz) (reflTransGen_swap.mpr hyz) with h | h
  · exact hback hy hx hne.symm (reflTransGen_swap.mp h)
  · exact hback hx hy hne (reflTransGen_swap.mp h)

end

namespace Program.Forest

variable {p : Program} {key name : String} {f : Function}

/-- At most one function refers to a function. -/
theorem leftUnique (hp : p.Forest) : Relator.LeftUnique p.Refers := by
  rintro caller caller' name ⟨f, hf, hn⟩ ⟨g, hg, hn'⟩
  by_contra hne
  obtain ⟨-, hapart⟩ := List.nodup_flatMap.mp hp.nodup
  have hsymm : Std.Symm (Function.onFun List.Disjoint fun e : String × Function =>
      e.2.subroutines.toList) := ⟨fun _ _ h _ hx hy => h hy hx⟩
  exact hapart.forall (mem_functions hf) (mem_functions hg)
    (fun he => hne (congrArg Prod.fst he)) (Array.mem_def.mp hn) (Array.mem_def.mp hn')

theorem nodup_subroutines (hp : p.Forest) (hf : p.function? key = some f) :
    f.subroutines.toList.Nodup :=
  (List.nodup_flatMap.mp hp.nodup).1 _ (mem_functions hf)

/-- A function stands under its name. -/
theorem function?_name (hp : p.Forest) (hf : p.function? key = some f) :
    p.function? f.name = some f := by
  rw [hp.keys key f hf]
  exact hf

/-- The protos of a function are different functions, stand under their names, and it refers to
them. -/
theorem protos (hp : p.Forest) {l : Linked} (hf : p.function? f.name = some f)
    (hl : p.link f = .ok l) :
    (l.protos.toList.map Function.name).Nodup ∧
      ∀ g ∈ l.protos.toList, p.function? g.name = some g ∧ p.Refers f.name g.name := by
  constructor
  · have hnames : l.protos.toList.map Function.name = f.subroutines.toList := by
      have hall := (link_protos hl).imp fun name g hg => (hp.keys name g hg).symm
      rw [← List.forall₂_map_right_iff (f := Function.name), List.forall₂_eq_eq_eq] at hall
      exact hall.symm
    rw [hnames]
    exact hp.nodup_subroutines hf
  · intro g hg
    obtain ⟨name, hname, hfun⟩ := exists_of_mem_protos hl hg
    obtain rfl := hp.keys name g hfun
    exact ⟨hfun, f, hf, hname⟩

end Program.Forest

/-! ## Broken walks -/

/-- **Chains.** In a forest a chain that ends in a repetition ends where it starts. -/
theorem Breaks.chain_eq {p : Program} (hp : p.Forest) {root : String} {path chain : List String}
    {f : Function} {vs : List Visit}
    (h : Breaks p path f vs (.recursiveSubroutine chain)) (hf : p.function? f.name = some f)
    (hchain : List.IsChain (fun x y => p.Refers y x) (f.name :: path))
    (hroot : (f.name :: path).getLast? = some root) (hnodup : path.Nodup) :
    ∃ between, chain = root :: (between ++ [root]) ∧ (root :: between).Nodup := by
  generalize he : LinkError.recursiveSubroutine chain = e at h
  induction h with
  | @cycle path f hname =>
    obtain rfl := LinkError.recursiveSubroutine.inj he
    obtain ⟨between, rfl⟩ := List.getLast?_eq_some_iff.mp
      (getLast?_of_isChain hp.leftUnique hchain hnodup hname)
    rw [← List.cons_append, List.getLast?_concat] at hroot
    obtain rfl := Option.some.inj hroot
    refine ⟨between.reverse, by simp, ?_⟩
    rw [← List.nodup_reverse] at hnodup
    simpa using hnodup
  | link _ hl =>
    subst he
    rcases Program.link_eq_error hl with ⟨name, -, -, he⟩ | ⟨-, x, he⟩ <;> cases he
  | @proto path f g l before after vs ws e hname hl hsplit _ _ ih =>
    obtain ⟨-, hprotos⟩ := hp.protos hf hl
    obtain ⟨hg, hrefers⟩ := hprotos g (by rw [hsplit]; simp)
    refine ih hg (List.isChain_cons_cons.mpr ⟨hrefers, hchain⟩) ?_
      (List.nodup_cons.mpr ⟨hname, hnodup⟩) he
    rw [List.getLast?_cons_cons]
    exact hroot

/-! ## Complete walks -/

/-- The function that a step of the walk writes the head of. -/
def Visit.entered? : Visit → Option Function
  | entered _ l => some l.function
  | _ => none

/-- The functions whose records the steps of a walk write. -/
def Visit.written (vs : List Visit) : List Function := vs.filterMap Visit.entered?

@[simp] theorem Visit.written_append (vs ws : List Visit) :
    written (vs ++ ws) = written vs ++ written ws :=
  List.filterMap_append

/-- A function is written before its protos. -/
theorem Visit.written_node (n : Nat) (l : Linked) (vs : List Visit) :
    written (.reached l.function :: .entered n l :: (vs ++ [.left l.function])) =
      l.function :: written vs := by
  simp [written, entered?, List.filterMap_cons]

section

variable {p : Program}

mutual

/-- What a complete walk through a function writes are functions that it reaches. -/
theorem Walks.reaches (hp : p.Forest) {n : Nat} {f g : Function} {vs : List Visit} :
    Walks p n f vs → p.function? f.name = some f → g ∈ Visit.written vs →
      ReflTransGen p.Refers f.name g.name
  | @Walks.node _ _ _ l vs hl hall, hf, hg => by
    obtain ⟨-, hprotos⟩ := hp.protos hf hl
    obtain rfl := (Program.link_eq_ok hl).1
    rw [Visit.written_node] at hg
    rcases List.mem_cons.mp hg with rfl | hg
    · exact .refl
    · obtain ⟨f', hf', hreach⟩ := hall.reaches hp (fun g hg => (hprotos g hg).1) hg
      exact .head (hprotos f' hf').2 hreach

theorem WalksAll.reaches (hp : p.Forest) {n : Nat} {fs : List Function} {g : Function}
    {vs : List Visit} :
    WalksAll p n fs vs → (∀ f ∈ fs, p.function? f.name = some f) → g ∈ Visit.written vs →
      ∃ f ∈ fs, ReflTransGen p.Refers f.name g.name
  | .nil, _, hg => by cases hg
  | @WalksAll.cons _ _ f _ vs ws hf hall, hfs, hg => by
    rw [Visit.written_append, List.mem_append] at hg
    rcases hg with hg | hg
    · exact ⟨f, List.mem_cons_self, hf.reaches hp (hfs f List.mem_cons_self) hg⟩
    · obtain ⟨f', hf', hreach⟩ :=
        hall.reaches hp (fun g hg => hfs g (List.mem_cons_of_mem _ hg)) hg
      exact ⟨f', List.mem_cons_of_mem _ hf', hreach⟩

end

mutual

/-- **A complete walk writes every function once.** -/
theorem Walks.nodup_written (hp : p.Forest) {n : Nat} {f : Function} {vs : List Visit} :
    Walks p n f vs → p.function? f.name = some f →
      ((Visit.written vs).map Function.name).Nodup
  | @Walks.node _ _ _ l vs hl hall, hf => by
    have hcycle := (Walks.node hl hall).not_transGen hf
    obtain ⟨hnames, hprotos⟩ := hp.protos hf hl
    obtain rfl := (Program.link_eq_ok hl).1
    rw [Visit.written_node, List.map_cons, List.nodup_cons]
    refine ⟨?_, hall.nodup_written hp hprotos hnames hcycle⟩
    intro hmem
    obtain ⟨g, hg, hname⟩ := List.mem_map.mp hmem
    obtain ⟨f', hf', hreach⟩ := hall.reaches hp (fun g hg => (hprotos g hg).1) hg
    rw [hname] at hreach
    exact hcycle (.head' (hprotos f' hf').2 hreach)

/-- So do walks through functions that the same function refers to. -/
theorem WalksAll.nodup_written (hp : p.Forest) {n : Nat} {caller : String} {fs : List Function}
    {vs : List Visit} :
    WalksAll p n fs vs → (∀ f ∈ fs, p.function? f.name = some f ∧ p.Refers caller f.name) →
      (fs.map Function.name).Nodup → ¬ TransGen p.Refers caller caller →
      ((Visit.written vs).map Function.name).Nodup
  | .nil, _, _, _ => .nil
  | @WalksAll.cons _ _ f fs vs ws hf hall, hfs, hnames, hcycle => by
    obtain ⟨hfun, hrefers⟩ := hfs f List.mem_cons_self
    obtain ⟨hnew, hrest⟩ := List.nodup_cons.mp hnames
    have hfs' := fun g hg => hfs g (List.mem_cons_of_mem f hg)
    rw [Visit.written_append, List.map_append, List.nodup_append]
    refine ⟨hf.nodup_written hp hfun, hall.nodup_written hp hfs' hrest hcycle, ?_⟩
    -- a function of both would be reached on two ways
    rintro name hname _ hname' rfl
    obtain ⟨g, hg, rfl⟩ := List.mem_map.mp hname
    obtain ⟨g', hg', hsame⟩ := List.mem_map.mp hname'
    have hreach := hf.reaches hp hfun hg
    obtain ⟨f', hf', hreach'⟩ := hall.reaches hp (fun g hg => (hfs' g hg).1) hg'
    rw [hsame] at hreach'
    have hne : f.name ≠ f'.name := fun h => hnew (h ▸ List.mem_map_of_mem hf')
    exact not_meet_of_leftUnique hp.leftUnique hrefers (hfs' f' hf').2 hne hcycle hreach hreach'

end

end

/-- The functions whose records are written, in the order of their heads. -/
def Program.written (p : Program) : List Function := Visit.written p.unfolding.visits.toList

/-- **Protos form a forest.** In a program that comes from lines no subroutine is listed twice, by
one function or by two. Hence a chunk that is written has no function twice, and if a chunk is not
written because a function contains itself, that function is the main function: the chain starts and
ends with it and has no other repetition, as all cycles that the main function reaches go through
it. -/
theorem protos_form_forest {lines : List String} {p : Program} (h : Produces lines p) :
    (subroutinesOf p.functions).Nodup ∧
    (∀ s : Sink, (p.writeChunk s).1 = .ok () →
      (p.writeChunk s).2.received.data.toList = s.received.data.toList ++ p.pieces.flatten ∧
        (p.written.map Function.name).Nodup) ∧
    (∀ (s : Sink) chain, (p.writeChunk s).1 = .error (.link (.recursiveSubroutine chain)) →
      ∃ between, chain = Program.mainName :: (between ++ [Program.mainName]) ∧
        (Program.mainName :: between).Nodup) ∧
    ∀ key cycle, ReflTransGen p.Refers Program.mainName key →
      List.IsChain p.Refers (key :: (cycle ++ [key])) → Program.mainName ∈ key :: cycle := by
  have hp := h.forest
  refine ⟨hp.nodup, ?_, ?_, fun key cycle hreach hcycle =>
    mem_cycle_of_leftUnique hp.leftUnique hreach hcycle⟩
  · intro s hok
    obtain ⟨f, hm, hfail, -, hbytes⟩ := p.writeChunk_eq_ok hok
    exact ⟨hbytes, (Program.unfolding_walks hm hfail).nodup_written hp (hp.function?_name hm)⟩
  · intro s chain herror
    rcases Program.writeChunk_eq_link herror with he | ⟨f, hm, hfail⟩
    · cases he
    · have hname : f.name = Program.mainName := hp.keys _ f hm
      exact (Program.unfolding_breaks hm hfail).chain_eq hp (hp.function?_name hm)
        (.singleton _) (by rw [hname]; rfl) .nil

/-- A main function with a helper that refers to it. -/
def recursiveLines : List String :=
  [".upvalues 0", ".func main 2 0 0", ".begin_code", "closure %0 helper", ".end_code",
    ".func helper 2 0 0", ".begin_code", "closure %0 main", ".end_code"]

/-- A chunk with three functions, and a chain from the main function to itself. -/
theorem protos_form_forest_small :
    (∃ p, Produces closureLines p ∧ (p.writeChunk {}).1 = .ok () ∧
      p.written.map Function.name = ["main", "step", "stop"] ∧
      (p.written.map Function.name).Nodup) ∧
    ∃ p between, Produces recursiveLines p ∧
      (p.writeChunk {}).1 = .error (.link (.recursiveSubroutine ["main", "helper", "main"])) ∧
      ["main", "helper", "main"] = Program.mainName :: (between ++ [Program.mainName]) ∧
      (Program.mainName :: between).Nodup := by
  constructor
  · have hrun : ((({} : Assembler).feedAll closureLines).finish false).2.toOption.bind (fun p =>
        some ((p.writeChunk {}).1, p.written.map Function.name)) =
        some (.ok (), ["main", "step", "stop"]) := by
      decide +kernel
    obtain ⟨p, hp, hlook⟩ := Produces.of_run hrun
    obtain ⟨hok, hnames⟩ := Prod.mk.inj (Option.some.inj hlook)
    obtain ⟨-, hwritten, -, -⟩ := protos_form_forest hp
    exact ⟨p, hp, hok, hnames, (hwritten {} hok).2⟩
  · have hrun : ((({} : Assembler).feedAll recursiveLines).finish false).2.toOption.bind (fun p =>
        some (p.writeChunk {}).1) =
        some (.error (.link (.recursiveSubroutine ["main", "helper", "main"]))) := by
      decide +kernel
    obtain ⟨p, hp, hlook⟩ := Produces.of_run hrun
    have herror := Option.some.inj hlook
    obtain ⟨-, -, hchain, -⟩ := protos_form_forest hp
    obtain ⟨between, heq, hnodup⟩ := hchain {} _ herror
    exact ⟨p, between, hp, herror, heq, hnodup⟩

end ChunkAsm
