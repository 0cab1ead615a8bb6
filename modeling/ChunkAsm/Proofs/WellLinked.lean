import ChunkAsm.Proofs.Closures
import ChunkAsm.Proofs.References

/-!
# Which programs are written

A chunk is written exactly if its program is **well linked**: there is a main function, what the
main function reaches is in the table, and none of it reaches itself.

The walk looks for cycles on its path only. That is enough in one direction because a name on the
path reaches the function at hand, and in the other because a complete walk through a function
contains shorter complete walks through all that it reaches.
-/

namespace ChunkAsm

open Relation

/-! ## Sinks without a limit -/

namespace Sink

/-- A sink without a limit. It may take the bytes in portions, but takes some in every call. -/
structure Unbounded (s : Sink) : Prop where
  /-- there is no limit to what it takes in all -/
  capacity : s.policy.capacity = none
  /-- every call takes something -/
  stride : ∀ call, s.policy.stride call ≠ some 0

variable {s : Sink}

/-- An unbounded sink takes at least one of the bytes that it is offered. -/
theorem Unbounded.answer (h : s.Unbounded) (offered : Nat) :
    ∃ n, s.answer (offered + 1) = .takes (n + 1) := by
  have hfull : s.isFull = false := by rw [isFull, h.capacity]
  cases hstride : s.policy.stride s.calls with
  | none => exact ⟨offered, by simp [Sink.answer, hfull, hstride, h.capacity]⟩
  | some k =>
    have hk : k ≠ 0 := by
      rintro rfl
      exact h.stride _ hstride
    refine ⟨min (offered + 1) k - 1, ?_⟩
    have hmin : min (offered + 1) k - 1 + 1 = min (offered + 1) k := by omega
    simp [Sink.answer, hfull, hstride, h.capacity, hmin]

theorem Unbounded.offerFrom (h : s.Unbounded) (quota taken : Nat) (bytes : List UInt8) :
    ∃ s', s.offerFrom quota taken bytes = (.ok (taken + bytes.length), s') ∧ s'.Unbounded := by
  induction bytes generalizing s quota taken with
  | nil => exact ⟨s, rfl, h⟩
  | cons b rest ih =>
    rw [List.length_cons, Nat.add_comm rest.length, ← Nat.add_assoc]
    cases quota with
    | succ quota => exact ih (s := s.accept b) ⟨h.capacity, h.stride⟩ quota (taken + 1)
    | zero =>
      obtain ⟨n, hn⟩ := h.answer rest.length
      rw [Sink.offerFrom, hn]
      exact ih (s := s.called.accept b) ⟨h.capacity, h.stride⟩ n (taken + 1)

theorem Unbounded.put (h : s.Unbounded) (bytes : List UInt8) :
    ∃ s', s.put bytes = (.ok (), s') ∧ s'.Unbounded := by
  obtain ⟨s', hs', hu⟩ := h.offerFrom 0 0 bytes
  exact ⟨s', by simp [Sink.put, offer, hs'], hu⟩

/-- An unbounded sink takes everything. -/
theorem Unbounded.putAll (h : s.Unbounded) (pieces : List (List UInt8)) :
    ∃ s', s.putAll pieces = (.ok (), s') := by
  induction pieces generalizing s with
  | nil => exact ⟨s, rfl⟩
  | cons piece rest ih =>
    obtain ⟨s₁, hs₁, hu⟩ := h.put piece
    obtain ⟨s', hs'⟩ := ih hu
    exact ⟨s', by rw [Sink.putAll, hs₁]; exact hs'⟩

end Sink

namespace Program

variable {p : Program}

/-- With an unbounded sink everything depends on the walk and the tables. -/
theorem fst_writeChunk {s : Sink} (hs : s.Unbounded) : (p.writeChunk s).1 = p.verdict := by
  obtain ⟨s', hput⟩ := hs.putAll p.pieces
  rw [writeChunk_eq, hput]

/-! ## Well-linked programs -/

/-- The table of a program is consistent: functions stand under their names, and the instructions
that wait for subroutines are there. -/
structure Consistent (p : Program) : Prop where
  /-- every function stands under its name -/
  keys : ∀ key f, p.function? key = some f → f.name = key
  /-- what waits for a subroutine is there -/
  sites : ∀ key f, p.function? key = some f →
    ∀ name, ∀ i ∈ f.protoSites.sites name, i < f.words.size

/-- A program that can be put together. -/
structure WellLinked (p : Program) : Prop where
  /-- there is a main function -/
  main : ∃ f, p.main? = some f
  /-- every subroutine of every function that the main function reaches is in the table -/
  present : ∀ key f, ReflTransGen p.Refers mainName key → p.function? key = some f →
    ∀ name ∈ f.subroutines, ∃ g, p.function? name = some g
  /-- no function that the main function reaches reaches itself -/
  acyclic : ∀ key, ReflTransGen p.Refers mainName key → ¬ TransGen p.Refers key key

end Program

section

variable {p : Program}

/-- A complete walk through a function contains complete walks through all functions that it
reaches. -/
theorem Walks.of_reflTransGen {n : Nat} {key name : String} {f : Function} {vs : List Visit}
    (h : Walks p n f vs) (hf : p.function? key = some f) (hr : ReflTransGen p.Refers key name) :
    ∃ m g ws, p.function? name = some g ∧ Walks p m g ws := by
  rcases reflTransGen_iff_eq_or_transGen.mp hr with rfl | hr
  · exact ⟨n, f, vs, hf, h⟩
  · obtain ⟨m, g, ws, hg, hws, -⟩ := h.of_transGen hf hr
    exact ⟨m, g, ws, hg, hws⟩

/-- **Complete walks** start in well-linked programs. -/
theorem Walks.wellLinked {f : Function} {vs : List Visit} (h : Walks p 0 f vs)
    (hm : p.main? = some f) : p.WellLinked where
  main := ⟨f, hm⟩
  present := by
    intro key g hreach hg name hname
    obtain ⟨m, g', ws, hg', hws⟩ := h.of_reflTransGen hm hreach
    obtain rfl := Option.some.inj (hg.symm.trans hg')
    cases hws with
    | node hl hall =>
      obtain ⟨g', -, hfun⟩ := Program.exists_mem_protos hl hname
      exact ⟨g', hfun⟩
  acyclic := by
    intro key hreach
    obtain ⟨m, g, ws, hg, hws⟩ := h.of_reflTransGen hm hreach
    exact hws.not_transGen hg

/-- **Broken walks** come to a function that reaches itself or cannot be linked. -/
theorem Breaks.exists_fault (hp : p.Consistent) {path : List String} {f : Function}
    {vs : List Visit} {e : LinkError} (h : Breaks p path f vs e) (hf : p.function? f.name = some f)
    (hpath : ∀ name ∈ path, TransGen p.Refers name f.name) :
    ∃ key g, ReflTransGen p.Refers f.name key ∧ p.function? key = some g ∧
      (TransGen p.Refers key key ∨ ∃ e, p.link g = .error e) := by
  induction h with
  | @cycle path f hname => exact ⟨f.name, f, .refl, hf, .inl (hpath f.name hname)⟩
  | @link path f e _ hl => exact ⟨f.name, f, .refl, hf, .inr ⟨e, hl⟩⟩
  | @proto path f g l before after vs ws e _ hl hsplit _ _ ih =>
    obtain ⟨name, hname, hg⟩ := Program.exists_of_mem_protos hl (g := g) (by rw [hsplit]; simp)
    obtain rfl := hp.keys name g hg
    have hrefers : p.Refers f.name g.name := ⟨f, hf, hname⟩
    obtain ⟨key, g', hreach, hg', hfault⟩ := ih hg <| by
      intro name hname
      rcases List.mem_cons.mp hname with rfl | hname
      · exact .single hrefers
      · exact (hpath name hname).tail hrefers
    exact ⟨key, g', .head hrefers hreach, hg', hfault⟩

end

/-! ## Short tables -/

/-- The tables of a function are not too long for the format. -/
def Function.Short (f : Function) : Prop :=
  f.words.size < 2147483648 ∧ f.constants.size < 2147483648 ∧ f.upvalues.size < 2147483648 ∧
    f.subroutines.size < 2147483648 ∧ f.lines.size < 2147483648

/-- No function of a program has a table that is too long. -/
def Program.Short (p : Program) : Prop := ∀ key f, p.function? key = some f → f.Short

namespace Unfolding

/-- All steps of a walk have a property. -/
def All (P : Visit → Prop) (u : Unfolding) : Prop := ∀ v ∈ u.visits, P v

variable {P : Visit → Prop} {u : Unfolding}

theorem All.push {v : Visit} (h : u.All P) (hv : P v) : (u.push v).All P := by
  intro w hw
  rcases Array.mem_push.mp hw with hw | rfl
  · exact h w hw
  · exact hv

theorem All.andThen {next : Unfolding → Unfolding} (h : u.All P)
    (hnext : ∀ u : Unfolding, u.All P → (next u).All P) : (u.andThen next).All P := by
  rw [Unfolding.andThen]
  split
  · exact hnext u h
  · exact h

theorem All.foldl {walk : Function → Unfolding → Unfolding} {fs : List Function} (h : u.All P)
    (hwalk : ∀ f ∈ fs, ∀ u : Unfolding, u.All P → (walk f u).All P) :
    (fs.foldl (fun u f => u.andThen (walk f)) u).All P := by
  induction fs generalizing u with
  | nil => exact h
  | cons f fs ih =>
    exact ih (h.andThen (hwalk f List.mem_cons_self)) fun g hg =>
      hwalk g (List.mem_cons_of_mem _ hg)

end Unfolding

namespace Program

variable {p : Program}

/-- What holds of the steps through each function of the table holds of all steps of a walk. -/
theorem unfoldFrom_all {P : Visit → Prop}
    (h : ∀ key f, p.function? key = some f →
      P (.reached f) ∧ (∀ n l, p.link f = .ok l → P (.entered n l)) ∧ P (.left f))
    {room : Nat} {path : List String} {key : String} {f : Function} {u : Unfolding}
    (hf : p.function? key = some f) (hu : u.All P) : (p.unfoldFrom room path f u).All P := by
  induction room generalizing path key f u with
  | zero =>
    rw [unfoldFrom]
    exact (ite_self _).symm ▸ hu
  | succ room ih =>
    obtain ⟨hreached, hentered, hleft⟩ := h key f hf
    rw [unfoldFrom]
    by_cases hname : f.name ∈ path
    · simp only [if_pos hname]
      exact hu
    · simp only [if_neg hname]
      cases hl : p.link f with
      | error e => exact hu.push hreached
      | ok l =>
        simp only [← Array.foldl_toList]
        refine Unfolding.All.andThen ?_ fun u hu => hu.push hleft
        refine ((hu.push hreached).push (hentered _ l hl)).foldl fun g hg u hu => ?_
        obtain ⟨name, -, hfun⟩ := exists_of_mem_protos hl hg
        exact ih hfun hu

/-- **Without tables that are too long**, writing does not come to one. -/
theorem Short.oversize?_eq_none (h : p.Short) : p.oversize? = none := by
  have hvisits : p.unfolding.All fun v => Chunk.oversize? v.parts = none := by
    rw [unfolding]
    cases hm : p.main? with
    | none => exact fun v hv => absurd hv (Array.not_mem_empty v)
    | some f =>
      refine unfoldFrom_all ?_ hm fun v hv => absurd hv (Array.not_mem_empty v)
      intro key f hf
      obtain ⟨hwords, hconstants, hupvalues, hsubroutines, hlines⟩ := h key f hf
      refine ⟨rfl, fun n l hl => ?_, Chunk.oversize?_functionTail hlines⟩
      obtain rfl := (link_eq_ok hl).1
      have hprotos : l.protos.size = l.function.subroutines.size := by
        simpa using (link_protos hl).length_eq.symm
      exact Chunk.oversize?_functionHead (link_size hl ▸ hwords) hconstants hupvalues
        (hprotos ▸ hsubroutines)
  rw [oversize?, Chunk.oversize?, List.findSome?_eq_none_iff]
  intro part hpart
  obtain ⟨v, hv, hpart⟩ := List.mem_flatMap.mp hpart
  exact List.findSome?_eq_none_iff.mp (hvisits v (Array.mem_toList_iff.mp hv)) part hpart

end Program

/-- The tables of a function are short enough to be written, and its subroutines can be numbered. -/
def Function.Sized (f : Function) : Prop :=
  f.subroutines.size ≤ 262144 ∧ f.words.size < 2147483648 ∧ f.constants.size < 2147483648 ∧
    f.upvalues.size < 2147483648 ∧ f.lines.size < 2147483648

instance Function.decidableSized (f : Function) : Decidable f.Sized :=
  inferInstanceAs (Decidable (_ ∧ _))

/-- All functions of a program are short enough. -/
def Program.Sized (p : Program) : Prop := ∀ entry ∈ p.functions, entry.2.Sized

instance Program.decidableSized (p : Program) : Decidable p.Sized :=
  inferInstanceAs (Decidable (∀ entry ∈ p.functions, entry.2.Sized))

theorem Program.Sized.short {p : Program} (h : p.Sized) : p.Short := by
  intro key f hf
  obtain ⟨hsubroutines, hwords, hconstants, hupvalues, hlines⟩ := h _ (mem_functions hf)
  exact ⟨hwords, hconstants, hupvalues, Nat.lt_of_le_of_lt hsubroutines (by decide), hlines⟩

/-- **The walk through a program is complete exactly if the program is well linked.** -/
theorem Program.failure_unfolding_eq_none_iff {p : Program} (hp : p.Consistent) (hs : p.Sized) :
    p.unfolding.failure = none ↔ p.WellLinked := by
  constructor
  · intro hfail
    cases hm : p.main? with
    | none =>
      rw [unfolding, hm] at hfail
      cases hfail
    | some f => exact (unfolding_walks hm hfail).wellLinked hm
  · intro hlinked
    obtain ⟨f, hm⟩ := hlinked.main
    cases hfail : p.unfolding.failure with
    | none => rfl
    | some e =>
      have hname : f.name = mainName := hp.keys _ f hm
      obtain ⟨key, g, hreach, hg, hfault⟩ := (unfolding_breaks hm hfail).exists_fault hp
        (by rw [hname]; exact hm) (fun _ h => absurd h List.not_mem_nil)
      rw [hname] at hreach
      rcases hfault with hcycle | ⟨e, hl⟩
      · exact absurd hcycle (hlinked.acyclic key hreach)
      · rcases link_eq_error hl with ⟨name, hmem, hnone, -⟩ | ⟨hmany, -⟩
        · obtain ⟨g', hg'⟩ := hlinked.present key g hreach hg name hmem
          cases hnone.symm.trans hg'
        · exact absurd (hs _ (mem_functions hg)).1 (Nat.not_le_of_gt hmany)

/-- **Assembled programs are consistent.** -/
theorem Produces.consistent {lines : List String} {p : Program} (h : Produces lines p) :
    p.Consistent where
  keys := fun key f hf => h.name_eq hf
  sites := by
    intro key f hf name i hi
    obtain ⟨b, -, d, hb, -, rfl⟩ := h.completes hf
    exact hb.lt_size_of_mem_protoSites hi

/-- **A chunk is written exactly if its program is well linked.** This is so for every consistent
program whose functions are short enough, and every sink without a limit. All programs that come
from lines are consistent. Without a main function nothing is written. -/
theorem writeChunk_succeeds_iff {p : Program} {s : Sink} (hsized : p.Sized) (hs : s.Unbounded) :
    (p.Consistent → ((p.writeChunk s).1 = .ok () ↔ p.WellLinked)) ∧
    (p.main? = none → p.writeChunk s = (.error (.link .noMain), s)) ∧
    ∀ lines, Produces lines p → p.Consistent := by
  refine ⟨?_, ?_, fun lines h => h.consistent⟩
  · intro hp
    rw [Program.fst_writeChunk hs, Program.verdict_eq_ok_iff,
      ← Program.failure_unfolding_eq_none_iff hp hsized]
    exact and_iff_right hsized.short.oversize?_eq_none
  · intro hm
    rw [Program.writeChunk, hm]

/-- The functions of the closures are well linked, since their chunk is written. -/
theorem writeChunk_succeeds_iff_closures :
    ∃ p, Produces closureLines p ∧ p.Sized ∧ (p.writeChunk {}).1 = .ok () ∧ p.WellLinked := by
  have hrun : ((({} : Assembler).feedAll closureLines).finish false).2.toOption.bind (fun p =>
      some (decide p.Sized, (p.writeChunk {}).1)) = some (true, .ok ()) := by
    decide +kernel
  obtain ⟨p, hp, hlook⟩ := Produces.of_run hrun
  obtain ⟨hsized, hok⟩ := Prod.mk.inj (Option.some.inj hlook)
  have hsized := of_decide_eq_true hsized
  obtain ⟨hiff, -, hconsistent⟩ := writeChunk_succeeds_iff hsized (s := {}) ⟨rfl, nofun⟩
  exact ⟨p, hp, hsized, hok, (hiff (hconsistent _ hp)).mp hok⟩

end ChunkAsm
