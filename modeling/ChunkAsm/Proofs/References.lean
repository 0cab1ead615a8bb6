import ChunkAsm.Proofs.RoundTrip
import Mathlib.Data.List.Perm.Subperm
import Mathlib.Logic.Relation

/-!
# Walks and references

The functions of a program refer to one another by the names of their subroutines. This file relates
the walk through a program to that graph.

A walk that stops early does so in one of two ways: it comes to a function that encloses itself, or
to one that cannot be linked. `Breaks` describes such walks, and `Program.unfolding_breaks` says
that there are no others; in particular the walk never runs out of room. A complete walk through a
function contains complete walks through all that the function reaches, each shorter than the one
around it, so no function that it comes to reaches itself (`Walks.not_transGen`).
-/

namespace ChunkAsm

/-! ## Why linking fails -/

namespace Program

variable {p : Program}

/-- A number that fits is stored in every instruction. -/
theorem foldlM_setProto_of_fits {index : Nat} (h : Field.bx.Fits index) (sites : List Nat)
    (words : Array Word) : ∃ words', sites.foldlM (setProto index) words = .ok words' := by
  induction sites generalizing words with
  | nil => exact ⟨words, rfl⟩
  | cons site sites ih =>
    have hone : ∃ words₁, setProto index words site = .ok words₁ := by
      rw [setProto]
      split
      · rename_i w hw
        rw [Word.set_eq_ok.mpr ⟨h, rfl⟩]
        exact ⟨_, rfl⟩
      · exact ⟨words, rfl⟩
    obtain ⟨words₁, h₁⟩ := hone
    obtain ⟨words', hrest⟩ := ih words₁
    exact ⟨words', by rw [List.foldlM_cons, h₁]; exact hrest⟩

theorem linkFrom_eq_error {caller : String} {index : Nat} {sites : Patches} {words : Array Word}
    {protos : Array Function} {names : List String} {e : LinkError}
    (h : p.linkFrom caller index sites words protos names = .error e) :
    (∃ name ∈ names, p.function? name = none ∧ e = .missingSubroutine caller name) ∨
      (262144 < index + names.length ∧ ∃ x, e = .field caller x) := by
  induction names generalizing index sites words protos with
  | nil => cases h
  | cons name rest ih =>
    rw [linkFrom] at h
    split at h
    · rename_i hnone
      exact .inl ⟨name, List.mem_cons_self, hnone, (Except.error.inj h).symm⟩
    · split at h
      · rename_i x hx
        refine .inr ⟨?_, x, (Except.error.inj h).symm⟩
        by_contra hsmall
        have hfits : Field.bx.Fits index := by
          rw [List.length_cons] at hsmall
          refine ⟨Int.natCast_nonneg index, ?_⟩
          change (index : Int) ≤ 262143
          omega
        obtain ⟨words', hok⟩ := foldlM_setProto_of_fits hfits (sites.sites name) words
        rw [hok] at hx
        cases hx
      · rcases ih h with ⟨name', hmem, hnone, he⟩ | ⟨hlen, x, he⟩
        · exact .inl ⟨name', List.mem_cons_of_mem _ hmem, hnone, he⟩
        · refine .inr ⟨?_, x, he⟩
          rw [List.length_cons]
          omega

/-- **Why linking fails**: a subroutine is not in the table, or there are too many of them to be
numbered. -/
theorem link_eq_error {f : Function} {e : LinkError} (h : p.link f = .error e) :
    (∃ name ∈ f.subroutines, p.function? name = none ∧ e = .missingSubroutine f.name name) ∨
      (262144 < f.subroutines.size ∧ ∃ x, e = .field f.name x) := by
  rw [link] at h
  cases hfrom : p.linkFrom f.name 0 f.protoSites f.words #[] f.subroutines.toList with
  | ok r =>
    rw [hfrom] at h
    cases h
  | error e' =>
    rw [hfrom] at h
    obtain rfl := Except.error.inj h
    simpa using linkFrom_eq_error hfrom

/-- Every proto is the function that one of the subroutines names. -/
theorem exists_of_mem_protos {f g : Function} {l : Linked} (h : p.link f = .ok l)
    (hg : g ∈ l.protos.toList) : ∃ name ∈ f.subroutines, p.function? name = some g := by
  have hprotos := link_protos h
  obtain ⟨i, hi, rfl⟩ := List.mem_iff_getElem.mp hg
  have hi' : i < f.subroutines.toList.length := hprotos.length_eq ▸ hi
  exact ⟨f.subroutines.toList[i], Array.mem_def.mpr (List.getElem_mem hi'), hprotos.get hi' hi⟩

/-- Every subroutine names one of the protos. -/
theorem exists_mem_protos {f : Function} {l : Linked} (h : p.link f = .ok l) {name : String}
    (hname : name ∈ f.subroutines) : ∃ g ∈ l.protos.toList, p.function? name = some g := by
  obtain ⟨i, hi, rfl⟩ := List.mem_iff_getElem.mp (Array.mem_def.mp hname)
  obtain ⟨g, hg, hfun⟩ := link_getElem?_protos h (List.getElem?_eq_getElem hi)
  rw [← Array.getElem?_toList] at hg
  exact ⟨g, List.mem_of_getElem? hg, hfun⟩

/-- The names of the functions in the table. -/
def names (p : Program) : List String := p.functions.map fun entry => entry.2.name

theorem mem_functions {key : String} {f : Function} (h : p.function? key = some f) :
    (key, f) ∈ p.functions := by
  obtain ⟨before, after, hall, -⟩ := List.lookup_eq_some_iff.mp h
  rw [hall]
  simp

theorem mem_names {key : String} {f : Function} (h : p.function? key = some f) :
    f.name ∈ p.names :=
  List.mem_map_of_mem (mem_functions h)

end Program

/-! ## Walks that stop -/

/-- `Breaks p path f vs e`: the walk through the function `f`, which the functions of `path`
enclose, the innermost first, makes the steps `vs` and stops with the error `e`. -/
inductive Breaks (p : Program) : List String → Function → List Visit → LinkError → Prop where
  /-- the function encloses itself -/
  | cycle {path : List String} {f : Function} :
    f.name ∈ path → Breaks p path f [] (.recursiveSubroutine (path.reverse ++ [f.name]))
  /-- the function cannot be linked -/
  | link {path : List String} {f : Function} {e : LinkError} :
    f.name ∉ path → p.link f = .error e → Breaks p path f [.reached f] e
  /-- the walk through a proto stops, after complete walks through the protos before it -/
  | proto {path : List String} {f g : Function} {l : Linked} {before after : List Function}
    {vs ws : List Visit} {e : LinkError} :
    f.name ∉ path → p.link f = .ok l → l.protos.toList = before ++ g :: after →
    WalksAll p (path.length + 1) before vs → Breaks p (f.name :: path) g ws e →
    Breaks p path f (.reached f :: .entered path.length l :: (vs ++ ws)) e

namespace Unfolding

theorem andThen_of_none {u : Unfolding} (h : u.failure = none) (next : Unfolding → Unfolding) :
    u.andThen next = next u := by
  rw [andThen, h]

theorem andThen_of_some {u : Unfolding} {e : LinkError} (h : u.failure = some e)
    (next : Unfolding → Unfolding) : u.andThen next = u := by
  rw [andThen, h]

theorem failure_andThen_push (u : Unfolding) (v : Visit) :
    (u.andThen (·.push v)).failure = u.failure := by
  rw [andThen]
  cases hu : u.failure with
  | none => exact hu
  | some e => exact hu

theorem foldl_andThen_of_some {u : Unfolding} {e : LinkError} (h : u.failure = some e)
    (walk : Function → Unfolding → Unfolding) (fs : List Function) :
    fs.foldl (fun u f => u.andThen (walk f)) u = u := by
  induction fs with
  | nil => rfl
  | cons f fs ih => rw [List.foldl_cons, andThen_of_some h, ih]

end Unfolding

namespace Program

variable {p : Program}

/-- Walks that follow one another, one of which stops. -/
theorem foldl_andThen_breaks (walk : Function → Unfolding → Unfolding) {n : Nat}
    {path : List String} {fs : List Function} {u : Unfolding} {e : LinkError}
    (hwalk : ∀ f u, (walk f u).failure = none →
      ∃ vs, (walk f u).visits.toList = u.visits.toList ++ vs ∧ Walks p n f vs)
    (hbreak : ∀ f ∈ fs, ∀ u, u.failure = none → (walk f u).failure = some e →
      ∃ vs, (walk f u).visits.toList = u.visits.toList ++ vs ∧ Breaks p path f vs e)
    (hu : u.failure = none) (h : (fs.foldl (fun u f => u.andThen (walk f)) u).failure = some e) :
    ∃ before g after vs ws, fs = before ++ g :: after ∧ WalksAll p n before vs ∧
      Breaks p path g ws e ∧
      (fs.foldl (fun u f => u.andThen (walk f)) u).visits.toList =
        u.visits.toList ++ (vs ++ ws) := by
  induction fs generalizing u with
  | nil => cases hu.symm.trans h
  | cons f fs ih =>
    rw [List.foldl_cons, Unfolding.andThen_of_none hu] at h ⊢
    cases hf : (walk f u).failure with
    | some e' =>
      rw [Unfolding.foldl_andThen_of_some hf] at h ⊢
      obtain ⟨ws, hws, hstop⟩ := hbreak f List.mem_cons_self u hu h
      exact ⟨[], f, fs, [], ws, rfl, .nil, hstop, hws⟩
    | none =>
      obtain ⟨vs, hvs, hone⟩ := hwalk f u hf
      obtain ⟨before, g, after, vs', ws, rfl, hbefore, hstop, hvisits⟩ :=
        ih (fun g hg => hbreak g (List.mem_cons_of_mem _ hg)) hf h
      refine ⟨f :: before, g, after, vs ++ vs', ws, rfl, .cons hone hbefore, hstop, ?_⟩
      rw [hvisits, hvs]
      simp

/-- **A walk that stops early breaks.** The names on the path are different names of the table, so
there is always room for one more. -/
theorem unfoldFrom_breaks {room : Nat} {path : List String} {f : Function} {u : Unfolding}
    {e : LinkError} (hpath : path.Nodup) (hnames : f.name :: path ⊆ p.names)
    (hroom : p.functions.length ≤ room + path.length) (hu : u.failure = none)
    (h : (p.unfoldFrom room path f u).failure = some e) :
    ∃ vs, (p.unfoldFrom room path f u).visits.toList = u.visits.toList ++ vs ∧
      Breaks p path f vs e := by
  induction room generalizing path f u with
  | zero =>
    simp only [unfoldFrom] at h ⊢
    split at h
    · rename_i hname
      obtain rfl := Option.some.inj h
      exact ⟨[], by simp [Unfolding.fail, hname], .cycle hname⟩
    · rename_i hname
      have hlen := (List.subperm_of_subset (List.nodup_cons.mpr ⟨hname, hpath⟩) hnames).length_le
      simp only [names, List.length_cons, List.length_map] at hlen
      omega
  | succ room ih =>
    simp only [unfoldFrom] at h ⊢
    split at h
    · rename_i hname
      obtain rfl := Option.some.inj h
      exact ⟨[], by simp [Unfolding.fail, hname], .cycle hname⟩
    · rename_i hname
      rw [if_neg hname]
      split at h
      · rename_i hl
        obtain rfl := Option.some.inj h
        exact ⟨[.reached f], by simp [Unfolding.fail], .link hname hl⟩
      · rename_i l hl
        rw [← Array.foldl_toList] at h ⊢
        rw [Unfolding.failure_andThen_push] at h
        rw [Unfolding.andThen_of_some h]
        have hpath' : (f.name :: path).Nodup := List.nodup_cons.mpr ⟨hname, hpath⟩
        have hnames' : ∀ g ∈ l.protos.toList, g.name :: f.name :: path ⊆ p.names := by
          intro g hg
          obtain ⟨name, -, hfun⟩ := exists_of_mem_protos hl hg
          exact List.cons_subset.mpr ⟨mem_names hfun, hnames⟩
        have hroom' : p.functions.length ≤ room + (f.name :: path).length := by
          rw [List.length_cons]
          omega
        obtain ⟨before, g, after, vs, ws, hsplit, hbefore, hstop, hvisits⟩ :=
          foldl_andThen_breaks (p.unfoldFrom room (f.name :: path))
            (u := (u.push (.reached f)).push (.entered path.length l))
            (fun g u hg => unfoldFrom_walks hg)
            (fun g hg u hu hfail => ih hpath' (hnames' g hg) hroom' hu hfail) hu h
        refine ⟨_, ?_, .proto hname hl hsplit hbefore hstop⟩
        rw [hvisits]
        simp

/-- **The walk through a program breaks**, if it stops early. -/
theorem unfolding_breaks {f : Function} {e : LinkError} (hm : p.main? = some f)
    (h : p.unfolding.failure = some e) : Breaks p [] f p.unfolding.visits.toList e := by
  rw [unfolding, hm] at h ⊢
  obtain ⟨vs, hvs, hstop⟩ := unfoldFrom_breaks .nil
    (List.cons_subset.mpr ⟨mem_names hm, List.nil_subset _⟩) (Nat.le_add_right _ _) rfl h
  simp only at hvs ⊢
  rw [hvs]
  simpa using hstop

/-- The walk through a program is complete, if it does not stop early. -/
theorem unfolding_walks {f : Function} (hm : p.main? = some f) (h : p.unfolding.failure = none) :
    Walks p 0 f p.unfolding.visits.toList := by
  rw [unfolding, hm] at h ⊢
  obtain ⟨vs, hvs, hwalk⟩ := unfoldFrom_walks h
  simp only at hvs ⊢
  rw [hvs]
  simpa using hwalk

/-- A chunk that is not written because of its functions: there is no main function, or the walk
stops. -/
theorem writeChunk_eq_link {p : Program} {s : Sink} {e : LinkError}
    (h : (p.writeChunk s).1 = .error (.link e)) :
    e = .noMain ∨ ∃ f, p.main? = some f ∧ p.unfolding.failure = some e := by
  rw [writeChunk_eq] at h
  split at h
  · cases h
  · have hfail := (verdict_eq_link_iff.mp h).2
    cases hm : p.main? with
    | none =>
      rw [unfolding, hm] at hfail
      exact .inl (Option.some.inj hfail).symm
    | some f => exact .inr ⟨f, rfl, hfail⟩

/-! ## References -/

/-- `p.Refers caller name`: the function with the key `caller` has `name` among its subroutines. -/
def Refers (p : Program) (caller name : String) : Prop :=
  ∃ f, p.function? caller = some f ∧ name ∈ f.subroutines

end Program

open Relation

section

variable {p : Program} {n : Nat} {key name : String}

/-- Walks through several functions contain a walk through each. -/
theorem WalksAll.of_mem {fs : List Function} {vs : List Visit} {g : Function} :
    WalksAll p n fs vs → g ∈ fs → ∃ ws, Walks p n g ws ∧ ws.length ≤ vs.length
  | @WalksAll.cons _ _ f _ vs ws hf hall, hg => by
    rcases List.mem_cons.mp hg with rfl | hg
    · exact ⟨vs, hf, by simp⟩
    · obtain ⟨ws', hws, hle⟩ := hall.of_mem hg
      exact ⟨ws', hws, by rw [List.length_append]; omega⟩

/-- A complete walk through a function contains shorter walks through all functions that it refers
to. -/
theorem Walks.of_refers {f : Function} {vs : List Visit} (h : Walks p n f vs)
    (hf : p.function? key = some f) (hr : p.Refers key name) :
    ∃ m g ws, p.function? name = some g ∧ Walks p m g ws ∧ ws.length < vs.length := by
  obtain ⟨f', hf', hname⟩ := hr
  obtain rfl := Option.some.inj (hf.symm.trans hf')
  cases h with
  | @node _ _ l vs hl hall =>
    obtain ⟨g, hg, hfun⟩ := Program.exists_mem_protos hl hname
    obtain ⟨ws, hws, hle⟩ := hall.of_mem hg
    refine ⟨_, g, ws, hfun, hws, ?_⟩
    simp only [List.length_cons, List.length_append]
    omega

/-- And through all functions that it reaches. -/
theorem Walks.of_transGen {f : Function} {vs : List Visit} (h : Walks p n f vs)
    (hf : p.function? key = some f) (hr : TransGen p.Refers key name) :
    ∃ m g ws, p.function? name = some g ∧ Walks p m g ws ∧ ws.length < vs.length := by
  induction hr with
  | single hr => exact h.of_refers hf hr
  | tail _ hr ih =>
    obtain ⟨m, g, ws, hg, hws, hlt⟩ := ih
    obtain ⟨m', g', ws', hg', hws', hlt'⟩ := hws.of_refers hg hr
    exact ⟨m', g', ws', hg', hws', Nat.lt_trans hlt' hlt⟩

/-- **A complete walk comes to no function that reaches itself.** -/
theorem Walks.not_transGen {f : Function} {vs : List Visit} (h : Walks p n f vs)
    (hf : p.function? key = some f) : ¬ TransGen p.Refers key key := by
  -- a shorter walk through the same function would be inside
  induction hlen : vs.length using Nat.strong_induction_on generalizing n f vs with
  | _ len ih =>
    intro hcycle
    obtain ⟨m, g, ws, hg, hws, hlt⟩ := h.of_transGen hf hcycle
    exact ih _ (hlen ▸ hlt) hws hg rfl hcycle

end

end ChunkAsm
