import ChunkAsm.Proofs.Traversals
import Mathlib.Data.Finset.Card

/-!
# Writing and listing end

The traversals that write and list a program call themselves on the protos of a function, which the
table of functions gives: nothing in them gets smaller. One level of each is a **body**, with its
recursive calls as a parameter. No room is given to a body, so a traversal is a function that
satisfies the equation of its body, and it ends because there is one such function, which some
number of levels determine.

* A call stops on a name that is on the stack, and otherwise puts its own name there. So what is
  left of the names of the table decreases from call to call (`Program.unused_lt`).
* If there is room for that, two traversals with the same body agree, whatever they call below
  (`Tied.agree`).
* The stack can be watched: a traversal that gives up as soon as a name is on the stack twice, or
  more names are there than functions of the table have, gives the same as one that does not look.
-/

namespace ChunkAsm

/-! ## The names of the table -/

namespace Program

variable {p : Program} {stack : List String} {name : String}

/-- The different names of the functions in the table. An entry that another one with the same key
precedes is not a function of the table. -/
def distinctNames (p : Program) : Finset String :=
  (p.functions.filterMap fun entry => (p.function? entry.1).map Function.name).toFinset

theorem name_mem_distinctNames {key : String} {f : Function} (h : p.function? key = some f) :
    f.name ∈ p.distinctNames := by
  simp only [distinctNames, List.mem_toFinset, List.mem_filterMap]
  exact ⟨(key, f), mem_functions h, by rw [h]; rfl⟩

theorem name_mem_of_mem_protos {f g : Function} {l : Linked} (hl : p.link f = .ok l)
    (hg : g ∈ l.protos.toList) : g.name ∈ p.distinctNames := by
  obtain ⟨key, -, hkey⟩ := exists_of_mem_protos hl hg
  exact name_mem_distinctNames hkey

theorem card_distinctNames_le : p.distinctNames.card ≤ p.functions.length :=
  (List.toFinset_card_le _).trans (List.length_filterMap_le ..)

/-- How many names of the table are not on the stack. -/
def unused (p : Program) (stack : List String) : Nat := (p.distinctNames \ stack.toFinset).card

theorem unused_le (p : Program) (stack : List String) : p.unused stack ≤ p.distinctNames.card :=
  Finset.card_le_card Finset.sdiff_subset

theorem mem_stack_of_unused (h : p.unused stack = 0) (hname : name ∈ p.distinctNames) :
    name ∈ stack := by
  have hsub := Finset.sdiff_eq_empty_iff_subset.mp (Finset.card_eq_zero.mp h)
  exact List.mem_toFinset.mp (hsub hname)

/-- A call uses up a name. -/
theorem unused_lt (hname : name ∈ p.distinctNames) (hstack : name ∉ stack) :
    p.unused (stack ++ [name]) < p.unused stack := by
  refine Finset.card_lt_card (Finset.ssubset_iff_of_subset ?_ |>.mpr ⟨name, ?_, ?_⟩)
  · exact Finset.sdiff_subset_sdiff le_rfl fun n hn => by simp_all
  · simp [hname, hstack]
  · simp

/-- The names on the stack are different names of the table. -/
structure Fits (p : Program) (stack : List String) : Prop where
  nodup : stack.Nodup
  names : stack.toFinset ⊆ p.distinctNames

namespace Fits

protected theorem nil : p.Fits [] := ⟨.nil, Finset.empty_subset _⟩

protected theorem push (h : p.Fits stack) (hname : name ∈ p.distinctNames) (hstack : name ∉ stack) :
    p.Fits (stack ++ [name]) where
  nodup := List.nodup_append.mpr ⟨h.nodup, List.nodup_singleton _, fun a ha b hb hab =>
    hstack (List.mem_singleton.mp hb ▸ hab ▸ ha)⟩
  names n hn := by
    simp only [List.mem_toFinset, List.mem_append, List.mem_singleton] at hn
    rcases hn with hn | rfl
    · exact h.names (List.mem_toFinset.mpr hn)
    · exact hname

/-- So there are not more of them than functions of the table have. -/
theorem length_le (h : p.Fits stack) : stack.length ≤ p.distinctNames.card := by
  rw [← List.toFinset_card_of_nodup h.nodup]
  exact Finset.card_le_card h.names

end Fits

end Program

/-! ## Recursions without room -/

namespace Traversal

variable {σ ι : Type}

/-- One level of the writer. A name is put on the stack by `nest`, and a proto is written by
`self`. -/
def writeBody (p : Program) (nest : String → Walker Sink Unit → Walker Sink Unit)
    (self : Function → Walker Sink Unit) (f : Function) : Walker Sink Unit := do
  check f.name
  nest f.name do
    let l ← linked p f
    act (putParts (Chunk.functionHead f l.words l.protos.size))
    l.protos.toList.forM self
    act (putParts (Chunk.functionTail f))

/-- One level of the lister. -/
def collectBody (p : Program)
    (nest : String → Walker (List (Nat × Linked)) Unit → Walker (List (Nat × Linked)) Unit)
    (self : Nat × Function → Walker (List (Nat × Linked)) Unit) :
    Nat × Function → Walker (List (Nat × Linked)) Unit
  | (depth, f) => do
    check f.name
    let l ← linked p f
    act (modify (· ++ [(depth, l)]))
    nest f.name (l.protos.toList.forM fun g => self (depth + 1, g))

/-- A recursion ends within `n` nested calls: a function satisfies its equation, and `n` levels of
the body give this function, whatever is called below them. So no other function satisfies the
equation. -/
def EndsWithin (n : Nat) (body : (ι → Walker σ Unit) → ι → Walker σ Unit)
    (result : (ι → Walker σ Unit) → Prop) : Prop :=
  ∃ self, self = body self ∧ (∀ rest, body^[n] rest = self) ∧ result self

/-- Give up if a name is on the stack twice, or if more names are there than functions of the table
have. -/
def watch (p : Program) : Walker σ Unit := do
  let (stack, _) ← get
  unless stack.Nodup ∧ stack.length ≤ p.distinctNames.card do throw .deep

/-- Do something with a name on the stack, and watch the stack. -/
def watched (p : Program) (name : String) (x : Walker σ Unit) : Walker σ Unit :=
  nested name do
    watch p
    x

/-- Write a program as a chunk, with a writer for its functions. -/
def chunkBy (p : Program) (write : Function → Walker Sink Unit) (s : Sink) :
    Except Halt Unit × Sink :=
  match p.main? with
  | none => (.error (.fault (.link .noMain)), s)
  | some f =>
    run (do
      act (put p.preamble)
      write f) s

/-- List a program, with a lister for its functions. -/
def listBy (p : Program) (collect : Nat × Function → Walker (List (Nat × Linked)) Unit) :
    Except Halt String :=
  match p.main? with
  | none => .error (.fault (.link .noMain))
  | some f =>
    let (result, entries) := run (collect (0, f)) []
    result.map fun _ =>
      entries.foldl (fun text e => Listing.function text e.1 e.2) s!"upvalues {p.upvalueCount}\n"

/-! ## Traversals that do the same -/

theorem nested_apply (name : String) (x : Walker σ Unit) (stack : List String) (s : σ) :
    nested name x (stack, s) =
      (x >>= fun _ => modify fun t => (t.1.dropLast, t.2)) (stack ++ [name], s) := rfl

/-- `Alike stack x x'`: with the names of `stack` on the stack, `x` and `x'` do the same. If they
are not stopped, they leave the stack as it was. -/
def Alike (stack : List String) (x x' : Walker σ Unit) : Prop :=
  ∀ s, x (stack, s) = x' (stack, s) ∧ ∀ t, x (stack, s) = .ok () t → t.1 = stack

namespace Alike

variable {stack : List String} {name : String} {x x' y y' : Walker σ Unit}

protected theorem pure : Alike stack (pure () : Walker σ Unit) (pure ()) :=
  fun _ => ⟨rfl, fun _ h => by cases h; rfl⟩

protected theorem throw (e : Halt) : Alike stack (throw e : Walker σ Unit) (throw e) :=
  fun _ => ⟨rfl, fun _ h => by cases h⟩

protected theorem act (x : EStateM ChunkError σ Unit) : Alike stack (act x) (act x) := by
  refine fun s => ⟨rfl, fun t h => ?_⟩
  simp only [Traversal.act] at h
  cases hx : x s with
  | ok u s' =>
    rw [hx] at h
    cases h
    rfl
  | error e s' =>
    rw [hx] at h
    cases h

protected theorem bind (h : Alike stack x x') (h' : Alike stack y y') :
    Alike stack (x >>= fun _ => y) (x' >>= fun _ => y') := by
  intro s
  obtain ⟨heq, hstack⟩ := h s
  simp only [Bind.bind, EStateM.bind, ← heq]
  cases hx : x (stack, s) with
  | ok u t =>
    obtain ⟨left, s₁⟩ := t
    obtain rfl : left = stack := hstack _ hx
    exact h' s₁
  | error e t => exact ⟨rfl, fun _ h => by cases h⟩

protected theorem forM {fs : List Function} {x x' : Function → Walker σ Unit}
    (h : ∀ f ∈ fs, Alike stack (x f) (x' f)) : Alike stack (fs.forM x) (fs.forM x') := by
  induction fs with
  | nil => exact Alike.pure
  | cons f fs ih =>
    exact (h f List.mem_cons_self).bind (ih fun g hg => h g (List.mem_cons_of_mem _ hg))

protected theorem nested (h : Alike (stack ++ [name]) x x') :
    Alike stack (nested name x) (nested name x') := by
  intro s
  obtain ⟨heq, hstack⟩ := h s
  rw [nested_apply, nested_apply]
  simp only [Bind.bind, EStateM.bind, ← heq]
  refine ⟨trivial, fun t ht => ?_⟩
  cases hx : x (stack ++ [name], s) with
  | ok u t' =>
    rw [hx] at ht
    cases ht
    simp [hstack _ hx]
  | error e t' =>
    rw [hx] at ht
    cases ht

/-- A call on a name of the stack stops, whatever it would do otherwise. -/
theorem check_of_mem (h : name ∈ stack) (x x' : Walker σ Unit) :
    Alike stack (check name >>= fun _ => x) (check name >>= fun _ => x') := by
  intro s
  simp only [Bind.bind, EStateM.bind, Follows.check_apply, if_pos h]
  exact ⟨trivial, fun _ h => by cases h⟩

theorem check_of_notMem (h : name ∉ stack) (hx : Alike stack x x') :
    Alike stack (check name >>= fun _ => x) (check name >>= fun _ => x') := by
  intro s
  simp only [Bind.bind, EStateM.bind, Follows.check_apply, if_neg h]
  exact hx s

/-- What is done with a linked function. -/
theorem linked {p : Program} {f : Function} {x x' : Linked → Walker σ Unit}
    (h : ∀ l, p.link f = .ok l → Alike stack (x l) (x' l)) :
    Alike stack (linked p f >>= x) (linked p f >>= x') := by
  rw [Traversal.linked]
  cases hl : p.link f with
  | ok l =>
    rw [pure_bind, pure_bind]
    exact h l hl
  | error e => exact Alike.throw _

theorem watch_apply (p : Program) (x : Walker σ Unit) (s : σ) :
    (watch p >>= fun _ => x) (stack, s) =
      if stack.Nodup ∧ stack.length ≤ p.distinctNames.card then x (stack, s)
      else .error .deep (stack, s) := by
  have hopen : (watch p : Walker σ Unit) (stack, s) =
      (unless stack.Nodup ∧ stack.length ≤ p.distinctNames.card do throw .deep : Walker σ Unit)
        (stack, s) := rfl
  simp only [Bind.bind, EStateM.bind, hopen]
  by_cases hfits : stack.Nodup ∧ stack.length ≤ p.distinctNames.card
  · rw [if_pos hfits, if_pos hfits]
    rfl
  · rw [if_neg hfits, if_neg hfits]
    rfl

end Alike

/-- What is the same with a name on the stack is the same when `nest` and `nest'` put it there,
provided that the stack is then good. -/
def Nests (good : List String → Prop) (nest nest' : String → Walker σ Unit → Walker σ Unit) :
    Prop :=
  ∀ stack name x x', good (stack ++ [name]) → Alike (stack ++ [name]) x x' →
    Alike stack (nest name x) (nest' name x')

namespace Nests

variable {p : Program} {good : List String → Prop}

protected theorem nested : Nests good (nested (σ := σ)) nested := fun _ _ _ _ _ h => h.nested

protected theorem watched : Nests good (watched (σ := σ) p) (watched p) := by
  intro stack name x x' _ h
  refine Alike.nested fun s => ?_
  rw [Alike.watch_apply, Alike.watch_apply]
  split
  · exact h s
  · exact ⟨rfl, fun _ h => by cases h⟩

/-- Nobody gives up while the names on the stack are different names of the table. -/
theorem watched_nested : Nests p.Fits (watched (σ := σ) p) nested := by
  intro stack name x x' hfits h
  refine Alike.nested fun s => ?_
  rw [Alike.watch_apply, if_pos ⟨hfits.nodup, hfits.length_le⟩]
  exact h s

end Nests

/-! ## The descent -/

/-- Two bodies that are **tied**: both stop on a name of the stack, and otherwise they do the same
if their calls do, with the name on the stack and on functions of the table. -/
structure Tied (p : Program) (name : ι → String) (good : List String → Prop)
    (body body' : (ι → Walker σ Unit) → ι → Walker σ Unit) : Prop where
  stop : ∀ {stack i self self'}, name i ∈ stack → Alike stack (body self i) (body' self' i)
  step : ∀ {stack i self self'}, name i ∉ stack → good (stack ++ [name i]) →
    (∀ j, name j ∈ p.distinctNames → Alike (stack ++ [name i]) (self j) (self' j)) →
    Alike stack (body self i) (body' self' i)

namespace Tied

variable {p : Program} {name : ι → String} {good : List String → Prop}
  {body body' : (ι → Walker σ Unit) → ι → Walker σ Unit}

/-- **With room for the unused names, it does not matter what is called below.** -/
theorem agree (h : Tied p name good body body')
    (hpush : ∀ {stack i}, good stack → name i ∈ p.distinctNames → name i ∉ stack →
      good (stack ++ [name i]))
    {rest rest' : ι → Walker σ Unit}
    (hrest : ∀ {stack i}, name i ∈ stack → Alike stack (rest i) (rest' i))
    {n : Nat} {stack : List String} {i : ι} (hgood : good stack) (hi : name i ∈ p.distinctNames)
    (hroom : p.unused stack ≤ n) : Alike stack (body^[n] rest i) (body'^[n] rest' i) := by
  induction n generalizing stack i with
  | zero => exact hrest (Program.mem_stack_of_unused (Nat.le_zero.mp hroom) hi)
  | succ n ih =>
    rw [Function.iterate_succ_apply', Function.iterate_succ_apply']
    by_cases hname : name i ∈ stack
    · exact h.stop hname
    · have hlt := Program.unused_lt hi hname
      have hpushed := hpush hgood hi hname
      exact h.step hname hpushed fun j hj => ih hpushed hj (by omega)

/-- Levels for every name of the table, for a function from elsewhere and for a call that stops are
enough for every call and every stack. -/
theorem settles (h : Tied p name (fun _ => True) body body) (rest rest' : ι → Walker σ Unit) :
    body^[p.distinctNames.card + 2] rest = body^[p.distinctNames.card + 2] rest' := by
  funext i ⟨stack, s⟩
  rw [Function.iterate_succ_apply' body _ rest, Function.iterate_succ_apply' body _ rest']
  by_cases hname : name i ∈ stack
  · exact (h.stop hname s).1
  · refine (h.step hname trivial (fun j hj => ?_) s).1
    rw [Function.iterate_succ_apply, Function.iterate_succ_apply]
    exact h.agree (fun _ _ _ => trivial) h.stop trivial hj (p.unused_le _)

/-- **The recursion ends.** -/
theorem endsWithin (h : Tied p name (fun _ => True) body body)
    {result : (ι → Walker σ Unit) → Prop} (hresult : ∀ self, self = body self → result self) :
    EndsWithin (p.distinctNames.card + 2) body result := by
  have hself : body^[p.distinctNames.card + 2] (fun _ => throw .deep) =
      body (body^[p.distinctNames.card + 2] fun _ => throw .deep) := by
    rw [← Function.iterate_succ_apply' body, Function.iterate_succ_apply]
    exact h.settles _ _
  exact ⟨_, hself, fun rest => h.settles _ _, hresult _ hself⟩

end Tied

/-! ## The writer and the lister -/

section

variable {p : Program} {good : List String → Prop}

theorem tied_writeBody {nest nest' : String → Walker Sink Unit → Walker Sink Unit}
    (h : Nests good nest nest') :
    Tied p Function.name good (writeBody p nest) (writeBody p nest') where
  stop hname := .check_of_mem hname _ _
  step hname hgood hself := by
    refine .check_of_notMem hname (h _ _ _ _ hgood (.linked fun l hl => ?_))
    have hprotos := Alike.forM fun g hg => hself g (Program.name_mem_of_mem_protos hl hg)
    exact (Alike.act _).bind (hprotos.bind (.act _))

theorem tied_collectBody
    {nest nest' : String → Walker (List (Nat × Linked)) Unit → Walker (List (Nat × Linked)) Unit}
    (h : Nests good nest nest') :
    Tied p (fun i => i.2.name) good (collectBody p nest) (collectBody p nest') where
  stop hname := .check_of_mem hname _ _
  step hname hgood hself := by
    refine .check_of_notMem hname (.linked fun l hl => (Alike.act _).bind (h _ _ _ _ hgood ?_))
    exact .forM fun g hg => hself _ (Program.name_mem_of_mem_protos hl hg)

/-- With room the writer is some levels of its body. -/
theorem iterate_writeBody (room : Nat) :
    (writeBody p nested)^[room] (write p 0) = write p room := by
  induction room with
  | zero => rfl
  | succ room ih =>
    rw [Function.iterate_succ_apply', ih]
    rfl

theorem iterate_collectBody (room : Nat) :
    (collectBody p nested)^[room] (fun i => collect p 0 i.1 i.2) =
      fun i => collect p room i.1 i.2 := by
  induction room with
  | zero => rfl
  | succ room ih =>
    rw [Function.iterate_succ_apply', ih]
    rfl

/-- From the main function the room of the table is enough. -/
theorem Tied.agree_main {name : ι → String} {body body' : (ι → Walker σ Unit) → ι → Walker σ Unit}
    (h : Tied p name p.Fits body body') {self : ι → Walker σ Unit} (hself : self = body self)
    (rest : ι → Walker σ Unit)
    (hrest : ∀ {stack i}, name i ∈ stack → Alike stack (body self i) (rest i)) {i : ι}
    (hi : name i ∈ p.distinctNames) :
    Alike [] (self i) (body'^[p.functions.length] rest i) := by
  rw [← Function.iterate_fixed hself.symm p.functions.length]
  refine h.agree Program.Fits.push (fun hname => ?_) .nil hi
    ((p.unused_le _).trans Program.card_distinctNames_le)
  rw [hself]
  exact hrest hname

theorem chunkBy_eq {nest : String → Walker Sink Unit → Walker Sink Unit}
    (hnest : Nests p.Fits nest nested) {self : Function → Walker Sink Unit}
    (hself : self = writeBody p nest self) (s : Sink) :
    chunkBy p self s = ((p.writeChunk s).1.mapError .fault, (p.writeChunk s).2) := by
  rw [← writeChunk_eq, chunkBy, writeChunk]
  cases hm : p.main? with
  | none => rfl
  | some f =>
    have hwrite := (tied_writeBody hnest).agree_main hself (write p 0)
      (fun hname => .check_of_mem hname _ _) (Program.name_mem_distinctNames hm)
    rw [iterate_writeBody] at hwrite
    simp only [run, EStateM.run]
    rw [(((Alike.act (put p.preamble)).bind hwrite) s).1]

theorem listBy_eq
    {nest : String → Walker (List (Nat × Linked)) Unit → Walker (List (Nat × Linked)) Unit}
    (hnest : Nests p.Fits nest nested)
    {self : Nat × Function → Walker (List (Nat × Linked)) Unit}
    (hself : self = collectBody p nest self) :
    listBy p self = p.listing.mapError fun e => .fault (.link e) := by
  rw [← list_eq, listBy, list, entries]
  cases hm : p.main? with
  | none => rfl
  | some f =>
    have hcollect := (tied_collectBody hnest).agree_main hself (fun i => collect p 0 i.1 i.2)
      (fun hname => .check_of_mem hname _ _) (i := (0, f)) (Program.name_mem_distinctNames hm)
    rw [iterate_collectBody] at hcollect
    simp only [run, EStateM.run]
    rw [(hcollect []).1]
    simp only
    rcases collect p p.functions.length 0 f ([], []) with ⟨u, t⟩ | ⟨e, t⟩
    · rfl
    · rfl

end

end Traversal

section

open Traversal

/-- **Writing and listing end on every program.** The recursion of the writer has one solution,
which writes the chunk, and so has that of the lister, which gives the listing. Calls nest at most
two deeper than there are different names of functions in the table. All this is also true if the
traversals give up as soon as a name is on the stack twice, or as more names are there than
functions of the table have: the outcome is never that they give up. -/
theorem traversals_end (p : Program) :
    (∀ nest ∈ [nested, watched p],
      EndsWithin (p.distinctNames.card + 2) (writeBody p nest) fun write =>
        ∀ s, chunkBy p write s = ((p.writeChunk s).1.mapError .fault, (p.writeChunk s).2)) ∧
    ∀ nest ∈ [nested, watched p],
      EndsWithin (p.distinctNames.card + 2) (collectBody p nest) fun collect =>
        listBy p collect = p.listing.mapError fun e => .fault (.link e) := by
  constructor
  · intro nest hnest
    rcases List.mem_pair.mp hnest with rfl | rfl
    · exact (tied_writeBody .nested).endsWithin fun self hself => chunkBy_eq .nested hself
    · exact (tied_writeBody .watched).endsWithin fun self hself => chunkBy_eq .watched_nested hself
  · intro nest hnest
    rcases List.mem_pair.mp hnest with rfl | rfl
    · exact (tied_collectBody .nested).endsWithin fun self hself => listBy_eq .nested hself
    · exact (tied_collectBody .watched).endsWithin fun self hself => listBy_eq .watched_nested hself

/-- In the disguised program one name stands for two functions, so the stack never gets longer than
one. The second call stops on the name that is there. -/
theorem traversals_end_disguised :
    disguisedProgram.functions.length = 2 ∧ disguisedProgram.distinctNames.card = 1 ∧
    (EndsWithin 3 (writeBody disguisedProgram (watched disguisedProgram)) fun write =>
      (chunkBy disguisedProgram write {}).1 =
        .error (.fault (.link (.recursiveSubroutine ["main", "main"])))) ∧
    EndsWithin 3 (collectBody disguisedProgram (watched disguisedProgram)) fun collect =>
      listBy disguisedProgram collect =
        .error (.fault (.link (.recursiveSubroutine ["main", "main"]))) := by
  have hcard : disguisedProgram.distinctNames.card = 1 := by decide +kernel
  obtain ⟨hwrite, hcollect⟩ := traversals_end disguisedProgram
  rw [hcard] at hwrite hcollect
  obtain ⟨write, hself, hlevels, hchunk⟩ := hwrite _ (.tail _ (.head _))
  obtain ⟨collect, hself', hlevels', hlist⟩ := hcollect _ (.tail _ (.head _))
  exact ⟨rfl, hcard, ⟨write, hself, hlevels, (congrArg Prod.fst (hchunk {})).trans rfl⟩,
    ⟨collect, hself', hlevels', hlist.trans rfl⟩⟩

end

end ChunkAsm
