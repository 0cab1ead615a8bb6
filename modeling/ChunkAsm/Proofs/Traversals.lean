import ChunkAsm.Listing
import ChunkAsm.Proofs.WellLinked

/-!
# Writing and listing as two traversals

A chunk can be written and a program can be listed without a walk that is there beforehand. Each is
then a depth-first traversal of its own, which keeps the names of the functions around it on a
**stack** and stops where something fails. The two push the stack at different moments: the writer
before it links a function, the lister after it has linked the function and noted it.

* Both traversals follow the walk through the program (`Traversal.write_follows`,
  `Traversal.collect_follows`), so they meet the same faults in the same order.
* What the lister notes is the preorder of the tree that the writer writes (`Walks.preorder`).

A traversal is given **room**, as the walk is, and stops if it gets deeper. That never happens,
since the names on the stack are different names of the table.
-/

namespace ChunkAsm

/-! ## The traversals -/

namespace Traversal

/-- Why a traversal stops. -/
inductive Halt where
  /-- a fault of the program or the sink -/
  | fault (e : ChunkError)
  /-- there is no room left -/
  | deep
  deriving DecidableEq, Repr

/-- A traversal keeps the names of the functions around it, the innermost last, and changes a state
as it goes. -/
abbrev Walker (σ : Type) := EStateM Halt (List String × σ)

variable {σ : Type}

/-- Change the state, whatever the stack is. -/
def act (x : EStateM ChunkError σ Unit) : Walker σ Unit := fun (stack, s) =>
  match x s with
  | .ok _ s => .ok () (stack, s)
  | .error e s => .error (.fault e) (stack, s)

/-- See that a function does not enclose itself. -/
def check (name : String) : Walker σ Unit := do
  let (stack, _) ← get
  if name ∈ stack then throw (.fault (.link (.recursiveSubroutine (stack ++ [name]))))

/-- Do something with a name on the stack. -/
def nested (name : String) (x : Walker σ Unit) : Walker σ Unit := do
  modify fun (stack, s) => (stack ++ [name], s)
  x
  modify fun (stack, s) => (stack.dropLast, s)

/-- Link a function. -/
def linked (p : Program) (f : Function) : Walker σ Linked :=
  match p.link f with
  | .ok l => pure l
  | .error e => throw (.fault (.link e))

/-- Write pieces into a sink. -/
def put (pieces : List Chunk.Piece) : EStateM ChunkError Sink Unit := fun s =>
  match s.putAll pieces with
  | (.ok _, s) => .ok () s
  | (.error e, s) => .error (.sink e) s

/-- Write parts of a record into a sink. -/
def putParts (parts : List Chunk.Part) : EStateM ChunkError Sink Unit := fun s =>
  match s.putParts parts with
  | (.ok _, s) => .ok () s
  | (.error e, s) => .error e s

/-- Write a function and what it contains. -/
def write (p : Program) : Nat → Function → Walker Sink Unit
  | 0, f => do
    check f.name
    throw .deep
  | room + 1, f => do
    check f.name
    nested f.name do
      let l ← linked p f
      act (putParts (Chunk.functionHead f l.words l.protos.size))
      l.protos.toList.forM (write p room)
      act (putParts (Chunk.functionTail f))

/-- Note a function that `depth` functions enclose, and what it contains. -/
def collect (p : Program) : Nat → Nat → Function → Walker (List (Nat × Linked)) Unit
  | 0, _, f => do
    check f.name
    throw .deep
  | room + 1, depth, f => do
    check f.name
    let l ← linked p f
    act (modify (· ++ [(depth, l)]))
    nested f.name (l.protos.toList.forM (collect p room (depth + 1)))

/-- Start with an empty stack. -/
def run (x : Walker σ Unit) (s : σ) : Except Halt Unit × σ :=
  match EStateM.run x ([], s) with
  | .ok _ (_, s) => (.ok (), s)
  | .error e (_, s) => (.error e, s)

/-- Write a program as a chunk. -/
def writeChunk (p : Program) (s : Sink) : Except Halt Unit × Sink :=
  match p.main? with
  | none => (.error (.fault (.link .noMain)), s)
  | some f =>
    run (do
      act (put p.preamble)
      write p p.functions.length f) s

/-- The functions of a program in the order of its listing, each linked and with the number of the
functions that enclose it. -/
def entries (p : Program) : Except Halt (List (Nat × Linked)) :=
  match p.main? with
  | none => .error (.fault (.link .noMain))
  | some f =>
    let (result, entries) := run (collect p p.functions.length 0 f) []
    result.map fun _ => entries

/-- List a program. -/
def list (p : Program) : Except Halt String := do
  let entries ← entries p
  .ok (entries.foldl (fun text e => Listing.function text e.1 e.2) s!"upvalues {p.upvalueCount}\n")

end Traversal

/-! ## Playing a walk -/

section

variable {σ : Type} (act : Visit → EStateM ChunkError σ Unit)

/-- Act on the steps of a walk, and fail as the walk does. -/
def Unfolding.play (u : Unfolding) : EStateM ChunkError σ Unit := do
  u.visits.toList.forM act
  match u.failure with
  | none => pure ()
  | some e => throw (.link e)

/-- Act while walking. -/
def Program.follow (p : Program) : Nat → List String → Function → EStateM ChunkError σ Unit
  | 0, path, f => throw (.link (.recursiveSubroutine (path.reverse ++ [f.name])))
  | room + 1, path, f =>
    if f.name ∈ path then throw (.link (.recursiveSubroutine (path.reverse ++ [f.name])))
    else do
      act (.reached f)
      match p.link f with
      | .error e => throw (.link e)
      | .ok l => do
        act (.entered path.length l)
        l.protos.toList.forM (p.follow room (f.name :: path))
        act (.left f)

variable {act} {u : Unfolding}

namespace Unfolding

theorem play_push (h : u.failure = none) (v : Visit) :
    (u.push v).play act = u.play act >>= fun _ => act v := by
  simp [play, push, h, List.forM_append]

theorem play_fail (h : u.failure = none) (e : LinkError) :
    (u.fail e).play act = u.play act >>= fun _ => throw (.link e) := by
  simp [play, fail, h]

/-- What comes after a walk is not done if the walk has stopped. -/
theorem play_andThen {next : Unfolding → Unfolding} {k : EStateM ChunkError σ Unit}
    (hnext : ∀ u : Unfolding, u.failure = none → (next u).play act = u.play act >>= fun _ => k) :
    (u.andThen next).play act = u.play act >>= fun _ => k := by
  cases hu : u.failure with
  | none => rw [andThen_of_none hu, hnext u hu]
  | some e =>
    rw [andThen_of_some hu]
    simp only [play, hu, bind_assoc]
    rfl

theorem play_foldl {walk : Function → Unfolding → Unfolding}
    {k : Function → EStateM ChunkError σ Unit}
    (hwalk : ∀ f (u : Unfolding), u.failure = none →
      (walk f u).play act = u.play act >>= fun _ => k f)
    (fs : List Function) :
    (fs.foldl (fun u f => u.andThen (walk f)) u).play act = u.play act >>= fun _ => fs.forM k := by
  induction fs generalizing u with
  | nil => simp
  | cons f fs ih =>
    rw [List.foldl_cons, ih, play_andThen (hwalk f)]
    simp

end Unfolding

/-- **Acting while walking is playing the walk.** -/
theorem Program.play_unfoldFrom {p : Program} {room : Nat} {path : List String} {f : Function}
    (h : u.failure = none) :
    (p.unfoldFrom room path f u).play act =
      u.play act >>= fun _ => p.follow act room path f := by
  induction room generalizing path f u with
  | zero =>
    rw [unfoldFrom, follow]
    simp only [ite_self]
    exact Unfolding.play_fail h _
  | succ room ih =>
    rw [unfoldFrom, follow]
    by_cases hname : f.name ∈ path
    · simp only [if_pos hname]
      exact Unfolding.play_fail h _
    · simp only [if_neg hname]
      cases hl : p.link f with
      | error e =>
        rw [Unfolding.play_fail (u := u.push _) h, Unfolding.play_push h, bind_assoc]
      | ok l =>
        simp only [← Array.foldl_toList]
        have hwalk : ∀ g (u : Unfolding), u.failure = none →
            (p.unfoldFrom room (f.name :: path) g u).play act =
              u.play act >>= fun _ => p.follow act room (f.name :: path) g := fun g u hu => ih hu
        rw [Unfolding.play_andThen (fun u hu => Unfolding.play_push hu _),
          Unfolding.play_foldl hwalk,
          Unfolding.play_push (u := u.push _) h, Unfolding.play_push h]
        simp

/-- The walk through a program is played from its main function. -/
theorem Program.play_unfolding {p : Program} {f : Function} (h : p.main? = some f) :
    p.unfolding.play act = p.follow act p.functions.length [] f := by
  rw [unfolding, h]
  exact (play_unfoldFrom rfl).trans (by simp [Unfolding.play])

end

/-! ## Traversals follow the walk -/

/-- There is room for a function that the functions of `path` enclose, the innermost first: the
names on the path are different names of the table, and what is left of the table bounds the
depth. -/
structure Program.Roomy (p : Program) (room : Nat) (path : List String) (f : Function) : Prop where
  nodup : path.Nodup
  names : f.name :: path ⊆ p.names
  room : p.functions.length ≤ room + path.length

namespace Program.Roomy

variable {p : Program} {room : Nat} {path : List String} {f : Function}

/-- Without room the function encloses itself. -/
theorem mem_path (h : p.Roomy 0 path f) : f.name ∈ path := by
  by_contra hname
  have hlen := (List.subperm_of_subset (List.nodup_cons.mpr ⟨hname, h.nodup⟩) h.names).length_le
  have hroom := h.room
  simp only [Program.names, List.length_cons, List.length_map] at hlen
  omega

/-- There is room for the protos. -/
theorem proto {l : Linked} {g : Function} (h : p.Roomy (room + 1) path f) (hname : f.name ∉ path)
    (hl : p.link f = .ok l) (hg : g ∈ l.protos.toList) : p.Roomy room (f.name :: path) g where
  nodup := List.nodup_cons.mpr ⟨hname, h.nodup⟩
  names := by
    obtain ⟨name, -, hfun⟩ := exists_of_mem_protos hl hg
    exact List.cons_subset.mpr ⟨mem_names hfun, h.names⟩
  room := by
    have hroom := h.room
    rw [List.length_cons]
    omega

/-- There is room for the main function. -/
theorem main (h : p.main? = some f) : p.Roomy p.functions.length [] f where
  nodup := .nil
  names := List.cons_subset.mpr ⟨mem_names h, List.nil_subset _⟩
  room := Nat.le_refl _

end Program.Roomy

namespace Traversal

variable {σ : Type} {stack : List String}

/-- `Follows stack x y`: with the names of `stack` on the stack, `x` does to the state what `y`
does. If it is not stopped, it leaves the stack as it was. -/
def Follows (stack : List String) (x : Walker σ Unit) (y : EStateM ChunkError σ Unit) : Prop :=
  ∀ s, match y s with
    | .ok _ s' => x (stack, s) = .ok () (stack, s')
    | .error e s' => ∃ left, x (stack, s) = .error (.fault e) (left, s')

namespace Follows

protected theorem pure : Follows stack (pure () : Walker σ Unit) (pure ()) := fun _ => rfl

protected theorem act (y : EStateM ChunkError σ Unit) : Follows stack (act y) y := by
  intro s
  simp only [Traversal.act]
  cases y s with
  | ok u s' => rfl
  | error e s' => exact ⟨stack, rfl⟩

protected theorem throw (e : ChunkError) :
    Follows stack (throw (.fault e) : Walker σ Unit) (throw e) := fun _ => ⟨stack, rfl⟩

protected theorem bind {x x' : Walker σ Unit} {y y' : EStateM ChunkError σ Unit}
    (h : Follows stack x y) (h' : Follows stack x' y') :
    Follows stack (x >>= fun _ => x') (y >>= fun _ => y') := by
  intro s
  have hs := h s
  simp only [Bind.bind, EStateM.bind]
  cases hy : y s with
  | ok u s₁ =>
    rw [hy] at hs
    rw [hs]
    exact h' s₁
  | error e s₁ =>
    rw [hy] at hs
    obtain ⟨left, hleft⟩ := hs
    rw [hleft]
    exact ⟨left, rfl⟩

protected theorem forM {fs : List Function} {x : Function → Walker σ Unit}
    {y : Function → EStateM ChunkError σ Unit} (h : ∀ f ∈ fs, Follows stack (x f) (y f)) :
    Follows stack (fs.forM x) (fs.forM y) := by
  induction fs with
  | nil => exact Follows.pure
  | cons f fs ih =>
    exact (h f List.mem_cons_self).bind (ih fun g hg => h g (List.mem_cons_of_mem _ hg))

/-- What is done with one more name on the stack. -/
protected theorem nested {name : String} {x : Walker σ Unit} {y : EStateM ChunkError σ Unit}
    (h : Follows (stack ++ [name]) x y) : Follows stack (nested name x) y := by
  intro s
  have hs := h s
  cases hy : y s with
  | ok u s₁ =>
    rw [hy] at hs
    change (x >>= fun _ => modify fun s => (s.1.dropLast, s.2)) (stack ++ [name], s) = _
    simp only [Bind.bind, EStateM.bind, hs]
    change EStateM.Result.ok () ((stack ++ [name]).dropLast, s₁) = _
    rw [List.dropLast_concat]
  | error e s₁ =>
    rw [hy] at hs
    obtain ⟨left, hleft⟩ := hs
    refine ⟨left, ?_⟩
    change (x >>= fun _ => modify fun s => (s.1.dropLast, s.2)) (stack ++ [name], s) = _
    simp [Bind.bind, EStateM.bind, hleft]

theorem check_apply (name : String) (s : σ) :
    check name (stack, s) =
      if name ∈ stack then
        .error (.fault (.link (.recursiveSubroutine (stack ++ [name])))) (stack, s)
      else .ok () (stack, s) := by
  change (if name ∈ stack then _ else _ : Walker σ Unit) (stack, s) = _
  split <;> rfl

/-- A function that encloses itself stops the traversal. -/
theorem check_of_mem {name : String} (h : name ∈ stack) (x : Walker σ Unit) :
    Follows stack (check name >>= fun _ => x)
      (throw (.link (.recursiveSubroutine (stack ++ [name])))) := by
  intro s
  refine ⟨stack, ?_⟩
  simp [Bind.bind, EStateM.bind, check_apply, h]

/-- Any other one does not. -/
theorem check_of_notMem {name : String} (h : name ∉ stack) {x : Walker σ Unit}
    {y : EStateM ChunkError σ Unit} (hx : Follows stack x y) :
    Follows stack (check name >>= fun _ => x) y := by
  intro s
  have hpass : (check name >>= fun _ => x) (stack, s) = x (stack, s) := by
    simp [Bind.bind, EStateM.bind, check_apply, h]
  rw [hpass]
  exact hx s

/-- What a traversal does from an empty stack. -/
theorem run_eq {x : Walker σ Unit} {y : EStateM ChunkError σ Unit} (h : Follows [] x y) (s : σ) :
    run x s =
      match y s with
      | .ok _ s' => (.ok (), s')
      | .error e s' => (.error (.fault e), s') := by
  have hs := h s
  cases hy : y s with
  | ok u s₁ =>
    rw [hy] at hs
    simp [run, EStateM.run, hs]
  | error e s₁ =>
    rw [hy] at hs
    obtain ⟨left, hleft⟩ := hs
    simp [run, EStateM.run, hleft]

end Follows

variable {p : Program} {room : Nat} {path : List String} {f : Function}

/-- **The writer follows the walk**, and writes the pieces of its steps. -/
theorem write_follows (h : p.Roomy room path f) :
    Follows path.reverse (write p room f) (p.follow (fun v => putParts v.parts) room path f) := by
  induction room generalizing path f with
  | zero => exact .check_of_mem (List.mem_reverse.mpr h.mem_path) _
  | succ room ih =>
    rw [write, Program.follow]
    by_cases hname : f.name ∈ path
    · rw [if_pos hname]
      exact .check_of_mem (List.mem_reverse.mpr hname) _
    · rw [if_neg hname]
      refine .check_of_notMem (mt List.mem_reverse.mp hname) (.nested ?_)
      rw [← List.reverse_cons, linked]
      -- a function that is only reached writes nothing
      change Follows _ _ (pure () >>= fun _ => _)
      rw [pure_bind]
      cases hl : p.link f with
      | error e => exact .throw _
      | ok l =>
        obtain rfl := (Program.link_eq_ok hl).1
        rw [pure_bind]
        have hprotos := Follows.forM fun g hg => ih (h.proto hname hl hg)
        exact (Follows.act _).bind (hprotos.bind (.act _))

/-- What the lister notes of a step. -/
def note : Visit → EStateM ChunkError (List (Nat × Linked)) Unit
  | .reached _ => pure ()
  | .entered depth l => modify (· ++ [(depth, l)])
  | .left _ => pure ()

/-- **The lister follows the walk**, and notes the functions that it enters. -/
theorem collect_follows (h : p.Roomy room path f) :
    Follows path.reverse (collect p room path.length f) (p.follow note room path f) := by
  induction room generalizing path f with
  | zero => exact .check_of_mem (List.mem_reverse.mpr h.mem_path) _
  | succ room ih =>
    rw [collect, Program.follow]
    by_cases hname : f.name ∈ path
    · rw [if_pos hname]
      exact .check_of_mem (List.mem_reverse.mpr hname) _
    · rw [if_neg hname, note, pure_bind]
      refine .check_of_notMem (mt List.mem_reverse.mp hname) ?_
      rw [linked]
      cases hl : p.link f with
      | error e => exact .throw _
      | ok l =>
        rw [pure_bind]
        refine (Follows.act _).bind ?_
        change Follows _ _ (_ >>= fun u => pure ())
        rw [bind_pure_unit]
        refine .nested (.forM fun g hg => ?_)
        rw [← List.reverse_cons]
        exact ih (h.proto hname hl hg)

/-! ## What the traversals give -/

theorem forM_putParts (vs : List Visit) (s : Sink) :
    (vs.forM fun v => putParts v.parts) s =
      match s.putVisits vs with
      | (.ok _, s) => .ok () s
      | (.error e, s) => .error e s := by
  induction vs generalizing s with
  | nil => rfl
  | cons v vs ih =>
    change (putParts v.parts >>= fun _ => vs.forM fun v => putParts v.parts) s = _
    simp only [Bind.bind, EStateM.bind, putParts, Sink.putVisits]
    rcases s.putParts v.parts with ⟨_ | _, s₁⟩
    · rfl
    · exact ih s₁

/-- **The writer writes what the walk contributes**, into every sink, and stops where that cannot be
written. -/
theorem writeChunk_eq (p : Program) (s : Sink) :
    writeChunk p s = ((p.writeChunk s).1.mapError .fault, (p.writeChunk s).2) := by
  rw [writeChunk, Program.writeChunk]
  cases hm : p.main? with
  | none => rfl
  | some f =>
    simp only
    rw [((Follows.act _).bind (write_follows (.main hm))).run_eq, ← Program.play_unfolding hm]
    simp only [Bind.bind, EStateM.bind, put]
    rcases s.putAll p.preamble with ⟨_ | _, s₁⟩
    · rfl
    · simp only [Unfolding.play, Bind.bind, EStateM.bind, forM_putParts]
      rcases s₁.putVisits p.unfolding.visits.toList with ⟨_ | _, s₂⟩
      · rfl
      · cases p.unfolding.failure with
        | none => rfl
        | some e => rfl

/-- The function that a step enters, with the number of the functions that enclose it. -/
def entrance? : Visit → Option (Nat × Linked)
  | .reached _ => none
  | .entered depth l => some (depth, l)
  | .left _ => none

theorem forM_note (vs : List Visit) (out : List (Nat × Linked)) :
    vs.forM note out = .ok () (out ++ vs.filterMap entrance?) := by
  induction vs generalizing out with
  | nil => simp [Pure.pure, EStateM.pure]
  | cons v vs ih =>
    change (note v >>= fun _ => vs.forM note) out = _
    cases v with
    | reached f => exact ih out
    | entered depth l =>
      refine (ih (out ++ [(depth, l)])).trans ?_
      simp [entrance?]
    | left f => exact ih out

/-- **The lister notes what the walk enters.** -/
theorem entries_eq (p : Program) :
    entries p =
      match p.unfolding.failure with
      | none => .ok (p.unfolding.visits.toList.filterMap entrance?)
      | some e => .error (.fault (.link e)) := by
  rw [entries]
  cases hm : p.main? with
  | none =>
    rw [Program.unfolding, hm]
  | some f =>
    have hfollows : Follows [] (collect p p.functions.length 0 f)
        (p.follow note p.functions.length [] f) := collect_follows (.main hm)
    simp only
    rw [hfollows.run_eq, ← Program.play_unfolding hm]
    simp only [Unfolding.play, Bind.bind, EStateM.bind, forM_note]
    cases p.unfolding.failure with
    | none => simp [Pure.pure, EStateM.pure, Except.map]
    | some e => rfl

/-- Only the steps that enter functions contribute to a listing. -/
theorem foldl_visit (vs : List Visit) (text : String) :
    vs.foldl Listing.visit text =
      (vs.filterMap entrance?).foldl (fun text e => Listing.function text e.1 e.2) text := by
  induction vs generalizing text with
  | nil => rfl
  | cons v vs ih =>
    cases v with
    | reached f => exact ih text
    | entered depth l => exact ih _
    | left f => exact ih text

/-- **The lister gives the listing.** -/
theorem list_eq (p : Program) : list p = p.listing.mapError fun e => .fault (.link e) := by
  rw [list, entries_eq, Program.listing]
  cases p.unfolding.failure with
  | some e => rfl
  | none =>
    simp only [← Array.foldl_toList, foldl_visit]
    rfl

end Traversal

/-! ## The preorder of the tree -/

namespace Chunk.Proto

mutual

/-- The records of a tree in preorder, each without the records inside it and with the number of the
records around it. -/
def preorder (depth : Nat) : Proto → List (Nat × Proto)
  | ⟨source, firstLine, lastLine, params, vararg, maxStack, words, constants, upvalues, protos,
      lines, locals, upvalueNames⟩ =>
    (depth, ⟨source, firstLine, lastLine, params, vararg, maxStack, words, constants, upvalues, [],
      lines, locals, upvalueNames⟩) :: preorderAll (depth + 1) protos

/-- The records of several trees. -/
def preorderAll (depth : Nat) : List Proto → List (Nat × Proto)
  | [] => []
  | t :: ts => preorder depth t ++ preorderAll depth ts

end

end Chunk.Proto

/-- The record of an entry of a listing, without those of its protos. -/
def Traversal.record (e : Nat × Linked) : Nat × Chunk.Proto :=
  (e.1, e.2.function.record e.2.words [])

section

variable {p : Program}

open Traversal

mutual

/-- **A complete walk enters the functions in the preorder of the tree.** -/
theorem Walks.preorder {n : Nat} {f : Function} {vs : List Visit} {t : Chunk.Proto} :
    Walks p n f vs → Tree p f t → (vs.filterMap entrance?).map record = t.preorder n
  | @Walks.node _ _ _ l vs hl hall, @Tree.node _ _ l' ts hl' hts => by
    obtain rfl := Except.ok.inj (hl.symm.trans hl')
    have hrest := hall.preorder (Program.link_protos hl) hts
    have hentries : (Visit.reached f :: .entered n l :: (vs ++ [.left f])).filterMap entrance? =
        (n, l) :: vs.filterMap entrance? := by
      simp [List.filterMap_cons, entrance?]
    rw [hentries, List.map_cons, hrest, record, (Program.link_eq_ok hl).1]
    rfl

theorem WalksAll.preorder {n : Nat} {fs : List Function} {vs : List Visit} {names : List String}
    {ts : List Chunk.Proto} :
    WalksAll p n fs vs → List.Forall₂ (fun name g => p.function? name = some g) names fs →
      Trees p names ts → (vs.filterMap entrance?).map record = Chunk.Proto.preorderAll n ts
  | .nil, .nil, .nil => rfl
  | .cons hf hall, .cons hg hgs, .cons hname ht hts => by
    obtain rfl := Option.some.inj (hg.symm.trans hname)
    rw [List.filterMap_append, List.map_append, hf.preorder ht, hall.preorder hgs hts,
      Chunk.Proto.preorderAll]

end

end

/-- What a complete walk writes behind the header is read back as the tree of its function. -/
theorem Walks.read_eq {p : Program} (hp : p.Bounded) {f : Function} {vs : List Visit}
    (h : Walks p 0 f vs) (hf : f.Bounded) (n : UInt8) :
    ∃ t, Tree p f t ∧
      Chunk.read (Chunk.header.flatten ++ ([n] ++ (Chunk.walkBytes vs ++ []))) =
        some (Chunk.fixedHeader, n, t) := by
  obtain ⟨t, ht, hread⟩ := h.exists_tree hp hf
  refine ⟨t, ht, ?_⟩
  rw [Chunk.read, Chunk.reads_header]
  simp only [Option.bind_eq_bind, Option.bind_some]
  rw [Chunk.reads_byte]
  simp only [Option.bind_some]
  rw [hread _ (by simp; omega)]
  simp

/-- With an unbounded sink a program without tables that are too long is written if it can be
listed, and otherwise fails for the same reason. -/
theorem Program.writeChunk_eq_listing {p : Program} {s : Sink} (hs : s.Unbounded)
    (h : p.oversize? = none) :
    (p.writeChunk s).1 = (p.listing.map fun _ => ()).mapError .link := by
  rw [fst_writeChunk hs, verdict, h, listing]
  cases p.unfolding.failure with
  | none => rfl
  | some e => rfl

theorem Program.Bounded.short {p : Program} (h : p.Bounded) : p.Short := by
  intro key f hf
  have hf := h key f hf
  exact ⟨hf.words, hf.constants, hf.upvalues, hf.subroutines, hf.lines⟩

/-- **The listing and the writer agree.** The listing and the chunk are those that two independent
traversals give, which never run out of room. With an unbounded sink one of them fails exactly if
the other does, and for the same reason, unless the writer comes to a table that is too long, which
it then reports. If none fails and the tables are not too long, the listing is made up of functions
which, with their depths and their linked instructions, are the records of the tree that is read
back from the chunk, in preorder. -/
theorem listing_agrees_with_chunk {p : Program} {s : Sink} (hs : s.Unbounded) :
    (∀ t, Traversal.writeChunk p t = ((p.writeChunk t).1.mapError .fault, (p.writeChunk t).2)) ∧
    Traversal.list p = p.listing.mapError (fun e => .fault (.link e)) ∧
    (p.oversize? = none → (p.writeChunk s).1 = (p.listing.map fun _ => ()).mapError .link) ∧
    (p.Short → p.oversize? = none) ∧
    (∀ e, p.oversize? = some e → (p.writeChunk s).1 = .error (.tooLarge e)) ∧
    ∀ text, p.listing = .ok text → p.Bounded → s.received = .empty →
      ∃ es t, Traversal.entries p = .ok es ∧
        text = es.foldl (fun text e => Listing.function text e.1 e.2)
          s!"upvalues {p.upvalueCount}\n" ∧
        Chunk.read (p.writeChunk s).2.received.data.toList =
          some (Chunk.fixedHeader, p.upvalueCount, t) ∧
        es.map Traversal.record = t.preorder 0 := by
  refine ⟨Traversal.writeChunk_eq p, Traversal.list_eq p, p.writeChunk_eq_listing hs,
    Program.Short.oversize?_eq_none, ?_, ?_⟩
  · intro e he
    rw [Program.fst_writeChunk hs, Program.verdict_of_oversize? he]
  · intro text htext hp hempty
    have hok : (p.writeChunk s).1 = .ok () := by
      rw [p.writeChunk_eq_listing hs hp.short.oversize?_eq_none, htext]
      rfl
    obtain ⟨f, hm, hfail, hsize, hbytes⟩ := p.writeChunk_eq_ok hok
    have hwalk := Program.unfolding_walks hm hfail
    obtain ⟨t, ht, hread⟩ := hwalk.read_eq hp (hp _ _ hm) p.upvalueCount
    have hentries : Traversal.entries p =
        .ok (p.unfolding.visits.toList.filterMap Traversal.entrance?) := by
      rw [Traversal.entries_eq, hfail]
    have hlist := Traversal.list_eq p
    rw [Traversal.list, hentries, htext] at hlist
    refine ⟨_, t, hentries, (Except.ok.inj hlist).symm, ?_, hwalk.preorder ht⟩
    rw [← hread, hbytes, hempty, Program.flatten_pieces hm hsize, Program.parts]
    simp [Chunk.walkBytes]

/-- A main function whose subroutine stands under another key than its name, has the name of the
main function, and refers to a function that is not there. -/
def disguisedProgram : Program where
  upvalueCount := 0
  functions :=
    [("main", { name := "main", header := ⟨2, 0, .fixed⟩, subroutines := #["other"] }),
      ("other", { name := "main", header := ⟨2, 0, .fixed⟩, subroutines := #["gone"] })]

/-- The nested program is listed in the preorder of its chunk. For the disguised one the cycle is
reported by both, and the missing function by none. -/
theorem listing_agrees_with_chunk_nested :
    (∃ es t, Traversal.entries nestedProgram = .ok es ∧
      es.map (fun e => (e.1, e.2.function.name)) = [(0, "main"), (1, "inner")] ∧
      Chunk.read (nestedProgram.writeChunk {}).2.received.data.toList =
        some (Chunk.fixedHeader, 1, t) ∧ es.map Traversal.record = t.preorder 0) ∧
    disguisedProgram.listing = .error (.recursiveSubroutine ["main", "main"]) ∧
    (disguisedProgram.writeChunk {}).1 =
      .error (.link (.recursiveSubroutine ["main", "main"])) := by
  have hfree : ({} : Sink).Unbounded := ⟨rfl, nofun⟩
  have hlook : (Traversal.entries nestedProgram).toOption.map
      (List.map fun e => (e.1, e.2.function.name)) = some [(0, "main"), (1, "inner")] := by
    decide +kernel
  have hok : (nestedProgram.writeChunk {}).1 = .ok () := by rfl
  have hcycle : disguisedProgram.listing = .error (.recursiveSubroutine ["main", "main"]) := by rfl
  obtain ⟨-, -, hnested, hshort, -, hread⟩ := listing_agrees_with_chunk (p := nestedProgram) hfree
  obtain ⟨-, -, hdisguised, -⟩ := listing_agrees_with_chunk (p := disguisedProgram) hfree
  have hnested := hnested (hshort nestedProgram_bounded.short)
  refine ⟨?_, hcycle, by rw [hdisguised rfl, hcycle]; rfl⟩
  obtain ⟨text, htext⟩ : ∃ text, nestedProgram.listing = .ok text := by
    cases hl : nestedProgram.listing with
    | ok text => exact ⟨text, rfl⟩
    | error e =>
      rw [hl, hok] at hnested
      cases hnested
  obtain ⟨es, t, hes, -, hchunk, hpre⟩ := hread text htext nestedProgram_bounded rfl
  refine ⟨es, t, hes, ?_, hchunk, hpre⟩
  rw [hes] at hlook
  exact Option.some.inj hlook

end ChunkAsm
