import ChunkAsm.Proofs.Termination

/-!
# What is written of a program that cannot be linked

The writer sees that a function does not enclose itself and links it before it writes anything of
it. So where one of the two fails, the last thing that was written is the record before. What the
sink has received then is given by the calls that are open: of each the record up to the number of
protos, and the records of the protos that were done.

`Enters` follows the open calls of a writer from call to call. A call of a writer on a sink that
takes everything writes the record of its function, or comes to a table that is too long, or stops
in one of the calls that it enters, which writes nothing (`Traversal.call_outcome`).
-/

namespace ChunkAsm

/-! ## Records -/

namespace Chunk

mutual

/-- `Record p f bytes`: the complete record of a function consists of these bytes. -/
inductive Record (p : Program) : Function → List UInt8 → Prop where
  /-- the number of the protos is followed by their records and the rest -/
  | mk {f : Function} {l : Linked} {bytes : List UInt8} :
    p.link f = .ok l → Records p l.protos.toList bytes →
    Record p f (Chunk.bytes (functionHead f l.words l.protos.size) ++ bytes ++
      Chunk.bytes (functionTail f))

/-- The complete records of several functions, one after the other. -/
inductive Records (p : Program) : List Function → List UInt8 → Prop where
  | nil : Records p [] []
  | cons {f : Function} {fs : List Function} {bytes rest : List UInt8} :
    Record p f bytes → Records p fs rest → Records p (f :: fs) (bytes ++ rest)

end

/-- A function whose record has been started, while one of its protos is being written. -/
structure Frame (p : Program) where
  /-- the function -/
  linked : Linked
  /-- its protos before the one that is being written -/
  done : List Function
  /-- their records -/
  records : List UInt8
  /-- these are complete -/
  complete : Records p done records

namespace Frame

variable {p : Program}

/-- The name of the function. -/
def name (frame : Frame p) : String := frame.linked.function.name

/-- What has been written: the record up to the number of protos, and the records of those that are
done. -/
def bytes (frame : Frame p) : List UInt8 :=
  Chunk.bytes (functionHead frame.linked.function frame.linked.words frame.linked.protos.size) ++
    frame.records

end Frame

end Chunk

/-! ## Sinks without a limit -/

namespace Sink.Unbounded

variable {s s' : Sink}

theorem of_putAll {pieces : List (List UInt8)} (h : s.Unbounded)
    (hput : s.putAll pieces = (.ok (), s')) : s'.Unbounded := by
  induction pieces generalizing s with
  | nil =>
    obtain ⟨-, rfl⟩ := Prod.mk.inj hput
    exact h
  | cons piece rest ih =>
    obtain ⟨s₁, hs₁, hu⟩ := h.put piece
    rw [Sink.putAll, hs₁] at hput
    exact ih hu hput

/-- Pieces are written and received. -/
theorem act_put (h : s.Unbounded) (stack : List String) (pieces : List Chunk.Piece) :
    ∃ s', Traversal.act (Traversal.put pieces) (stack, s) = .ok () (stack, s') ∧
      s.putAll pieces = (.ok (), s') ∧ s'.Unbounded ∧
      s'.received.data.toList = s.received.data.toList ++ pieces.flatten := by
  obtain ⟨s', hput⟩ := h.putAll pieces
  refine ⟨s', ?_, hput, h.of_putAll hput, putAll_eq_ok hput⟩
  simp [Traversal.act, Traversal.put, hput]

/-- Parts of a record are written and received, unless a table is too long. -/
theorem act_putParts (h : s.Unbounded) (stack : List String) (parts : List Chunk.Part) :
    (∃ s', Traversal.act (Traversal.putParts parts) (stack, s) = .ok () (stack, s') ∧
      s.putParts parts = (.ok (), s') ∧ s'.Unbounded ∧
      s'.received.data.toList = s.received.data.toList ++ Chunk.bytes parts) ∨
    ∃ e s', Traversal.act (Traversal.putParts parts) (stack, s) =
      .error (.fault (.tooLarge e)) (stack, s') := by
  obtain ⟨s', hput⟩ := h.putAll (Chunk.pieces parts)
  cases hsize : Chunk.oversize? parts with
  | none =>
    have hparts : s.putParts parts = (.ok (), s') := by rw [putParts_eq, hput, hsize]
    refine .inl ⟨s', ?_, hparts, h.of_putAll hput, ?_⟩
    · simp [Traversal.act, Traversal.putParts, hparts]
    · rw [putAll_eq_ok hput, Chunk.flatten_pieces hsize]
  | some e =>
    have hparts : s.putParts parts = (.error (.tooLarge e), s') := by rw [putParts_eq, hput, hsize]
    exact .inr ⟨e, s', by simp [Traversal.act, Traversal.putParts, hparts]⟩

end Sink.Unbounded

namespace Traversal

open Chunk (Record Records Frame)

/-! ## One call of a writer -/

section

variable {p : Program} {write : Function → Walker Sink Unit} {f : Function} {stack : List String}
  {s : Sink}

/-- The function encloses itself. -/
theorem write_of_mem (hwrite : write = writeBody p nested write) (hname : f.name ∈ stack) :
    write f (stack, s) =
      .error (.fault (.link (.recursiveSubroutine (stack ++ [f.name])))) (stack, s) := by
  rw [hwrite]
  simp [writeBody, Bind.bind, EStateM.bind, Follows.check_apply, hname]

/-- The function is on the stack while it is linked. -/
theorem write_of_notMem (hwrite : write = writeBody p nested write) (hname : f.name ∉ stack) :
    write f (stack, s) =
      (linked p f >>= fun l => do
        act (putParts (Chunk.functionHead f l.words l.protos.size))
        l.protos.toList.forM write
        act (putParts (Chunk.functionTail f))
        modify fun t => (t.1.dropLast, t.2) : Walker Sink Unit) (stack ++ [f.name], s) := by
  conv => lhs; rw [hwrite]
  have hpass : writeBody p nested write f (stack, s) =
      nested f.name (do
        let l ← linked p f
        act (putParts (Chunk.functionHead f l.words l.protos.size))
        l.protos.toList.forM write
        act (putParts (Chunk.functionTail f))) (stack, s) := by
    simp [writeBody, Bind.bind, EStateM.bind, Follows.check_apply, hname]
  rw [hpass, nested_apply]
  simp only [bind_assoc]

/-- The function cannot be linked. -/
theorem write_of_error (hwrite : write = writeBody p nested write) (hname : f.name ∉ stack)
    {e : LinkError} (hl : p.link f = .error e) :
    write f (stack, s) = .error (.fault (.link e)) (stack ++ [f.name], s) := by
  rw [write_of_notMem hwrite hname, linked, hl]
  rfl

end

/-- `Enters p write f c frames g c'`: the call of a writer on `f`, in the state `c`, is open with
all calls inside it up to the one on `g`, which is made in the state `c'`. The calls on the protos
before have come to their end. -/
inductive Enters (p : Program) (write : Function → Walker Sink Unit) :
    Function → List String × Sink → List (Frame p) → Function → List String × Sink → Prop where
  /-- the call itself -/
  | here {f : Function} {c : List String × Sink} : Enters p write f c [] f c
  /-- a call on a proto -/
  | proto {f g h : Function} {stack : List String} {s s₁ s₂ : Sink} {frame : Frame p}
    {after : List Function} {frames : List (Frame p)} {c : List String × Sink} :
    f.name ∉ stack → p.link f = .ok frame.linked →
    s.putParts (Chunk.functionHead f frame.linked.words frame.linked.protos.size) = (.ok (), s₁) →
    frame.linked.protos.toList = frame.done ++ g :: after →
    frame.done.forM write (stack ++ [f.name], s₁) = .ok () (stack ++ [f.name], s₂) →
    Enters p write g (stack ++ [f.name], s₂) frames h c →
    Enters p write f (stack, s) (frame :: frames) h c

/-- Why a function is not started: it encloses itself, or it cannot be linked. -/
def Refused (p : Program) (stack : List String) (g : Function) (e : LinkError) : Prop :=
  g.name ∈ stack ∧ e = .recursiveSubroutine (stack ++ [g.name]) ∨
    g.name ∉ stack ∧ p.link g = .error e

/-- A part of a writer does what it has to do: it writes bytes and leaves the stack as it was. -/
def Writes (x : Walker Sink Unit) (stack : List String) (s : Sink) (written : List UInt8 → Prop) :
    Prop :=
  ∃ s' bytes, x (stack, s) = .ok () (stack, s') ∧ s'.Unbounded ∧ written bytes ∧
    s'.received.data.toList = s.received.data.toList ++ bytes

/-- A part of a writer comes to a table that is too long. -/
def Overruns (x : Walker Sink Unit) (stack : List String) (s : Sink) : Prop :=
  ∃ e c, x (stack, s) = .error (.fault (.tooLarge e)) c

/-- A call of a writer stops in one that it enters, which writes nothing. -/
def Stops (p : Program) (write : Function → Walker Sink Unit) (f : Function) (stack : List String)
    (s : Sink) (e : LinkError) (left : List String) (s' : Sink) : Prop :=
  write f (stack, s) = .error (.fault (.link e)) (left, s') ∧
    ∃ frames g, Enters p write f (stack, s) frames g (stack ++ frames.map Frame.name, s') ∧
      write g (stack ++ frames.map Frame.name, s') = .error (.fault (.link e)) (left, s') ∧
      Refused p (stack ++ frames.map Frame.name) g e ∧
      s'.received.data.toList = s.received.data.toList ++ frames.flatMap Frame.bytes

section

variable {p : Program} {write : Function → Walker Sink Unit} {f : Function} {stack : List String}
  {s : Sink}

theorem Stops.here {e : LinkError} {left : List String}
    (herror : write f (stack, s) = .error (.fault (.link e)) (left, s))
    (hrefused : Refused p stack f e) : Stops p write f stack s e left s := by
  refine ⟨herror, [], f, ?_, ?_, ?_, by simp⟩
  · rw [List.map_nil, List.append_nil]
    exact .here
  · rw [List.map_nil, List.append_nil]
    exact herror
  · rw [List.map_nil, List.append_nil]
    exact hrefused

/-- The next call, if the call on `f` is open for one on another function. -/
theorem Enters.descend {g : Function} {c c' : List String × Sink} {frames : List (Frame p)}
    (h : Enters p write f c frames g c') (hname : g.name ≠ f.name) :
    ∃ frame rest k after c₁, frames = frame :: rest ∧ frame.name = f.name ∧
      List.Forall₂ (fun name k => p.function? name = some k) f.subroutines.toList
        (frame.done ++ k :: after) ∧
      Enters p write k c₁ rest g c' := by
  cases h with
  | here => exact absurd rfl hname
  | @proto _ k _ _ _ _ _ frame after rest _ _ hl _ hsplit _ hnext =>
    have hprotos := Program.link_protos hl
    rw [hsplit] at hprotos
    exact ⟨frame, rest, k, after, _, rfl, congrArg Function.name (Program.link_eq_ok hl).1, hprotos,
      hnext⟩

/-- Calls on several functions: all write their records, or one stops or comes to a table that is
too long after those before it have written theirs. -/
theorem forM_outcome {fs : List Function} (stack : List String) (hs : s.Unbounded)
    (h : ∀ f ∈ fs, ∀ s : Sink, s.Unbounded → Writes (write f) stack s (Record p f) ∨
      (∃ e left s', Stops p write f stack s e left s') ∨ Overruns (write f) stack s) :
    Writes (fs.forM write) stack s (Records p fs) ∨
      (∃ before g after s₂ e left s', fs = before ++ g :: after ∧
        (∃ bytes, before.forM write (stack, s) = .ok () (stack, s₂) ∧ Records p before bytes ∧
          s₂.received.data.toList = s.received.data.toList ++ bytes) ∧
        Stops p write g stack s₂ e left s' ∧
        fs.forM write (stack, s) = .error (.fault (.link e)) (left, s')) ∨
      Overruns (fs.forM write) stack s := by
  induction fs generalizing s with
  | nil => exact .inl ⟨s, [], rfl, hs, .nil, by simp⟩
  | cons f fs ih =>
    have hcons (gs : List Function) (s : Sink) :
        (f :: gs).forM write (stack, s) = (write f >>= fun _ => gs.forM write) (stack, s) := rfl
    rcases h f List.mem_cons_self s hs with
      ⟨s₁, bytes, hok, hs₁, hrec, hbytes⟩ | ⟨e, left, s', hstop⟩ | ⟨e, c, hover⟩
    · have hnext (gs : List Function) :
          (f :: gs).forM write (stack, s) = gs.forM write (stack, s₁) := by
        rw [hcons]
        simp only [Bind.bind, EStateM.bind, hok]
      rcases ih hs₁ fun g hg => h g (List.mem_cons_of_mem _ hg) with
        ⟨s', rest, hrest, hs', hrecs, hbytes'⟩ |
        ⟨before, g, after, s₂, e, left, s', rfl, ⟨rest, hrest, hrecs, hbytes'⟩, hstop, herror⟩ |
        ⟨e, c, hover⟩
      · refine .inl ⟨s', bytes ++ rest, (hnext fs).trans hrest, hs', .cons hrec hrecs, ?_⟩
        rw [hbytes', hbytes, List.append_assoc]
      · refine .inr (.inl ⟨f :: before, g, after, s₂, e, left, s', rfl,
          ⟨bytes ++ rest, (hnext before).trans hrest, .cons hrec hrecs, ?_⟩, hstop,
          (hnext _).trans herror⟩)
        rw [hbytes', hbytes, List.append_assoc]
      · exact .inr (.inr ⟨e, c, (hnext fs).trans hover⟩)
    · refine .inr (.inl ⟨[], f, fs, s, e, left, s', rfl, ⟨[], rfl, .nil, by simp⟩, hstop, ?_⟩)
      rw [hcons]
      simp only [Bind.bind, EStateM.bind, hstop.1]
    · refine .inr (.inr ⟨e, c, ?_⟩)
      rw [hcons]
      simp only [Bind.bind, EStateM.bind, hover]

/-- **What a call of a writer comes to** on a sink that takes everything. -/
theorem call_outcome (hwrite : write = writeBody p nested write) (stack : List String)
    (hs : s.Unbounded) (hf : f.name ∈ p.distinctNames) :
    Writes (write f) stack s (Record p f) ∨ (∃ e left s', Stops p write f stack s e left s') ∨
      Overruns (write f) stack s := by
  -- the names of the table that are not on the stack get fewer
  induction hn : p.unused stack using Nat.strong_induction_on generalizing stack f s with
  | _ n ih =>
    by_cases hname : f.name ∈ stack
    · exact .inr (.inl ⟨_, _, _, .here (write_of_mem hwrite hname) (.inl ⟨hname, rfl⟩)⟩)
    cases hl : p.link f with
    | error e =>
      exact .inr (.inl ⟨e, _, s, .here (write_of_error hwrite hname hl) (.inr ⟨hname, hl⟩)⟩)
    | ok l =>
      have hrun := write_of_notMem hwrite hname (s := s)
      simp only [linked, hl, pure_bind] at hrun
      rcases hs.act_putParts (stack ++ [f.name]) (Chunk.functionHead f l.words l.protos.size) with
        ⟨s₁, hact, hput, hs₁, hhead⟩ | ⟨e, s', hact⟩
      · simp only [Bind.bind, EStateM.bind, hact] at hrun
        have hlt := Program.unused_lt hf hname
        have hprotos := forM_outcome (stack ++ [f.name]) hs₁ fun g hg s hs =>
          ih _ (hn ▸ hlt) _ hs (Program.name_mem_of_mem_protos hl hg) rfl
        rcases hprotos with ⟨s₂, bytes, hok, hs₂, hrecs, hbytes⟩ |
          ⟨before, g, after, s₂, e, left, s', hsplit, ⟨bytes, hok, hrecs, hbytes⟩, hstop, herror⟩ |
          ⟨e, c, hover⟩
        · rcases hs₂.act_putParts (stack ++ [f.name]) (Chunk.functionTail f) with
            ⟨s₃, htail, -, hs₃, hbytes'⟩ | ⟨e, s', htail⟩
          · simp only [hok, htail] at hrun
            refine .inl ⟨s₃, _, hrun.trans ?_, hs₃, .mk hl hrecs, ?_⟩
            · change EStateM.Result.ok () ((stack ++ [f.name]).dropLast, s₃) = _
              rw [List.dropLast_concat]
            · rw [hbytes', hbytes, hhead]
              simp only [List.append_assoc]
          · simp only [hok, htail] at hrun
            exact .inr (.inr ⟨e, _, hrun⟩)
        · simp only [herror] at hrun
          obtain ⟨-, frames, h, henters, hrefuse, hwhy, hreceived⟩ := hstop
          obtain rfl := (Program.link_eq_ok hl).1
          let frame : Frame p := ⟨l, before, bytes, hrecs⟩
          have hstack : stack ++ [l.function.name] ++ frames.map Frame.name =
              stack ++ (frame :: frames).map Frame.name := by
            rw [List.append_assoc]
            rfl
          rw [hstack] at henters hrefuse hwhy
          refine .inr (.inl ⟨e, left, s', hrun, frame :: frames, h,
            .proto hname hl hput hsplit hok henters, hrefuse, hwhy, ?_⟩)
          rw [hreceived, hbytes, hhead, List.flatMap_cons]
          simp [Frame.bytes, frame]
        · simp only [hover] at hrun
          exact .inr (.inr ⟨e, _, hrun⟩)
      · simp only [Bind.bind, EStateM.bind, hact] at hrun
        exact .inr (.inr ⟨e, _, hrun⟩)

end

end Traversal

section

open Traversal Chunk

/-- **A function that cannot be linked is never started.** If writing to a sink without a limit
stops because of the functions of the program, it stops in a call that the open calls of the writer
lead to from the main function. This call finds that its function encloses itself or cannot be
linked, and it writes nothing. Before it, the sink has received the header of 33 bytes, the number
of upvalues and, for each call around it from the outermost one on, the record of the function up to
the number of its protos and the complete records of the protos that come before the one that is
entered. -/
theorem unlinked_function_not_started {p : Program} {write : Function → Walker Sink Unit}
    (hwrite : write = writeBody p nested write) {s : Sink} (hs : s.Unbounded) {f : Function}
    (hm : p.main? = some f) {e : LinkError} (h : (p.writeChunk s).1 = .error (.link e)) :
    ∃ s₀ frames g left, s.putAll p.preamble = (.ok (), s₀) ∧
      Enters p write f ([], s₀) frames g (frames.map Frame.name, (p.writeChunk s).2) ∧
      write g (frames.map Frame.name, (p.writeChunk s).2) =
        .error (.fault (.link e)) (left, (p.writeChunk s).2) ∧
      Refused p (frames.map Frame.name) g e ∧
      (p.writeChunk s).2.received.data.toList = s.received.data.toList ++
        (header.flatten ++ p.upvalueCount :: frames.flatMap Frame.bytes) ∧
      header.flatten.length = 33 := by
  obtain ⟨s₀, hact, hput, hs₀, hpreamble⟩ := hs.act_put [] p.preamble
  have hchunk := chunkBy_eq .nested hwrite s
  simp only [chunkBy, hm, run, EStateM.run, Bind.bind, EStateM.bind, hact, h] at hchunk
  rcases call_outcome hwrite [] hs₀ (Program.name_mem_distinctNames hm) with
    ⟨s', bytes, hok, -⟩ | ⟨e', left, s', herror, frames, g, henters, hrefuse, hwhy, hreceived⟩ |
    ⟨e', c, hover⟩
  · rw [hok] at hchunk
    cases hchunk
  · rw [herror] at hchunk
    obtain ⟨hresult, rfl⟩ := Prod.mk.inj hchunk
    cases hresult
    rw [List.nil_append] at henters hrefuse hwhy
    refine ⟨s₀, frames, g, left, hput, henters, hrefuse, hwhy, ?_, rfl⟩
    rw [hreceived, hpreamble, Program.preamble]
    simp
  · rw [hover] at hchunk
    cases hchunk

/-- A main function and its second subroutine both come to a leaf first. A function that refers to
one that is not there comes after the second leaf. -/
def brokenProgram : Program where
  upvalueCount := 1
  functions :=
    [("main", { name := "main", header := ⟨2, 0, .fixed⟩, subroutines := #["leaf", "middle"] }),
      ("leaf", { name := "leaf", header := ⟨2, 0, .fixed⟩ }),
      ("middle",
        { name := "middle", header := ⟨2, 0, .fixed⟩, subroutines := #["leaf", "broken"] }),
      ("broken", { name := "broken", header := ⟨2, 0, .fixed⟩, subroutines := #["gone"] })]

/-- The open calls are those on the main function and on its second subroutine, and of each the
first proto is done. Of the broken function nothing is written. -/
theorem unlinked_function_not_started_broken :
    (brokenProgram.writeChunk {}).1 = .error (.link (.missingSubroutine "broken" "gone")) ∧
    ∃ frames : List (Frame brokenProgram), ∃ g,
      frames.map Frame.name = ["main", "middle"] ∧
      frames.map (fun frame => frame.done.map Function.name) = [["leaf"], ["leaf"]] ∧
      Refused brokenProgram ["main", "middle"] g (.missingSubroutine "broken" "gone") ∧
      g.name = "broken" ∧
      (brokenProgram.writeChunk {}).2.received.data.toList =
        header.flatten ++ 1 :: frames.flatMap Frame.bytes := by
  have herror : (brokenProgram.writeChunk {}).1 =
      .error (.link (.missingSubroutine "broken" "gone")) := by rfl
  obtain ⟨write, hwrite, -⟩ := (tied_writeBody (p := brokenProgram) .nested).endsWithin
    (fun _ _ => trivial)
  obtain ⟨s₀, frames, g, -, -, henters, -, hwhy, hreceived, -⟩ :=
    unlinked_function_not_started hwrite (s := {}) ⟨rfl, fun _ h => by cases h⟩ rfl herror
  have hg : g.name = "broken" := by
    rcases hwhy with ⟨-, he⟩ | ⟨-, hl⟩
    · cases he
    · rcases Program.link_eq_error hl with ⟨name, -, -, he⟩ | ⟨-, x, he⟩
      · exact (LinkError.missingSubroutine.inj he).1.symm
      · cases he
  have hleaf : ∀ k, brokenProgram.function? "leaf" = some k →
      k.name = "leaf" ∧ k.subroutines = #[] := fun k hk => Option.some.inj hk ▸ ⟨rfl, rfl⟩
  have hmiddle : ∀ k, brokenProgram.function? "middle" = some k →
      k.name = "middle" ∧ k.subroutines = #["leaf", "broken"] :=
    fun k hk => Option.some.inj hk ▸ ⟨rfl, rfl⟩
  have hbroken : ∀ k, brokenProgram.function? "broken" = some k → k.subroutines = #["gone"] :=
    fun k hk => Option.some.inj hk ▸ rfl
  -- nothing is entered from a leaf, so the way goes through the second subroutine
  have hsecond {f : Function} {name : String} {c c' : List String × Sink}
      {frames : List (Frame brokenProgram)} (hsub : f.subroutines = #["leaf", name])
      (hne : g.name ≠ f.name) (h : Enters brokenProgram write f c frames g c') :
      ∃ frame rest k c₁, frames = frame :: rest ∧ frame.name = f.name ∧
        frame.done.map Function.name = ["leaf"] ∧ brokenProgram.function? name = some k ∧
        Enters brokenProgram write k c₁ rest g c' := by
    obtain ⟨frame, rest, k, after, c₁, hframes, hname, hall, hnext⟩ := h.descend hne
    rw [hsub] at hall
    rcases hdone : frame.done with _ | ⟨x, _ | ⟨y, done⟩⟩ <;> rw [hdone] at hall
    · obtain ⟨hk, hnone⟩ := hleaf k (List.forall₂_cons.mp hall).1
      obtain ⟨frame', -, k', after', -, -, -, hall', -⟩ := hnext.descend (by rw [hg, hk]; decide)
      rw [hnone] at hall'
      exact absurd hall'.length_eq (by simp)
    · obtain ⟨hx, hall⟩ := List.forall₂_cons.mp hall
      obtain ⟨hk, -⟩ := List.forall₂_cons.mp hall
      exact ⟨frame, rest, k, c₁, hframes, hname, by rw [hdone]; simp [(hleaf x hx).1], hk, hnext⟩
    · exact absurd hall.length_eq (by simp)
  obtain ⟨frame₁, rest₁, k₁, c₁, rfl, hname₁, hdone₁, hk₁, henters⟩ :=
    hsecond rfl (by rw [hg]; decide) henters
  obtain ⟨hmid, hsub⟩ := hmiddle k₁ hk₁
  obtain ⟨frame₂, rest₂, k₂, c₂, rfl, hname₂, hdone₂, hk₂, henters⟩ :=
    hsecond hsub (by rw [hg, hmid]; decide) henters
  -- the broken function is not left for a proto
  obtain rfl : rest₂ = [] := by
    cases henters with
    | here => rfl
    | proto _ hl =>
      have hgone : "gone" ∈ k₂.subroutines := by simp [hbroken k₂ hk₂]
      obtain ⟨k, -, hk⟩ := Program.exists_mem_protos hl hgone
      cases hk
  have hnames : [frame₁, frame₂].map Frame.name = ["main", "middle"] := by
    simp [hname₁, hname₂, hmid]
  refine ⟨herror, [frame₁, frame₂], g, hnames, by simp [hdone₁, hdone₂], ?_, hg, hreceived⟩
  rw [← hnames]
  exact hwhy

end

end ChunkAsm
