import ChunkAsm.Chunk.Write
import ChunkAsm.Proofs.Codec
import ChunkAsm.Proofs.Linking

/-!
# A chunk is read back as the tree of its functions

What a complete walk through a program writes is the record of the main function, with the records of
its subroutines inside. The three parts of the argument:

* a sink that takes everything has received the pieces in order (`Program.writeChunk_eq_ok`);
* a walk that does not stop early enters and leaves every function around its protos
  (`Program.unfoldFrom_walks`);
* reading what such a walk writes gives the tree (`Walks.exists_tree`), since every form of the
  format is read back.
-/

namespace ChunkAsm

/-! ## What a sink receives -/

namespace Sink

theorem offerFrom_eq_ok {s s' : Sink} {quota taken n : Nat} {bytes : List UInt8}
    (h : s.offerFrom quota taken bytes = (.ok n, s')) :
    taken ≤ n ∧ s'.received.data.toList = s.received.data.toList ++ bytes.take (n - taken) := by
  induction bytes generalizing s quota taken with
  | nil =>
    obtain ⟨hn, rfl⟩ := Prod.mk.inj h
    obtain rfl := Except.ok.inj hn
    simp
  | cons b rest ih =>
    -- the byte is taken, by the last call or by a new one
    have htake : ∀ (t : Sink) (quota : Nat), t.received = s.received →
        (t.accept b).offerFrom quota (taken + 1) rest = (.ok n, s') →
        taken ≤ n ∧
          s'.received.data.toList = s.received.data.toList ++ (b :: rest).take (n - taken) := by
      intro t quota ht h
      obtain ⟨hle, hr⟩ := ih h
      refine ⟨by omega, ?_⟩
      have hn : n - taken = (n - (taken + 1)) + 1 := by omega
      rw [hr, hn, List.take_succ_cons]
      simp [accept, ht]
    cases quota with
    | succ quota => exact htake s quota rfl h
    | zero =>
      simp only [offerFrom] at h
      split at h
      · cases h
      · obtain ⟨hn, rfl⟩ := Prod.mk.inj h
        obtain rfl := Except.ok.inj hn
        simp [called]
      · exact htake s.called _ rfl h

theorem put_eq_ok {s s' : Sink} {bytes : List UInt8} (h : s.put bytes = (.ok (), s')) :
    s'.received.data.toList = s.received.data.toList ++ bytes := by
  rw [put] at h
  split at h
  · cases h
  · rename_i n t ho
    obtain ⟨hn, rfl⟩ := Prod.mk.inj h
    split at hn
    · rename_i hlen
      obtain ⟨-, hr⟩ := offerFrom_eq_ok ho
      rw [hr, hlen, Nat.sub_zero, List.take_length]
    · cases hn

/-- A sink that takes all pieces has received them in order. -/
theorem putAll_eq_ok {s s' : Sink} {pieces : List (List UInt8)}
    (h : s.putAll pieces = (.ok (), s')) :
    s'.received.data.toList = s.received.data.toList ++ pieces.flatten := by
  induction pieces generalizing s with
  | nil =>
    obtain ⟨-, rfl⟩ := Prod.mk.inj h
    simp
  | cons piece rest ih =>
    rw [putAll] at h
    split at h
    · cases h
    · rename_i u t hp
      rw [ih h, put_eq_ok hp, List.append_assoc, List.flatten_cons]

end Sink

namespace Program

variable {p : Program}

/-- What a chunk consists of if no table is too long. -/
theorem flatten_pieces {f : Function} (hm : p.main? = some f) (h : p.oversize? = none) :
    p.pieces.flatten = Chunk.header.flatten ++ p.upvalueCount :: Chunk.bytes p.parts := by
  simp [pieces, hm, preamble, Chunk.flatten_pieces h]

/-- A chunk that is written completely: there is a main function, the walk does not stop early, no
table is too long, and the sink has received the pieces. -/
theorem writeChunk_eq_ok {s : Sink} (h : (p.writeChunk s).1 = .ok ()) :
    ∃ f, p.main? = some f ∧ p.unfolding.failure = none ∧ p.oversize? = none ∧
      (p.writeChunk s).2.received.data.toList =
        s.received.data.toList ++ p.pieces.flatten := by
  rw [writeChunk_eq] at h ⊢
  split at h
  · cases h
  · rename_i u t hput
    obtain ⟨hsize, hfail⟩ := verdict_eq_ok_iff.mp h
    cases hm : p.main? with
    | none =>
      rw [unfolding, hm] at hfail
      cases hfail
    | some f => exact ⟨f, rfl, hfail, hsize, Sink.putAll_eq_ok hput⟩

end Program

/-! ## Complete walks -/

mutual

/-- `Walks p n f vs`: the complete walk through the function `f`, which `n` functions enclose, makes
the steps `vs`. -/
inductive Walks (p : Program) : Nat → Function → List Visit → Prop where
  /-- the function is reached, linked and entered; it is left after its protos -/
  | node {n : Nat} {f : Function} {l : Linked} {vs : List Visit} :
    p.link f = .ok l → WalksAll p (n + 1) l.protos.toList vs →
    Walks p n f (.reached f :: .entered n l :: (vs ++ [.left f]))

/-- Complete walks through several functions, one after the other. -/
inductive WalksAll (p : Program) : Nat → List Function → List Visit → Prop where
  | nil {n : Nat} : WalksAll p n [] []
  | cons {n : Nat} {f : Function} {fs : List Function} {vs ws : List Visit} :
    Walks p n f vs → WalksAll p n fs ws → WalksAll p n (f :: fs) (vs ++ ws)

end

namespace Unfolding

@[simp] theorem toList_visits_push (u : Unfolding) (v : Visit) :
    (u.push v).visits.toList = u.visits.toList ++ [v] := by
  simp [push]

theorem andThen_of_failure_eq_none {u : Unfolding} {next : Unfolding → Unfolding}
    (h : (u.andThen next).failure = none) : u.failure = none ∧ u.andThen next = next u := by
  rw [andThen] at h ⊢
  cases hu : u.failure with
  | none => exact ⟨rfl, rfl⟩
  | some e =>
    rw [hu] at h
    cases hu.symm.trans h

end Unfolding

namespace Program

variable {p : Program}

/-- Walks that follow one another, each if the one before was complete. -/
theorem foldl_andThen_walks {n : Nat} {walk : Function → Unfolding → Unfolding}
    (hwalk : ∀ f u, (walk f u).failure = none →
      ∃ vs, (walk f u).visits.toList = u.visits.toList ++ vs ∧ Walks p n f vs)
    {fs : List Function} {u : Unfolding}
    (h : (fs.foldl (fun u f => u.andThen (walk f)) u).failure = none) :
    u.failure = none ∧ ∃ vs,
      (fs.foldl (fun u f => u.andThen (walk f)) u).visits.toList = u.visits.toList ++ vs ∧
        WalksAll p n fs vs := by
  induction fs generalizing u with
  | nil => exact ⟨h, [], by simp, .nil⟩
  | cons f fs ih =>
    rw [List.foldl_cons] at h ⊢
    obtain ⟨hone, ws, hws, hall⟩ := ih h
    obtain ⟨hu, heq⟩ := Unfolding.andThen_of_failure_eq_none hone
    rw [heq] at hone hws ⊢
    obtain ⟨vs, hvs, hf⟩ := hwalk f u hone
    refine ⟨hu, vs ++ ws, ?_, .cons hf hall⟩
    rw [hws, hvs, List.append_assoc]

/-- **A walk that does not stop early is complete.** -/
theorem unfoldFrom_walks {room : Nat} {path : List String} {f : Function} {u : Unfolding}
    (h : (p.unfoldFrom room path f u).failure = none) :
    ∃ vs, (p.unfoldFrom room path f u).visits.toList = u.visits.toList ++ vs ∧
      Walks p path.length f vs := by
  induction room generalizing path f u with
  | zero =>
    simp only [unfoldFrom] at h
    split at h <;> cases h
  | succ room ih =>
    simp only [unfoldFrom] at h ⊢
    split at h
    · cases h
    · rename_i hname
      rw [if_neg hname]
      split at h
      · cases h
      · rename_i l hl
        rw [← Array.foldl_toList] at h ⊢
        obtain ⟨hinner, heq⟩ := Unfolding.andThen_of_failure_eq_none h
        obtain ⟨-, vs, hvs, hall⟩ := foldl_andThen_walks (fun g u hg => ih hg) hinner
        refine ⟨_, ?_, .node hl hall⟩
        rw [heq, Unfolding.toList_visits_push, hvs]
        simp

end Program

/-! ## The tree of a program -/

namespace Function

/-- The record of a function with given instructions and protos. -/
def record (f : Function) (words : Array Word) (protos : List Chunk.Proto) : Chunk.Proto where
  source := Bytes.utf8 f.name
  firstLine := 0
  lastLine := 0
  params := f.header.params
  vararg := f.header.vararg.toByte
  maxStack := f.header.maxStack
  words := words.toList
  constants := f.constants.entries.toList
  upvalues := f.upvalues.toList
  protos := protos
  lines := f.lines.toList
  locals := 0
  upvalueNames := 0

/-- The tables of a function are not too long for the format. The bounds on strings and lines are
those of 64-bit sizes and 32-bit integers. -/
structure Bounded (f : Function) : Prop where
  /-- the instructions -/
  words : f.words.size < 2147483648
  /-- the constants -/
  constants : f.constants.size < 2147483648
  /-- the captured variables -/
  upvalues : f.upvalues.size < 2147483648
  /-- the subroutines -/
  subroutines : f.subroutines.size < 2147483648
  /-- the marked lines -/
  lines : f.lines.size < 2147483648
  /-- the name has a 64-bit size -/
  name : (Bytes.utf8 f.name).length + 1 < 18446744073709551616
  /-- every string has a 64-bit size -/
  strings : ∀ bytes, .string bytes ∈ f.constants.entries.toList →
    bytes.length + 1 < 18446744073709551616
  /-- every line is a 32-bit integer -/
  line : ∀ n ∈ f.lines.toList, -2147483648 ≤ n ∧ n < 2147483648

end Function

/-- The functions of a program are not too long for the format. -/
def Program.Bounded (p : Program) : Prop := ∀ key f, p.function? key = some f → f.Bounded

mutual

/-- `Tree p f t`: in the program `p` the function `f` has the record `t`, with its linked
instructions and with the records of its subroutines inside. -/
inductive Tree (p : Program) : Function → Chunk.Proto → Prop where
  | node {f : Function} {l : Linked} {ts : List Chunk.Proto} :
    p.link f = .ok l → Trees p f.subroutines.toList ts → Tree p f (f.record l.words ts)

/-- The records of the functions that some names stand for, in order. -/
inductive Trees (p : Program) : List String → List Chunk.Proto → Prop where
  | nil : Trees p [] []
  | cons {name : String} {g : Function} {t : Chunk.Proto} {names : List String}
    {ts : List Chunk.Proto} :
    p.function? name = some g → Tree p g t → Trees p names ts → Trees p (name :: names) (t :: ts)

end

namespace Chunk

/-- The header of every chunk. -/
def fixedHeader : Header where
  signature := [0x1b, 0x4c, 0x75, 0x61]
  version := 0x53
  format := 0
  data := [0x19, 0x93, 0x0d, 0x0a, 0x1a, 0x0a]
  widths := widths
  intCheck := 0x5678
  numCheck := ⟨0x4077280000000000⟩

theorem reads_header : Reads readHeader header.flatten fixedHeader := by
  intro rest
  have hint : Reads (readNat 8) (Bytes.int64 0x5678) 0x5678 := reads_nat (by decide)
  have hnum : Reads (readNat 8) (Bytes.uint64 0x4077280000000000) 0x4077280000000000 :=
    reads_nat (by decide)
  simp [readHeader, header, readBytes, readByte, readInt, widths, hint (_ ++ rest), hnum rest,
    toSigned, fixedHeader]

/-- The bytes that the steps of a walk write. -/
def walkBytes (vs : List Visit) : List UInt8 := bytes (vs.flatMap Visit.parts)

@[simp] theorem walkBytes_append (vs ws : List Visit) :
    walkBytes (vs ++ ws) = walkBytes vs ++ walkBytes ws := by
  simp [walkBytes]

/-- The parts of a record are read back one after the other. -/
theorem reads_proto {depth : Nat} {t : Proto}
    {source first last params vararg maxStack words constants upvalues protos lines locals names :
      List UInt8}
    (hsource : Reads readString source t.source) (hfirst : Reads (readInt 4) first t.firstLine)
    (hlast : Reads (readInt 4) last t.lastLine) (hparams : Reads readByte params t.params)
    (hvararg : Reads readByte vararg t.vararg) (hmaxStack : Reads readByte maxStack t.maxStack)
    (hwords : Reads (readTable readWord) words t.words)
    (hconstants : Reads (readTable readConstant) constants t.constants)
    (hupvalues : Reads (readTable readUpvalue) upvalues t.upvalues)
    (hprotos : Reads (readTable (readProto depth)) protos t.protos)
    (hlines : Reads (readTable (readInt 4)) lines t.lines) (hlocals : Reads readCount locals t.locals)
    (hnames : Reads readCount names t.upvalueNames) :
    Reads (readProto (depth + 1))
      (source ++ first ++ last ++ params ++ vararg ++ maxStack ++ words ++ constants ++ upvalues ++
        protos ++ lines ++ locals ++ names) t := by
  cases t
  intro rest
  simp only [List.append_assoc]
  exact (hsource.bind_eq _ _).trans <| (hfirst.bind_eq _ _).trans <| (hlast.bind_eq _ _).trans <|
    (hparams.bind_eq _ _).trans <| (hvararg.bind_eq _ _).trans <| (hmaxStack.bind_eq _ _).trans <|
    (hwords.bind_eq _ _).trans <| (hconstants.bind_eq _ _).trans <|
    (hupvalues.bind_eq _ _).trans <| (hprotos.bind_eq _ _).trans <| (hlines.bind_eq _ _).trans <|
    (hlocals.bind_eq _ _).trans <| (hnames.bind_eq _ _).trans rfl

/-- **Records.** A record is read back if its tables are not too long and its protos are read
back. -/
theorem reads_record {f : Function} {words : Array Word} {bss : List (List UInt8)}
    {ts : List Proto} {depth : Nat} (hf : f.Bounded) (hwords : words.size = f.words.size)
    (hlen : ts.length = f.subroutines.size) (hts : List.Forall₂ (Reads (readProto depth)) bss ts) :
    Reads (readProto (depth + 1))
      (bytes (functionHead f words ts.length) ++ (bss.flatten ++ bytes (functionTail f)))
      (f.record words ts) := by
  have hname := reads_string hf.name
  have hzero : Reads (readInt 4) (Bytes.int32 0) 0 := reads_int32 (by omega) (by omega)
  have hnone : Reads readCount (Bytes.int32 0) 0 := reads_count (n := 0) (by omega)
  have hw := reads_table (reads_map fun w (_ : w ∈ words.toList) => reads_word w)
    (by simpa [hwords] using hf.words)
  have hc := reads_table (reads_map fun c (hc : c ∈ f.constants.entries.toList) =>
    reads_constant fun bytes he => hf.strings bytes (he ▸ hc))
    (by simpa [Pool.size] using hf.constants)
  have hu := reads_table (reads_map fun u (_ : u ∈ f.upvalues.toList) => reads_upvalue u)
    (by simpa using hf.upvalues)
  have hp := reads_table hts (by rw [hlen]; exact hf.subroutines)
  have hl := reads_table (reads_map fun n (hn : n ∈ f.lines.toList) =>
    reads_int32 (hf.line n hn).1 (hf.line n hn).2) (by simpa using hf.lines)
  have hread := reads_proto (t := f.record words ts) hname hzero hzero
    (reads_byte f.header.params) (reads_byte f.header.vararg.toByte)
    (reads_byte f.header.maxStack) hw hc hu hp hl hnone hnone
  simpa [functionHead, functionTail, Part.bytes, Pool.size, List.flatMap, List.flatten_flatten,
    Function.comp_def] using hread

end Chunk

/-! ## Reading a walk -/

/-- What a function writes around its protos. -/
theorem Chunk.walkBytes_node (n : Nat) (l : Linked) (vs : List Visit) :
    walkBytes (.reached l.function :: .entered n l :: (vs ++ [.left l.function])) =
      bytes (functionHead l.function l.words l.protos.size) ++
        (walkBytes vs ++ bytes (functionTail l.function)) := by
  simp [walkBytes, Visit.parts]

/-- No record is empty. -/
theorem Chunk.length_functionTail (f : Function) : 0 < (bytes (functionTail f)).length := by
  have hcount : (count f.lines.size).length = 4 := length_littleEndian 4 _
  rw [functionTail, bytes_append, bytes_table, List.length_append, List.length_append, hcount]
  omega

section

variable {p : Program}

mutual

/-- **What a complete walk writes is read back as the tree.** The length of what is read is always
enough depth. -/
theorem Walks.exists_tree (hp : p.Bounded) {n : Nat} {f : Function} {vs : List Visit} :
    Walks p n f vs → f.Bounded →
      ∃ t, Tree p f t ∧ ∀ depth, (Chunk.walkBytes vs).length ≤ depth →
        Chunk.Reads (Chunk.readProto depth) (Chunk.walkBytes vs) t
  | @Walks.node _ _ _ l vs hl hall, hf => by
    have hprotos := Program.link_protos hl
    obtain ⟨ts, bss, hts, hlen, hbss, hreads⟩ := hall.exists_trees hp hprotos
    refine ⟨f.record l.words ts, .node hl hts, ?_⟩
    intro depth hdepth
    have hsize : l.protos.size = ts.length := by
      rw [hlen, hprotos.length_eq, Array.length_toList]
    have hbytes := Chunk.walkBytes_node n l vs
    rw [(Program.link_eq_ok hl).1, hsize, hbss] at hbytes
    rw [hbytes] at hdepth ⊢
    -- the record is longer than its protos together, so there is depth left for them
    have htail := Chunk.length_functionTail f
    simp only [List.length_append] at hdepth
    obtain ⟨inner, rfl⟩ : ∃ inner, depth = inner + 1 := ⟨depth - 1, by omega⟩
    refine Chunk.reads_record hf (Program.link_size hl) (by simpa using hlen) (hreads inner ?_)
    rw [hbss]
    omega

/-- Walks through several functions are read back one after the other. -/
theorem WalksAll.exists_trees (hp : p.Bounded) {n : Nat} {fs : List Function} {vs : List Visit} :
    WalksAll p n fs vs → ∀ {names : List String},
      List.Forall₂ (fun name g => p.function? name = some g) names fs →
      ∃ ts bss, Trees p names ts ∧ ts.length = names.length ∧ Chunk.walkBytes vs = bss.flatten ∧
        ∀ depth, (Chunk.walkBytes vs).length ≤ depth →
          List.Forall₂ (Chunk.Reads (Chunk.readProto depth)) bss ts
  | .nil, _, .nil => ⟨[], [], .nil, rfl, rfl, fun _ _ => .nil⟩
  | @WalksAll.cons _ _ _ _ vs ws hf hall, _, .cons hname hnames => by
    obtain ⟨t, ht, hread⟩ := hf.exists_tree hp (hp _ _ hname)
    obtain ⟨ts, bss, hts, hlen, hbss, hreads⟩ := hall.exists_trees hp hnames
    refine ⟨t :: ts, Chunk.walkBytes vs :: bss, .cons hname ht hts, by simp [hlen], ?_, ?_⟩
    · rw [Chunk.walkBytes_append, hbss, List.flatten_cons]
    · intro depth hdepth
      rw [Chunk.walkBytes_append, List.length_append] at hdepth
      exact .cons (hread depth (by omega)) (hreads depth (by omega))

end

end

/-- A main function with every kind of constant, and a subroutine. -/
def nestedProgram : Program where
  upvalueCount := 1
  functions :=
    [("main",
      { name := "main"
        header := ⟨2, 0, .vararg⟩
        words := #[Word.ofOpcode .closure, Word.ofOpcode .ret]
        constants := ⟨#[.nil, .bool true, .number ⟨0x4077280000000000⟩, .string [0x68, 0x69]]⟩
        upvalues := #[⟨1, 0⟩]
        subroutines := #["inner"]
        protoSites := ⟨[⟨"inner", #[0]⟩]⟩
        lines := #[7, -1] }),
      ("inner", { name := "inner", header := ⟨1, 1, .fixed⟩, words := #[Word.ofOpcode .ret] })]

theorem nestedProgram_bounded : nestedProgram.Bounded := by
  intro key f hf
  obtain ⟨before, after, hall, -⟩ := List.lookup_eq_some_iff.mp hf
  have hmem : (key, f) ∈ nestedProgram.functions := by
    rw [hall]
    simp
  simp only [nestedProgram, List.mem_cons, List.not_mem_nil, or_false, Prod.mk.injEq] at hmem
  rcases hmem with ⟨-, rfl⟩ | ⟨-, rfl⟩
  · exact {
      words := by decide
      constants := by decide
      upvalues := by decide
      subroutines := by decide
      lines := by decide
      name := by decide
      strings := by simp
      line := by decide }
  · exact {
      words := by decide
      constants := by decide
      upvalues := by decide
      subroutines := by decide
      lines := by decide
      name := by decide
      strings := by simp
      line := by decide }

end ChunkAsm
