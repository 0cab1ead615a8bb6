import ChunkAsm.Bytes.Sink
import ChunkAsm.Chunk.Format
import ChunkAsm.Unfolding

/-!
# Writing chunks

A program is written by following its unfolding: the header and the number of upvalues come first,
then every function that is entered and left contributes its part. A function that cannot be
linked contributes nothing. Writing stops at the first piece that the sink does not take, and before
the length of the first table that is too long.
-/

namespace ChunkAsm

/-- Why a chunk could not be written. -/
inductive ChunkError where
  /-- the functions cannot be put together -/
  | link (e : LinkError)
  /-- a table is too long -/
  | tooLarge (e : Chunk.Oversize)
  /-- the sink did not take all bytes -/
  | sink (e : SinkError)
  deriving DecidableEq, Repr

/-- The text of a chunk error. -/
def ChunkError.message : ChunkError → String
  | link e => e.message
  | tooLarge e => e.message
  | sink e => s!"write failed: {e.message}"

namespace Visit

/-- What a step of the walk contributes to a chunk. -/
def parts : Visit → List Chunk.Part
  | reached _ => []
  | entered _ l => Chunk.functionHead l.function l.words l.protos.size
  | left f => Chunk.functionTail f

/-- Whether none of the tables that a step contributes is too long. -/
def fits (v : Visit) : Bool := (Chunk.oversize? v.parts).isNone

/-- What a step of the walk tells the log when a chunk is written. -/
def writeLog (p : Program) : Visit → List Log.Event
  | reached f => .writing f.name :: p.linkLog f
  | entered .. | left _ => []

end Visit

namespace Sink

/-- Write parts one after the other, up to the first that cannot be written. -/
def putParts (s : Sink) : List Chunk.Part → Except ChunkError Unit × Sink
  | [] => (.ok (), s)
  | part :: rest =>
    match part.oversize? with
    | some e => (.error (.tooLarge e), s)
    | none =>
      match s.put part.bytes with
      | (.error e, s) => (.error (.sink e), s)
      | (.ok _, s) => s.putParts rest

/-- Write what the steps of a walk contribute. -/
def putVisits (s : Sink) : List Visit → Except ChunkError Unit × Sink
  | [] => (.ok (), s)
  | v :: rest =>
    match s.putParts v.parts with
    | (.error e, s) => (.error e, s)
    | (.ok _, s) => s.putVisits rest

end Sink

namespace Program

/-- What comes before the functions. -/
def preamble (p : Program) : List Chunk.Piece := Chunk.header ++ [[p.upvalueCount]]

/-- The parts of all records, up to the first function that cannot be linked. -/
def parts (p : Program) : List Chunk.Part := p.unfolding.visits.toList.flatMap Visit.parts

/-- Everything that is written, up to the first function that cannot be linked or the first table
that is too long. Without a function to start from nothing is written. -/
def pieces (p : Program) : List Chunk.Piece :=
  match p.main? with
  | none => []
  | some _ => p.preamble ++ Chunk.pieces p.parts

/-- The first table that is too long, if writing comes to one. -/
def oversize? (p : Program) : Option Chunk.Oversize := Chunk.oversize? p.parts

/-- What remains to be said of a chunk once the pieces are written: whether a table was too long,
and whether the walk was complete. -/
def verdict (p : Program) : Except ChunkError Unit :=
  match p.oversize? with
  | some e => .error (.tooLarge e)
  | none =>
    match p.unfolding.failure with
    | some e => .error (.link e)
    | none => .ok ()

/-- The chunk of a program. -/
def chunk (p : Program) : Except ChunkError (List UInt8) := p.verdict.map fun _ => p.pieces.flatten

/-- Write a program as a chunk. -/
def writeChunk (p : Program) (s : Sink) : Except ChunkError Unit × Sink :=
  match p.main? with
  | none => (.error (.link .noMain), s)
  | some _ =>
    let u := p.unfolding
    match s.putAll p.preamble with
    | (.error e, s) => (.error (.sink e), s)
    | (.ok _, s) =>
      match s.putVisits u.visits.toList with
      | (.error e, s) => (.error e, s)
      | (.ok _, s) =>
        match u.failure with
        | some e => (.error (.link e), s)
        | none => (.ok (), s)

/-- What writing a program tells the log. -/
def writeLog (p : Program) : List Log.Event :=
  (p.unfolding.visits.toList.takeWhile Visit.fits).flatMap (Visit.writeLog p)

end Program

/-! ## The verdict -/

namespace Program

variable {p : Program}

theorem verdict_of_oversize? {e : Chunk.Oversize} (h : p.oversize? = some e) :
    p.verdict = .error (.tooLarge e) := by
  rw [verdict, h]

theorem verdict_eq_ok_iff :
    p.verdict = .ok () ↔ p.oversize? = none ∧ p.unfolding.failure = none := by
  rw [verdict]
  cases p.oversize? <;> cases p.unfolding.failure <;> simp

theorem verdict_eq_link_iff {e : LinkError} :
    p.verdict = .error (.link e) ↔ p.oversize? = none ∧ p.unfolding.failure = some e := by
  rw [verdict]
  cases p.oversize? <;> cases p.unfolding.failure <;> simp

end Program

/-! ## Writing visit by visit is writing piece by piece -/

namespace Sink

theorem putAll_append (s : Sink) (xs ys : List (List UInt8)) :
    s.putAll (xs ++ ys) =
      match s.putAll xs with
      | (.error e, s) => (.error e, s)
      | (.ok _, s) => s.putAll ys := by
  induction xs generalizing s with
  | nil => rfl
  | cons x xs ih =>
    simp only [List.cons_append, putAll]
    rcases s.put x with ⟨_ | _, s'⟩
    · rfl
    · exact ih s'

/-- **Writing parts** is writing the pieces before a table that is too long. -/
theorem putParts_eq (s : Sink) (parts : List Chunk.Part) :
    s.putParts parts =
      match s.putAll (Chunk.pieces parts) with
      | (.error e, s) => (.error (.sink e), s)
      | (.ok _, s) =>
        match Chunk.oversize? parts with
        | some e => (.error (.tooLarge e), s)
        | none => (.ok (), s) := by
  induction parts generalizing s with
  | nil => rfl
  | cons part rest ih =>
    rw [putParts, Chunk.pieces, Chunk.oversize?, List.takeWhile_cons, List.findSome?_cons]
    cases part.oversize? with
    | some e => rfl
    | none =>
      simp only [Option.isNone_none, if_true, List.map_cons, putAll]
      rcases s.put part.bytes with ⟨_ | _, s'⟩
      · rfl
      · exact ih s'

theorem putParts_append (s : Sink) (xs ys : List Chunk.Part) :
    s.putParts (xs ++ ys) =
      match s.putParts xs with
      | (.error e, s) => (.error e, s)
      | (.ok _, s) => s.putParts ys := by
  induction xs generalizing s with
  | nil => rfl
  | cons x xs ih =>
    simp only [List.cons_append, putParts]
    cases x.oversize? with
    | some e => rfl
    | none =>
      rcases s.put x.bytes with ⟨_ | _, s'⟩
      · rfl
      · exact ih s'

theorem putVisits_eq_putParts (s : Sink) (vs : List Visit) :
    s.putVisits vs = s.putParts (vs.flatMap Visit.parts) := by
  induction vs generalizing s with
  | nil => rfl
  | cons v vs ih =>
    rw [List.flatMap_cons, putParts_append, putVisits]
    rcases s.putParts v.parts with ⟨_ | _, s'⟩
    · rfl
    · exact ih s'

end Sink

/-- **Writing a chunk** offers the pieces to the sink in order. If all are taken, what remains to
say is whether a table was too long, and whether the walk was complete. -/
theorem Program.writeChunk_eq (p : Program) (s : Sink) :
    p.writeChunk s =
      match s.putAll p.pieces with
      | (.error e, s) => (.error (.sink e), s)
      | (.ok _, s) => (p.verdict, s) := by
  cases hm : p.main? with
  | none => simp [writeChunk, pieces, verdict, oversize?, parts, unfolding, hm, Sink.putAll,
      Chunk.oversize?]
  | some f =>
    have hvisits (s : Sink) : s.putVisits p.unfolding.visits.toList = s.putParts p.parts :=
      s.putVisits_eq_putParts _
    simp only [writeChunk, pieces, hm, hvisits, Sink.putAll_append]
    rcases s.putAll p.preamble with ⟨_ | _, s'⟩
    · rfl
    · simp only [Sink.putParts_eq, verdict, oversize?]
      rcases s'.putAll (Chunk.pieces p.parts) with ⟨_ | _, s''⟩
      · rfl
      · cases Chunk.oversize? p.parts with
        | some e => rfl
        | none => cases p.unfolding.failure <;> rfl

end ChunkAsm
