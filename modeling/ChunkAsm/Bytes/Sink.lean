/-!
# Sinks

Where bytes are written to. A sink answers each write call by the number of bytes it takes, which
may be fewer than were offered: a call may have a limit, and the sink as a whole may have a
capacity. Once full, a sink takes nothing or fails. A call may be interrupted before it is answered;
it is then made again.

`Sink.offer` repeats calls until everything is taken or a call takes nothing. `Sink.put` insists
that everything is taken.
-/

namespace ChunkAsm

/-- Why bytes could not be written. -/
inductive SinkError where
  /-- only some of the bytes were taken -/
  | shortWrite (taken total : Nat)
  /-- the sink failed -/
  | full
  deriving DecidableEq, Repr

/-- The text of a sink error. -/
def SinkError.message : SinkError → String
  | shortWrite taken total => s!"short write: {taken} of {total} bytes"
  | full => "sink full"

/-- How a sink answers. -/
structure SinkPolicy where
  /-- how many bytes it takes in all, if there is a limit -/
  capacity : Option Nat := none
  /-- how many bytes the call with a given number takes at most, if there is a limit -/
  stride : Nat → Option Nat := fun _ => none
  /-- how often the call with a given number is interrupted before it is answered -/
  pauses : Nat → Nat := fun _ => 0
  /-- whether a full sink fails, instead of taking nothing -/
  failsWhenFull : Bool := false

/-- A sink and what it has received. -/
structure Sink where
  /-- how it answers -/
  policy : SinkPolicy := {}
  /-- the bytes it has taken -/
  received : ByteArray := .empty
  /-- the calls it has answered -/
  calls : Nat := 0
  /-- the calls that were made, the interrupted ones included -/
  attempts : Nat := 0

/-- The answer to a write call. -/
inductive SinkAnswer where
  /-- this many bytes are taken -/
  | takes (n : Nat)
  /-- the call fails -/
  | fails
  deriving DecidableEq, Repr

namespace Sink

/-- Whether a sink has reached its capacity. -/
def isFull (s : Sink) : Bool :=
  match s.policy.capacity with
  | some c => c ≤ s.received.size
  | none => false

/-- How many of `offered` bytes the next call takes. -/
def answer (s : Sink) (offered : Nat) : SinkAnswer :=
  if s.isFull then
    if s.policy.failsWhenFull then .fails else .takes 0
  else
    let n := min offered ((s.policy.stride s.calls).getD offered)
    .takes (min n ((s.policy.capacity.map (· - s.received.size)).getD n))

/-- The sink after a call was answered. -/
def called (s : Sink) : Sink :=
  { s with calls := s.calls + 1, attempts := s.attempts + s.policy.pauses s.calls + 1 }

/-- Take one byte. -/
def accept (s : Sink) (b : UInt8) : Sink := { s with received := s.received.push b }

/-- Offer bytes, of which the call that was answered last still takes `quota`, after `taken` were
taken. A new call is made when the quota is used up. The value is how many bytes were taken. -/
def offerFrom (s : Sink) (quota taken : Nat) : List UInt8 → Except SinkError Nat × Sink
  | [] => (.ok taken, s)
  | b :: rest =>
    match quota with
    | quota + 1 => (s.accept b).offerFrom quota (taken + 1) rest
    | 0 =>
      match s.answer (rest.length + 1) with
      | .fails => (.error .full, s.called)
      | .takes 0 => (.ok taken, s.called)
      | .takes (quota + 1) => (s.called.accept b).offerFrom quota (taken + 1) rest

/-- Offer bytes. The value is how many were taken. -/
def offer (s : Sink) (bytes : List UInt8) : Except SinkError Nat × Sink := s.offerFrom 0 0 bytes

/-- Write bytes, all of which must be taken. -/
def put (s : Sink) (bytes : List UInt8) : Except SinkError Unit × Sink :=
  match s.offer bytes with
  | (.error e, s) => (.error e, s)
  | (.ok n, s) =>
    (if n = bytes.length then .ok () else .error (.shortWrite n bytes.length), s)

/-- Write pieces one after the other, up to the first that cannot be written. -/
def putAll (s : Sink) : List (List UInt8) → Except SinkError Unit × Sink
  | [] => (.ok (), s)
  | piece :: rest =>
    match s.put piece with
    | (.error e, s) => (.error e, s)
    | (.ok _, s) => s.putAll rest

end Sink

end ChunkAsm
