import ChunkAsm.Assembler.Segment

/-!
# The log

What assembling, linking and writing have to tell besides their results. Every event has a level and
a source; a reader of the log chooses the level from which events are shown.
-/

namespace ChunkAsm.Log

/-- How important an event is, the most important first. -/
inductive Level where
  | error
  | warn
  | info
  | debug
  | trace
  deriving DecidableEq, Repr

namespace Level

/-- The rank of a level; larger ranks are less important. -/
def rank : Level → Nat
  | error => 1
  | warn => 2
  | info => 3
  | debug => 4
  | trace => 5

/-- The name of a level, padded to the width of the longest. -/
def padded : Level → String
  | error => "ERROR"
  | warn => "WARN "
  | info => "INFO "
  | debug => "DEBUG"
  | trace => "TRACE"

end Level

/-- Which events are shown: those up to a level, or none. -/
inductive Filter where
  | off
  | upTo (l : Level)
  deriving DecidableEq, Repr

namespace Filter

/-- The filter with a given name. -/
def ofName? : String → Option Filter
  | "off" => some .off
  | "error" => some (.upTo .error)
  | "warn" => some (.upTo .warn)
  | "info" => some (.upTo .info)
  | "debug" => some (.upTo .debug)
  | "trace" => some (.upTo .trace)
  | _ => none

/-- Whether events of a level are shown. -/
def shows : Filter → Level → Bool
  | off, _ => false
  | upTo l, m => m.rank ≤ l.rank

end Filter

/-- What can happen that is worth telling. -/
inductive Event where
  /-- a directive was read in a segment -/
  | directive (d : Directive) (s : Segment)
  /-- a function was declared -/
  | declared (id : Nat) (name : String)
  /-- a declaration of a label resolved a jump -/
  | resolved (label : String) (site : Nat) (delta : Int)
  /-- a function without instructions was dropped -/
  | discarded (name : String)
  /-- a function was finished, with the sizes of its tables -/
  | finished (name : String) (words constants upvalues subroutines : Nat)
  /-- a function is about to be written -/
  | writing (name : String)
  /-- an instruction was given the index of its subroutine -/
  | linked (caller : String) (index : Nat) (name : String) (site : Nat)
  /-- an output file was written -/
  | wrote (path : String)
  deriving DecidableEq, Repr

namespace Event

/-- The level of an event. -/
def level : Event → Level
  | directive .. | declared .. | resolved .. | linked .. => .trace
  | finished .. | writing .. => .debug
  | wrote .. => .info
  | discarded .. => .warn

/-- The part of the program that tells of an event. -/
def source : Event → String
  | directive .. | declared .. | resolved .. | discarded .. | finished .. =>
    "luasm::assembler::conductor"
  | writing .. | linked .. => "luasm::assembler::chunk"
  | wrote .. => "luasm::cli::command"

/-- The text of an event. -/
def message : Event → String
  | directive d s => s!".{d.name} in {s.text}"
  | declared id name => s!"function #{id} '{name}'"
  | resolved label site delta => s!"resolved ${label} at {site} (sBx {delta})"
  | discarded name => s!"discarding function '{name}': it has no instructions"
  | finished name words constants upvalues subroutines =>
    s!"finished function '{name}': {words} instructions, {constants} constants, " ++
      s!"{upvalues} upvalues, {subroutines} subroutines"
  | writing name => s!"writing function '{name}'"
  | linked caller index name site => s!"'{caller}': proto {index} is '{name}' at {site}"
  | wrote path => s!"wrote {path}"

/-- A text whose lines after the first are indented. -/
def indented (text : String) : String :=
  String.ofList (text.toList.flatMap fun c => if c = '\n' then "\n    ".toList else [c])

/-- The line of an event in the log. If the message has several lines, so has the event. -/
def line (e : Event) : String := s!"[{e.level.padded} {e.source}] {indented e.message}\n"

end Event

/-- The shown part of a log. -/
def render (f : Filter) (events : List Event) : String :=
  String.join ((events.filter fun e => f.shows e.level).map Event.line)

end ChunkAsm.Log
