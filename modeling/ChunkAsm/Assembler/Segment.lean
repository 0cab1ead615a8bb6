import ChunkAsm.Keyword

/-!
# Segments and directives

Source text is divided by **directives**, which start with a dot. They declare the number of
upvalues, begin functions, and open and close the **segments** of a function. What a line without
a directive means depends on the segment that is open.
-/

namespace ChunkAsm

/-- The part of the source that a line stands in. -/
inductive Segment where
  /-- before the first function -/
  | topLevel
  /-- in a function, between its segments -/
  | function
  /-- in a list of instructions and labels -/
  | code
  /-- in a list of constants -/
  | const
  /-- in a list of captured variables -/
  | upvalue
  deriving DecidableEq, Repr, Inhabited

namespace Segment

/-- The name of a segment in messages. -/
def text : Segment → String
  | topLevel => "top level"
  | function => "function"
  | code => "code segment"
  | const => "const segment"
  | upvalue => "upvalue segment"

/-- Whether a segment has to be closed by a directive of its own. -/
def isOpen : Segment → Bool
  | code | const | upvalue => true
  | topLevel | function => false

end Segment

/-- The directives. -/
inductive Directive where
  | upvalues
  | func
  | beginConst
  | endConst
  | beginCode
  | endCode
  | beginUpvalue
  | endUpvalue
  deriving DecidableEq, Repr

namespace Directive

/-- Every directive. -/
def all : List Directive :=
  [upvalues, func, beginConst, endConst, beginCode, endCode, beginUpvalue, endUpvalue]

/-- The name of a directive, without its dot. -/
def name : Directive → String
  | upvalues => "upvalues"
  | func => "func"
  | beginConst => "begin_const"
  | endConst => "end_const"
  | beginCode => "begin_code"
  | endCode => "end_code"
  | beginUpvalue => "begin_upvalue"
  | endUpvalue => "end_upvalue"

/-- The directive that a word names, in any letter case. -/
def lookup (word : String) : Option Directive := Keyword.find? name all word

/-- Where a directive may stand, in messages. -/
def expected : Directive → String
  | upvalues => "a single declaration"
  | func => "top level or function"
  | beginConst | beginCode | beginUpvalue => "function"
  | endConst => "const segment"
  | endCode => "code segment"
  | endUpvalue => "upvalue segment"

/-- The segment that a directive leads to from where it stands. The directives that declare
something lead nowhere, and neither does one that is out of place. -/
def next? : Directive → Segment → Option Segment
  | beginConst, .function => some .const
  | beginCode, .function => some .code
  | beginUpvalue, .function => some .upvalue
  | endConst, .const => some .function
  | endCode, .code => some .function
  | endUpvalue, .upvalue => some .function
  | _, _ => none

end Directive

end ChunkAsm
