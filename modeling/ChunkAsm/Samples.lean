import ChunkAsm.Source

/-!
# Sample programs

Three small programs in source text: one that prints a greeting, one that sums numbers in a loop,
and one that counts with closures.
-/

namespace ChunkAsm.Samples

/-- Prints a greeting. -/
def hello : String := Source.ofLines
  ["; print(\"hello, world\")",
   ".upvalues 1",
   "",
   ".func main 2 0 1",
   ".begin_upvalue",
   "1 0                             ; _ENV",
   ".end_upvalue",
   "",
   ".begin_const",
   "\"print\"",
   "\"hello, world\"",
   ".end_const",
   "",
   ".begin_code",
   "gettabup %0 @0 const \"print\"    ;L1;",
   "loadk %1 const \"hello, world\"   ;L1;",
   "call %0 2 1                     ;L1;",
   "return %0 1                     ;L1;",
   ".end_code"]

/-- Sums the numbers from one to ten. -/
def sum : String := Source.ofLines
  ["; local sum = 0",
   "; for i = 1, 10 do sum = sum + i end",
   "; print(sum)",
   ".upvalues 1",
   "",
   ".func main 5 0 1",
   ".begin_upvalue",
   "1 0",
   ".end_upvalue",
   "",
   ".begin_code",
   "loadk %0 const 0                ;L1;",
   "loadk %1 const 1                ;L2;",
   "loadk %2 const 10               ;L2;",
   "loadk %3 const 1                ;L2;",
   "forprep %1 $check               ;L2;",
   "body:",
   "add %0 %0 %4                    ;L2;",
   "check:",
   "forloop %1 $body                ;L2;",
   "gettabup %1 @0 const \"print\"    ;L3;",
   "move %2 %0                      ;L3;",
   "call %1 2 1                     ;L3;",
   "return %0 1                     ;L3;",
   ".end_code"]

/-- Counts with a closure that keeps its own variable. -/
def closures : String := Source.ofLines
  ["; local function make_counter()",
   ";   local n = 0",
   ";   return function() n = n + 1; return n end",
   "; end",
   "; local c = make_counter()",
   "; c()",
   "; print(c())",
   ".upvalues 1",
   "",
   ".func main 4 0 1",
   ".begin_upvalue",
   "1 0",
   ".end_upvalue",
   "",
   ".begin_code",
   "closure %0 make_counter         ;L4;",
   "move %1 %0                      ;L5;",
   "call %1 1 2                     ;L5;",
   "move %2 %1                      ;L6;",
   "call %2 1 1                     ;L6;",
   "gettabup %2 @0 const \"print\"    ;L7;",
   "move %3 %1                      ;L7;",
   "; no line marker on the next instruction",
   "call %3 1 0",
   "call %2 0 1                     ;L7;",
   "return %0 1                     ;L7;",
   ".end_code",
   "",
   ".func make_counter 2 0 0",
   ".begin_code",
   "loadk %0 const 0                ;L2;",
   "closure %1 increment            ;L3;",
   "return %1 2                     ;L3;",
   "return %0 1                     ;L4;",
   ".end_code",
   "",
   ".func increment 2 0 0",
   ".begin_upvalue",
   "1 0                             ; n",
   ".end_upvalue",
   "",
   ".begin_code",
   "getupval %0 @0                  ;L3;",
   "add %0 %0 const 1               ;L3;",
   "setupval @0 %0                  ;L3;",
   "getupval %0 @0                  ;L3;",
   "return %0 2                     ;L3;",
   "return %0 1                     ;L3;",
   ".end_code"]

/-- The samples by name. -/
def all : List (String × String) := [("hello", hello), ("sum", sum), ("closures", closures)]

/-- The sample with a given name. -/
def find? (name : String) : Option String := all.lookup name

end ChunkAsm.Samples
