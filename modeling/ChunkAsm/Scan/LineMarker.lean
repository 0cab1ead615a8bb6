import ChunkAsm.Scan

/-!
# Line markers

A comment that starts with `;L`, decimal digits and another semicolon says to which source line the
instruction before it belongs. Any other comment is only a comment.
-/

namespace ChunkAsm.Scan

/-- The greatest line number that fits in a chunk. -/
def maxLine : Nat := 2147483647

/-- The source line that a comment marks, if it is a marker. -/
def lineMarker (comment : List Char) : Except LexError (Option Nat) :=
  match comment with
  | ';' :: 'L' :: body =>
    let digits := body.takeWhile Char.isDigit
    match digits, body.dropWhile Char.isDigit with
    | _ :: _, ';' :: _ =>
      let n := decimalValue digits
      if maxLine < n then .error (.integerOverflow (String.ofList digits)) else .ok (some n)
    | _, _ => .ok none
  | _ => .ok none

end ChunkAsm.Scan
