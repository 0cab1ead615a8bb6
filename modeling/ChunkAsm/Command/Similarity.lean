/-!
# Similar words

A mistyped command is told from an arbitrary word by its similarity to the commands there are. The
letters of the two words are **aligned**: each letter of the one is matched with the first free equal
letter of the other within reach, which is a little less than half the longer length. The similarity
is the mean of three shares, those of the matched letters in either word and that of the matched
letters that keep their order. A tenth of what is missing to one is added for every letter of the
common beginning.

All shares are fractions of natural numbers, so the comparison with a bound is exact.
-/

namespace ChunkAsm.Similarity

/-- Two words that are being aligned, the first one letter by letter. -/
structure Alignment where
  /-- the letters of the second word that are not matched yet, with their places -/
  free : List (Char × Nat)
  /-- the number of matched letters -/
  matched : Nat := 0
  /-- the number of letters that are matched with a place before that of the match before them -/
  crossed : Nat := 0
  /-- the place of the latest match -/
  latest : Nat := 0
  deriving DecidableEq, Repr

/-- Match a letter at place `i` with the first free equal letter within reach, if there is one. -/
def Alignment.step (reach : Nat) (al : Alignment) (letter : Char × Nat) : Alignment :=
  let (c, i) := letter
  match al.free.find? fun (d, j) => d == c && i - reach ≤ j && j ≤ i + reach with
  | none => al
  | some (_, j) =>
    { free := al.free.filter fun other => other.2 != j
      matched := al.matched + 1
      crossed := if j < al.latest then al.crossed + 1 else al.crossed
      latest := j }

/-- The alignment of two words. -/
def align (a b : List Char) : Alignment :=
  a.zipIdx.foldl (Alignment.step (max a.length b.length / 2 - 1)) { free := b.zipIdx }

/-- The length of the common beginning of two words. -/
def commonStart (a b : List Char) : Nat :=
  ((a.zip b).takeWhile fun (c, d) => c == d).length

/-- Whether the similarity of two words is more than four fifths. The mean of the three shares is
`same / all`. -/
def isClose (a b : String) : Bool :=
  let a := a.toList
  let b := b.toList
  let al := align a b
  let m := al.matched
  let all := 3 * a.length * b.length * m
  let same := m * m * b.length + m * m * a.length + (m - al.crossed) * a.length * b.length
  8 * all < 10 * same + commonStart a b * (all - same)

end ChunkAsm.Similarity
