/-!
# Keywords

Mnemonics, directives and the words of literals are written in any letter case. A keyword is an
ASCII word in lower case; a written word matches it when the two agree after lower-casing every
character.

Outside ASCII only the Kelvin sign (U+212A) has an ASCII letter as its whole lower case. Every
other character either stays outside ASCII or lowers to a sequence that holds a character outside
ASCII, so it occurs in no keyword and `foldChar` may leave it as it is.
-/

namespace ChunkAsm.Keyword

/-- The lower case of a character, as far as a comparison with an ASCII keyword can tell. -/
def foldChar (c : Char) : Char := if c = '\u212a' then 'k' else c.toLower

/-- A word with every character lower-cased. -/
def fold (word : String) : String := String.ofList (word.toList.map foldChar)

/-- Whether a written word is the given keyword in some letter case. -/
def Matches (word keyword : String) : Prop := fold word = keyword

instance (word keyword : String) : Decidable (Matches word keyword) :=
  inferInstanceAs (Decidable (_ = _))

/-- The first of `xs` whose keyword is the given word in some letter case. -/
def find? {α : Type} (keyword : α → String) (xs : List α) (word : String) : Option α :=
  let folded := fold word
  xs.find? fun x => keyword x == folded

end ChunkAsm.Keyword
