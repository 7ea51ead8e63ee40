import SemiThue.Word

/-!
# SemiThue.Regex — regular expressions

A regular expression is searched for anywhere in a text.  The search follows all ways of matching at
once: it keeps the set of places that can be reached, as one truth value for each place of the text,
and only asks whether one is reached at all.
-/

namespace SemiThue

/-! ### Sets of characters -/

inductive CharSet where
  | empty
  /-- The characters from one to another, perhaps with those that differ from one of them in case
  only. -/
  | range (first last : Char) (ignoreCase : Bool)
  | union (a b : CharSet)
  | inter (a b : CharSet)
  | compl (a : CharSet)

namespace CharSet

/-- The letter in the other case.  Case is a matter of ASCII letters here. -/
def otherCase (c : Char) : Char := if c.isUpper then c.toLower else c.toUpper

def contains (c : Char) : CharSet → Bool
  | empty => false
  | range first last ignoreCase =>
    (first ≤ c && c ≤ last) || (ignoreCase && first ≤ otherCase c && otherCase c ≤ last)
  | union a b => contains c a || contains c b
  | inter a b => contains c a && contains c b
  | compl a => !contains c a

/-- The characters of the first set that are not in the second. -/
def diff (a b : CharSet) : CharSet := inter a (compl b)

/-- The characters that are in one of two sets only. -/
def symmDiff (a b : CharSet) : CharSet := union (diff a b) (diff b a)

def ofRanges (ignoreCase : Bool) (ranges : List (Char × Char)) : CharSet :=
  ranges.foldr (fun (first, last) s => union (range first last ignoreCase) s) empty

end CharSet

/-! ### Expressions -/

inductive Anchor where
  | textStart
  | textEnd
  | lineStart
  | lineEnd
  | wordEdge
  | noWordEdge
  | wordStart
  | wordEnd
  deriving DecidableEq

namespace Anchor

/-- Whether a character belongs to words: ASCII letters, digits and the underscore. -/
def isWordChar (c : Char) : Bool := c.isAlphanum || c = '_'

/-- Whether a condition holds between two characters, one of which is missing at an end of
the text. -/
def holds (before after : Option Char) : Anchor → Bool
  | textStart => before.isNone
  | textEnd => after.isNone
  | lineStart => before.all (· = '\n')
  | lineEnd => after.all (· = '\n')
  | wordEdge => before.any isWordChar != after.any isWordChar
  | noWordEdge => before.any isWordChar == after.any isWordChar
  | wordStart => !before.any isWordChar && after.any isWordChar
  | wordEnd => before.any isWordChar && !after.any isWordChar

def ofWords : Anchor → Bool
  | wordEdge | noWordEdge | wordStart | wordEnd => true
  | textStart | textEnd | lineStart | lineEnd => false

end Anchor

inductive Regex where
  /-- Matches nothing at all, successfully. -/
  | empty
  | one (set : CharSet)
  | anchor (a : Anchor)
  | seq (a b : Regex)
  | alt (a b : Regex)
  /-- Matches an expression at least and at most so many times. -/
  | repeated (a : Regex) (least : Nat) (most : Option Nat)

namespace Regex

/-- Adds what a step reaches, again and again, until nothing is added or the fuel is used up. -/
def saturate (step : List Bool → List Bool) : Nat → List Bool → List Bool
  | 0, places => places
  | fuel + 1, places =>
    let more := List.zipWith or places (step places)
    if more = places then places else saturate step fuel more

/-- The places of a text that are reached by a match from one of the given places.  A match never
goes back, so after as many repetitions as there are places, one more changes nothing. -/
def reach (text : Word) : Regex → List Bool → List Bool
  | empty, places => places
  | one set, places => false :: List.zipWith (fun here c => here && set.contains c) places text
  | anchor a, places =>
    let before := none :: text.map some
    let after := text.map some ++ [none]
    List.zipWith (fun here ok => here && ok) places
      (List.zipWith (fun b e => a.holds b e) before after)
  | seq a b, places => reach text b (reach text a places)
  | alt a b, places => List.zipWith or (reach text a places) (reach text b places)
  | repeated a least most, places =>
    saturate (reach text a) (most.elim text.length (· - least))
      (Nat.repeat (reach text a) (min least (text.length + 1)) places)

/-- Whether an expression matches somewhere in a text. -/
def occursIn (r : Regex) (text : Word) : Bool :=
  (r.reach text (List.replicate (text.length + 1) true)).any id

end Regex

end SemiThue
