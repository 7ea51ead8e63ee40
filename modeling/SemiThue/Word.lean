/-!
# SemiThue.Word — words, their UTF-8 encoding and their lines

Program texts, states, patterns and messages are all words over the Unicode characters.  A place in
a word is named by the number of bytes before it, so every character counts with the length of its
encoding.

* `Word.byteLength` is additive over concatenation and is the number of `Word.bytes`.
* `Word.ofBytes?` reads a word back from bytes, and refuses bytes that encode no word.
* `Word.lines` divides a text at its line feeds.  A carriage return directly before a line feed
  belongs to the line break, and any other carriage return is text.
* `Line.significant` lists the lines that are not blank, trimmed of spaces and with their numbers.
-/

namespace SemiThue

/-- A word over the Unicode characters. -/
abbrev Word := List Char

namespace Word

/-! ### Lengths -/

/-- The number of bytes in the UTF-8 encoding of a word. -/
def byteLength : Word → Nat
  | [] => 0
  | c :: w => c.utf8Size + byteLength w

@[simp]
theorem byteLength_nil : byteLength [] = 0 := rfl

@[simp]
theorem byteLength_cons (c : Char) (w : Word) :
    byteLength (c :: w) = c.utf8Size + byteLength w := rfl

@[simp]
theorem byteLength_append (u v : Word) : byteLength (u ++ v) = byteLength u + byteLength v := by
  induction u with
  | nil => simp
  | cons c u ih => simp [ih, Nat.add_assoc]

/-- Only the empty word takes no bytes. -/
theorem byteLength_eq_zero_iff {w : Word} : byteLength w = 0 ↔ w = [] := by
  cases w with
  | nil => simp
  | cons c w =>
    have := c.utf8Size_pos
    simp only [byteLength_cons, reduceCtorEq, iff_false]
    omega

/-! ### Bytes -/

/-- The UTF-8 encoding of a word. -/
def bytes (w : Word) : List UInt8 := w.flatMap String.utf8EncodeChar

@[simp]
theorem length_bytes (w : Word) : (bytes w).length = byteLength w := by
  induction w with
  | nil => rfl
  | cons c w ih => simpa [bytes] using ih

/-- The word that the given bytes encode, if they are valid UTF-8. -/
def ofBytes? (bs : List UInt8) : Option Word :=
  (String.fromUTF8? ⟨bs.toArray⟩).map String.toList

/-! ### Numerals -/

def decimal (n : Nat) : Word := Nat.toDigits 10 n

/-! ### White space -/

/-- The ranges of code points with the property `White_Space`. -/
def blankRanges : List (Nat × Nat) :=
  [(0x9, 0xD), (0x20, 0x20), (0x85, 0x85), (0xA0, 0xA0), (0x1680, 0x1680), (0x2000, 0x200A),
    (0x2028, 0x2029), (0x202F, 0x202F), (0x205F, 0x205F), (0x3000, 0x3000)]

def isBlank (c : Char) : Bool :=
  blankRanges.any fun (first, last) => first ≤ c.toNat && c.toNat ≤ last

/-- A word without the white space at both ends. -/
def trimBlank (w : Word) : Word := ((w.dropWhile isBlank).reverse.dropWhile isBlank).reverse

/-! ### Lines -/

/-- The lines of a text, without their line breaks.  A last line needs no line break. -/
def lines : Word → List Word
  | [] => []
  | '\n' :: w => [] :: lines w
  | '\r' :: '\n' :: w => [] :: lines w
  | c :: w =>
    match lines w with
    | [] => [[c]]
    | l :: ls => (c :: l) :: ls

/-- A word without the spaces at both ends.  No other character is trimmed. -/
def trimSpaces (w : Word) : Word :=
  ((w.dropWhile (· == ' ')).reverse.dropWhile (· == ' ')).reverse

end Word

/-- A line of a text together with its number. -/
structure Line where
  number : Nat
  text : Word
  deriving DecidableEq

namespace Line

/-- The lines that are not blank, trimmed of spaces.  All lines are numbered, from `n` on, also the
blank ones. -/
def numbered (n : Nat) (ls : List Word) : List Line :=
  (ls.zipIdx n).filterMap fun (l, n) =>
    let t := Word.trimSpaces l
    if t.isEmpty then none else some ⟨n, t⟩

/-- The lines of a text that are not blank, numbered by their place among all lines. -/
def significant (text : Word) : List Line := numbered 1 (Word.lines text)

end Line

end SemiThue
