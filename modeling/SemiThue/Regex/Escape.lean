import SemiThue.Regex
import SemiThue.Regex.Error

/-!
# SemiThue.Regex.Escape — what follows a backslash

An expression is read by moving a cursor over it.  The first fault in its form ends the reading.
What is well formed and cannot be had is an objection: it is kept in the cursor, since a fault of
form further on comes before it.
-/

namespace SemiThue
namespace Regex

/-! ### Cursors -/

/-- The rest of an expression, with its offset and the objections to what has been read. -/
structure Cursor where
  offset : Nat := 0
  rest : Word
  /-- The first objection. -/
  objection : Option Error := none
  /-- Whether the edges of words have been asked for, which is objected to last. -/
  wordEdges : Bool := false

namespace Cursor

def skip (c : Cursor) (n : Nat) : Cursor := { c with offset := c.offset + n, rest := c.rest.drop n }

/-- Objects to what has been read since an offset, if a condition holds. -/
def object (c : Cursor) (start : Nat) (fault : Fault) (condition : Bool) : Cursor :=
  if condition then { c with objection := c.objection <|> some (.inPart fault start c.offset) }
  else c

/-- What comes of the value that has been read in the end. -/
def settle {α : Type} (c : Cursor) (a : α) : Except Error α :=
  match c.objection with
  | some e => .error e
  | none => if c.wordEdges then .error .wordEdges else .ok a

end Cursor

structure Flags where
  ignoreCase : Bool := false
  multiLine : Bool := false
  dotAll : Bool := false
  /-- Whether white space and comments are skipped. -/
  extended : Bool := false
  /-- Whether the expression is about characters, and not about bytes. -/
  unicode : Bool := true

/-! ### Code points -/

def hexValue? (c : Char) : Option Nat :=
  if c.isDigit then some (c.toNat - '0'.toNat)
  else if 'a' ≤ c ∧ c ≤ 'f' then some (c.toNat - 'a'.toNat + 10)
  else if 'A' ≤ c ∧ c ≤ 'F' then some (c.toNat - 'A'.toNat + 10)
  else none

/-- The character with the given code point, which is written in a part of the expression. -/
def codePoint (start stop n : Nat) : Except Error Char :=
  if n.isValidChar then .ok (Char.ofNat n) else .error (.inPart .hexInvalid start stop)

def hexDigits : Nat → Nat → Cursor → Except Error (Nat × Cursor)
  | 0, value, c => .ok (value, c)
  | n + 1, value, c =>
    match c.rest with
    | [] => .error (.inPart .escapeUnfinished c.offset c.offset)
    | d :: _ =>
      match hexValue? d with
      | some v => hexDigits n (16 * value + v) (c.skip 1)
      | none => .error (.inPart .hexDigitInvalid c.offset (c.offset + 1))

/-- Reads a code point: so many hexadecimal digits, or any number of them in braces. -/
def hexEscape (width : Nat) (c : Cursor) : Except Error (Char × Cursor) :=
  match c.rest with
  | '\x7b' :: rest =>
    let inner := rest.takeWhile (· ≠ '\x7d')
    let start := c.offset + 1
    let stop := start + inner.length
    match inner.findIdx? fun d => (hexValue? d).isNone with
    | some i => .error (.inPart .hexDigitInvalid (start + i) (start + i + 1))
    | none =>
      if inner.length = rest.length then .error (.inPart .escapeUnfinished c.offset stop)
      else if inner.isEmpty then .error (.inPart .hexEmpty c.offset (stop + 1))
      else do
        let char ← codePoint start stop (inner.foldl (fun n d => 16 * n + (hexValue? d).getD 0) 0)
        return (char, c.skip (inner.length + 2))
  | _ => do
    let (value, after) ← hexDigits width 0 c
    return (← codePoint c.offset after.offset value, after)

/-! ### Sets with a letter -/

def digits : CharSet := .range '0' '9' false

def spaces : CharSet := .ofRanges false [('\t', '\r'), (' ', ' ')]

/-- The ASCII letters and digits, and the underscore. -/
def wordChars : CharSet := .ofRanges false [('0', '9'), ('A', 'Z'), ('_', '_'), ('a', 'z')]

/-- Reads a property of characters, whose escape begins at the given offset.  No property
is known. -/
def property (flags : Flags) (start : Nat) (c : Cursor) : Except Error (CharSet × Cursor) :=
  let unknown (width : Nat) : Except Error (CharSet × Cursor) :=
    let fault := if flags.unicode then .propertyUnknown else .notByte
    .ok (.empty, (c.skip width).object start fault true)
  let last := c.offset + c.rest.length
  match c.rest with
  | [] => .error (.inPart .escapeUnfinished last last)
  | '\x7b' :: rest =>
    let name := rest.takeWhile (· ≠ '\x7d')
    if name.length = rest.length then .error (.inPart .escapeUnfinished last last)
    else unknown (name.length + 2)
  | '\\' :: _ => .error (.inPart .propertyMalformed c.offset (c.offset + 1))
  | _ => unknown 1

/-! ### Escapes -/

inductive Escaped where
  | char (c : Char)
  | set (s : CharSet)
  | anchor (a : Anchor)

/-- Characters that stand for themselves after a backslash. -/
def isEscapable (c : Char) : Bool := c.toNat < 128 && !c.isAlphanum && c ≠ '<' && c ≠ '>'

def control? : Char → Option Char
  | 'a' => some '\x07'
  | 'f' => some '\x0c'
  | 't' => some '\t'
  | 'n' => some '\n'
  | 'r' => some '\r'
  | 'v' => some '\x0b'
  | _ => none

/-- The number of digits of the code point after a letter. -/
def hexWidth? : Char → Option Nat
  | 'x' => some 2
  | 'u' => some 4
  | 'U' => some 8
  | _ => none

/-- The set that a letter stands for, and whether it is the complement. -/
def letterSet? : Char → Option (CharSet × Bool)
  | 'd' => some (digits, false)
  | 'D' => some (digits, true)
  | 's' => some (spaces, false)
  | 'S' => some (spaces, true)
  | 'w' => some (wordChars, false)
  | 'W' => some (wordChars, true)
  | _ => none

def letterAnchor? : Char → Option Anchor
  | 'A' => some .textStart
  | 'z' => some .textEnd
  | 'b' => some .wordEdge
  | 'B' => some .noWordEdge
  | '<' => some .wordStart
  | '>' => some .wordEnd
  | _ => none

/-- Reads the escape that begins with the backslash at the cursor. -/
def escape (flags : Flags) (c : Cursor) : Except Error (Escaped × Cursor) :=
  match c.rest.drop 1 with
  | [] => .error (.inPart .escapeUnfinished c.offset (c.offset + 1))
  | e :: _ =>
    let after := c.skip 2
    if e.isDigit then .error (.inPart .backreference c.offset after.offset)
    else if e = 'p' || e = 'P' then
      (property flags c.offset after).map fun (s, rest) => (.set s, rest)
    else
      match hexWidth? e, letterSet? e, letterAnchor? e, control? e with
      | some width, _, _, _ => (hexEscape width after).map fun (d, rest) => (.char d, rest)
      | _, some (set, negated), _, _ =>
        let after := after.object c.offset .classUnknown flags.unicode
        let after := after.object c.offset .notText negated
        .ok (.set (if negated then .compl set else set), after)
      | _, _, some a, _ =>
        let wordEdges := after.wordEdges || flags.unicode && a.ofWords
        .ok (.anchor a, { after with wordEdges })
      | _, _, _, some d => .ok (.char d, after)
      | _, _, _, _ =>
        if isEscapable e then .ok (.char e, after)
        else .error (.inPart .escapeUnknown c.offset after.offset)

end Regex
end SemiThue
